import Promela.Proofs.Expansion

/-! Two runs over items that differ in the uses of a macro: whatever the first one settles, the second one
settles too, up to trees that nothing tells apart. -/
namespace Promela

/-- The same is settled, apart from the log and the constants that are used on the way, up to trees that
nothing tells apart. -/
structure Progress.Matches (p p' : Progress) : Prop where
  scope : p.toScope.Matches p'.toScope
  initials : List.Forall₂ (fun i i' : InitialValue => i.var = i'.var ∧ i.value.Interchangeable i'.value)
    p.initials p'.initials

theorem Progress.Matches.refl (p : Progress) : p.Matches p :=
  ⟨.refl p.toScope, List.forall₂_same.mpr fun i _ => ⟨rfl, .refl i.value⟩⟩

/-- The same table in both, whatever the logs say. -/
theorem Progress.Matches.withDeclared {p p' : Progress} (h : p.Matches p') (d : Declarations) (log log' : List Event) :
    Matches { p with declared := d, log := log } { p' with declared := d, log := log' } :=
  ⟨⟨h.scope.mtypes, rfl, h.scope.definitions⟩, h.initials⟩

namespace Resolving

open Declarations

variable {α β γ : Type} {p p' : Progress}

/-- Where the first computation succeeds the second one does, with a related value, and settles the same. -/
def Carries (R : α → β → Prop) (p p' : Progress) (x : Resolving α) (y : Resolving β) : Prop :=
  ∀ a q, x.run p = .ok a q → ∃ b q', y.run p' = .ok b q' ∧ R a b ∧ q.Matches q'

namespace Carries

variable {R : α → α → Prop}

theorem pure (h : p.Matches p') (a : α) : Carries Eq p p' (pure a) (pure a) := by
  intro b q hx
  cases hx
  exact ⟨a, p', rfl, rfl, h⟩

theorem throw (r : Rejection) (y : Resolving α) : Carries R p p' (throw r) y := by
  intro a q hx
  cases hx

theorem checked {c c' : Checked α} (h : p.Matches p') (hc : Promela.Carries R c c') :
    Carries R p p' (checked c) (checked c') := by
  intro a q hx
  obtain ⟨ha, rfl⟩ := run_checked_ok hx
  obtain ⟨b, hb, hab⟩ := hc a ha
  refine ⟨b, p', ?_, hab, h⟩
  rw [hb]
  rfl

theorem checked_eq {c c' : Checked α} (h : p.Matches p') (hc : c = c') :
    Carries Eq p p' (Resolving.checked c) (Resolving.checked c') :=
  .checked h fun a ha => ⟨a, hc ▸ ha, rfl⟩

theorem set {r r' : Progress} (h : r.Matches r') : Carries Eq p p' (set r) (set r') := by
  intro a q hx
  cases hx
  exact ⟨_, r', rfl, rfl, h⟩

theorem modify {f f' : Progress → Progress} (h : (f p).Matches (f' p')) :
    Carries Eq p p' (modify f) (modify f') := by
  intro a q hx
  cases hx
  exact ⟨_, f' p', rfl, rfl, h⟩

theorem bind {S : γ → γ → Prop} {x y : Resolving α} {f g : α → Resolving γ} (h : Carries R p p' x y)
    (hf : ∀ a b q q', R a b → q.Matches q' → Carries S q q' (f a) (g b)) : Carries S p p' (x >>= f) (y >>= g) := by
  intro c r hx
  obtain ⟨a, q, hq, hf'⟩ := run_bind_ok hx
  obtain ⟨b, q', hq', hab, hqq⟩ := h a q hq
  obtain ⟨d, r', hr', hcd, hrr⟩ := hf a b q q' hab hqq c r hf'
  exact ⟨d, r', (run_bind_of_ok hq').trans hr', hcd, hrr⟩

theorem bind_eq {S : γ → γ → Prop} {x y : Resolving α} {f g : α → Resolving γ} (h : Carries Eq p p' x y)
    (hf : ∀ a q q', q.Matches q' → Carries S q q' (f a) (g a)) : Carries S p p' (x >>= f) (y >>= g) := by
  refine h.bind fun a b q q' hab hq => ?_
  cases hab
  exact hf a q q' hq

theorem get_bind {S : γ → γ → Prop} {f g : Progress → Resolving γ} (h : Carries S p p' (f p) (g p')) :
    Carries S p p' (get >>= f) (get >>= g) := h

theorem mapM {f g : α → Resolving β} (hf : ∀ a q q', q.Matches q' → Carries Eq q q' (f a) (g a))
    (h : p.Matches p') (as : List α) : Carries Eq p p' (as.mapM f) (as.mapM g) := by
  induction as generalizing p p' with
  | nil =>
    rw [List.mapM_nil, List.mapM_nil]
    exact pure h []
  | cons a as ih =>
    rw [List.mapM_cons, List.mapM_cons]
    exact (hf a p p' h).bind_eq fun b q q' hq => (ih hq).bind_eq fun bs r r' hr => pure hr (b :: bs)

/-- Two runs over related steps, where what each step needs is kept up by all of them. -/
theorem forM {f : α → Resolving Unit} (Needs : Progress → Prop) {S : α → α → Prop}
    (hneeds : ∀ a q r, (f a).run q = .ok () r → Needs q → Needs r)
    (hf : ∀ a b q q', S a b → Needs q → q.Matches q' → Carries Eq q q' (f a) (f b)) {as bs : List α}
    (hsteps : List.Forall₂ S as bs) (hp : Needs p) (h : p.Matches p') :
    Carries Eq p p' (as.forM f) (bs.forM f) := by
  induction hsteps generalizing p p' with
  | nil => exact pure h ()
  | @cons a b as bs hab _ ih =>
    intro u r hx
    obtain ⟨_, q, hq, hrest⟩ := run_bind_ok hx
    obtain ⟨_, q', hq', -, hqq⟩ := hf a b p p' hab hp h () q hq
    obtain ⟨_, r', hr', hu, hrr⟩ := ih (hneeds a p q hq hp) hqq u r hrest
    exact ⟨_, r', (run_bind_of_ok hq').trans hr', hu, hrr⟩

end Carries

section

variable {s s' : Scope}

theorem carries_declare (h : p.Matches p') (op : Declarations → Checked (Variable × Declarations)) :
    Carries Eq p p' (declare op) (declare op) := by
  refine Carries.get_bind ?_
  rw [h.scope.declared]
  refine (Carries.checked_eq h rfl).bind_eq fun ⟨v, d⟩ _ _ _ => ?_
  exact (Carries.set (h.withDeclared d _ _)).bind_eq fun _ _ _ hr => .pure hr v

/-- The two runs may use different constants on the way. -/
theorem carries_resolve (hs : s.Matches s') {Use : String → Surface.Expr → Prop} (huse : s.Allows Use s')
    (h : p.Matches p') {raw raw' : Surface.Expr} (hraw : raw.Rewrites Use raw') :
    Carries Expr.Interchangeable p p' (resolve s raw) (resolve s' raw') := by
  refine (Carries.checked h (Scope.carries_expr hs huse hraw)).bind fun e e' q q' hee hq => ?_
  refine Carries.bind_eq (.modify ⟨hq.scope, hq.initials⟩) fun _ r r' hr => ?_
  intro a r hx
  cases hx
  exact ⟨e', r', rfl, hee, hr⟩

theorem carries_recordField (hs : s.Matches s') (record : String) (f : Surface.FieldDecl) (h : p.Matches p') :
    Carries Eq p p' (recordField s record f) (recordField s' record f) := by
  unfold recordField
  split
  · exact .throw _ _
  · exact (Carries.checked_eq h (hs.optionalSize _)).bind_eq fun _ _ _ hq => .pure hq _

theorem carries_record (h : p.Matches p') (name : Located String) (fields : List Surface.FieldDecl) :
    Carries Eq p p' (record name fields) (record name fields) := by
  refine Carries.get_bind ?_
  refine (Carries.mapM (fun f _ _ hq => carries_recordField h.scope name.value f hq) h fields).bind_eq ?_
  intro decls q q' hq
  rw [h.scope.declared]
  split
  · exact .set (h.withDeclared _ _ _)
  · intro u r hx
    cases hx

theorem carries_messageField (t : Located Surface.TypeName) (q q' : Progress) (h : q.Matches q') :
    Carries Eq q q' (messageField t) (messageField t) := by
  unfold messageField
  split
  · exact .pure h _
  · exact .throw _ _

theorem carries_signature (hs : s.Matches s') (h : p.Matches p') (capacity : Surface.Size)
    (fields : List (Located Surface.TypeName)) :
    Carries Eq p p' (signature s capacity fields) (signature s' capacity fields) :=
  (Carries.checked_eq h (hs.size capacity)).bind_eq fun _ _ _ hq =>
    (Carries.mapM carries_messageField hq fields).bind_eq fun _ _ _ hr => .pure hr _

theorem carries_add (h : p.Matches p') (op : Declarations → Checked (Variable × Declarations)) :
    Carries Eq p p' (do let _ ← declare op; pure ()) (do let _ ← declare op; pure ()) :=
  (carries_declare h op).bind_eq fun _ _ _ hq => .pure hq ()

variable {Use : String → Surface.Expr → Prop} {d d' : Surface.Declarator} {length : Option Nat}

theorem carries_channel (hs : s.Matches s') (h : p.Matches p') (hd : d.Rewrites Use d') :
    Carries Eq p p' (channel s d length) (channel s' d' length) := by
  have hinit := hd.init
  unfold channel
  dsimp only
  rw [← hd.name]
  generalize d.init = i, d'.init = i' at hinit ⊢
  cases hinit with
  | none => exact carries_add h _
  | some hinit =>
    cases hinit with
    | value _ => exact .throw _ _
    | channel capacity fields span =>
      dsimp only
      rw [map_eq_pure_bind, bind_assoc, map_eq_pure_bind, bind_assoc]
      exact (carries_signature hs h capacity fields).bind_eq fun sig _ _ hq => carries_add hq _

theorem carries_scalar (hs : s.Matches s') (huse : s.Allows Use s') (h : p.Matches p') {t : ValueType}
    (hd : d.Rewrites Use d') : Carries Eq p p' (scalar s t d length) (scalar s' t d' length) := by
  have hinit := hd.init
  unfold scalar
  dsimp only
  rw [← hd.name]
  generalize d.init = i, d'.init = i' at hinit ⊢
  cases hinit with
  | none => exact carries_add h _
  | some hinit =>
    cases hinit with
    | channel capacity fields span => exact .throw _ _
    | value he =>
      refine (carries_resolve hs huse h he).bind fun e e' q q' hee hq => ?_
      refine (carries_declare hq _).bind_eq fun v r r' hr => ?_
      have haccepts : require (t.accepts e.type) (.initialization t d.name.value e.type) e.span = .ok () →
          require (t.accepts e'.type) (.initialization t d.name.value e'.type) e'.span = .ok () :=
        fun hok => if_pos (t.accepts_congr hee.numeric ▸ require_ok hok)
      refine (Carries.checked hr fun _ hok => ⟨(), haccepts hok, rfl⟩).bind_eq fun _ w w' hw => ?_
      exact .modify ⟨hw.scope, List.rel_append hw.initials (.cons ⟨rfl, hee⟩ .nil)⟩

theorem carries_recordVariable (h : p.Matches p') {record : String} (hd : d.Rewrites Use d') :
    Carries Eq p p' (recordVariable record d length) (recordVariable record d' length) := by
  have hinit := hd.init
  unfold recordVariable
  rw [← hd.name]
  generalize d.init = i, d'.init = i' at hinit ⊢
  cases hinit with
  | none => exact carries_add h _
  | some hinit =>
    cases hinit with
    | value _ | channel _ _ _ => exact .throw _ _

theorem carries_declarator (huse : p.toScope.Allows Use p'.toScope) (h : p.Matches p') (t : Surface.TypeName)
    (hd : d.Rewrites Use d') : Carries Eq p p' (declarator t d) (declarator t d') := by
  refine Carries.get_bind ?_
  dsimp only
  rw [h.scope.checkFresh, hd.name, hd.size, h.scope.optionalSize]
  refine (Carries.checked_eq h rfl).bind_eq fun _ q q' hq => ?_
  refine (Carries.checked_eq hq rfl).bind_eq fun length r r' hr => ?_
  split
  · exact carries_channel h.scope hr hd
  · exact carries_scalar h.scope huse hr hd
  · exact carries_recordVariable hr hd

theorem carries_define (huse : p.toScope.Allows Use p'.toScope) (h : p.Matches p') (name : Located String)
    {body body' : Surface.Expr} (hbody : body.Rewrites Use body') :
    Carries Eq p p' (define name body) (define name body') := by
  refine Carries.get_bind ?_
  rw [h.scope.checkFresh, h.scope.declared]
  refine (Carries.checked_eq h rfl).bind_eq fun _ q q' hq => ?_
  refine (Carries.checked_eq hq rfl).bind_eq fun _ r r' hr => ?_
  refine (carries_resolve h.scope huse hr hbody).bind fun e e' w w' hee hw => ?_
  exact .modify ⟨⟨hw.scope.mtypes, hw.scope.declared,
    List.rel_append hw.scope.definitions (.cons ⟨rfl, hee⟩ .nil)⟩, hw.initials⟩

/-- A macro that is known stays known, under the same body. -/
theorem unfolds_of_item {macroName : String} {body : Surface.Expr} {i : Surface.Item} {q : Progress}
    (h : (item i).run p = .ok () q) (hp : p.toScope.Unfolds macroName body) : q.toScope.Unfolds macroName body :=
  (Progress.follows_of_item h).1.keeps.unfolds hp

theorem unfolds_of_declarator {macroName : String} {body : Surface.Expr} {t : Surface.TypeName} {q : Progress}
    (h : (declarator t d).run p = .ok () q) (hp : p.toScope.Unfolds macroName body) :
    q.toScope.Unfolds macroName body :=
  (Progress.follows_of_declares (declarator_ok h)).1.keeps.unfolds hp

theorem carries_item {macroName : String} {body : Surface.Expr} {i i' : Surface.Item}
    (hi : i.Rewrites (Surface.Expands macroName body) i') (hp : p.toScope.Unfolds macroName body)
    (h : p.Matches p') : Carries Eq p p' (item i) (item i') := by
  cases hi with
  | mtypes _ | unread _ => exact .pure h ()
  | record name fields => exact carries_record h name fields
  | globals t hds =>
    exact Carries.forM (·.toScope.Unfolds macroName body) (fun d _ _ => unfolds_of_declarator)
      (fun d d' q q' hd hq hqq => carries_declarator (hqq.scope.allows hq) hqq t.value hd) hds hp h
  | define name hbody => exact carries_define (h.scope.allows hp) h name hbody

theorem carries_items {macroName : String} {body : Surface.Expr} {items items' : List Surface.Item}
    (hitems : List.Forall₂ (Surface.Item.Rewrites (Surface.Expands macroName body)) items items')
    (hp : p.toScope.Unfolds macroName body) (h : p.Matches p') :
    Carries Eq p p' (items.forM item) (items'.forM item) :=
  Carries.forM (·.toScope.Unfolds macroName body) (fun _ _ _ => unfolds_of_item)
    (fun _ _ _ _ hi hq hqq => carries_item hi hq hqq) hitems hp h

/-- Once it is defined, a macro is known, and its body is what it stands for. -/
theorem unfolds_of_define {name : Located String} {body : Surface.Expr} {q : Progress}
    (h : (define name body).run p = .ok () q) : q.toScope.Unfolds name.value body := by
  have hkeeps : p.toScope.Keeps q.toScope := (Progress.follows_of_item (i := .define name body) h).1.keeps
  obtain ⟨hfresh, e, he, rfl⟩ := define_ok h
  refine ⟨⟨name, e⟩, ?_, Scope.stays_expr hkeeps body e he⟩
  have hnone : p.definition? name.value = none := by
    cases hd : p.definition? name.value with
    | none => rfl
    | some d => exact absurd (.inl (by simp [hd])) hfresh
  have hnone : p.definitions.find? (·.name.value = name.value) = none := hnone
  simp [Scope.definition?, List.find?_append, hnone]

end

end Resolving

theorem flatMap_eq_of_forall₂ {α β γ : Type} {R : α → β → Prop} {as : List α} {bs : List β} {f : α → List γ}
    {g : β → List γ} (h : List.Forall₂ R as bs) (hfg : ∀ a b, R a b → f a = g b) :
    as.flatMap f = bs.flatMap g := by
  induction h with
  | nil => rfl
  | cons hab _ ih => rw [List.flatMap_cons, List.flatMap_cons, hfg _ _ hab, ih]

namespace Surface

variable {Use : String → Expr → Prop} {items items' : List Item}

theorem mtypeNames_of_rewrites (h : List.Forall₂ (Item.Rewrites Use) items items') :
    items.flatMap (·.mtypeNames) = items'.flatMap (·.mtypeNames) :=
  flatMap_eq_of_forall₂ h fun _ _ hi => by cases hi <;> rfl

theorem unread?_of_rewrites (h : List.Forall₂ (Item.Rewrites Use) items items') :
    items.findSome? (·.unread?) = items'.findSome? (·.unread?) := by
  induction h with
  | nil => rfl
  | @cons i i' is is' hi _ ih =>
    have hi : i.unread? = i'.unread? := by cases hi <;> rfl
    rw [List.findSome?_cons, List.findSome?_cons, hi, ih]

end Surface

/-- The same constant value or none, the same reads, and the same value in every store under every meaning
that agrees with folding. -/
structure Expr.Indistinguishable (e e' : Expr) : Prop where
  constant? : e.constant? = e'.constant?
  reads : e.reads = e'.reads
  value : ∀ {V : Type} (M : Meaning V), M.Folds → ∀ σ, e.value M σ = e'.value M σ

/-- The same names, variables, constants and notices, and expressions that nothing tells apart. -/
structure Model.Indistinguishable (m m' : Model) : Prop where
  mtypes : m'.mtypes = m.mtypes
  declared : m'.declared = m.declared
  notices : m'.notices = m.notices
  definitions : List.Forall₂ (fun d d' : Definition => d.name = d'.name ∧ d.body.Indistinguishable d'.body)
    m.definitions m'.definitions
  initials : List.Forall₂ (fun i i' : InitialValue => i.var = i'.var ∧ i.value.Indistinguishable i'.value)
    m.initials m'.initials

theorem Expr.Matches.indistinguishable {e e' : Expr} (h : e.Matches e') : e.Indistinguishable e' :=
  ⟨h.constant?, by rw [reads, reads, h.readList], h.value⟩

/-- The same constants are mentioned in what both runs have settled. -/
theorem Progress.Matches.mtypeCodes {p p' : Progress} (h : p.Matches p') :
    p.exprs.flatMap Expr.mtypeCodes = p'.exprs.flatMap Expr.mtypeCodes := by
  simp only [exprs, List.flatMap_append, List.flatMap_map]
  rw [flatMap_eq_of_forall₂ h.scope.definitions fun _ _ hd => hd.2.mtypeCodes,
    flatMap_eq_of_forall₂ h.initials fun _ _ hi => hi.2.mtypeCodes]

theorem Progress.Matches.model {p p' : Progress} (h : p.Matches p') (mtypes : Mtypes)
    (names : List (Located String)) (base : Nat) :
    (p.model mtypes names base).Indistinguishable (p'.model mtypes names base) where
  mtypes := rfl
  declared := h.scope.declared.symm
  notices := by simp only [Progress.model, unusedMtypes, h.mtypeCodes]
  definitions := h.scope.definitions.imp fun _ _ hd => ⟨hd.1, hd.2.toMatches.indistinguishable⟩
  initials := h.initials.imp fun _ _ hi => ⟨hi.1, hi.2.toMatches.indistinguishable⟩

open Surface

/-- A macro may be expanded by hand. Where items are accepted, and uses of a macro behind its definition are
replaced by its body, the items are accepted too, and the models cannot be told apart. -/
theorem Model.expansion_transparent {base : Nat} {path : String} {before after after' : List Item}
    {name : Located String} {body : Surface.Expr} {m : Model}
    (h : (Reading.ofItems base path (before ++ .define name body :: after)).outcome = .ok m)
    (hafter : List.Forall₂ (Item.Rewrites (Expands name.value body)) after after') :
    ∃ m', (Reading.ofItems base path (before ++ .define name body :: after')).outcome = .ok m' ∧
      m.Indistinguishable m' := by
  obtain ⟨-, hread, mtypes, q, hmtypes, hrun, rfl⟩ := Reading.ofItems_ok_iff.mp h
  rw [List.forM_eq_forM, List.forM_append] at hrun
  obtain ⟨_, p, hbefore, hrest⟩ := Resolving.run_bind_ok hrun
  obtain ⟨_, r, hdefine, hrest⟩ := Resolving.run_bind_ok hrest
  obtain ⟨_, q', hrest', -, hmatches⟩ :=
    Resolving.carries_items hafter (Resolving.unfolds_of_define hdefine) (.refl r) () q hrest
  have hnames : (before ++ .define name body :: after).flatMap (·.mtypeNames)
      = (before ++ .define name body :: after').flatMap (·.mtypeNames) := by
    simp only [List.flatMap_append, List.flatMap_cons, mtypeNames_of_rewrites hafter]
  have hread' : (before ++ .define name body :: after').findSome? (·.unread?) = none := by
    rw [List.findSome?_append, List.findSome?_cons, ← unread?_of_rewrites hafter, ← List.findSome?_cons,
      ← List.findSome?_append, hread]
  refine ⟨_, Reading.ofItems_ok_iff.mpr ⟨by simp, hread', mtypes, q', hnames ▸ hmtypes, ?_, rfl⟩, ?_⟩
  · rw [List.forM_eq_forM, List.forM_append]
    exact (Resolving.run_bind_of_ok hbefore).trans ((Resolving.run_bind_of_ok hdefine).trans hrest')
  · rw [hnames]
    exact hmatches.model mtypes _ base

/-- In `short y = -N + N` the first `N` is replaced by 5, which is read as a part of the literal `-5`. -/
theorem Model.expansion_transparent_of_negated :
    let s := Span.point "m" .first
    let use : Surface.Expr := .reference s (.leaf ⟨"N", s⟩ none)
    let define : Item := .define ⟨"N", s⟩ (.number s 5)
    let y (e : Surface.Expr) : Item :=
      .globals ⟨.scalar .short, s⟩ [⟨⟨"y", s⟩, none, some (.value (.binary s .add (.unary s .neg e) use))⟩]
    ∃ m m', (Reading.ofItems 1 "m" [define, y use]).outcome = .ok m ∧
      (Reading.ofItems 1 "m" [define, y (.number s 5)]).outcome = .ok m' ∧
      (m.definitions.length, m.initials.length) = (1, 1) ∧ m.Indistinguishable m' := by
  intro s use define y
  have huse : use.Rewrites (Expands "N" (.number s 5)) (.number s 5) := .use s ⟨rfl, .number s s 5⟩
  have hkept : use.Rewrites (Expands "N" (.number s 5)) use := .reference s s (.leaf rfl .none)
  have hafter : List.Forall₂ (Item.Rewrites (Expands "N" (.number s 5))) [y use] [y (.number s 5)] := by
    refine .cons (.globals _ (.cons ⟨rfl, rfl, .some (.value ?_)⟩ .nil)) .nil
    exact .binary s s .add (.unary s s .neg huse) hkept
  obtain ⟨m, hm, hsizes⟩ : ∃ m, (Reading.ofItems 1 "m" ([] ++ define :: [y use])).outcome = .ok m ∧
      (m.definitions.length, m.initials.length) = (1, 1) := ⟨_, rfl, rfl⟩
  obtain ⟨m', hm', hsame⟩ := Model.expansion_transparent hm hafter
  exact ⟨m, m', hm, hm', hsizes, hsame⟩

end Promela
