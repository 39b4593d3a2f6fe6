import Promela.Model.Reading
import Promela.Proofs.Resolution

/-! What one item of a source text settles, and what a run over items keeps up: variables and macros are
only added, and what they mention is there before them. -/
namespace Promela

namespace Resolving

open Declarations

variable {α β : Type} {p q : Progress}

theorem run_bind_ok {x : Resolving α} {f : α → Resolving β} {b : β}
    (h : (x >>= f).run p = .ok b q) : ∃ a r, x.run p = .ok a r ∧ (f a).run r = .ok b q := by
  simp only [EStateM.run, bind, EStateM.bind] at h
  split at h
  · rename_i a r hx
    exact ⟨a, r, hx, h⟩
  · cases h

theorem run_bind_of_ok {x : Resolving α} {f : α → Resolving β} {a : α} {r : Progress}
    (h : x.run p = .ok a r) : (x >>= f).run p = (f a).run r := by
  simp only [EStateM.run] at h
  simp only [EStateM.run, bind, EStateM.bind, h]

theorem run_get_bind_ok {f : Progress → Resolving β} {b : β}
    (h : (get >>= f : Resolving β).run p = .ok b q) : (f p).run p = .ok b q := h

theorem run_checked_ok {c : Checked α} {a : α} (h : (checked c).run p = .ok a q) :
    c = .ok a ∧ q = p := by
  cases c with
  | error f => cases h
  | ok b =>
    cases h
    exact ⟨rfl, rfl⟩

theorem run_checked_bind_ok {c : Checked α} {f : α → Resolving β} {b : β}
    (h : (checked c >>= f).run p = .ok b q) : ∃ a, c = .ok a ∧ (f a).run p = .ok b q := by
  obtain ⟨a, r, hr, hf⟩ := run_bind_ok h
  obtain ⟨hc, rfl⟩ := run_checked_ok hr
  exact ⟨a, hc, hf⟩

/-- A resolved expression is one of the scope, and nothing else is settled but that its constants are used. -/
theorem run_resolve_bind_ok {s : Scope} {raw : Surface.Expr} {f : Expr → Resolving β} {b : β}
    (h : (resolve s raw >>= f).run p = .ok b q) :
    ∃ e, s.expr raw = .ok e ∧ (f e).run { p with used := p.used ++ s.constants raw } = .ok b q := by
  obtain ⟨e, r, hr, hf⟩ := run_bind_ok h
  obtain ⟨e', he, hr⟩ := run_checked_bind_ok hr
  cases hr
  exact ⟨e, he, hf⟩

/-- What every step keeps up, a run keeps up. -/
theorem rel_of_forM {R : Progress → Progress → Prop} {f : α → Resolving Unit} {xs : List α}
    (hrefl : ∀ p, R p p) (htrans : ∀ {p q r}, R p q → R q r → R p r)
    (hf : ∀ x p q, (f x).run p = .ok () q → R p q) (h : (xs.forM f).run p = .ok () q) : R p q := by
  induction xs generalizing p with
  | nil =>
    cases h
    exact hrefl _
  | cons x xs ih =>
    obtain ⟨_, r, hr, hrest⟩ := run_bind_ok h
    exact htrans (hf x p r hr) (ih hrest)

/-- A property of the state that every step keeps holds after a run. -/
theorem inv_of_forM {I : Progress → Prop} {f : α → Resolving Unit} {xs : List α}
    (hf : ∀ x ∈ xs, ∀ p q, I p → (f x).run p = .ok () q → I q) (hp : I p) (h : (xs.forM f).run p = .ok () q) :
    I q := by
  induction xs generalizing p with
  | nil =>
    cases h
    exact hp
  | cons x xs ih =>
    obtain ⟨_, r, hr, hrest⟩ := run_bind_ok h
    obtain ⟨hx, hxs⟩ := List.forall_mem_cons.mp hf
    exact ih hxs (hx p r hp hr) hrest

/-- The step looks at what is known and adds nothing. -/
def Keeps (x : Resolving α) : Prop := ∀ p a q, x.run p = .ok a q → q = p

theorem Keeps.checked (c : Checked α) : Keeps (checked c) := fun _ _ _ h => (run_checked_ok h).2

theorem Keeps.throw (r : Rejection) : Keeps (throw r : Resolving α) := fun _ _ _ h => by cases h

theorem Keeps.pure (a : α) : Keeps (pure a : Resolving α) := fun _ _ _ h => by
  cases h
  rfl

theorem Keeps.bind {x : Resolving α} {f : α → Resolving β} (hx : Keeps x) (hf : ∀ a, Keeps (f a)) :
    Keeps (x >>= f) := fun p b q h => by
  obtain ⟨a, r, hr, h⟩ := run_bind_ok h
  rw [hf a r b q h, hx p a r hr]

theorem Keeps.run_bind_ok {x : Resolving α} (hx : Keeps x) {f : α → Resolving β} {b : β}
    (h : (x >>= f).run p = .ok b q) : ∃ a, (f a).run p = .ok b q := by
  obtain ⟨a, r, hr, hf⟩ := Resolving.run_bind_ok h
  rw [hx p a r hr] at hf
  exact ⟨a, hf⟩

theorem Keeps.mapM {f : α → Resolving β} (hf : ∀ a, Keeps (f a)) (as : List α) :
    Keeps (as.mapM f) := by
  induction as with
  | nil =>
    rw [List.mapM_nil]
    exact .pure []
  | cons a as ih =>
    rw [List.mapM_cons]
    exact .bind (hf a) fun _ => .bind ih fun _ => .pure _

theorem keeps_recordField (s : Scope) (record : String) (f : Surface.FieldDecl) :
    Keeps (recordField s record f) := by
  unfold recordField
  split
  · exact .throw _
  · exact .bind (.checked _) fun _ => .pure _

theorem keeps_messageField (t : Located Surface.TypeName) : Keeps (messageField t) := by
  unfold messageField
  split
  · exact .pure _
  · exact .throw _

theorem keeps_signature (s : Scope) (capacity : Surface.Size)
    (fields : List (Located Surface.TypeName)) : Keeps (signature s capacity fields) :=
  .bind (.checked _) fun _ => .bind (.mapM keeps_messageField fields) fun _ => .pure _

/-- What a declarator settles: one variable more, and possibly its initial value, which is an expression
of the scope before and uses its constants. -/
inductive Declares (p : Progress) (name : String) : Progress → Prop
  | plain {v : Variable} {log : List Event} : p.declared.Admits v → v.name = name →
      Declares p name { p with declared := p.declared.withGlobal v, log }
  | initialized {v : Variable} {raw : Surface.Expr} {e : Expr} {log : List Event} :
      p.declared.Admits v → v.name = name → p.expr raw = .ok e →
      Declares p name
        { p with declared := p.declared.withGlobal v, initials := p.initials ++ [⟨v, e⟩], log,
                 used := p.used ++ p.constants raw }

/-- What all calls for a global variable have in common. -/
def Adds (op : Declarations → Checked (Variable × Declarations)) (name : String) : Prop :=
  ∀ d v d', op d = .ok (v, d') → d.Admits v ∧ d' = d.withGlobal v ∧ v.name = name

theorem run_declare_bind_ok {op : Declarations → Checked (Variable × Declarations)} {name : String}
    {f : Variable → Resolving β} {b : β} (hop : Adds op name)
    (h : (declare op >>= f).run p = .ok b q) : ∃ v log, p.declared.Admits v ∧ v.name = name ∧
      (f v).run { p with declared := p.declared.withGlobal v, log } = .ok b q := by
  obtain ⟨v, r, hr, hf⟩ := run_bind_ok h
  obtain ⟨⟨v', d⟩, hd, hset⟩ := run_checked_bind_ok (run_get_bind_ok hr)
  obtain ⟨hadmits, rfl, hname⟩ := hop _ _ _ hd
  cases hset
  exact ⟨v, _, hadmits, hname, hf⟩

theorem declares_plain {op : Declarations → Checked (Variable × Declarations)} {name : String}
    (hop : Adds op name) (h : (do let _ ← declare op; pure () : Resolving Unit).run p = .ok () q) :
    Declares p name q := by
  obtain ⟨v, log, hadmits, hname, hf⟩ := run_declare_bind_ok hop h
  cases hf
  exact .plain hadmits hname

theorem channel_ok {s : Scope} {d : Surface.Declarator} {length : Option Nat}
    (h : (channel s d length).run p = .ok () q) : Declares p d.name.value q := by
  have hop : ∀ sig, Adds (·.declareChannel d.name.value sig length d.name.span) d.name.value :=
    fun _ _ _ _ => declareChannel_ok
  unfold channel at h
  dsimp only at h
  split at h
  · cases h
  · rename_i capacity fields _ _
    rw [map_eq_pure_bind, bind_assoc] at h
    obtain ⟨sig, hsig⟩ := (keeps_signature s capacity fields).run_bind_ok h
    exact declares_plain (hop _) hsig
  · exact declares_plain (hop none) h

/-- The initial value is an expression of the scope before the variable. -/
theorem scalar_ok {t : ValueType} {d : Surface.Declarator} {length : Option Nat}
    (h : (scalar p.toScope t d length).run p = .ok () q) : Declares p d.name.value q := by
  have hop : Adds (·.declareScalar d.name.value t length d.name.span) d.name.value :=
    fun _ _ _ => declareScalar_ok
  unfold scalar at h
  dsimp only at h
  split at h
  · cases h
  · exact declares_plain hop h
  · obtain ⟨e, he, hadd⟩ := run_resolve_bind_ok h
    obtain ⟨v, log, hadmits, hname, hcheck⟩ := run_declare_bind_ok hop hadd
    obtain ⟨_, -, hmodify⟩ := run_checked_bind_ok hcheck
    cases hmodify
    exact .initialized hadmits hname he

theorem recordVariable_ok {record : String} {d : Surface.Declarator} {length : Option Nat}
    (h : (recordVariable record d length).run p = .ok () q) : Declares p d.name.value q := by
  unfold recordVariable at h
  split at h
  · cases h
  · cases h
  · exact declares_plain (fun _ _ _ => declareRecordVariable_ok) h

theorem declarator_ok {t : Surface.TypeName} {d : Surface.Declarator}
    (h : (declarator t d).run p = .ok () q) : Declares p d.name.value q := by
  obtain ⟨_, -, h⟩ := run_checked_bind_ok (run_get_bind_ok h)
  obtain ⟨length, -, h⟩ := run_checked_bind_ok h
  split at h
  · exact channel_ok h
  · exact scalar_ok h
  · exact recordVariable_ok h

/-- A typedef adds no variable with a name of its own. -/
theorem record_ok {name : Located String} {fields : List Surface.FieldDecl}
    (h : (record name fields).run p = .ok () q) : ∃ d log, p.declared.Grows d ∧
      d.globals = p.declared.globals ∧ q = { p with declared := d, log } := by
  obtain ⟨decls, h⟩ := (Keeps.mapM (keeps_recordField p.toScope name.value) fields).run_bind_ok
    (run_get_bind_ok h)
  split at h
  · rename_i r d hd
    cases h
    have hgrows := grows_defineRecord p.declared name.value decls name.span
    have hglobals := globals_defineRecord p.declared name.value decls name.span
    rw [hd] at hgrows hglobals
    exact ⟨d, _, hgrows, hglobals, rfl⟩
  · cases h

/-- What passes the check for a new name, and is no variable, has a name that stands for nothing. -/
theorem not_knows_of_checkFresh {s : Scope} {name : Located String} {u : Unit}
    (h : s.checkFresh name = .ok u) (hvariable : s.declared.lookup? name.value = none) :
    ¬s.Knows name.value := by
  obtain ⟨_, hmtype, hunused⟩ := bind_ok h
  have hmtype := require_ok hmtype
  have hunused := require_ok hunused
  rintro (h | h | h)
  · rw [Option.isNone_iff_eq_none] at hunused
    simp [hunused] at h
  · simp [hmtype] at h
  · simp [hvariable] at h

/-- A declarator has a new name. -/
theorem not_knows_of_declarator {t : Surface.TypeName} {d : Surface.Declarator}
    (h : (declarator t d).run p = .ok () q) : ¬p.Knows d.name.value := by
  have hdeclares := declarator_ok h
  obtain ⟨_, hfresh, -⟩ := run_checked_bind_ok (run_get_bind_ok h)
  refine not_knows_of_checkFresh hfresh ?_
  cases hdeclares with
  | plain hadmits hname => exact hname ▸ hadmits.fresh
  | initialized hadmits hname _ => exact hname ▸ hadmits.fresh

/-- A macro has a new name, and its body is an expression of the scope before. -/
theorem define_ok {name : Located String} {body : Surface.Expr}
    (h : (define name body).run p = .ok () q) : ¬p.Knows name.value ∧
      ∃ e, p.expr body = .ok e ∧
        q = { p with definitions := p.definitions ++ [⟨name, e⟩], used := p.used ++ p.constants body } := by
  obtain ⟨_, hfresh, h⟩ := run_checked_bind_ok (run_get_bind_ok h)
  obtain ⟨_, hvariable, h⟩ := run_checked_bind_ok h
  obtain ⟨e, he, h⟩ := run_resolve_bind_ok h
  cases h
  exact ⟨not_knows_of_checkFresh hfresh (require_ok hvariable), e, he, rfl⟩

end Resolving

namespace Progress

/-- The state before the first item. -/
def start (mtypes : Mtypes) (base : Nat) : Progress :=
  ⟨⟨mtypes, ∅, []⟩, [], [.mtypesFrozen mtypes.size base], []⟩

/-- More is known than before. No new macro has a name that was known. -/
structure Extends (p q : Progress) : Prop where
  mtypes : q.mtypes = p.mtypes
  globals : p.declared.globals <+: q.declared.globals
  definitions : ∃ new, q.definitions = p.definitions ++ new ∧ ∀ d ∈ new, ¬p.Knows d.name.value

/-- What is known is about the table as it stands, and an initial value is about the table before its
variable. -/
structure Sound (p : Progress) : Prop where
  coherent : p.declared.Coherent
  definitions : p.toScope.Sound
  initials : ∀ i ∈ p.initials, i.var ∈ p.declared.globals ∧
    p.Covers i.value.places i.value.mtypeCodes ∧
    ∀ q ∈ i.value.places, ∀ v ∈ q.vars, v.id < i.var.id

theorem start_sound (mtypes : Mtypes) (base : Nat) : (start mtypes base).Sound where
  coherent := .empty
  definitions := by simp [start, Scope.Sound]
  initials := by simp [start]

variable {p q r : Progress}

namespace Extends

theorem refl (p : Progress) : p.Extends p :=
  ⟨rfl, List.prefix_refl _, [], by simp, by simp⟩

theorem knows (h : p.Extends q) {name : String} (hn : p.Knows name) : q.Knows name := by
  obtain ⟨new, hnew, -⟩ := h.definitions
  obtain ⟨more, hmore⟩ := h.globals
  rcases hn with hn | hn | hn
  · refine .inl ?_
    rw [Scope.definition?, hnew, List.find?_append, Option.isSome_or]
    exact Bool.or_eq_true_iff.mpr (.inl hn)
  · exact .inr (.inl (by rw [h.mtypes]; exact hn))
  · refine .inr (.inr ?_)
    rw [Declarations.lookup?, ← hmore, List.find?_append, Option.isSome_or]
    exact Bool.or_eq_true_iff.mpr (.inl hn)

theorem trans (h : p.Extends q) (h' : q.Extends r) : p.Extends r := by
  obtain ⟨new, hnew, hfresh⟩ := h.definitions
  obtain ⟨new', hnew', hfresh'⟩ := h'.definitions
  refine ⟨h'.mtypes.trans h.mtypes, h.globals.trans h'.globals, new ++ new', by simp [hnew, hnew'], ?_⟩
  intro d hd
  rcases List.mem_append.mp hd with hd | hd
  · exact hfresh d hd
  · exact fun hknown => hfresh' d hd (h.knows hknown)

theorem covers (h : p.Extends q) {ps : List Place} {codes : List Nat} (hc : p.Covers ps codes) :
    q.Covers ps codes where
  places x hx := ⟨(hc.places x hx).regular, h.globals.subset (hc.places x hx).root⟩
  codes c hcode := by
    rw [h.mtypes]
    exact hc.codes c hcode

end Extends

/-- What a run keeps up. -/
def Follows (p q : Progress) : Prop := p.Extends q ∧ (p.Sound → q.Sound)

namespace Follows

theorem refl (p : Progress) : p.Follows p := ⟨.refl p, id⟩

theorem trans (h : p.Follows q) (h' : q.Follows r) : p.Follows r := ⟨h.1.trans h'.1, h'.2 ∘ h.2⟩

end Follows

theorem extends_declared {d : Declarations} {log : List Event}
    (h : p.declared.globals <+: d.globals) : p.Extends { p with declared := d, log } :=
  ⟨rfl, h, [], by simp, by simp⟩

theorem Sound.declare (hp : p.Sound) {d : Declarations} {log : List Event} (hd : p.declared.Grows d)
    (h : p.declared.globals <+: d.globals) : Sound { p with declared := d, log } where
  coherent := hp.coherent.grows hd
  definitions x hx := (extends_declared h).covers (hp.definitions x hx)
  initials i hi := by
    obtain ⟨hvar, hcovers, hids⟩ := hp.initials i hi
    exact ⟨h.subset hvar, (extends_declared h).covers hcovers, hids⟩

theorem follows_of_declares {name : String} (h : Resolving.Declares p name q) : p.Follows q := by
  cases h with
  | @plain v log hadmits _ =>
    have hprefix : p.declared.globals <+: (p.declared.withGlobal v).globals := List.prefix_append _ _
    exact ⟨extends_declared hprefix, fun hp => hp.declare (.global hadmits) hprefix⟩
  | @initialized v raw e log hadmits _ he =>
    have hprefix : p.declared.globals <+: (p.declared.withGlobal v).globals := List.prefix_append _ _
    have hextends : p.Extends { p with declared := p.declared.withGlobal v, log } :=
      extends_declared hprefix
    refine ⟨⟨rfl, hprefix, [], by simp, by simp⟩, fun hp => ?_⟩
    have hq : Sound { p with declared := p.declared.withGlobal v, log } :=
      hp.declare (.global hadmits) hprefix
    obtain ⟨hcovers, -⟩ := Scope.expr_ok hp.definitions he
    refine { hq with initials := fun i hi => ?_ }
    rcases List.mem_append.mp hi with hi | hi
    · exact hq.initials i hi
    · cases List.mem_singleton.mp hi
      refine ⟨List.mem_append_right _ (List.mem_singleton.mpr rfl), hextends.covers hcovers,
        fun x hx w hw => ?_⟩
      rw [hadmits.id_eq]
      exact hp.coherent.id_lt ((hcovers.places x hx).vars_mem hp.coherent w hw)

theorem follows_of_define {name : Located String} {body : Surface.Expr} {e : Expr} {used : List Nat}
    (hfresh : ¬p.Knows name.value) (he : p.expr body = .ok e) :
    p.Follows { p with definitions := p.definitions ++ [⟨name, e⟩], used } := by
  have hextends : p.Extends { p with definitions := p.definitions ++ [⟨name, e⟩], used } :=
    ⟨rfl, List.prefix_refl _, [⟨name, e⟩], rfl, by simpa using hfresh⟩
  refine ⟨hextends, fun hp => ⟨hp.coherent, fun x hx => ?_, fun i hi => ?_⟩⟩
  · rcases List.mem_append.mp hx with hx | hx
    · exact hextends.covers (hp.definitions x hx)
    · cases List.mem_singleton.mp hx
      exact hextends.covers (Scope.expr_ok hp.definitions he).1
  · obtain ⟨hvar, hcovers, hids⟩ := hp.initials i hi
    exact ⟨hvar, hextends.covers hcovers, hids⟩

theorem follows_of_forM {α : Type} {f : α → Resolving Unit} {xs : List α}
    (hf : ∀ x p q, (f x).run p = .ok () q → p.Follows q) (h : (xs.forM f).run p = .ok () q) :
    p.Follows q :=
  Resolving.rel_of_forM .refl (fun h h' => h.trans h') hf h

theorem follows_of_item {i : Surface.Item} (h : (Resolving.item i).run p = .ok () q) :
    p.Follows q := by
  cases i with
  | mtypes _ | unread _ =>
    cases h
    exact .refl _
  | record name fields =>
    obtain ⟨d, log, hgrows, hglobals, rfl⟩ := Resolving.record_ok h
    have hprefix : p.declared.globals <+: d.globals := hglobals ▸ List.prefix_refl _
    exact ⟨extends_declared hprefix, fun hp => hp.declare hgrows hprefix⟩
  | globals t ds =>
    exact follows_of_forM (fun d _ _ hd => follows_of_declares (Resolving.declarator_ok hd)) h
  | define name body =>
    obtain ⟨hfresh, e, he, rfl⟩ := Resolving.define_ok h
    exact follows_of_define hfresh he

theorem follows_of_items {items : List Surface.Item}
    (h : (items.forM Resolving.item).run p = .ok () q) : p.Follows q :=
  follows_of_forM (fun _ _ _ => follows_of_item) h

end Progress
end Promela
