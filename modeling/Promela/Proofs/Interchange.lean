import Mathlib.Data.List.Forall2
import Promela.Proofs.Places
import Promela.Proofs.ReadSet

/-! Trees that nothing tells apart: they fold to the same constant, read the same and have the same value
under every meaning of the operators. Whatever is built from one of them can be built from the other. -/
namespace Promela

/-- If the first outcome is a success, the second one is too, with a related value. -/
def Carries {α β : Type} (R : α → β → Prop) (x : Checked α) (y : Checked β) : Prop :=
  ∀ a, x = .ok a → ∃ b, y = .ok b ∧ R a b

namespace Carries

variable {α β γ δ : Type} {R : α → β → Prop} {S : γ → δ → Prop}

theorem pure {a : α} {b : β} (h : R a b) : Carries R (pure a) (pure b) := by
  intro c hc
  cases hc
  exact ⟨b, rfl, h⟩

theorem error (f : Located Fault) (y : Checked β) : Carries R (.error f) y := nofun

theorem bind {x : Checked α} {y : Checked β} {f : α → Checked γ} {g : β → Checked δ} (h : Carries R x y)
    (hf : ∀ a b, R a b → Carries S (f a) (g b)) : Carries S (x >>= f) (y >>= g) := by
  intro c hc
  obtain ⟨a, ha, hc⟩ := bind_ok hc
  obtain ⟨b, hb, hab⟩ := h a ha
  obtain ⟨d, hd, hcd⟩ := hf a b hab c hc
  refine ⟨d, ?_, hcd⟩
  rw [hb]
  exact hd

theorem require {p q : Prop} [Decidable p] [Decidable q] {f f' : Fault} {s s' : Span} {x : Checked γ}
    {y : Checked δ} (hpq : p → q) (h : p → Carries S x y) :
    Carries S (require p f s >>= fun _ => x) (require q f' s' >>= fun _ => y) := by
  intro c hc
  obtain ⟨_, hp, hc⟩ := bind_ok hc
  have hp := require_ok hp
  obtain ⟨d, hd, hcd⟩ := h hp c hc
  refine ⟨d, ?_, hcd⟩
  rw [Promela.require, if_pos (hpq hp)]
  exact hd

end Carries

theorem bind_eq_of_rel {α β γ : Type} {R : α → β → Prop} {x : Option α} {y : Option β} {f : α → Option γ}
    {g : β → Option γ} (h : Option.Rel R x y) (hfg : ∀ a b, R a b → f a = g b) : x.bind f = y.bind g := by
  cases h with
  | none => rfl
  | some h => exact hfg _ _ h

namespace ValueType

@[simp] theorem numeric_arithmetic (t : ValueType) : t.arithmetic.numeric = t.numeric := by
  cases t <;> rfl

theorem numeric_wider {t u : ValueType} (ht : t.numeric) (hu : u.numeric) : (t.wider u).numeric := by
  unfold wider
  split <;> simpa

theorem eq_chan_iff (t : ValueType) : t = .chan ↔ t.numeric = false := by
  cases t <;> decide

theorem accepts_congr (t : ValueType) {u u' : ValueType} (h : u.numeric = u'.numeric) :
    t.accepts u = t.accepts u' := by
  cases u <;> cases u' <;> first | rfl | cases h

theorem ofLiteral?_some {v : Int} {t : ValueType} (h : ofLiteral? v = some t) :
    int.contains v ∧ t.numeric := by
  have hnumeric : ∀ t ∈ [byte, short, int], t.numeric := by decide
  exact ⟨contains_int_of_ofLiteral? h, hnumeric t (List.mem_of_find?_eq_some h)⟩

theorem isSome_ofLiteral? {v : Int} (h : int.contains v) : (ofLiteral? v).isSome :=
  List.find?_isSome.mpr ⟨int, by simp, h⟩

end ValueType

/-- The trees agree in all that is computed from them, at every place where the type of an operand is asked
for they pass alike. -/
structure Expr.Matches (e e' : Expr) : Prop where
  numeric : e.type.numeric = e'.type.numeric
  constant? : e.constant? = e'.constant?
  readList : e.readList = e'.readList
  mtypeCodes : e.mtypeCodes = e'.mtypeCodes
  value : ∀ {V : Type} (M : Meaning V), M.Folds → ∀ σ, e.value M σ = e'.value M σ

abbrev IndexMatches : Option Expr → Option Expr → Prop := Option.Rel Expr.Matches

/-- The same variables, with indexes that match. -/
inductive Place.Matches : Place → Place → Prop
  | leaf (v : Variable) {i j : Option Expr} : IndexMatches i j → Place.Matches (.leaf v i) (.leaf v j)
  | field (v : Variable) {i j : Option Expr} {p q : Place} : IndexMatches i j → Place.Matches p q →
      Place.Matches (.field v i p) (.field v j q)

/-- The trees match, and if one of them is a place, so is the other one, and these match too. -/
structure Expr.Interchangeable (e e' : Expr) : Prop extends Expr.Matches e e' where
  place? : Option.Rel Place.Matches e.place? e'.place?

namespace IndexMatches

variable {i j : Option Expr}

theorem slotOf (v : Variable) (h : IndexMatches i j) : slotOf v i = slotOf v j := by
  cases h with
  | none => rfl
  | some h => simp only [Promela.slotOf, h.constant?]

theorem readList (h : IndexMatches i j) : subscriptReadList i = subscriptReadList j := by
  cases h with
  | none => rfl
  | some h => exact h.readList

theorem mtypeCodes (h : IndexMatches i j) : mtypeCodesOfIndex i = mtypeCodesOfIndex j := by
  cases h with
  | none => rfl
  | some h => exact h.mtypeCodes

theorem spot? {V : Type} {M : Meaning V} (hM : M.Folds) (σ : Store V) (v : Variable) (h : IndexMatches i j) :
    spot? M σ v i = spot? M σ v j := by
  cases h with
  | none => rfl
  | some h => simp only [Promela.spot?, h.value M hM σ]

end IndexMatches

namespace Place.Matches

variable {p q : Place}

theorem target (h : p.Matches q) : p.target = q.target := by
  induction h with
  | leaf v _ => rfl
  | field v _ _ ih => exact ih

theorem var (h : p.Matches q) : p.var = q.var := by
  cases h <;> rfl

theorem access (h : p.Matches q) : p.access = q.access := by
  induction h with
  | leaf v hi => simp only [Place.access, hi.slotOf]
  | field v hi _ ih => simp only [Place.access, hi.slotOf, ih]

theorem indexReadList (h : p.Matches q) : p.indexReadList = q.indexReadList := by
  induction h with
  | leaf v hi => exact hi.readList
  | field v hi _ ih => simp only [Place.indexReadList, hi.readList, ih]

theorem mtypeCodes (h : p.Matches q) : p.mtypeCodes = q.mtypeCodes := by
  induction h with
  | leaf v hi => exact hi.mtypeCodes
  | field v hi _ ih => simp only [Place.mtypeCodes, hi.mtypeCodes, ih]

theorem cell? {V : Type} {M : Meaning V} (hM : M.Folds) (σ : Store V) (h : p.Matches q) :
    p.cell? M σ = q.cell? M σ := by
  induction h with
  | leaf v hi => simp only [Place.cell?, hi.spot? hM σ v]
  | field v hi _ ih => simp only [Place.cell?, hi.spot? hM σ v, ih]

end Place.Matches

theorem IndexMatches.refl (i : Option Expr) : IndexMatches i i := by
  cases i with
  | none => exact .none
  | some e => exact .some ⟨rfl, rfl, rfl, rfl, fun _ _ _ => rfl⟩

theorem Place.Matches.refl : ∀ p : Place, p.Matches p
  | .leaf v i => .leaf v (.refl i)
  | .field v i p => .field v (.refl i) (refl p)

theorem Expr.Interchangeable.refl (e : Expr) : e.Interchangeable e := by
  refine ⟨⟨rfl, rfl, rfl, rfl, fun _ _ _ => rfl⟩, ?_⟩
  cases e.place? with
  | none => exact .none
  | some p => exact .some (.refl p)

/-! What the typing rules allow, and the values that a node has, depend on no more of the operands. -/

section

variable {a a' b b' c c' : Expr} {as as' : List Expr} (span span' : Span)

abbrev SameNumeric (t u : ValueType) : Prop := t.numeric = u.numeric

namespace Typing

theorem unary_numeric {op : UnaryOp} {t u : ValueType} {span : Span} (h : unary op t span = .ok u) : u.numeric := by
  obtain ⟨_, ht, h⟩ := bind_ok h
  replace ht : t.numeric = true := require_ok ht
  cases op with
  | neg =>
    cases h
    split
    · rfl
    · rwa [ValueType.numeric_arithmetic]
  | bitNot | not =>
    cases h
    rfl

theorem carries_unary (op : UnaryOp) {t t' : ValueType} (h : SameNumeric t t') :
    Carries SameNumeric (unary op t span) (unary op t' span') := by
  intro u hu
  obtain ⟨_, ht, -⟩ := bind_ok hu
  have ht' : require t'.numeric (.unaryOperand op t') span' = .ok () := if_pos (h ▸ require_ok ht)
  obtain ⟨u', hu'⟩ : ∃ u', unary op t' span' = .ok u' := by
    unfold unary
    rw [ht']
    cases op <;> exact ⟨_, rfl⟩
  exact ⟨u', hu', (unary_numeric hu).trans (unary_numeric hu').symm⟩

theorem carries_binary (op : BinaryOp) (ha : a.Matches a') (hb : b.Matches b') :
    Carries SameNumeric (binary op a b span) (binary op a' b' span') := by
  unfold binary
  dsimp only
  split
  · exact Carries.require (fun h => ha.numeric ▸ hb.numeric ▸ h) fun _ => .pure rfl
  refine Carries.require (fun h => ha.numeric ▸ hb.numeric ▸ h) fun hoperands => ?_
  obtain ⟨hl, hr⟩ := hoperands
  have hl' : a'.type.numeric := ha.numeric ▸ hl
  have hr' : b'.type.numeric := hb.numeric ▸ hr
  split
  case h_1 | h_2 =>
    refine Carries.require (fun h => hb.constant? ▸ h) fun _ => .pure ?_
    exact (ValueType.numeric_wider hl hr).trans (ValueType.numeric_wider hl' hr').symm
  case h_3 => exact .pure (by rw [SameNumeric, ValueType.numeric_arithmetic, ha.numeric, ValueType.numeric_arithmetic])
  all_goals exact .pure rfl

theorem ternary_numeric {t u v w : ValueType} (h : ternary t u v span = .ok w) : w.numeric = u.numeric := by
  obtain ⟨_, -, h⟩ := bind_ok h
  obtain ⟨_, hbranches, h⟩ := bind_ok h
  have hbranches := require_ok hbranches
  cases u <;> cases v <;> cases hbranches <;> cases h <;> rfl

theorem exists_ternary {t u v : ValueType} (ht : t.numeric) (h : SameNumeric u v) :
    ∃ w, ternary t u v span = .ok w := by
  have hcondition : require t.numeric (.condition t) span = .ok () := if_pos ht
  have hbranches : require (u.numeric = v.numeric) (.branches u v) span = .ok () := if_pos h
  unfold ternary
  rw [hcondition, hbranches]
  cases u <;> cases v <;> exact ⟨_, rfl⟩

theorem carries_ternary {t t' u u' v v' : ValueType} (ht : SameNumeric t t') (hu : SameNumeric u u')
    (hv : SameNumeric v v') : Carries SameNumeric (ternary t u v span) (ternary t' u' v' span') := by
  intro w hw
  obtain ⟨_, hcondition, hrest⟩ := bind_ok hw
  obtain ⟨_, hbranches, -⟩ := bind_ok hrest
  have hbranches : SameNumeric u' v' := hu.symm.trans ((require_ok hbranches).trans hv)
  obtain ⟨w', hw'⟩ := exists_ternary span' (ht ▸ require_ok hcondition) hbranches
  exact ⟨w', hw', (ternary_numeric span hw).trans (hu.trans (ternary_numeric span' hw').symm)⟩

theorem carries_query (op : ChannelOp) (hc : c.Matches c') : Carries SameNumeric (query op c) (query op c') := by
  refine Carries.require (fun h => ?_) fun _ => .pure rfl
  rw [ValueType.eq_chan_iff] at h ⊢
  exact hc.numeric ▸ h

theorem carries_eval {t t' : ValueType} (h : SameNumeric t t') :
    Carries SameNumeric (eval t span) (eval t' span') :=
  Carries.require (fun ht => h ▸ ht) fun _ => .pure h

theorem carries_messageFields {as as' : List Expr} (h : List.Forall₂ Expr.Matches as as') (ts : List ValueType) :
    Carries (fun _ _ => True) (messageFields ts as) (messageFields ts as') := by
  induction h generalizing ts with
  | nil => cases ts <;> exact .pure trivial
  | @cons a a' as as' ha _ ih =>
    cases ts with
    | nil => exact .pure trivial
    | cons t ts => exact Carries.require (fun h => t.accepts_congr ha.numeric ▸ h) fun _ => ih ts

theorem carries_message (hc : c.Interchangeable c') (has : List.Forall₂ Expr.Interchangeable as as') :
    Carries (fun _ _ => True) (message c as span) (message c' as' span') := by
  have hsignature : c.place?.bind (·.target.signature) = c'.place?.bind (·.target.signature) :=
    bind_eq_of_rel hc.place? fun _ _ h => by rw [h.target]
  refine Carries.require (fun h => ?_) fun _ => Carries.require (fun h => ?_) fun _ => ?_
  · rw [ValueType.eq_chan_iff] at h ⊢
    exact hc.numeric ▸ h
  · rintro rfl
    cases has
    exact h rfl
  rw [hsignature]
  split
  · exact .pure trivial
  · rw [has.length_eq]
    exact Carries.require id fun _ => carries_messageFields (has.imp fun _ _ h => h.toMatches) _

end Typing

namespace Place

theorem carries_build (v : Variable) {i j : Option Expr} (h : IndexMatches i j) :
    Carries Matches (build v i span) (build v j span') := by
  cases h with
  | none => exact .pure (.leaf v .none)
  | @some e e' he =>
    cases hlength : v.length with
    | none =>
      simp only [build, hlength]
      exact .error _ _
    | some n =>
      simp only [build, hlength]
      refine Carries.require (fun h => he.numeric ▸ h) fun _ => ?_
      rw [he.constant?]
      cases e'.constant? with
      | none => exact .pure (.leaf v (.some he))
      | some k => exact Carries.require id fun _ => .pure (.leaf v (.some he))

theorem carries_select {p q f g : Place} (hp : p.Matches q) (hf : f.Matches g) :
    Carries Matches (p.select f span) (q.select g span') := by
  induction hp with
  | leaf v hi =>
    simp only [select]
    split
    · exact .error _ _
    · exact Carries.require (fun h => hf.var ▸ h) fun _ => .pure (.field v hi hf)
  | field v hi _ ih => exact ih.bind fun _ _ hq => .pure (.field v hi hq)

end Place

namespace Expr

theorem carries_buildPlace {p q : Place} (h : p.Matches q) :
    Carries Interchangeable (buildPlace span p) (buildPlace span' q) := by
  unfold buildPlace
  rw [h.target]
  split
  · refine .pure ⟨⟨rfl, rfl, ?_, h.mtypeCodes, fun M hM σ => ?_⟩, .some h⟩
    · simp only [readList, h.access, h.indexReadList]
    · simp only [value, h.cell? hM σ]
  · exact .error _ _

theorem carries_buildUnary (op : UnaryOp) (ha : a.Interchangeable a') :
    Carries Interchangeable (buildUnary span op a) (buildUnary span' op a') :=
  (Typing.carries_unary span span' op ha.numeric).bind fun _ _ ht =>
    .pure ⟨⟨ht, by simp only [constant?, ha.constant?], ha.readList, ha.mtypeCodes,
      fun M hM σ => by simp only [value, ha.value M hM σ]⟩, .none⟩

theorem carries_buildBinary (op : BinaryOp) (ha : a.Interchangeable a') (hb : b.Interchangeable b') :
    Carries Interchangeable (buildBinary span op a b) (buildBinary span' op a' b') :=
  (Typing.carries_binary span span' op ha.toMatches hb.toMatches).bind fun _ _ ht =>
    .pure ⟨⟨ht, by simp only [constant?, ha.constant?, hb.constant?],
      by simp only [readList, ha.readList, hb.readList], by simp only [mtypeCodes, ha.mtypeCodes, hb.mtypeCodes],
      fun M hM σ => by simp only [value, ha.value M hM σ, hb.value M hM σ]⟩, .none⟩

theorem carries_buildTernary (hc : c.Interchangeable c') (ha : a.Interchangeable a')
    (hb : b.Interchangeable b') :
    Carries Interchangeable (buildTernary span c a b) (buildTernary span' c' a' b') :=
  (Typing.carries_ternary span span' hc.numeric ha.numeric hb.numeric).bind fun _ _ ht =>
    .pure ⟨⟨ht, by simp only [constant?, hc.constant?, ha.constant?, hb.constant?],
      by simp only [readList, hc.readList, ha.readList, hb.readList],
      by simp only [mtypeCodes, hc.mtypeCodes, ha.mtypeCodes, hb.mtypeCodes],
      fun M hM σ => by simp only [value, hc.value M hM σ, ha.value M hM σ, hb.value M hM σ]⟩, .none⟩

theorem carries_buildQuery (op : ChannelOp) (hc : c.Interchangeable c') :
    Carries Interchangeable (buildQuery span op c) (buildQuery span' op c') :=
  (Typing.carries_query op hc.toMatches).bind fun _ _ ht =>
    .pure ⟨⟨ht, rfl, hc.readList, hc.mtypeCodes, fun M hM σ => by simp only [value, hc.value M hM σ]⟩, .none⟩

theorem carries_buildEval (ha : a.Interchangeable a') :
    Carries Interchangeable (buildEval span a) (buildEval span' a') :=
  (Typing.carries_eval span span' ha.numeric).bind fun _ _ ht =>
    .pure ⟨⟨ht, ha.constant?, ha.readList, ha.mtypeCodes,
      fun M hM σ => by simp only [value, ha.value M hM σ]⟩, .none⟩

/-- Either both are plain variables or none of them is. -/
theorem Interchangeable.places (h : a.Interchangeable a') : (a.place? = none ∧ a'.place? = none) ∨
    ∃ n p n' p', a = .place n p ∧ a' = .place n' p' ∧ p.Matches p' := by
  have hplace := h.place?
  generalize hp : a.place? = p, hp' : a'.place? = p' at hplace
  cases hplace with
  | none => exact .inl ⟨rfl, rfl⟩
  | some hpp =>
    obtain ⟨n, rfl⟩ := eq_place hp
    obtain ⟨n', rfl⟩ := eq_place hp'
    exact .inr ⟨n, _, n', _, rfl, rfl, hpp⟩

/-- Arguments are read and compared alike. -/
theorem matches_args (has : List.Forall₂ Interchangeable as as') :
    pollReadList as = pollReadList as' ∧ mtypeCodesOfArgs as = mtypeCodesOfArgs as' ∧
      ∀ {V : Type} (M : Meaning V), M.Folds → ∀ σ, comparedValues M σ as = comparedValues M σ as' := by
  induction has with
  | nil => exact ⟨rfl, rfl, fun _ _ _ => rfl⟩
  | @cons a a' as as' ha _ ih =>
    obtain ⟨hreads, hcodes, hvalues⟩ := ih
    have hcodes : mtypeCodesOfArgs (a :: as) = mtypeCodesOfArgs (a' :: as') := by
      simp only [mtypeCodesOfArgs, ha.mtypeCodes, hcodes]
    obtain ⟨hp, hp'⟩ | ⟨n, p, n', p', rfl, rfl, hp⟩ := ha.places
    · refine ⟨?_, hcodes, fun M hM σ => ?_⟩
      · rw [pollReadList_cons hp, pollReadList_cons hp', ha.readList, hreads]
      · rw [comparedValues_cons hp, comparedValues_cons hp', ha.value M hM σ, hvalues M hM σ]
    · refine ⟨?_, hcodes, fun M hM σ => ?_⟩
      · simp only [pollReadList, hp.indexReadList, hreads]
      · simp only [comparedValues, hvalues M hM σ]

theorem carries_buildPoll (hc : c.Interchangeable c') (has : List.Forall₂ Interchangeable as as') :
    Carries Interchangeable (buildPoll span c as) (buildPoll span' c' as') := by
  obtain ⟨hreads, hcodes, hvalues⟩ := matches_args has
  exact (Typing.carries_message span span' hc has).bind fun _ _ _ =>
    .pure ⟨⟨rfl, rfl, by simp only [readList, hc.readList, hreads],
      by simp only [mtypeCodes, hc.mtypeCodes, hcodes],
      fun M hM σ => by simp only [value, hc.value M hM σ, hvalues M hM σ]⟩, .none⟩

end Expr

end
end Promela
