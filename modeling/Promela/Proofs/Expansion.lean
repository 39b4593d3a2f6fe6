import Promela.Proofs.Interchange
import Promela.Proofs.Scoping
import Promela.Proofs.Referents

/-! Macro expansion is transparent: a text in which uses of a macro are replaced by the body of the macro is
accepted as well, and gives the same model up to trees that nothing tells apart. -/
namespace Promela

namespace Surface

section
variable (Use : String → Expr → Prop)

mutual

/-- The second expression is the first one with some names replaced. `Use` says by what a name may be
replaced; spans may differ everywhere. -/
inductive Expr.Rewrites : Expr → Expr → Prop
  | use (span : Span) {name : Located String} {e : Expr} : Use name.value e →
      Expr.Rewrites (.reference span (.leaf name none)) e
  | number (span span' : Span) (n : Nat) : Expr.Rewrites (.number span n) (.number span' n)
  | truth (span span' : Span) (b : Bool) : Expr.Rewrites (.truth span b) (.truth span' b)
  | reference (span span' : Span) {r r' : Reference} : Reference.Rewrites r r' →
      Expr.Rewrites (.reference span r) (.reference span' r')
  | unary (span span' : Span) (op : UnaryOp) {e e' : Expr} : Expr.Rewrites e e' →
      Expr.Rewrites (.unary span op e) (.unary span' op e')
  | binary (span span' : Span) (op : BinaryOp) {l l' r r' : Expr} : Expr.Rewrites l l' → Expr.Rewrites r r' →
      Expr.Rewrites (.binary span op l r) (.binary span' op l' r')
  | ternary (span span' : Span) {c c' a a' b b' : Expr} : Expr.Rewrites c c' → Expr.Rewrites a a' →
      Expr.Rewrites b b' → Expr.Rewrites (.ternary span c a b) (.ternary span' c' a' b')
  | query (span span' : Span) (op : ChannelOp) {c c' : Expr} : Expr.Rewrites c c' →
      Expr.Rewrites (.query span op c) (.query span' op c')
  | poll (span span' : Span) {c c' : Expr} {as as' : List Expr} : Expr.Rewrites c c' → ArgsRewrite as as' →
      Expr.Rewrites (.poll span c as) (.poll span' c' as')
  | eval (span span' : Span) {e e' : Expr} : Expr.Rewrites e e' → Expr.Rewrites (.eval span e) (.eval span' e')

inductive Reference.Rewrites : Reference → Reference → Prop
  | leaf {name name' : Located String} {i i' : Option Expr} : name.value = name'.value → IndexRewrites i i' →
      Reference.Rewrites (.leaf name i) (.leaf name' i')
  | field {name name' : Located String} {i i' : Option Expr} {r r' : Reference} : name.value = name'.value →
      IndexRewrites i i' → Reference.Rewrites r r' → Reference.Rewrites (.field name i r) (.field name' i' r')

inductive IndexRewrites : Option Expr → Option Expr → Prop
  | none : IndexRewrites none none
  | some {e e' : Expr} : Expr.Rewrites e e' → IndexRewrites (some e) (some e')

inductive ArgsRewrite : List Expr → List Expr → Prop
  | nil : ArgsRewrite [] []
  | cons {e e' : Expr} {es es' : List Expr} : Expr.Rewrites e e' → ArgsRewrite es es' →
      ArgsRewrite (e :: es) (e' :: es')

end

inductive Initializer.Rewrites : Initializer → Initializer → Prop
  | value {e e' : Expr} : Expr.Rewrites Use e e' → Initializer.Rewrites (.value e) (.value e')
  | channel (capacity : Size) (fields : List (Located TypeName)) (span : Span) :
      Initializer.Rewrites (.channel capacity fields span) (.channel capacity fields span)

structure Declarator.Rewrites (d d' : Declarator) : Prop where
  name : d.name = d'.name
  size : d.size = d'.size
  init : Option.Rel (Initializer.Rewrites Use) d.init d'.init

/-- Names are replaced in the expressions of an item, and the rest of it stays as it is. -/
inductive Item.Rewrites : Item → Item → Prop
  | mtypes (names : List (Located String)) : Item.Rewrites (.mtypes names) (.mtypes names)
  | record (name : Located String) (fields : List FieldDecl) :
      Item.Rewrites (.record name fields) (.record name fields)
  | globals (t : Located TypeName) {ds ds' : List Declarator} : List.Forall₂ (Declarator.Rewrites Use) ds ds' →
      Item.Rewrites (.globals t ds) (.globals t ds')
  | define (name : Located String) {body body' : Expr} : Expr.Rewrites Use body body' →
      Item.Rewrites (.define name body) (.define name body')
  | unread (word : Located String) : Item.Rewrites (.unread word) (.unread word)

end

/-- The expressions differ in their spans only. -/
abbrev Expr.Respelled (e e' : Expr) : Prop := Expr.Rewrites (fun _ _ => False) e e'

/-- A use of the macro may be replaced by its body. -/
def Expands (macroName : String) (body : Expr) (name : String) (e : Expr) : Prop :=
  name = macroName ∧ body.Respelled e

variable {Use : String → Expr → Prop}

theorem Reference.Rewrites.name {r r' : Reference} (h : r.Rewrites Use r') : r.name.value = r'.name.value := by
  cases h <;> assumption

theorem Reference.Rewrites.plainName? {r r' : Reference} (h : r.Rewrites Use r') :
    r.plainName?.isSome = r'.plainName?.isSome := by
  cases h with
  | leaf _ hi => cases hi <;> rfl
  | field => rfl

end Surface

namespace Scope

/-- The scopes know the same names, with bodies of macros that nothing tells apart. -/
structure Matches (s s' : Scope) : Prop where
  mtypes : s.mtypes = s'.mtypes
  declared : s.declared = s'.declared
  definitions : List.Forall₂ (fun d d' : Definition => d.name = d'.name ∧ d.body.Interchangeable d'.body)
    s.definitions s'.definitions

/-- The same thing, or macros with bodies that nothing tells apart. -/
inductive ReferentMatches : Referent → Referent → Prop
  | definition {d d' : Definition} : d.body.Interchangeable d'.body →
      ReferentMatches (.definition d) (.definition d')
  | constant (code : Nat) : ReferentMatches (.constant code) (.constant code)
  | global (v : Variable) : ReferentMatches (.global v) (.global v)

theorem Matches.refl (s : Scope) : s.Matches s :=
  ⟨rfl, rfl, List.forall₂_same.mpr fun d _ => ⟨rfl, .refl d.body⟩⟩

variable {s s' : Scope}

theorem Matches.definition? (h : s.Matches s') (name : String) :
    Option.Rel (fun d d' : Definition => d.body.Interchangeable d'.body) (s.definition? name)
      (s'.definition? name) := by
  have hdefinitions := h.definitions
  unfold Scope.definition?
  generalize s.definitions = ds, s'.definitions = ds' at hdefinitions
  induction hdefinitions with
  | nil => exact .none
  | @cons d d' ds ds' hd _ ih =>
    rw [List.find?_cons, List.find?_cons, ← hd.1]
    split
    · exact .some hd.2
    · exact ih

theorem Matches.isNone_definition? (h : s.Matches s') (name : String) :
    (s.definition? name).isNone = (s'.definition? name).isNone := by
  have hdefinition := h.definition? name
  generalize s.definition? name = x, s'.definition? name = y at hdefinition ⊢
  cases hdefinition <;> rfl

theorem Matches.referent? (h : s.Matches s') (name : String) :
    Option.Rel ReferentMatches (s.referent? nameOrder name) (s'.referent? nameOrder name) := by
  have hdefinition := h.definition? name
  simp only [Scope.referent?, nameOrder, List.findSome?, referentIn?, h.mtypes, h.declared]
  generalize s.definition? name = x, s'.definition? name = y at hdefinition ⊢
  cases hdefinition with
  | some hd => exact .some (.definition hd)
  | none =>
    cases s'.mtypes.code? name with
    | some code => exact .some (.constant code)
    | none =>
      cases s'.declared.lookup? name with
      | some v => exact .some (.global v)
      | none => exact .none

/-- Sizes are those of constants, and these are the same. -/
theorem Matches.size (h : s.Matches s') (n : Surface.Size) : s.size n = s'.size n := by
  cases n with
  | number n => rfl
  | named n =>
    have hconstant : (s.definition? n.value).bind (·.body.constant?)
        = (s'.definition? n.value).bind (·.body.constant?) :=
      bind_eq_of_rel (h.definition? n.value) fun _ _ hd => hd.constant?
    simp only [Scope.size, hconstant]

theorem Matches.optionalSize (h : s.Matches s') (n : Option Surface.Size) :
    s.optionalSize n = s'.optionalSize n := by
  cases n with
  | none => rfl
  | some n => simp only [Scope.optionalSize, h.size n]

theorem Matches.checkFresh (h : s.Matches s') (name : Located String) : s.checkFresh name = s'.checkFresh name := by
  simp only [Scope.checkFresh, h.mtypes, h.isNone_definition? name.value]

/-- Names that may be replaced stand for what they are replaced by. -/
def Allows (Use : String → Surface.Expr → Prop) (s s' : Scope) : Prop :=
  ∀ (name : Located String) (span : Span) (e : Surface.Expr), Use name.value e →
    Carries Expr.Interchangeable (s.expr (.reference span (.leaf name none))) (s'.expr e)

theorem carries_literal (n : Int) (span span' : Span) :
    Carries Expr.Interchangeable (literal n span) (literal n span') := by
  refine Carries.require id fun _ => ?_
  unfold Expr.buildInt
  split
  · exact .pure ⟨⟨rfl, rfl, rfl, rfl, fun _ _ _ => rfl⟩, .none⟩
  · exact .error _ _

/-- The literals that have a type are those in the range of `int`. -/
theorem literal_numeric {v : Int} {span : Span} {e : Expr} (h : literal v span = .ok e) :
    ValueType.int.contains v ∧ ∃ t, t.numeric = true ∧ e = .int ⟨span, t⟩ v := by
  obtain ⟨t, ht, rfl⟩ := literal_ok h
  obtain ⟨hv, hmem⟩ := ValueType.ofLiteral?_some ht
  exact ⟨hv, t, hmem, rfl⟩

theorem exists_literal {v : Int} (h : ValueType.int.contains v) (span : Span) : ∃ e, literal v span = .ok e := by
  obtain ⟨t, ht⟩ := Option.isSome_iff_exists.mp (ValueType.isSome_ofLiteral? h)
  have hwide : Int64.minValue.toInt ≤ v ∧ v ≤ Int64.maxValue.toInt := by
    obtain ⟨hmin, hmax⟩ := ValueType.contains_iff.mp h
    exact ⟨Int.le_trans (by decide) hmin, Int.le_trans hmax (by decide)⟩
  have hsize : require (Int64.minValue.toInt ≤ v ∧ v ≤ Int64.maxValue.toInt) (.literalSize v) span = .ok () :=
    if_pos hwide
  refine ⟨.int ⟨span, t⟩ v, ?_⟩
  rw [literal, hsize, Expr.buildInt, ht]
  rfl

/-- The negation of a tree that nothing tells apart from a literal, and the literal negated. -/
theorem carries_negated {x : Checked Expr} {n : Nat} {span' : Span}
    (hx : Carries Expr.Interchangeable x (literal n span')) (span span'' : Span) :
    Carries Expr.Interchangeable (x >>= Expr.buildUnary span .neg) (literal (-n) span'') := by
  intro e he
  obtain ⟨a, ha, he⟩ := bind_ok he
  obtain ⟨b, hb, hab⟩ := hx a ha
  obtain ⟨t, ht, he⟩ := bind_ok he
  cases he
  obtain ⟨hn, u, -, rfl⟩ := literal_numeric hb
  have hneg : ValueType.int.contains (-n) := by
    rw [ValueType.contains_iff] at hn ⊢
    have hmax : -ValueType.int.maxValue ≥ ValueType.int.minValue := by decide
    have hpositive : 0 ≤ ValueType.int.maxValue := by decide
    omega
  have hfolds : asInt? n = some (n : Int) := if_pos hn
  have hfolds' : asInt? (-n) = some (-n : Int) := if_pos hneg
  have hconstant : a.constant? = some (n : Int) := hab.constant?.trans hfolds
  obtain ⟨b', hb'⟩ := exists_literal hneg span''
  obtain ⟨-, t', ht', rfl⟩ := literal_numeric hb'
  refine ⟨_, hb', ⟨(Typing.unary_numeric ht).trans ht'.symm, ?_, hab.readList, hab.mtypeCodes, fun M hM σ => ?_⟩, .none⟩
  · simp only [Expr.constant?, hconstant, Option.bind_some, UnaryOp.result]
  · simp only [Expr.value, hab.value M hM σ]
    exact hM.unary hfolds hfolds'

section
variable {Use : String → Surface.Expr → Prop}

mutual

theorem carries_expr (hs : s.Matches s') (huse : Allows Use s s') {e e' : Surface.Expr} : e.Rewrites Use e' →
    Carries Expr.Interchangeable (s.expr e) (s'.expr e')
  | .use span h => huse _ span _ h
  | .number span span' n => carries_literal n span span'
  | .truth span span' b => .pure ⟨⟨rfl, rfl, rfl, rfl, fun _ _ _ => rfl⟩, .none⟩
  | @Surface.Expr.Rewrites.reference _ span span' r r' hr => by
    have hreferent := hs.referent? r.name.value
    rw [expr_reference, expr_reference, ← hr.name]
    generalize s.referent? nameOrder r.name.value = x, s'.referent? nameOrder r.name.value = y at hreferent ⊢
    cases hreferent with
    | none => exact .error _ _
    | some hreferent =>
      cases hreferent with
      | definition hd => exact Carries.require (fun h => hr.plainName? ▸ h) fun _ => .pure hd
      | constant code =>
        exact Carries.require (fun h => hr.plainName? ▸ h) fun _ =>
          .pure ⟨⟨rfl, rfl, rfl, rfl, fun _ _ _ => rfl⟩, .none⟩
      | global v => exact (carries_place hs huse hr v).bind fun _ _ hp => Expr.carries_buildPlace span span' hp
  | @Surface.Expr.Rewrites.unary _ span span' op e e' he => by
    have ih := carries_expr hs huse he
    obtain ⟨sp, n, rfl, rfl⟩ | hgeneral := expr_unary op e
    · cases he with
      | number _ sp' => exact carries_literal (-n) span span'
    · rw [hgeneral s span]
      obtain ⟨sp, n, rfl, rfl⟩ | hgeneral' := expr_unary op e'
      · exact carries_negated ih span span'
      · rw [hgeneral' s' span']
        exact ih.bind fun _ _ h => Expr.carries_buildUnary span span' op h
  | .binary span span' op hl hr => by
    simp only [expr]
    exact (carries_expr hs huse hl).bind fun _ _ hl => (carries_expr hs huse hr).bind fun _ _ hr =>
      Expr.carries_buildBinary span span' op hl hr
  | .ternary span span' hc ha hb => by
    simp only [expr]
    exact (carries_expr hs huse hc).bind fun _ _ hc => (carries_expr hs huse ha).bind fun _ _ ha =>
      (carries_expr hs huse hb).bind fun _ _ hb => Expr.carries_buildTernary span span' hc ha hb
  | .query span span' op hc => by
    simp only [expr]
    exact (carries_expr hs huse hc).bind fun _ _ hc => Expr.carries_buildQuery span span' op hc
  | .poll span span' hc has => by
    simp only [expr]
    exact (carries_expr hs huse hc).bind fun _ _ hc => (carries_args hs huse has).bind fun _ _ has =>
      Expr.carries_buildPoll span span' hc has
  | .eval span span' he => by
    simp only [expr]
    exact (carries_expr hs huse he).bind fun _ _ he => Expr.carries_buildEval span span' he

theorem carries_place (hs : s.Matches s') (huse : Allows Use s s') {r r' : Surface.Reference} :
    r.Rewrites Use r' → ∀ v : Variable, Carries Place.Matches (s.place v r) (s'.place v r')
  | .leaf _ hi, v => by
    simp only [place]
    exact (carries_index hs huse hi).bind fun _ _ hi => Place.carries_build _ _ v hi
  | @Surface.Reference.Rewrites.field _ _ _ _ _ r r' _ hi hr, v => by
    simp only [place, hr.name]
    refine (carries_index hs huse hi).bind fun _ _ hi => (Place.carries_build _ _ v hi).bind fun _ _ hp => ?_
    split
    next => exact .error _ _
    next =>
      split
      next => exact .error _ _
      next f _ => exact (carries_place hs huse hr f.toVariable).bind fun _ _ hq => Place.carries_select _ _ hp hq

theorem carries_index (hs : s.Matches s') (huse : Allows Use s s') {i i' : Option Surface.Expr} :
    Surface.IndexRewrites Use i i' → Carries IndexMatches (s.index i) (s'.index i')
  | .none => .pure .none
  | .some he => by
    simp only [index]
    exact (carries_expr hs huse he).bind fun _ _ he => .pure (.some he.toMatches)

theorem carries_args (hs : s.Matches s') (huse : Allows Use s s') {as as' : List Surface.Expr} :
    Surface.ArgsRewrite Use as as' → Carries (List.Forall₂ Expr.Interchangeable) (s.args as) (s'.args as')
  | .nil => .pure .nil
  | .cons he hes => by
    simp only [args]
    exact (carries_expr hs huse he).bind fun _ _ he => (carries_args hs huse hes).bind fun _ _ hes =>
      .pure (.cons he hes)

end

end

theorem knows_of_referent? {name : String} {r : Referent} (h : s.referent? nameOrder name = some r) :
    s.Knows name := by
  simp only [referent?, nameOrder, List.findSome?, referentIn?] at h
  cases hd : s.definition? name with
  | some d => exact .inl (by simp [hd])
  | none =>
    cases hcode : s.mtypes.code? name with
    | some code => exact .inr (.inl (by simp [hcode]))
    | none =>
      cases hv : s.declared.lookup? name with
      | some v => exact .inr (.inr (by simp [hv]))
      | none => simp [hd, hcode, hv] at h

/-- The macro is known, and its body, read here, is what it stands for. -/
def Unfolds (s : Scope) (macroName : String) (body : Surface.Expr) : Prop :=
  ∃ d, s.definition? macroName = some d ∧ s.expr body = .ok d.body

theorem Keeps.unfolds (h : s.Keeps s') {macroName : String} {body : Surface.Expr} (hs : s.Unfolds macroName body) :
    s'.Unfolds macroName body := by
  obtain ⟨d, hd, hbody⟩ := hs
  refine ⟨d, ?_, stays_expr h body d.body hbody⟩
  have hreferent : s'.referent? nameOrder macroName = some (.definition d) :=
    h macroName _ (by simp [referent?, nameOrder, referentIn?, hd])
  cases hd' : s'.definition? macroName with
  | none =>
    simp only [referent?, nameOrder, List.findSome?, referentIn?, hd'] at hreferent
    cases hcode : s'.mtypes.code? macroName <;> cases hv : s'.declared.lookup? macroName <;>
      simp [hcode, hv] at hreferent
  | some d' =>
    simp only [referent?, nameOrder, List.findSome?, referentIn?, hd', Option.map_some, Option.some.injEq,
      Referent.definition.injEq] at hreferent
    rw [hreferent]

/-- What a macro stands for is as good as its body, written out where the macro is used. -/
theorem Matches.allows (h : s.Matches s') {macroName : String} {body : Surface.Expr}
    (hs : s.Unfolds macroName body) : Allows (Surface.Expands macroName body) s s' := by
  rintro name span e ⟨rfl, hbody⟩ a ha
  obtain ⟨d, hd, hbody'⟩ := hs
  have ha' : a = d.body := by
    simp only [expr, Surface.Reference.name, hd] at ha
    cases ha
    rfl
  rw [ha']
  exact carries_expr h (fun _ _ _ hfalse => hfalse.elim) hbody d.body hbody'

end Scope

/-- Names that are known stand for the same later. -/
theorem Progress.Extends.keeps {p q : Progress} (h : p.Extends q) : p.toScope.Keeps q.toScope := by
  intro name r hr
  obtain ⟨new, hnew, hfresh⟩ := h.definitions
  obtain ⟨more, hmore⟩ := h.globals
  have hknows : p.Knows name := Scope.knows_of_referent? hr
  have hnone : new.find? (·.name.value = name) = none := by
    refine List.find?_eq_none.mpr fun d hd heq => hfresh d hd ?_
    rwa [of_decide_eq_true heq]
  have hdefinition : q.definition? name = p.definition? name := by
    rw [Scope.definition?, hnew, List.find?_append, hnone, Option.or_none]
    rfl
  simp only [Scope.referent?, Scope.nameOrder, List.findSome?, Scope.referentIn?, hdefinition, h.mtypes] at hr ⊢
  cases hd : p.definition? name with
  | some d => simpa [hd] using hr
  | none =>
    cases hcode : p.mtypes.code? name with
    | some code => simpa [hd, hcode] using hr
    | none =>
      cases hv : p.declared.lookup? name with
      | none => simp [hd, hcode, hv] at hr
      | some v =>
        have hv' : q.declared.lookup? name = some v := by
          rw [Declarations.lookup?, ← hmore, List.find?_append]
          exact Option.or_eq_some_iff.mpr (.inl hv)
        simpa [hd, hcode, hv, hv'] using hr

end Promela
