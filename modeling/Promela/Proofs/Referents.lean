import Promela.Proofs.Resolution

/-! What a name stands for in a scope. The classes of names are tried in turn, and an expression is the
same in every scope in which its names stand for the same. -/
namespace Promela

/-- What a name can stand for. -/
inductive Referent
  | definition (d : Definition)
  | constant (code : Nat)
  | global (v : Variable)

inductive NameClass | definition | constant | global
deriving DecidableEq

/-- What the first outcome is, if it is a success, the second one is too. -/
def Stays {α : Type} (x y : Checked α) : Prop := ∀ a, x = .ok a → y = .ok a

namespace Stays

variable {α β : Type}

theorem refl (x : Checked α) : Stays x x := fun _ h => h

theorem bind {x y : Checked α} {f g : α → Checked β} (h : Stays x y) (hf : ∀ a, Stays (f a) (g a)) :
    Stays (x >>= f) (y >>= g) := by
  intro b hb
  obtain ⟨a, ha, hb⟩ := bind_ok hb
  rw [h a ha]
  exact hf a b hb

end Stays

namespace Scope

def referentIn? (s : Scope) (name : String) : NameClass → Option Referent
  | .definition => (s.definition? name).map .definition
  | .constant => (s.mtypes.code? name).map .constant
  | .global => (s.declared.lookup? name).map .global

/-- What the name stands for if the classes are tried in this order. -/
def referent? (s : Scope) (order : List NameClass) (name : String) : Option Referent :=
  order.findSome? (s.referentIn? name)

/-- The order in which a scope tries the classes. -/
def nameOrder : List NameClass := [.definition, .constant, .global]

/-- The expression for a reference whose name stands for this. -/
def referenceTo (s : Scope) (span : Span) (r : Surface.Reference) : Option Referent → Checked Expr
  | none => .error ⟨.undefinedVariable r.name.value, r.name.span⟩
  | some (.definition d) => do
    require r.plainName?.isSome (.indexedDefinition r.name.value) span
    pure d.body
  | some (.constant code) => do
    require r.plainName?.isSome (.indexedMtype r.name.value) span
    pure (.buildMtype span code)
  | some (.global v) => do
    let p ← place s v r
    Expr.buildPlace span p

theorem expr_reference (s : Scope) (span : Span) (r : Surface.Reference) :
    s.expr (.reference span r) = s.referenceTo span r (s.referent? nameOrder r.name.value) := by
  simp only [expr, referent?, nameOrder, List.findSome?, referentIn?]
  cases s.definition? r.name.value with
  | some d => rfl
  | none =>
    cases s.mtypes.code? r.name.value with
    | some code => rfl
    | none =>
      cases hv : s.declared.lookup? r.name.value with
      | some v => simp [Declarations.lookup, hv, referenceTo, bind, Except.bind]
      | none => simp [Declarations.lookup, hv, referenceTo, bind, Except.bind]

/-- Every name that stands for something stands for the same in the second scope. -/
def Keeps (s s' : Scope) : Prop :=
  ∀ name r, s.referent? nameOrder name = some r → s'.referent? nameOrder name = some r

variable {s s' : Scope}

theorem stays_unary {op : UnaryOp} {span : Span} {e : Surface.Expr} (h : Stays (s.expr e) (s'.expr e)) :
    Stays (s.expr (.unary span op e)) (s'.expr (.unary span op e)) := by
  obtain ⟨sp, n, rfl, rfl⟩ | hgeneral := expr_unary op e
  · exact .refl _
  · rw [hgeneral s, hgeneral s']
    exact h.bind fun _ => .refl _

mutual

/-- An expression that the first scope resolves is resolved to the same tree by the second. -/
theorem stays_expr (h : s.Keeps s') : ∀ e : Surface.Expr, Stays (s.expr e) (s'.expr e)
  | .number .. | .truth .. => .refl _
  | .reference span r => by
    rw [expr_reference, expr_reference]
    cases hr : s.referent? nameOrder r.name.value with
    | none => exact nofun
    | some x =>
      rw [h _ x hr]
      cases x with
      | definition _ | constant _ => exact .refl _
      | global v => exact (stays_place h v r).bind fun _ => .refl _
  | .unary _ _ e => stays_unary (stays_expr h e)
  | .binary _ _ l r => by
    simp only [expr]
    exact (stays_expr h l).bind fun _ => (stays_expr h r).bind fun _ => .refl _
  | .ternary _ c a b => by
    simp only [expr]
    exact (stays_expr h c).bind fun _ => (stays_expr h a).bind fun _ => (stays_expr h b).bind fun _ => .refl _
  | .query _ _ c => by
    simp only [expr]
    exact (stays_expr h c).bind fun _ => .refl _
  | .poll _ c as => by
    simp only [expr]
    exact (stays_expr h c).bind fun _ => (stays_args h as).bind fun _ => .refl _
  | .eval _ e => by
    simp only [expr]
    exact (stays_expr h e).bind fun _ => .refl _

theorem stays_place (h : s.Keeps s') : ∀ (v : Variable) (r : Surface.Reference),
    Stays (s.place v r) (s'.place v r)
  | v, .leaf name i => by
    simp only [place]
    exact (stays_index h i).bind fun _ => .refl _
  | v, .field name i rest => by
    simp only [place]
    refine (stays_index h i).bind fun _ => Stays.bind (.refl _) fun _ => ?_
    split
    next => exact .refl _
    next =>
      split
      next => exact .refl _
      next f _ => exact (stays_place h f.toVariable rest).bind fun _ => .refl _

theorem stays_index (h : s.Keeps s') : ∀ i : Option Surface.Expr, Stays (s.index i) (s'.index i)
  | none => .refl _
  | some e => by
    simp only [index]
    exact (stays_expr h e).bind fun _ => .refl _

theorem stays_args (h : s.Keeps s') : ∀ as : List Surface.Expr, Stays (s.args as) (s'.args as)
  | [] => .refl _
  | e :: es => by
    simp only [args]
    exact (stays_expr h e).bind fun _ => (stays_args h es).bind fun _ => .refl _

end

end Scope
end Promela
