import Promela.Expr.Reads
import Promela.Proofs.Building

/-! Stores and the values of expressions in them. What the operators do is left open, except that they
compute what constants fold to. -/
namespace Promela

/-- One element of a variable. A variable that is no array is its own element 0. -/
structure Spot where
  id : VarId
  index : Nat
deriving DecidableEq

/-- A place in storage that holds one value: an element of a variable, or of a field below it. -/
structure Cell where
  root : Spot
  fields : List Spot
deriving DecidableEq

namespace Cell

def spots (c : Cell) : List Spot := c.root :: c.fields

/-- The cell `c` of a field, below the element `s`. -/
def below (s : Spot) (c : Cell) : Cell := ⟨s, c.spots⟩

end Cell

def Variable.HasSpot (v : Variable) (s : Spot) : Prop := s.id = v.id ∧ s.index < v.length.getD 1

/-- The cell exists in the storage that the table declares. -/
def Declarations.HasCell (d : Declarations) (c : Cell) : Prop :=
  ∃ v ∈ d.vars, v.HasSpot c.root ∧
    match v.record? with
    | none => c.fields = []
    | some r => ∃ f ∈ r.fields, ∃ s, f.toVariable.HasSpot s ∧ c.fields = [s]

def Slot.covers : Slot → Nat → Prop
  | scalar, n => n = 0
  | element m, n => n = m
  | anyElement, _ => True

def Selection.covers (a : Selection) (s : Spot) : Prop := a.id = s.id ∧ a.slot.covers s.index

def coversSpots : List Selection → List Spot → Prop
  | a :: as, s :: ss => a.covers s ∧ coversSpots as ss
  | [], _ => True
  | _ :: _, [] => False

/-- The access may touch the cell. An access without a field touches all cells below it. -/
def Access.covers (a : Access) (c : Cell) : Prop := coversSpots a.selections c.spots

/-- The content of all cells. -/
abbrev Store (V : Type) := Cell → V

/-- What the forms of expressions compute on the values of their parts. -/
structure Meaning (V : Type) where
  number : Int → V
  unary : UnaryOp → V → V
  binary : BinaryOp → V → V → V
  ternary : V → V → V → V
  query : ChannelOp → V → V
  /-- The channel, and the arguments that are compared; a plain variable matches anything. -/
  poll : V → List (Option V) → V
  eval : V → V
  /-- The element that an index value means in an array, none if it lies outside. -/
  element : (length : Nat) → V → Option (Fin length)
  /-- The value read outside an array. -/
  outside : V

mutual

def Expr.value {V : Type} (M : Meaning V) (σ : Store V) : Expr → V
  | .bool _ b => M.number (truth b)
  | .int _ v => M.number v
  | .mtype _ code => M.number code
  | .place _ p => ((p.cell? M σ).map σ).getD M.outside
  | .unary _ op e => M.unary op (e.value M σ)
  | .binary _ op l r => M.binary op (l.value M σ) (r.value M σ)
  | .ternary _ c a b => M.ternary (c.value M σ) (a.value M σ) (b.value M σ)
  | .query _ op c => M.query op (c.value M σ)
  | .poll _ c as => M.poll (c.value M σ) (comparedValues M σ as)
  | .eval _ e => M.eval (e.value M σ)

/-- The cell that a place denotes, none if an index lies outside its array. -/
def Place.cell? {V : Type} (M : Meaning V) (σ : Store V) : Place → Option Cell
  | .leaf v i => (spot? M σ v i).map fun s => ⟨s, []⟩
  | .field v i p => (spot? M σ v i).bind fun s => (p.cell? M σ).map (Cell.below s)

/-- An array without an index means its first element. -/
def spot? {V : Type} (M : Meaning V) (σ : Store V) (v : Variable) : Option Expr → Option Spot
  | none => some ⟨v.id, 0⟩
  | some i =>
    match v.length with
    | none => some ⟨v.id, 0⟩
    | some n => (M.element n (i.value M σ)).map fun k => ⟨v.id, k.val⟩

def comparedValues {V : Type} (M : Meaning V) (σ : Store V) : List Expr → List (Option V)
  | [] => []
  | .place _ _ :: es => none :: comparedValues M σ es
  | e :: es => some (e.value M σ) :: comparedValues M σ es

end

theorem comparedValues_cons {V : Type} {M : Meaning V} {σ : Store V} {a : Expr}
    (h : a.place? = none) (as : List Expr) :
    comparedValues M σ (a :: as) = some (a.value M σ) :: comparedValues M σ as := by
  cases a with
  | place n p => cases h
  | _ => simp only [comparedValues]

/-- The operators agree with folding wherever it gives a result. -/
structure Meaning.Folds {V : Type} (M : Meaning V) : Prop where
  unary {op : UnaryOp} {v w : Int} : asInt? v = some v → asInt? (op.result v) = some w →
    M.unary op (M.number v) = M.number w
  binary {op : BinaryOp} {v w x : Int} : asInt? v = some v → asInt? w = some w →
    (op.result? v w).bind asInt? = some x → M.binary op (M.number v) (M.number w) = M.number x
  ternary {v w : Int} {a b : V} : asInt? v = some v → asInt? w = some w →
    (if v ≠ 0 then a else b) = M.number w → M.ternary (M.number v) a b = M.number w
  eval {v : Int} : asInt? v = some v → M.eval (M.number v) = M.number v
  element {n : Nat} (k : Fin n) : asInt? k = some (k : Int) → M.element n (M.number k) = some k

/-- The element at an integer, none outside the array. -/
def elementAt? (n : Nat) (v : Int) : Option (Fin n) :=
  if h : 0 ≤ v ∧ v < n then some ⟨v.toNat, by omega⟩ else none

/-- Unbounded integers. Division by zero and what lies outside an array give 0. -/
def Meaning.exact : Meaning Int where
  number v := v
  unary op v := op.result v
  binary op v w := (op.result? v w).getD 0
  ternary c a b := if c ≠ 0 then a else b
  query _ c := c
  poll c as := truth (as.all (·.all (· == c)))
  eval v := v
  element := elementAt?
  outside := 0

theorem ValueType.contains_iff {t : ValueType} {v : Int} :
    t.contains v ↔ t.minValue ≤ v ∧ v ≤ t.maxValue := by
  simp only [contains, Bool.and_eq_true, decide_eq_true_eq]

/-- No type has a value outside the range of `int`. -/
theorem ValueType.contains_int {t : ValueType} {v : Int} (h : t.contains v) : int.contains v := by
  rw [contains_iff] at h ⊢
  have hmin : int.minValue ≤ t.minValue := by cases t <;> decide
  have hmax : t.maxValue ≤ int.maxValue := by cases t <;> decide
  exact ⟨Int.le_trans hmin h.1, Int.le_trans h.2 hmax⟩

theorem ValueType.contains_int_of_ofLiteral? {t : ValueType} {v : Int} (h : ofLiteral? v = some t) :
    int.contains v := by
  have ht : t.contains v = true := by simpa using List.find?_some h
  exact contains_int ht

theorem asInt?_eq_some {v w : Int} (h : asInt? v = some w) : v = w ∧ asInt? w = some w := by
  have hvw : v = w := by
    unfold asInt? at h
    split at h
    · exact Option.some.inj h
    · cases h
  subst hvw
  exact ⟨rfl, h⟩

/-- A folded value lies in the range of `int`. -/
theorem Expr.asInt?_constant? : ∀ {e : Expr} {v : Int}, e.constant? = some v → asInt? v = some v
  | .bool _ b, v, h => by
    cases h
    cases b <;> rfl
  | .int _ w, v, h => by
    obtain ⟨rfl, hv⟩ := asInt?_eq_some h
    exact hv
  | .mtype _ code, v, h => (asInt?_eq_some h).2
  | .unary _ op e, v, h => by
    obtain ⟨w, -, h⟩ := Option.bind_eq_some_iff.mp h
    exact (asInt?_eq_some h).2
  | .binary _ op l r, v, h => by
    obtain ⟨w, -, h⟩ := Option.bind_eq_some_iff.mp h
    obtain ⟨x, -, h⟩ := Option.bind_eq_some_iff.mp h
    obtain ⟨y, -, h⟩ := Option.bind_eq_some_iff.mp h
    exact (asInt?_eq_some h).2
  | .ternary _ c a b, v, h => by
    obtain ⟨w, -, h⟩ := Option.bind_eq_some_iff.mp h
    split at h
    · exact asInt?_constant? h
    · exact asInt?_constant? h
  | .eval _ e, v, h => asInt?_constant? (e := e) h

/-- Where folding gives a result, evaluation gives it in every store. -/
theorem Expr.value_of_constant? {V : Type} {M : Meaning V} (hM : M.Folds) (σ : Store V) :
    ∀ {e : Expr} {v : Int}, e.constant? = some v → e.value M σ = M.number v
  | .bool _ b, v, h => by
    cases h
    rfl
  | .int _ w, v, h => by
    rw [Expr.value, (asInt?_eq_some h).1]
  | .mtype _ code, v, h => by
    rw [Expr.value, (asInt?_eq_some h).1]
  | .unary _ op e, v, h => by
    obtain ⟨w, hw, h⟩ := Option.bind_eq_some_iff.mp h
    rw [Expr.value, value_of_constant? hM σ hw]
    exact hM.unary (asInt?_constant? hw) h
  | .binary _ op l r, v, h => by
    obtain ⟨w, hw, h⟩ := Option.bind_eq_some_iff.mp h
    obtain ⟨x, hx, h⟩ := Option.bind_eq_some_iff.mp h
    rw [Expr.value, value_of_constant? hM σ hw, value_of_constant? hM σ hx]
    exact hM.binary (asInt?_constant? hw) (asInt?_constant? hx) h
  | .ternary _ c a b, v, h => by
    obtain ⟨w, hw, h⟩ := Option.bind_eq_some_iff.mp h
    rw [Expr.value, value_of_constant? hM σ hw]
    split at h
    · rename_i hne
      refine hM.ternary (asInt?_constant? hw) (asInt?_constant? h) ?_
      rw [if_pos hne, value_of_constant? hM σ h]
    · rename_i hne
      refine hM.ternary (asInt?_constant? hw) (asInt?_constant? h) ?_
      rw [if_neg hne, value_of_constant? hM σ h]
  | .eval _ e, v, h => by
    rw [Expr.value, value_of_constant? hM σ (e := e) h]
    exact hM.eval (asInt?_constant? (e := e) h)

theorem Meaning.exact_folds : Meaning.exact.Folds where
  unary _ h := (asInt?_eq_some h).1
  binary _ _ h := by
    obtain ⟨x, hx, h⟩ := Option.bind_eq_some_iff.mp h
    simp [exact, hx, (asInt?_eq_some h).1]
  ternary _ _ h := h
  eval _ := rfl
  element k _ := by simp [exact, elementAt?]

end Promela
