import Promela.Proofs.Evaluation
import Promela.Proofs.Target.Grammar

/-! Types and values of terms. Integers and booleans are kept apart throughout: a term of the wrong type
has neither a type nor a value. -/
namespace Promela

inductive Shape
  | int
  | bool
  | array (elements : Shape)
  | record (layout : Record)
deriving DecidableEq

/-- The shape of an array with such elements, if the variable is one. -/
def Variable.shaped (v : Variable) (s : Shape) : Shape := if v.isArray then .array s else s

/-- State variables are made of integers. -/
def Variable.shape (v : Variable) : Shape :=
  match v.layout with
  | .scalar _ => v.shaped .int
  | .record r => v.shaped (.record r)

namespace Target

/-- The shapes of the operand and of the result. -/
def unaryRule : UnaryOp → Shape × Shape
  | .neg | .bitNot => (.int, .int)
  | .not => (.bool, .bool)

/-- The shapes of both operands and of the result. -/
def binaryRule : BinaryOp → Shape × Shape
  | .add | .sub | .mul | .div | .mod | .bitAnd | .bitOr | .bitXor | .shl | .shr => (.int, .int)
  | .and | .or => (.bool, .bool)
  | .eq | .ne | .lt | .le | .gt | .ge => (.int, .bool)

/-- What a helper that takes a channel only gives. -/
def queryRule? : String → Option Shape
  | "chan_len" => some .int
  | "chan_empty" | "chan_nempty" | "chan_full" | "chan_nfull" => some .bool
  | _ => none

mutual

def type? (d : Declarations) : Target → Option Shape
  | number _ => some .int
  | truth _ => some .bool
  | wildcard => none
  | name s => (d.lookup? s).map Variable.shape
  | element b i =>
    match b.type? d, i.type? d with
    | some (.array s), some .int => some s
    | _, _ => none
  | member b f =>
    match b.type? d with
    | some (.record r) => (r.field? f).map fun field => field.toVariable.shape
    | _ => none
  | unary op x => if x.type? d = some (unaryRule op).1 then some (unaryRule op).2 else none
  | binary op l r =>
    if l.type? d = some (binaryRule op).1 ∧ r.type? d = some (binaryRule op).1 then
      some (binaryRule op).2
    else none
  | choice c a b => if c.type? d = some .bool ∧ a.type? d = b.type? d then a.type? d else none
  | call _ [] => none
  | call h (c :: as) =>
    if c.type? d ≠ some .int then none
    else if h = "chan_poll" then if comparable d as then some .bool else none
    else if as.isEmpty then queryRule? h
    else none

/-- Whether each argument is a wildcard or an integer to compare with. -/
def comparable (d : Declarations) : List Target → Bool
  | [] => true
  | wildcard :: ts => comparable d ts
  | t :: ts => t.type? d = some .int && comparable d ts

end

end Target

/-- What a term stands for. An array and a record are given by what they hold. -/
inductive Object
  | int (v : Int)
  | bool (b : Bool)
  | array (elements : Int → Object)
  | record (members : String → Option Object)

/-- What the target computes with where the language leaves it open. -/
structure Interpretation where
  neg : Int → Int
  bitNot : Int → Int
  /-- Arithmetic, bitwise operations and shifts. -/
  binary : BinaryOp → Int → Int → Int
  len : Int → Int
  empty : Int → Bool
  nonEmpty : Int → Bool
  full : Int → Bool
  nonFull : Int → Bool
  /-- The channel, and the values that are compared; a wildcard gives none. -/
  poll : Int → List (Option Int) → Bool
  /-- The value read outside an array. -/
  outside : Int
  /-- The literal `-3` has the spelling of the negation of 3, so the minus of a literal negates. -/
  neg_literal : ∀ n : Nat, 0 < n → n ≤ 2147483648 → neg n = -n

namespace Interpretation

/-- Unbounded integers that compute what constants fold to, over channels that are all empty. Division by
zero and what lies outside an array give 0. -/
def exact : Interpretation where
  neg := UnaryOp.neg.result
  bitNot := UnaryOp.bitNot.result
  binary op v w := (op.result? v w).getD 0
  len _ := 0
  empty _ := true
  nonEmpty _ := false
  full _ := false
  nonFull _ := true
  poll _ _ := false
  outside := 0
  neg_literal _ _ _ := rfl

def unary? (I : Interpretation) : UnaryOp → Object → Option Object
  | .neg, .int v => some (.int (I.neg v))
  | .bitNot, .int v => some (.int (I.bitNot v))
  | .not, .bool b => some (.bool !b)
  | _, _ => none

def binary? (I : Interpretation) : BinaryOp → Object → Object → Option Object
  | .and, .bool a, .bool b => some (.bool (a && b))
  | .or, .bool a, .bool b => some (.bool (a || b))
  | .eq, .int v, .int w => some (.bool (v == w))
  | .ne, .int v, .int w => some (.bool (v != w))
  | .lt, .int v, .int w => some (.bool (v < w))
  | .le, .int v, .int w => some (.bool (v ≤ w))
  | .gt, .int v, .int w => some (.bool (w < v))
  | .ge, .int v, .int w => some (.bool (w ≤ v))
  | .and, .int _, .int _ | .or, .int _, .int _ => none
  | op, .int v, .int w => some (.int (I.binary op v w))
  | _, _, _ => none

def query? (I : Interpretation) : String → Int → Option Object
  | "chan_len", c => some (.int (I.len c))
  | "chan_empty", c => some (.bool (I.empty c))
  | "chan_nempty", c => some (.bool (I.nonEmpty c))
  | "chan_full", c => some (.bool (I.full c))
  | "chan_nfull", c => some (.bool (I.nonFull c))
  | _, _ => none

/-- What the same operators mean in expressions, where 0 is false and all else is true. -/
def meaning (I : Interpretation) : Meaning Int where
  number v := v
  unary op v :=
    match op with
    | .neg => I.neg v
    | .bitNot => I.bitNot v
    | .not => Promela.truth (v == 0)
  binary op v w :=
    match op with
    | .and => Promela.truth (v != 0 && w != 0)
    | .or => Promela.truth (v != 0 || w != 0)
    | .eq => Promela.truth (v == w)
    | .ne => Promela.truth (v != w)
    | .lt => Promela.truth (v < w)
    | .le => Promela.truth (v ≤ w)
    | .gt => Promela.truth (w < v)
    | .ge => Promela.truth (w ≤ v)
    | op => I.binary op v w
  ternary c a b := if c ≠ 0 then a else b
  query op c :=
    match op with
    | .len => I.len c
    | .empty => Promela.truth (I.empty c)
    | .nonEmpty => Promela.truth (I.nonEmpty c)
    | .full => Promela.truth (I.full c)
    | .nonFull => Promela.truth (I.nonFull c)
  poll c as := Promela.truth (I.poll c as)
  eval v := v
  element := elementAt?
  outside := I.outside

end Interpretation

namespace Target

mutual

/-- The value of a term, none if the term is ill-typed. -/
def eval? (I : Interpretation) (state : String → Option Object) : Target → Option Object
  | number n => some (.int n)
  | truth b => some (.bool b)
  | wildcard => none
  | name s => state s
  | element b i =>
    match b.eval? I state, i.eval? I state with
    | some (.array elements), some (.int v) => some (elements v)
    | _, _ => none
  | member b f =>
    match b.eval? I state with
    | some (.record members) => members f
    | _ => none
  | unary op x => (x.eval? I state).bind (I.unary? op)
  | binary op l r => (l.eval? I state).bind fun a => (r.eval? I state).bind fun b => I.binary? op a b
  | choice c a b =>
    match c.eval? I state with
    | some (.bool true) => a.eval? I state
    | some (.bool false) => b.eval? I state
    | _ => none
  | call _ [] => none
  | call h (c :: as) =>
    match c.eval? I state, comparedArgs? I state as with
    | some (.int v), some ws =>
      if h = "chan_poll" then some (.bool (I.poll v ws))
      else if as.isEmpty then I.query? h v
      else none
    | _, _ => none

def comparedArgs? (I : Interpretation) (state : String → Option Object) :
    List Target → Option (List (Option Int))
  | [] => some []
  | wildcard :: ts => (comparedArgs? I state ts).map (none :: ·)
  | t :: ts =>
    match t.eval? I state with
    | some (.int v) => (comparedArgs? I state ts).map (some v :: ·)
    | _ => none

end

end Target

/-- The object of a variable whose elements are given by their spots, none outside the array. -/
def Variable.object (v : Variable) (inner : Option Spot → Object) : Object :=
  match v.length with
  | none => inner (some ⟨v.id, 0⟩)
  | some n => .array fun k => inner ((elementAt? n k).map fun e => ⟨v.id, e.val⟩)

def Interpretation.content (I : Interpretation) (σ : Store Int) (c : Option Cell) : Object :=
  .int ((c.map σ).getD I.outside)

/-- The element `s` of a variable, with the cells below it if it has fields. -/
def Variable.elementObject (I : Interpretation) (σ : Store Int) (v : Variable) (s : Option Spot) :
    Object :=
  match v.layout with
  | .scalar _ => I.content σ (s.map fun s => ⟨s, []⟩)
  | .record r => .record fun f => (r.field? f).map fun field => field.toVariable.object fun s' =>
      I.content σ (s.bind fun s => (s'.map fun s' => ⟨s', []⟩).map (Cell.below s))

section

variable {v : Variable} {t : ValueType} {r : Record} {I : Interpretation} {σ : Store Int}

theorem Variable.shape_scalar (h : v.layout = .scalar t) : v.shape = v.shaped .int := by
  simp [shape, h]

theorem Variable.shape_record (h : v.layout = .record r) : v.shape = v.shaped (.record r) := by
  simp [shape, h]

theorem Variable.elementObject_scalar (h : v.layout = .scalar t) :
    v.elementObject I σ = fun s => I.content σ (s.map fun s => ⟨s, []⟩) := by
  funext s
  simp [elementObject, h]

theorem Variable.elementObject_record (h : v.layout = .record r) (s : Option Spot) :
    v.elementObject I σ s = .record fun f => (r.field? f).map fun field =>
      field.toVariable.object fun s' =>
        I.content σ (s.bind fun s => (s'.map fun s' => ⟨s', []⟩).map (Cell.below s)) := by
  simp [elementObject, h]

end

/-- The state variables that a table declares, with their content in the store. -/
def Declarations.state (d : Declarations) (I : Interpretation) (σ : Store Int) (name : String) :
    Option Object :=
  (d.lookup? name).map fun v => v.object (v.elementObject I σ)

end Promela
