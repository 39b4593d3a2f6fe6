import Promela.Operator
import Promela.Span
import Promela.Variable

/-! Typed expressions. Every node notes its place in the source and the type that was fixed when it was
built. Equality looks at the form only. -/
namespace Promela

/-- What every node of an expression carries. -/
structure Note where
  span : Span
  type : ValueType
deriving DecidableEq

mutual

inductive Expr where
  | bool (note : Note) (value : Bool)
  | int (note : Note) (value : Int)
  | mtype (note : Note) (code : Nat)
  | place (note : Note) (place : Place)
  | unary (note : Note) (op : UnaryOp) (operand : Expr)
  | binary (note : Note) (op : BinaryOp) (left right : Expr)
  /-- The conditional `(condition -> first : second)`. -/
  | ternary (note : Note) (condition first second : Expr)
  | query (note : Note) (op : ChannelOp) (channel : Expr)
  /-- The poll `channel?[args]`: would the next message match, were it received? -/
  | poll (note : Note) (channel : Expr) (args : List Expr)
  | eval (note : Note) (inner : Expr)

/-- A reference to storage: a variable, with an index or without, and the field chosen below it. -/
inductive Place where
  | leaf (var : Variable) (index : Option Expr)
  | field (var : Variable) (index : Option Expr) (rest : Place)

end

namespace Place

def var : Place → Variable
  | leaf v _ | field v _ _ => v

def index : Place → Option Expr
  | leaf _ i | field _ i _ => i

/-- The innermost variable: the field, if one is chosen. -/
def target : Place → Variable
  | leaf v _ => v
  | field _ _ p => p.target

/-- The index expressions from the root inwards. -/
def indexes : Place → List Expr
  | leaf _ i => i.toList
  | field _ i p => i.toList ++ p.indexes

end Place

namespace Expr

def note : Expr → Note
  | bool n _ | int n _ | mtype n _ | place n _ | unary n _ _ | binary n _ _ _ | ternary n _ _ _
  | query n _ _ | poll n _ _ | eval n _ => n

def span (e : Expr) : Span := e.note.span

def type (e : Expr) : ValueType := e.note.type

def place? : Expr → Option Place
  | place _ p => some p
  | _ => none

/-- The expressions directly below, index expressions included. -/
def children : Expr → List Expr
  | bool .. | int .. | mtype .. => []
  | place _ p => p.indexes
  | unary _ _ e | query _ _ e | eval _ e => [e]
  | binary _ _ l r => [l, r]
  | ternary _ c a b => [c, a, b]
  | poll _ c as => c :: as

end Expr

mutual

/-- Equality of form. Variables are told apart by their ids. -/
def Expr.alike : Expr → Expr → Bool
  | .bool _ a, .bool _ b => a == b
  | .int _ a, .int _ b => a == b
  | .mtype _ a, .mtype _ b => a == b
  | .place _ p, .place _ q => p.alike q
  | .unary _ op e, .unary _ op' e' => op == op' && e.alike e'
  | .binary _ op l r, .binary _ op' l' r' => op == op' && l.alike l' && r.alike r'
  | .ternary _ c a b, .ternary _ c' a' b' => c.alike c' && a.alike a' && b.alike b'
  | .query _ op e, .query _ op' e' => op == op' && e.alike e'
  | .poll _ c as, .poll _ c' as' => c.alike c' && alikeArgs as as'
  | .eval _ e, .eval _ e' => e.alike e'
  | _, _ => false
termination_by structural e => e

def Place.alike : Place → Place → Bool
  | .leaf v i, .leaf w j => v.id == w.id && alikeIndex i j
  | .field v i p, .field w j q => v.id == w.id && alikeIndex i j && p.alike q
  | _, _ => false
termination_by structural p => p

def alikeIndex : Option Expr → Option Expr → Bool
  | none, none => true
  | some e, some e' => e.alike e'
  | _, _ => false
termination_by structural i => i

def alikeArgs : List Expr → List Expr → Bool
  | [], [] => true
  | e :: es, e' :: es' => e.alike e' && alikeArgs es es'
  | _, _ => false
termination_by structural es => es

end

instance : BEq Expr := ⟨Expr.alike⟩

end Promela
