import Promela.Access.Set
import Promela.Expr.Folding

/-! What an expression may read. Reading a place reads its index expressions too; a plain variable in a
poll matches every value, so only its index expressions are read. -/
namespace Promela

/-- Without an index, the first element of an array is meant. -/
def slotOf (v : Variable) (index : Option Expr) : Slot :=
  if v.isArray then
    match index with
    | none => .element 0
    | some i =>
      match i.constant? with
      | some n => .element n.toNat
      | none => .anyElement
  else .scalar

def Place.access : Place → Access
  | .leaf v i => ⟨⟨v.id, slotOf v i⟩, []⟩
  | .field v i p => .below ⟨v.id, slotOf v i⟩ p.access

mutual

def Expr.readList : Expr → List Access
  | .bool .. | .int .. | .mtype .. => []
  | .place _ p => p.access :: p.indexReadList
  | .unary _ _ e | .query _ _ e | .eval _ e => e.readList
  | .binary _ _ l r => l.readList ++ r.readList
  | .ternary _ c a b => c.readList ++ a.readList ++ b.readList
  | .poll _ c as => c.readList ++ pollReadList as

/-- What is read to find out where the place is. -/
def Place.indexReadList : Place → List Access
  | .leaf _ i => subscriptReadList i
  | .field _ i p => subscriptReadList i ++ p.indexReadList

def subscriptReadList : Option Expr → List Access
  | none => []
  | some e => e.readList

def pollReadList : List Expr → List Access
  | [] => []
  | .place _ p :: es => p.indexReadList ++ pollReadList es
  | e :: es => e.readList ++ pollReadList es

end

def Expr.reads (e : Expr) : AccessSet := .ofList e.readList

def Place.indexReads (p : Place) : AccessSet := .ofList p.indexReadList

end Promela
