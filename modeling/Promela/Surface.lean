import Promela.Operator
import Promela.Span
import Promela.ValueType

/-! Declarations and expressions as they are written, before any name is looked up. -/
namespace Promela
namespace Surface

mutual

/-- Parentheses leave no node; they widen the span of what they enclose. -/
inductive Expr where
  | number (span : Span) (value : Nat)
  | truth (span : Span) (value : Bool)
  | reference (span : Span) (place : Reference)
  | unary (span : Span) (op : UnaryOp) (operand : Expr)
  | binary (span : Span) (op : BinaryOp) (left right : Expr)
  | ternary (span : Span) (condition first second : Expr)
  | query (span : Span) (op : ChannelOp) (channel : Expr)
  | poll (span : Span) (channel : Expr) (args : List Expr)
  | eval (span : Span) (inner : Expr)

/-- A name, indexed or not, and the field chosen below it. -/
inductive Reference where
  | leaf (name : Located String) (index : Option Expr)
  | field (name : Located String) (index : Option Expr) (rest : Reference)

end

namespace Reference

def name : Reference → Located String
  | leaf n _ | field n _ _ => n

/-- The name of a reference that is nothing but a name. -/
def plainName? : Reference → Option (Located String)
  | leaf n none => some n
  | _ => none

end Reference

namespace Expr

def span : Expr → Span
  | number s _ | truth s _ | reference s _ | unary s _ _ | binary s _ _ _ | ternary s _ _ _
  | query s _ _ | poll s _ _ | eval s _ => s

def withSpan (s : Span) : Expr → Expr
  | number _ n => number s n
  | truth _ b => truth s b
  | reference _ r => reference s r
  | unary _ op e => unary s op e
  | binary _ op l r => binary s op l r
  | ternary _ c a b => ternary s c a b
  | query _ op c => query s op c
  | poll _ c as => poll s c as
  | eval _ e => eval s e

end Expr

mutual

/-- The names that are looked up for an expression, those of fields apart. -/
def Expr.names : Expr → List String
  | .number .. | .truth .. => []
  | .reference _ r => r.name.value :: r.indexNames
  | .unary _ _ e | .query _ _ e | .eval _ e => e.names
  | .binary _ _ l r => l.names ++ r.names
  | .ternary _ c a b => c.names ++ a.names ++ b.names
  | .poll _ c as => c.names ++ namesOfArgs as

def Reference.indexNames : Reference → List String
  | .leaf _ i => namesOfIndex i
  | .field _ i r => namesOfIndex i ++ r.indexNames

def namesOfIndex : Option Expr → List String
  | none => []
  | some e => e.names

def namesOfArgs : List Expr → List String
  | [] => []
  | e :: es => e.names ++ namesOfArgs es

end

inductive TypeName
  | scalar (type : ValueType)
  | record (name : String)
deriving DecidableEq

/-- The length of an array or the capacity of a channel. -/
inductive Size
  | number (value : Located Nat)
  | named (name : Located String)
deriving DecidableEq

structure FieldDecl where
  type : Located TypeName
  name : Located String
  size : Option Size
deriving DecidableEq

inductive Initializer
  | value (e : Expr)
  /-- The channel initializer `[capacity] of` with the types of the message fields. -/
  | channel (capacity : Size) (fields : List (Located TypeName)) (span : Span)

structure Declarator where
  name : Located String
  size : Option Size
  init : Option Initializer

inductive Item
  | mtypes (names : List (Located String))
  | record (name : Located String) (fields : List FieldDecl)
  | globals (type : Located TypeName) (declarators : List Declarator)
  | define (name : Located String) (body : Expr)
  /-- A construct that is skipped, by its first word. -/
  | unread (word : Located String)

end Surface
end Promela
