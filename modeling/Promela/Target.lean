import Promela.Operator

/-! Terms of the target language, a typed expression language in the style of C in which integers and
booleans do not convert into each other, and their spelling. -/
namespace Promela

/-- What a term is wanted for: its integer value or its truth value. -/
inductive Sense | int | bool
deriving DecidableEq

inductive Target where
  | number (value : Nat)
  | truth (value : Bool)
  /-- Matches every value in a poll. -/
  | wildcard
  | name (name : String)
  | element (array index : Target)
  | member (base : Target) (field : String)
  | unary (op : UnaryOp) (operand : Target)
  | binary (op : BinaryOp) (left right : Target)
  | choice (condition first second : Target)
  | call (helper : String) (args : List Target)

namespace Target

mutual

/-- Every compound term but `!x`, `a[i]`, `m.f` and calls stands in parentheses. -/
def text : Target → String
  | number n => toString n
  | truth b => if b then "true" else "false"
  | wildcard => "ANY"
  | name s => s
  | element a i => a.text ++ "[" ++ i.text ++ "]"
  | member b f => b.text ++ "." ++ f
  | unary .not x => "!" ++ x.text
  | unary op x => "(" ++ op.symbol ++ x.text ++ ")"
  | binary op l r => "(" ++ l.text ++ " " ++ op.symbol ++ " " ++ r.text ++ ")"
  | choice c a b => "(" ++ c.text ++ " ? " ++ a.text ++ " : " ++ b.text ++ ")"
  | call h as => h ++ "(" ++ ", ".intercalate (texts as) ++ ")"

def texts : List Target → List String
  | [] => []
  | t :: ts => t.text :: texts ts

end

/-- The truth value `b` as an integer. -/
def ofBool (b : Target) : Target := choice b (number 1) (number 0)

/-- The truth value of the integer `n`. -/
def ofInt (n : Target) : Target := binary .ne n (number 0)

/-- A term of one sense, turned into the sense that is wanted. -/
def convert : Sense → Sense → Target → Target
  | .bool, .int, t => ofBool t
  | .int, .bool, t => ofInt t
  | _, _, t => t

/-- A literal. A negative one is the negation of its magnitude. -/
def literal (v : Int) : Target := if v < 0 then unary .neg (number v.natAbs) else number v.natAbs

end Target
end Promela
