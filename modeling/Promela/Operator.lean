/-! The operators of expressions and their spellings. -/
namespace Promela

inductive UnaryOp | neg | bitNot | not
deriving DecidableEq

namespace UnaryOp

def all : List UnaryOp := [neg, bitNot, not]

def symbol : UnaryOp → String
  | neg => "-" | bitNot => "~" | not => "!"

def ofSymbol? (s : String) : Option UnaryOp := all.find? (·.symbol = s)

end UnaryOp

inductive OperatorClass | arithmetic | bitwise | shift | logical | equality | ordering
deriving DecidableEq

inductive BinaryOp
  | add | sub | mul | div | mod | bitAnd | bitOr | bitXor | shl | shr | and | or | eq | ne | lt | le | gt | ge
deriving DecidableEq

namespace BinaryOp

def all : List BinaryOp :=
  [add, sub, mul, div, mod, bitAnd, bitOr, bitXor, shl, shr, and, or, eq, ne, lt, le, gt, ge]

def symbol : BinaryOp → String
  | add => "+" | sub => "-" | mul => "*" | div => "/" | mod => "%"
  | bitAnd => "&" | bitOr => "|" | bitXor => "^" | shl => "<<" | shr => ">>"
  | and => "&&" | or => "||"
  | eq => "==" | ne => "!=" | lt => "<" | le => "<=" | gt => ">" | ge => ">="

def ofSymbol? (s : String) : Option BinaryOp := all.find? (·.symbol = s)

def group : BinaryOp → OperatorClass
  | add | sub | mul | div | mod => .arithmetic
  | bitAnd | bitOr | bitXor => .bitwise
  | shl | shr => .shift
  | and | or => .logical
  | eq | ne => .equality
  | lt | le | gt | ge => .ordering

/-- How loosely the operator binds: 0 for the tightest level, 9 for the loosest. -/
def looseness : BinaryOp → Nat
  | mul | div | mod => 0
  | add | sub => 1
  | shl | shr => 2
  | lt | le | gt | ge => 3
  | eq | ne => 4
  | bitAnd => 5
  | bitXor => 6
  | bitOr => 7
  | and => 8
  | or => 9

end BinaryOp

/-- What an expression may ask of a channel. -/
inductive ChannelOp | len | empty | nonEmpty | full | nonFull
deriving DecidableEq

namespace ChannelOp

def all : List ChannelOp := [len, empty, nonEmpty, full, nonFull]

def keyword : ChannelOp → String
  | len => "len" | empty => "empty" | nonEmpty => "nempty" | full => "full" | nonFull => "nfull"

def ofKeyword? (word : String) : Option ChannelOp := all.find? (·.keyword = word)

end ChannelOp
end Promela
