/-! The types of storage cells and expressions: their ranges, their promotion in arithmetic, and what
may be stored where. -/
namespace Promela

inductive ValueType | bit | bool | byte | pid | short | int | mtype | chan
deriving DecidableEq

namespace ValueType

def all : List ValueType := [bit, bool, byte, pid, short, int, mtype, chan]

def keyword : ValueType → String
  | bit => "bit" | bool => "bool" | byte => "byte" | pid => "pid"
  | short => "short" | int => "int" | mtype => "mtype" | chan => "chan"

def ofKeyword? (word : String) : Option ValueType := all.find? (·.keyword = word)

def bits : ValueType → Nat
  | bit | bool => 1
  | byte | pid | mtype | chan => 8
  | short => 16
  | int => 32

def signed : ValueType → Bool
  | short | int => true
  | _ => false

/-- All but channel handles take part in arithmetic and conditions. -/
def numeric (t : ValueType) : Bool := t != chan

def minValue : ValueType → Int
  | short => -32768
  | int => -2147483648
  | _ => 0

def maxValue : ValueType → Int
  | bit | bool => 1
  | byte | pid | mtype | chan => 255
  | short => 32767
  | int => 2147483647

def contains (t : ValueType) (v : Int) : Bool := t.minValue ≤ v && v ≤ t.maxValue

/-- The type a value takes on inside arithmetic. -/
def arithmetic : ValueType → ValueType
  | bit | bool | pid | mtype => byte
  | t => t

/-- The wider of two promoted types, the left one if they are as wide. -/
def wider (t u : ValueType) : ValueType :=
  if u.arithmetic.bits > t.arithmetic.bits then u.arithmetic else t.arithmetic

/-- Channel cells take channel handles and nothing else does. -/
def accepts (t u : ValueType) : Bool := (t == chan) == (u == chan)

/-- The narrowest of `byte`, `short` and `int` that holds the literal. -/
def ofLiteral? (v : Int) : Option ValueType := [byte, short, int].find? (·.contains v)

end ValueType
end Promela
