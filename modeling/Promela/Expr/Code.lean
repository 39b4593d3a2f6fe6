import Promela.Expr
import Promela.Expr.Folding
import Promela.Target

/-! Target terms for expressions. Every expression has one for its integer value and one for its truth
value; state variables are integers, channels are asked through helpers. -/
namespace Promela

/-- The sense of the operand and of the result. -/
def UnaryOp.sense : UnaryOp → Sense
  | neg | bitNot => .int
  | not => .bool

namespace BinaryOp

def operandSense (op : BinaryOp) : Sense := if op.group = .logical then .bool else .int

def resultSense (op : BinaryOp) : Sense :=
  match op.group with
  | .arithmetic | .bitwise | .shift => .int
  | .logical | .equality | .ordering => .bool

end BinaryOp

namespace ChannelOp

def helper : ChannelOp → String
  | len => "chan_len"
  | empty => "chan_empty"
  | nonEmpty => "chan_nempty"
  | full => "chan_full"
  | nonFull => "chan_nfull"

def resultSense : ChannelOp → Sense
  | len => .int
  | _ => .bool

end ChannelOp

def pollHelper : String := "chan_poll"

namespace Target

def literalIn (want : Sense) (v : Int) : Target :=
  match want with
  | .int => literal v
  | .bool => truth (v != 0)

/-- A variable by its name, below `base` if that is given. -/
def named (base : Option Target) (v : Variable) : Target :=
  match base with
  | none => name v.name
  | some b => member b v.name

/-- The cell of `v` that is meant: of an array its first element where no index is given. -/
def cell (base : Option Target) (v : Variable) (index : Option Target) : Target :=
  if v.isArray then element (named base v) (index.getD (number 0)) else named base v

end Target

mutual

def Expr.toTarget (want : Sense) : Expr → Target
  | .bool _ b => .literalIn want (truth b)
  | .int _ v => .literalIn want v
  | .mtype _ code => .literalIn want code
  | .place _ p => .convert .int want (p.toTarget none)
  | .unary _ op e => .convert op.sense want (.unary op (e.toTarget op.sense))
  | .binary _ op l r =>
    .convert op.resultSense want
      (.binary op (l.toTarget op.operandSense) (r.toTarget op.operandSense))
  | .ternary _ c a b => .choice (c.toTarget .bool) (a.toTarget want) (b.toTarget want)
  | .query _ op c => .convert op.resultSense want (.call op.helper [c.toTarget .int])
  | .poll _ c as => .convert .bool want (.call pollHelper (c.toTarget .int :: pollTargets as))
  | .eval _ e => e.toTarget want

/-- The location a place denotes, as a field of `base` if that is given. -/
def Place.toTarget (base : Option Target) : Place → Target
  | .leaf v i => .cell base v (indexTarget i)
  | .field v i p => p.toTarget (some (.cell base v (indexTarget i)))

def indexTarget : Option Expr → Option Target
  | none => none
  | some e => some (e.toTarget .int)

/-- A plain variable in a poll matches every value; everything else is compared. -/
def pollTargets : List Expr → List Target
  | [] => []
  | .place _ _ :: es => .wildcard :: pollTargets es
  | e :: es => e.toTarget .int :: pollTargets es

end

/-- Text whose value is the integer value of the expression. -/
def Expr.intCode (e : Expr) : String := (e.toTarget .int).text

/-- Text whose value is the truth value of the expression. -/
def Expr.boolCode (e : Expr) : String := (e.toTarget .bool).text

def Place.code (p : Place) : String := (p.toTarget none).text

end Promela
