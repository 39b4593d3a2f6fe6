import Promela.Expr

/-! The value of an expression that literals and mtype constants alone decide. Every intermediate value
has to lie in the range of `int`. -/
namespace Promela

/-- `v` if it lies in the range of `int`. -/
def asInt? (v : Int) : Option Int := if ValueType.int.contains v then some v else none

def UnaryOp.result : UnaryOp → Int → Int
  | neg, v => -v
  | bitNot, v => -v - 1
  | not, v => if v = 0 then 1 else 0

/-- A bitwise operation on the two's complement words of its operands. -/
def bitwise (f : BitVec 64 → BitVec 64 → BitVec 64) (v w : Int) : Int :=
  (f (BitVec.ofInt 64 v) (BitVec.ofInt 64 w)).toInt

def truth (b : Bool) : Int := if b then 1 else 0

/-- Division truncates and its remainder has the sign of the dividend. A left shift is taken in a
64-bit word, so bits pushed out at the top are lost. -/
def BinaryOp.result? : BinaryOp → Int → Int → Option Int
  | add, v, w => some (v + w)
  | sub, v, w => some (v - w)
  | mul, v, w => some (v * w)
  | div, v, w => if w = 0 then none else some (v.tdiv w)
  | mod, v, w => if w = 0 then none else some (v.tmod w)
  | bitAnd, v, w => some (bitwise (· &&& ·) v w)
  | bitOr, v, w => some (bitwise (· ||| ·) v w)
  | bitXor, v, w => some (bitwise (· ^^^ ·) v w)
  | shl, v, w => if 0 ≤ w ∧ w < 64 then some ((v <<< w.toNat).bmod UInt64.size) else none
  | shr, v, w => if 0 ≤ w ∧ w < 64 then some (v >>> w.toNat) else none
  | and, v, w => some (truth (v != 0 && w != 0))
  | or, v, w => some (truth (v != 0 || w != 0))
  | eq, v, w => some (truth (v == w))
  | ne, v, w => some (truth (v != w))
  | lt, v, w => some (truth (v < w))
  | le, v, w => some (truth (v ≤ w))
  | gt, v, w => some (truth (w < v))
  | ge, v, w => some (truth (w ≤ v))

/-- Both operands of a binary operator have to be constant, but only the branch of a conditional that
its condition selects. -/
def Expr.constant? : Expr → Option Int
  | .bool _ b => some (truth b)
  | .int _ v => asInt? v
  | .mtype _ code => asInt? code
  | .place .. | .query .. | .poll .. => none
  | .unary _ op e => e.constant?.bind fun v => asInt? (op.result v)
  | .binary _ op l r =>
    l.constant?.bind fun v => r.constant?.bind fun w => (op.result? v w).bind asInt?
  | .ternary _ c a b => c.constant?.bind fun v => if v ≠ 0 then a.constant? else b.constant?
  | .eval _ e => e.constant?

end Promela
