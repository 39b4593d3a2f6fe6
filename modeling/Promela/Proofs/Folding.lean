import Mathlib.Data.Int.Bitwise
import Promela.Proofs.Evaluation

/-! Constant folding against unbounded integers. Folding gives a value only if every part it looks at has an
exact value in the range of `int`, and then it gives the exact value of the whole, but for one case: a left
shift that pushes every bit of a number out of its 64-bit word folds to 0. -/
namespace Promela

def UnaryOp.exactValue : UnaryOp → Int → Int
  | neg, v => -v
  | bitNot, v => Int.lnot v
  | not, v => truth (v == 0)

/-- Division truncates toward zero, and bitwise operators work on two's complement without end. -/
def BinaryOp.exactValue : BinaryOp → Int → Int → Int
  | add, v, w => v + w
  | sub, v, w => v - w
  | mul, v, w => v * w
  | div, v, w => v.tdiv w
  | mod, v, w => v.tmod w
  | bitAnd, v, w => Int.land v w
  | bitOr, v, w => Int.lor v w
  | bitXor, v, w => Int.xor v w
  | shl, v, w => v * 2 ^ w.toNat
  | shr, v, w => v.fdiv (2 ^ w.toNat)
  | and, v, w => truth (v != 0 && w != 0)
  | or, v, w => truth (v != 0 || w != 0)
  | eq, v, w => truth (v == w)
  | ne, v, w => truth (v != w)
  | lt, v, w => truth (v < w)
  | le, v, w => truth (v ≤ w)
  | gt, v, w => truth (v > w)
  | ge, v, w => truth (v ≥ w)

/-- Divisors are not zero, and shift counts lie within a word. -/
def BinaryOp.Defined : BinaryOp → Int → Int → Prop
  | div, _, w | mod, _, w => w ≠ 0
  | shl, _, w | shr, _, w => 0 ≤ w ∧ w ≤ 63
  | _, _, _ => True

/-- A left shift that leaves nothing of a number in a 64-bit word. -/
def BinaryOp.ShiftsOut (op : BinaryOp) (v w : Int) : Prop :=
  op = shl ∧ v ≠ 0 ∧ (2 ^ 64 : Int) ∣ v * 2 ^ w.toNat

namespace Expr

/-- The value over unbounded integers. What is no constant counts as 0. -/
def exactValue : Expr → Int
  | bool _ b => truth b
  | int _ v => v
  | mtype _ code => code
  | place .. | query .. | poll .. => 0
  | unary _ op e => op.exactValue e.exactValue
  | binary _ op l r => op.exactValue l.exactValue r.exactValue
  | ternary _ c a b => if c.exactValue ≠ 0 then a.exactValue else b.exactValue
  | eval _ e => e.exactValue

/-- The parts that folding looks at, the whole among them: of a conditional only the branch that its
condition selects. -/
def folded : Expr → List Expr
  | unary n op e => unary n op e :: e.folded
  | binary n op l r => binary n op l r :: (l.folded ++ r.folded)
  | ternary n c a b =>
    ternary n c a b :: (c.folded ++ if c.exactValue ≠ 0 then a.folded else b.folded)
  | eval n e => eval n e :: e.folded
  | e => [e]

/-- The node varies with nothing at run time, and its operator is defined on its operands. -/
def Foldable : Expr → Prop
  | place .. | query .. | poll .. => False
  | binary _ op l r => op.Defined l.exactValue r.exactValue
  | _ => True

def ShiftsOut : Expr → Prop
  | binary _ op l r => op.ShiftsOut l.exactValue r.exactValue
  | _ => False

end Expr

theorem asInt?_eq_some_iff {v w : Int} : asInt? v = some w ↔ ValueType.int.contains v ∧ w = v := by
  unfold asInt?
  split
  · rename_i h
    simp [h, eq_comm]
  · rename_i h
    simp [h]

theorem contains_int_iff {v : Int} :
    ValueType.int.contains v ↔ -2147483648 ≤ v ∧ v ≤ 2147483647 :=
  ValueType.contains_iff

theorem contains_truth (b : Bool) : ValueType.int.contains (truth b) := by
  cases b <;> decide

theorem UnaryOp.result_eq (op : UnaryOp) (v : Int) : op.result v = op.exactValue v := by
  cases op with
  | neg => rfl
  | bitNot =>
    cases v <;> simp only [result, exactValue, Int.lnot, Int.ofNat_eq_natCast] <;> omega
  | not => simp [result, exactValue, truth]

/-- The bits of a word are those of the integer that it was made from. -/
theorem getLsbD_ofInt {n : Nat} (v : Int) {i : Nat} (hi : i < n) :
    (BitVec.ofInt n v).getLsbD i = v.testBit i := by
  cases v <;> simp [Int.testBit, hi, BitVec.getLsbD_ofNat, -BitVec.getLsbD_eq_getElem]

theorem contains_natBitwise (f : Bool → Bool → Bool) {m n : Nat} (hm : m < 2 ^ 31) (hn : n < 2 ^ 31) :
    ValueType.int.contains (Int.natBitwise f m n) := by
  rw [contains_int_iff, Int.natBitwise]
  cases f false false with
  | false =>
    have h := Nat.bitwise_lt_two_pow (f := f) hm hn
    rw [cond_false]
    omega
  | true =>
    have h := Nat.bitwise_lt_two_pow (f := fun x y => !f x y) hm hn
    rw [cond_true]
    omega

theorem lt_of_contains_ofNat {m : Nat} (h : ValueType.int.contains (.ofNat m)) : m < 2 ^ 31 := by
  rw [contains_int_iff, Int.ofNat_eq_natCast] at h
  omega

theorem lt_of_contains_negSucc {m : Nat} (h : ValueType.int.contains (.negSucc m)) : m < 2 ^ 31 := by
  rw [contains_int_iff] at h
  omega

/-- No bitwise operation leaves the range of `int`. -/
theorem contains_bitwise (f : Bool → Bool → Bool) {v w : Int} (hv : ValueType.int.contains v)
    (hw : ValueType.int.contains w) : ValueType.int.contains (Int.bitwise f v w) := by
  cases v with
  | ofNat m =>
    have hm := lt_of_contains_ofNat hv
    cases w with
    | ofNat n => exact contains_natBitwise f hm (lt_of_contains_ofNat hw)
    | negSucc n => exact contains_natBitwise (fun x y => f x (!y)) hm (lt_of_contains_negSucc hw)
  | negSucc m =>
    have hm := lt_of_contains_negSucc hv
    cases w with
    | ofNat n => exact contains_natBitwise (fun x y => f (!x) y) hm (lt_of_contains_ofNat hw)
    | negSucc n => exact contains_natBitwise (fun x y => f (!x) (!y)) hm (lt_of_contains_negSucc hw)

/-- On numbers in range, an operation on words that works bit by bit is the one on unbounded integers. -/
theorem bitwise_eq {f : Bool → Bool → Bool} {g : BitVec 64 → BitVec 64 → BitVec 64}
    (hg : ∀ x y i, (g x y).getLsbD i = f (x.getLsbD i) (y.getLsbD i)) {v w : Int}
    (hv : ValueType.int.contains v) (hw : ValueType.int.contains w) :
    bitwise g v w = Int.bitwise f v w := by
  have hword : g (BitVec.ofInt 64 v) (BitVec.ofInt 64 w) = BitVec.ofInt 64 (Int.bitwise f v w) := by
    refine BitVec.eq_of_getLsbD_eq fun i hi => ?_
    rw [hg, getLsbD_ofInt v hi, getLsbD_ofInt w hi, getLsbD_ofInt _ hi, Int.testBit_bitwise]
  have hrange := contains_int_iff.mp (contains_bitwise f hv hw)
  rw [bitwise, hword]
  exact BitVec.toInt_ofInt_eq_self (by decide) (by omega) (by omega)

theorem bitwise_and {v w : Int} (hv : ValueType.int.contains v) (hw : ValueType.int.contains w) :
    bitwise (· &&& ·) v w = Int.land v w := by
  rw [← Int.bitwise_and]
  exact bitwise_eq (fun _ _ _ => BitVec.getLsbD_and) hv hw

theorem bitwise_or {v w : Int} (hv : ValueType.int.contains v) (hw : ValueType.int.contains w) :
    bitwise (· ||| ·) v w = Int.lor v w := by
  rw [← Int.bitwise_or]
  exact bitwise_eq (fun _ _ _ => BitVec.getLsbD_or) hv hw

theorem bitwise_xor {v w : Int} (hv : ValueType.int.contains v) (hw : ValueType.int.contains w) :
    bitwise (· ^^^ ·) v w = Int.xor v w := by
  rw [← Int.bitwise_xor]
  exact bitwise_eq (fun _ _ _ => BitVec.getLsbD_xor) hv hw

/-- In a word a left shift that ends in range has kept every bit, or has lost them all: what is left of a
count above 32 is a multiple of `2 ^ 33`. -/
theorem shiftLeft_word {v : Int} {k : Nat} (hv : ValueType.int.contains v)
    (h : ValueType.int.contains ((v <<< k).bmod UInt64.size)) :
    (v <<< k).bmod UInt64.size = v * 2 ^ k ∨ v ≠ 0 ∧ (2 ^ 64 : Int) ∣ v * 2 ^ k := by
  rw [contains_int_iff] at hv h
  rw [Int.shiftLeft_eq] at h ⊢
  by_cases hk : k ≤ 32
  · left
    have hpow : (2 : Int) ^ k ≤ 2 ^ 32 := by exact_mod_cast Nat.pow_le_pow_right (by decide) hk
    have hpos : (0 : Int) ≤ 2 ^ k := Int.pow_nonneg (by decide)
    have hlo : -2147483648 * 2 ^ k ≤ v * 2 ^ k := Int.mul_le_mul_of_nonneg_right hv.1 hpos
    have hhi : v * 2 ^ k ≤ 2147483647 * 2 ^ k := Int.mul_le_mul_of_nonneg_right hv.2 hpos
    unfold UInt64.size
    apply Int.bmod_eq_of_le <;> omega
  · obtain ⟨j, rfl⟩ := Nat.exists_eq_add_of_lt (Nat.lt_of_not_le hk)
    by_cases hv₀ : v = 0
    · left
      simp [hv₀]
    · right
      refine ⟨hv₀, Int.dvd_of_emod_eq_zero ?_⟩
      have hsplit : v * 2 ^ (32 + j + 1) = 8589934592 * (v * 2 ^ j) := by
        rw [Nat.add_right_comm, Int.pow_add]
        simp [Int.mul_left_comm]
      rw [hsplit] at h ⊢
      simp only [UInt64.size, Int.bmod, Nat.cast_ofNat] at h
      split at h <;> omega

/-- Where a division or a shift is defined, and every other operator, gives the exact value. -/
theorem BinaryOp.result?_eq_some_iff {op : BinaryOp} (hop : op ≠ shl) {v w x : Int}
    (hv : ValueType.int.contains v) (hw : ValueType.int.contains w) :
    op.result? v w = some x ↔ op.Defined v w ∧ x = op.exactValue v w := by
  cases op with
  | div | mod =>
    by_cases h : w = 0 <;> simp [result?, Defined, exactValue, h, eq_comm]
  | shl => contradiction
  | shr =>
    have hfloor : v >>> w.toNat = v.fdiv (2 ^ w.toNat) := by
      rw [Int.shiftRight_eq_div_pow, Int.fdiv_eq_ediv_of_nonneg v (Int.pow_nonneg (by decide))]
      norm_cast
    have hcount : 0 ≤ w ∧ w < 64 ↔ 0 ≤ w ∧ w ≤ 63 := by omega
    rw [result?, Option.ite_none_right_eq_some, Option.some.injEq, hfloor, hcount, eq_comm (a := x)]
    rfl
  | bitAnd => simp [result?, Defined, exactValue, bitwise_and hv hw, eq_comm]
  | bitOr => simp [result?, Defined, exactValue, bitwise_or hv hw, eq_comm]
  | bitXor => simp [result?, Defined, exactValue, bitwise_xor hv hw, eq_comm]
  | _ => simp [result?, Defined, exactValue, eq_comm]

/-- An exact value in range has lost no bits. -/
theorem BinaryOp.not_shiftsOut {op : BinaryOp} {v w : Int}
    (h : ValueType.int.contains (op.exactValue v w)) : ¬ op.ShiftsOut v w := by
  rintro ⟨rfl, hv, hdvd⟩
  rw [contains_int_iff, exactValue] at h
  have hzero : v * 2 ^ w.toNat = 0 := by omega
  rcases Int.mul_eq_zero.mp hzero with h | h
  · exact hv h
  · exact Int.ne_of_gt (Int.pow_pos (by decide)) h

/-- Every operator gives the exact value if that lies in range. -/
theorem BinaryOp.result?_exactValue {op : BinaryOp} {v w : Int} (hv : ValueType.int.contains v)
    (hw : ValueType.int.contains w) (hdefined : op.Defined v w)
    (h : ValueType.int.contains (op.exactValue v w)) : op.result? v w = some (op.exactValue v w) := by
  by_cases hop : op = shl
  · subst hop
    obtain ⟨hw₀, hw₆₃⟩ := hdefined
    rw [contains_int_iff, exactValue] at h
    have hword : (v * 2 ^ w.toNat).bmod UInt64.size = v * 2 ^ w.toNat := by
      unfold UInt64.size
      apply Int.bmod_eq_of_le <;> omega
    rw [result?, if_pos ⟨hw₀, by omega⟩, Int.shiftLeft_eq, hword, exactValue]
  · exact (result?_eq_some_iff hop hv hw).mpr ⟨hdefined, rfl⟩

/-- What an operator gives in range is the exact value, unless it is a shift that loses all bits. -/
theorem BinaryOp.eq_exactValue {op : BinaryOp} {v w x : Int} (hv : ValueType.int.contains v)
    (hw : ValueType.int.contains w) (h : op.result? v w = some x) (hx : ValueType.int.contains x)
    (hout : ¬ op.ShiftsOut v w) : op.Defined v w ∧ x = op.exactValue v w := by
  by_cases hop : op = shl
  · subst hop
    rw [result?, Option.ite_none_right_eq_some, Option.some.injEq] at h
    obtain ⟨⟨hw₀, hw₆₄⟩, rfl⟩ := h
    refine ⟨⟨hw₀, by omega⟩, ?_⟩
    rcases shiftLeft_word hv hx with h | h
    · exact h
    · exact absurd ⟨rfl, h⟩ hout
  · exact (result?_eq_some_iff hop hv hw).mp h

namespace Expr

theorem contains_of_constant? {e : Expr} {v : Int} (h : e.constant? = some v) :
    ValueType.int.contains v :=
  (asInt?_eq_some_iff.mp (asInt?_constant? h)).1

theorem mem_folded (e : Expr) : e ∈ e.folded := by
  cases e <;> exact List.mem_cons_self

/-- A conditional is as exact as its condition and the branch that it selects. -/
theorem exact_ternary {n : Note} {c a b e : Expr} (he : (if c.exactValue ≠ 0 then a else b) = e)
    (hc : ∀ s ∈ c.folded, s.Foldable ∧ ValueType.int.contains s.exactValue)
    (hparts : ∀ s ∈ e.folded, s.Foldable ∧ ValueType.int.contains s.exactValue) :
    (∀ s ∈ (ternary n c a b).folded, s.Foldable ∧ ValueType.int.contains s.exactValue) ∧
      e.exactValue = (ternary n c a b).exactValue := by
  have hfolded : (ternary n c a b).folded = ternary n c a b :: (c.folded ++ e.folded) := by
    rw [folded, ← he, apply_ite folded]
  have hvalue : (ternary n c a b).exactValue = e.exactValue := by
    rw [exactValue, ← he, apply_ite exactValue]
  have hrange := (hparts e (mem_folded e)).2
  rw [← hvalue] at hrange
  rw [hfolded]
  exact ⟨List.forall_mem_cons.mpr ⟨⟨trivial, hrange⟩, List.forall_mem_append.mpr ⟨hc, hparts⟩⟩, hvalue.symm⟩

/-- The folded value of an expression is exact, and so is that of every part, unless bits were lost. -/
theorem exact_of_constant? : ∀ {e : Expr} {v : Int}, e.constant? = some v →
    (∀ s ∈ e.folded, ¬ s.ShiftsOut) →
    (∀ s ∈ e.folded, s.Foldable ∧ ValueType.int.contains s.exactValue) ∧ v = e.exactValue
  | .bool _ b, v, h, _ => by
    cases h
    simpa [folded, Foldable, exactValue] using contains_truth b
  | .int _ w, v, h, _ => by
    obtain ⟨hw, rfl⟩ := asInt?_eq_some_iff.mp h
    simpa [folded, Foldable, exactValue] using hw
  | .mtype _ code, v, h, _ => by
    obtain ⟨hcode, rfl⟩ := asInt?_eq_some_iff.mp h
    simpa [folded, Foldable, exactValue] using hcode
  | .unary n op e, v, h, hout => by
    obtain ⟨w, hw, h⟩ := Option.bind_eq_some_iff.mp h
    obtain ⟨-, hout⟩ := List.forall_mem_cons.mp hout
    obtain ⟨hparts, rfl⟩ := exact_of_constant? hw hout
    obtain ⟨hv, rfl⟩ := asInt?_eq_some_iff.mp h
    rw [UnaryOp.result_eq] at hv ⊢
    exact ⟨List.forall_mem_cons.mpr ⟨⟨trivial, hv⟩, hparts⟩, rfl⟩
  | .binary n op l r, v, h, hout => by
    obtain ⟨x, hx, h⟩ := Option.bind_eq_some_iff.mp h
    obtain ⟨y, hy, h⟩ := Option.bind_eq_some_iff.mp h
    obtain ⟨z, hz, h⟩ := Option.bind_eq_some_iff.mp h
    obtain ⟨hv, rfl⟩ := asInt?_eq_some_iff.mp h
    obtain ⟨hhere, hout⟩ := List.forall_mem_cons.mp hout
    obtain ⟨houtl, houtr⟩ := List.forall_mem_append.mp hout
    have hxrange := contains_of_constant? hx
    have hyrange := contains_of_constant? hy
    obtain ⟨hl, rfl⟩ := exact_of_constant? hx houtl
    obtain ⟨hr, rfl⟩ := exact_of_constant? hy houtr
    obtain ⟨hdefined, rfl⟩ := BinaryOp.eq_exactValue hxrange hyrange hz hv hhere
    exact ⟨List.forall_mem_cons.mpr ⟨⟨hdefined, hv⟩, List.forall_mem_append.mpr ⟨hl, hr⟩⟩, rfl⟩
  | .ternary n c a b, v, h, hout => by
    obtain ⟨w, hw, h⟩ := Option.bind_eq_some_iff.mp h
    obtain ⟨-, hout⟩ := List.forall_mem_cons.mp hout
    obtain ⟨houtc, hout⟩ := List.forall_mem_append.mp hout
    obtain ⟨hc, rfl⟩ := exact_of_constant? hw houtc
    by_cases hcond : c.exactValue ≠ 0
    · rw [if_pos hcond] at h hout
      obtain ⟨ha, rfl⟩ := exact_of_constant? h hout
      exact exact_ternary (if_pos hcond) hc ha
    · rw [if_neg hcond] at h hout
      obtain ⟨hb, rfl⟩ := exact_of_constant? h hout
      exact exact_ternary (if_neg hcond) hc hb
  | .eval n e, v, h, hout => by
    obtain ⟨-, hout⟩ := List.forall_mem_cons.mp hout
    have hv := contains_of_constant? h
    obtain ⟨hparts, rfl⟩ := exact_of_constant? (e := e) h hout
    exact ⟨List.forall_mem_cons.mpr ⟨⟨trivial, hv⟩, hparts⟩, rfl⟩

/-- If every part has an exact value in range, folding finds the value of the whole. -/
theorem constant?_of_exact : ∀ {e : Expr},
    (∀ s ∈ e.folded, s.Foldable ∧ ValueType.int.contains s.exactValue) →
    e.constant? = some e.exactValue
  | .bool .., _ => rfl
  | .int n v, h => asInt?_eq_some_iff.mpr ⟨(h _ (mem_folded (.int n v))).2, rfl⟩
  | .mtype n code, h => asInt?_eq_some_iff.mpr ⟨(h _ (mem_folded (.mtype n code))).2, rfl⟩
  | .place n p, h => (h _ (mem_folded (.place n p))).1.elim
  | .query n op c, h => (h _ (mem_folded (.query n op c))).1.elim
  | .poll n c as, h => (h _ (mem_folded (.poll n c as))).1.elim
  | .unary n op e, h => by
    obtain ⟨⟨-, hv⟩, hparts⟩ := List.forall_mem_cons.mp h
    refine Option.bind_eq_some_iff.mpr ⟨_, constant?_of_exact hparts, asInt?_eq_some_iff.mpr ?_⟩
    rw [UnaryOp.result_eq]
    exact ⟨hv, rfl⟩
  | .binary n op l r, h => by
    obtain ⟨⟨hdefined, hv⟩, hparts⟩ := List.forall_mem_cons.mp h
    obtain ⟨hl, hr⟩ := List.forall_mem_append.mp hparts
    have hresult := BinaryOp.result?_exactValue (hl l (mem_folded l)).2 (hr r (mem_folded r)).2 hdefined hv
    refine Option.bind_eq_some_iff.mpr ⟨_, constant?_of_exact hl, ?_⟩
    refine Option.bind_eq_some_iff.mpr ⟨_, constant?_of_exact hr, ?_⟩
    exact Option.bind_eq_some_iff.mpr ⟨_, hresult, asInt?_eq_some_iff.mpr ⟨hv, rfl⟩⟩
  | .ternary n c a b, h => by
    obtain ⟨-, hparts⟩ := List.forall_mem_cons.mp h
    obtain ⟨hc, hparts⟩ := List.forall_mem_append.mp hparts
    refine Option.bind_eq_some_iff.mpr ⟨_, constant?_of_exact hc, ?_⟩
    rw [exactValue]
    split at hparts
    · rename_i hcond
      rw [if_pos hcond, if_pos hcond, constant?_of_exact hparts]
    · rename_i hcond
      rw [if_neg hcond, if_neg hcond, constant?_of_exact hparts]
  | .eval n e, h => by
    obtain ⟨-, hparts⟩ := List.forall_mem_cons.mp h
    exact constant?_of_exact (e := e) hparts

theorem not_shiftsOut {s : Expr} (h : ValueType.int.contains s.exactValue) : ¬ s.ShiftsOut := by
  cases s with
  | binary n op l r => exact BinaryOp.not_shiftsOut h
  | _ => exact id

/-- An expression folds to `v`, with no bits lost on the way, exactly if `v` is its exact value and every
part that folding looks at is made of constants, is defined, and has an exact value in the range of `int`. -/
theorem folding_exact (e : Expr) (v : Int) :
    (e.constant? = some v ∧ ∀ s ∈ e.folded, ¬ s.ShiftsOut) ↔
      (∀ s ∈ e.folded, s.Foldable ∧ ValueType.int.contains s.exactValue) ∧ v = e.exactValue := by
  constructor
  · rintro ⟨hv, hout⟩
    exact exact_of_constant? hv hout
  · rintro ⟨hparts, rfl⟩
    exact ⟨constant?_of_exact hparts, fun s hs => not_shiftsOut (hparts s hs).2⟩

/-- A shift that loses every bit of a constant is not refused: it folds to 0. -/
theorem constant?_of_shiftsOut {n : Note} {l r : Expr} {v w : Int} (hl : l.constant? = some v)
    (hr : r.constant? = some w) (hw : 0 ≤ w ∧ w ≤ 63) (h : BinaryOp.ShiftsOut .shl v w) :
    (binary n .shl l r).constant? = some 0 := by
  have hword : (v <<< w.toNat).bmod UInt64.size = 0 := by
    rw [Int.shiftLeft_eq]
    exact Int.bmod_eq_zero_of_dvd h.2.2
  have hcount : 0 ≤ w ∧ w < 64 := by omega
  refine Option.bind_eq_some_iff.mpr ⟨v, hl, Option.bind_eq_some_iff.mpr ⟨w, hr, ?_⟩⟩
  rw [BinaryOp.result?, if_pos hcount, hword]
  rfl

/-- `2 << 63` folds to 0, where its exact value `2 ^ 64` lies far outside the range of `int`. -/
theorem folding_not_exact_of_shift :
    let s := Span.point "" .first
    let e := Expr.binary ⟨s, .byte⟩ .shl (.int ⟨s, .byte⟩ 2) (.int ⟨s, .byte⟩ 63)
    e.Built ∅ ∧ e.constant? = some 0 ∧ e.exactValue = 18446744073709551616 ∧
      ¬ (∀ p ∈ e.folded, p.Foldable ∧ ValueType.int.contains p.exactValue) := by
  intro s e
  refine ⟨.binary s .shl (.int s 2 rfl) (.int s 63 rfl) rfl, ?_, by decide, fun h => ?_⟩
  · exact constant?_of_shiftsOut rfl rfl (by decide) (by unfold BinaryOp.ShiftsOut; decide)
  · exact absurd (h e (mem_folded e)).2 (by decide)

end Expr

end Promela
