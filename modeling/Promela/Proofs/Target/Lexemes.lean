import Promela.Token.Lexer

/-! The lexemes of the target language: numbers, words and signs, apart by blanks where they would run
together. The longest lexeme wins. -/
namespace Promela

inductive Lexeme
  | number (value : Nat)
  | word (name : String)
  | sign (spelling : String)
deriving DecidableEq

namespace Lexeme

def signs : List Char := "()[],.?:!~+-*/%&|^<>=".toList

/-- The signs of two characters, the increments and the arrow included, which no expression has. -/
def pairs : List (Char × Char) :=
  [('<', '<'), ('>', '>'), ('&', '&'), ('|', '|'), ('=', '='), ('!', '='), ('<', '='), ('>', '='),
    ('+', '+'), ('-', '-'), ('-', '>')]

/-- The first lexeme of a text that starts with no blank, and what follows it. -/
def front? (c : Char) (cs : List Char) : Option (Lexeme × List Char) :=
  if c.isDigit then
    some (number (Lexer.decimal (c :: cs.takeWhile Char.isDigit)), cs.dropWhile Char.isDigit)
  else if Lexer.isWordStart c then
    some (word (String.ofList (c :: cs.takeWhile Lexer.isWordRest)), cs.dropWhile Lexer.isWordRest)
  else
    match cs.head?.filter fun c' => pairs.contains (c, c') with
    | some c' => some (sign (String.ofList [c, c']), cs.drop 1)
    | none => if signs.contains c then some (sign (String.ofList [c]), cs) else none

theorem length_front? {c : Char} {cs rest : List Char} {x : Lexeme}
    (h : front? c cs = some (x, rest)) : rest.length ≤ cs.length := by
  unfold front? at h
  split at h
  · cases h; exact (List.dropWhile_sublist _).length_le
  split at h
  · cases h; exact (List.dropWhile_sublist _).length_le
  split at h
  · cases h; simp
  split at h
  · cases h; exact Nat.le_refl _
  · cases h

/-- The lexemes of a text, none if some character belongs to no lexeme. -/
def scan : List Char → Option (List Lexeme)
  | [] => some []
  | c :: cs =>
    if Lexer.isBlank c then scan cs
    else
      match _h : front? c cs with
      | none => none
      | some (x, rest) => (scan rest).map (x :: ·)
termination_by cs => cs.length
decreasing_by
  · simp
  · exact Nat.lt_succ_of_le (length_front? _h)

/-- A word or a number that stands before the text has ended. -/
def Parted (rest : List Char) : Prop := ∀ c ∈ rest.head?, Lexer.isWordRest c = false

theorem Parted.cons {c : Char} {rest : List Char} (h : Lexer.isWordRest c = false) :
    Parted (c :: rest) := by
  intro c' hc'
  cases hc'
  exact h

/-- The spelling of a word: a letter or `_`, then letters, digits and `_`. -/
def IsWord (s : String) : Prop :=
  ∃ c cs, s.toList = c :: cs ∧ Lexer.isWordStart c = true ∧ ∀ c' ∈ cs, Lexer.isWordRest c' = true

theorem isWord_of_all {s : String} {c : Char} {cs : List Char} (htext : s.toList = c :: cs)
    (hc : Lexer.isWordStart c = true) (hcs : cs.all Lexer.isWordRest = true) : IsWord s :=
  ⟨c, cs, htext, hc, List.all_eq_true.mp hcs⟩

theorem scan_nil : scan [] = some [] := by rw [scan]

theorem scan_blank (cs : List Char) : scan (' ' :: cs) = scan cs := by
  have hblank : Lexer.isBlank ' ' = true := rfl
  rw [scan, if_pos hblank]

theorem scan_front {c : Char} {cs rest : List Char} {x : Lexeme} (hblank : Lexer.isBlank c = false)
    (h : front? c cs = some (x, rest)) : scan (c :: cs) = (scan rest).map (x :: ·) := by
  rw [scan, if_neg (by simp [hblank])]
  split
  · rename_i hnone
    cases hnone.symm.trans h
  · rename_i hsome
    cases hsome.symm.trans h
    rfl

/-- A run of characters of one kind ends where the next one is of another kind. -/
theorem takeWhile_run {p : Char → Bool} {cs rest : List Char} (hcs : ∀ c ∈ cs, p c = true)
    (hrest : ∀ c ∈ rest.head?, p c = false) :
    (cs ++ rest).takeWhile p = cs ∧ (cs ++ rest).dropWhile p = rest := by
  rw [List.takeWhile_append_of_pos hcs, List.dropWhile_append_of_pos hcs]
  cases rest with
  | nil => simp
  | cons c rest => simp [hrest c rfl]

theorem blank_of_wordRest {c : Char} (h : Lexer.isWordRest c = true) : Lexer.isBlank c = false := by
  cases hblank : Lexer.isBlank c with
  | false => rfl
  | true =>
    simp only [Lexer.isBlank, Bool.or_eq_true, beq_iff_eq] at hblank
    obtain (rfl | rfl) | rfl := hblank <;> cases h

theorem wordRest_of_digit {c : Char} (h : c.isDigit = true) : Lexer.isWordRest c = true := by
  simp [Lexer.isWordRest, Char.isAlphanum, h]

theorem wordRest_of_wordStart {c : Char} (h : Lexer.isWordStart c = true) :
    Lexer.isWordRest c = true := by
  simp only [Lexer.isWordStart, Bool.or_eq_true] at h
  rcases h with h | h
  · simp [Lexer.isWordRest, Char.isAlphanum, h]
  · simp [Lexer.isWordRest, h]

theorem digit_of_wordStart {c : Char} (h : Lexer.isWordStart c = true) : c.isDigit = false := by
  have hstart : Lexer.isWordStart c = (decide (65 ≤ c.val ∧ c.val ≤ 90) ||
    (decide (97 ≤ c.val) && decide (c.val ≤ 122)) || c == '_') := rfl
  have hdigit : c.isDigit = (decide (48 ≤ c.val) && decide (c.val ≤ 57)) := rfl
  simp only [hstart, Bool.or_eq_true, Bool.and_eq_true, decide_eq_true_eq, beq_iff_eq] at h
  simp only [hdigit, Bool.and_eq_false_iff, decide_eq_false_iff_not]
  rcases h with (h | h) | rfl
  · grind
  · grind
  · decide

theorem decimal_toDigits (n : Nat) : Lexer.decimal (Nat.toDigits 10 n) = n :=
  Nat.ofDigitChars_ten_toDigits

theorem scan_number (n : Nat) {rest : List Char} (h : Parted rest) :
    scan ((toString n).toList ++ rest) = (scan rest).map (number n :: ·) := by
  have hdigits : ∀ c ∈ Nat.toDigits 10 n, c.isDigit = true :=
    fun c hc => Nat.isDigit_of_mem_toDigits (by decide) (by decide) hc
  have hrest : ∀ c ∈ rest.head?, c.isDigit = false := fun c hc => by
    cases hdigit : c.isDigit with
    | false => rfl
    | true => exact absurd (wordRest_of_digit hdigit) (by simp [h c hc])
  have htext : (toString n).toList = Nat.toDigits 10 n := Nat.toList_repr
  rw [htext]
  cases hn : Nat.toDigits 10 n with
  | nil => exact absurd hn Nat.toDigits_ne_nil
  | cons c cs =>
    rw [hn] at hdigits
    have hc := hdigits c List.mem_cons_self
    obtain ⟨htake, hdrop⟩ := takeWhile_run (fun c hc => hdigits c (List.mem_cons_of_mem _ hc)) hrest
    rw [List.cons_append]
    refine scan_front (blank_of_wordRest (wordRest_of_digit hc)) ?_
    rw [front?, if_pos hc, htake, hdrop, ← hn, decimal_toDigits]

theorem scan_word {s : String} (hs : IsWord s) {rest : List Char} (h : Parted rest) :
    scan (s.toList ++ rest) = (scan rest).map (word s :: ·) := by
  obtain ⟨c, cs, htext, hc, hcs⟩ := hs
  obtain ⟨htake, hdrop⟩ := takeWhile_run hcs h
  have hs : s = String.ofList (c :: cs) := by rw [← htext, String.ofList_toList]
  rw [htext, List.cons_append]
  refine scan_front (blank_of_wordRest (wordRest_of_wordStart hc)) ?_
  rw [front?, if_neg (by simp [digit_of_wordStart hc]), if_pos hc, htake, hdrop, ← hs]

theorem kind_of_sign {c : Char} (h : c ∈ signs) :
    Lexer.isBlank c = false ∧ c.isDigit = false ∧ Lexer.isWordStart c = false := by
  have hall : signs.all fun c => !Lexer.isBlank c && (!c.isDigit && !Lexer.isWordStart c) := by decide
  simpa using List.all_eq_true.mp hall c h

/-- A sign does not reach into what follows, unless both make a pair. -/
theorem scan_sign (s : String) {c : Char} (hs : String.ofList [c] = s) (hc : c ∈ signs)
    {rest : List Char} (h : ∀ c' ∈ rest.head?, (c, c') ∉ pairs) :
    scan (c :: rest) = (scan rest).map (sign s :: ·) := by
  obtain ⟨hblank, hdigit, hword⟩ := kind_of_sign hc
  have hpair : rest.head?.filter (fun c' => pairs.contains (c, c')) = none := by
    simpa [Option.filter_eq_none_iff] using h
  have hsign : signs.contains c = true := by simpa using hc
  refine scan_front hblank ?_
  rw [front?, if_neg (by simp [hdigit]), if_neg (by simp [hword]), hpair, ← hs]
  exact if_pos hsign

/-- The signs that start no pair. -/
def lone : List Char := "()[],.?:~".toList

theorem scan_lone (s : String) {c : Char} (hs : String.ofList [c] = s) (hc : c ∈ lone)
    (rest : List Char) : scan (c :: rest) = (scan rest).map (sign s :: ·) := by
  have hall : lone.all fun c => signs.contains c && pairs.all (·.1 != c) := by decide
  have hlone := List.all_eq_true.mp hall c hc
  simp only [Bool.and_eq_true, List.all_eq_true, bne_iff_ne, List.contains_iff_mem] at hlone
  obtain ⟨hsign, hpairs⟩ := hlone
  exact scan_sign s hs hsign fun c' _ hmem => hpairs _ hmem rfl

theorem scan_pair (s : String) {c c' : Char} (hs : String.ofList [c, c'] = s) (h : (c, c') ∈ pairs)
    (rest : List Char) : scan (c :: c' :: rest) = (scan rest).map (sign s :: ·) := by
  have hsigns : ∀ p ∈ pairs, p.1 ∈ signs := by decide
  obtain ⟨hblank, hdigit, hword⟩ := kind_of_sign (hsigns _ h)
  have hpair : (c' :: rest).head?.filter (fun c' => pairs.contains (c, c')) = some c' := by
    simp [Option.filter, h]
  refine scan_front hblank ?_
  rw [front?, if_neg (by simpa using hdigit), if_neg (by simpa using hword), hpair, ← hs]
  rfl

/-- An operator between blanks. -/
theorem scan_symbol (op : BinaryOp) (rest : List Char) :
    scan (op.symbol.toList ++ ' ' :: rest) = (scan rest).map (sign op.symbol :: ·) := by
  rw [← scan_blank rest]
  cases op with
  | shl | shr | and | or | eq | ne | le | ge => exact scan_pair _ rfl (by decide) _
  | _ => exact scan_sign _ rfl (by decide) (by simp [pairs])

end Lexeme
end Promela
