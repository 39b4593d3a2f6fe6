import Promela.Proofs.Target.Lexemes

/-! How tokens are spelled. A spelling is as long as it can be with what follows it, so that what follows
is part of the statement that a text spells a token. -/
namespace Promela

namespace TokenKind

/-- The spelling of an operator or of punctuation. -/
def symbol? : TokenKind → Option String
  | openBrace => "\x7b"
  | closeBrace => "\x7d"
  | openBracket => "["
  | closeBracket => "]"
  | openParen => "("
  | closeParen => ")"
  | semicolon => ";"
  | comma => ","
  | dot => "."
  | assign => "="
  | arrow => "->"
  | colon => ":"
  | question => "?"
  | bang => "!"
  | tilde => "~"
  | binary op => op.symbol
  | _ => none

/-- Whether the token leaves the line of a directive as it is: no directive starts or ends with it. -/
def isPlain : TokenKind → Bool
  | define | directive _ | newline => false
  | _ => true

theorem symbol?_of_ofPair? {a b : Char} {kind : TokenKind} (h : ofPair? a b = some kind) :
    ∃ s, kind.symbol? = some s ∧ s.toList = [a, b] := by
  unfold ofPair? at h
  split at h <;> cases h <;> exact ⟨_, rfl, rfl⟩

theorem symbol?_of_ofChar? {a : Char} {kind : TokenKind} (h : ofChar? a = some kind) :
    ∃ s, kind.symbol? = some s ∧ s.toList = [a] := by
  unfold ofChar? at h
  split at h <;> cases h <;> exact ⟨_, rfl, rfl⟩

/-- An operator has one character or two, and the first one alone is an operator as well. -/
theorem symbol?_cases {kind : TokenKind} {s : String} (h : kind.symbol? = some s) :
    ∃ a, (ofChar? a).isSome ∧ (s.toList = [a] ∨ ∃ b, s.toList = [a, b] ∧ ofPair? a b = some kind) := by
  unfold symbol? at h
  split at h
  case h_16 op =>
    cases h
    cases op <;> first | exact ⟨_, rfl, .inl rfl⟩ | exact ⟨_, rfl, .inr ⟨_, rfl, rfl⟩⟩
  case h_17 => cases h
  all_goals
    cases h
    first | exact ⟨_, rfl, .inl rfl⟩ | exact ⟨_, rfl, .inr ⟨_, rfl, rfl⟩⟩

theorem isPlain_of_symbol? {kind : TokenKind} {s : String} (h : kind.symbol? = some s) :
    kind.isPlain = true := by
  cases kind <;> first | rfl | cases h

theorem isPlain_of_mem_reserved {word : String} {kind : TokenKind} (h : (word, kind) ∈ reserved) :
    kind.isPlain = true := by
  have hall : ∀ p ∈ reserved, p.2.isPlain = true := by decide
  exact hall _ h

theorem ofWord_cases (word : String) :
    (word, ofWord word) ∈ reserved ∨ ofWord word = ident word ∧ ∀ kind, (word, kind) ∉ reserved := by
  unfold ofWord
  cases hlookup : reserved.lookup word with
  | some kind =>
    obtain ⟨l₁, l₂, hsplit, -⟩ := List.lookup_eq_some_iff.mp hlookup
    have hmem : (word, kind) ∈ reserved := by simp [hsplit]
    exact .inl hmem
  | none =>
    refine .inr ⟨rfl, fun kind hmem => ?_⟩
    have hne := List.lookup_eq_none_iff.mp hlookup _ hmem
    simp at hne

end TokenKind

namespace Lexer

open Lexeme (IsWord Parted takeWhile_run)

/-- Whether a comment starts here. -/
def opensComment : List Char → Bool
  | '/' :: '/' :: _ | '/' :: '*' :: _ => true
  | _ => false

/-- The characters spell the token before `rest`, and they could not be more. -/
inductive Spells : TokenKind → List Char → List Char → Prop
  | keyword {word : String} {kind : TokenKind} {rest : List Char} : (word, kind) ∈ TokenKind.reserved →
      Parted rest → Spells kind word.toList rest
  | ident {word : String} {rest : List Char} : IsWord word → (∀ kind, (word, kind) ∉ TokenKind.reserved) →
      Parted rest → Spells (.ident word) word.toList rest
  | number {digits rest : List Char} : digits ≠ [] → (∀ c ∈ digits, c.isDigit = true) →
      (∀ c ∈ rest.head?, c.isDigit = false) → decimal digits < UInt64.size →
      Spells (.number (decimal digits)) digits rest
  | symbol {kind : TokenKind} {s : String} {rest : List Char} : kind.symbol? = some s →
      (∀ (kind' : TokenKind) (s' : String), kind'.symbol? = some s' → s'.toList <+: s.toList ++ rest →
        s'.length ≤ s.length) →
      opensComment (s.toList ++ rest) = false → Spells kind s.toList rest
  | define {rest : List Char} : Parted rest → Spells .define "#define".toList rest
  | directive {word rest : List Char} : (∀ c ∈ word, isWordRest c = true) → word ≠ "define".toList →
      Parted rest → Spells (.directive ("#" ++ String.ofList word)) ('#' :: word) rest
  | newline {rest : List Char} : Spells .newline ['\n'] rest

/-- The line ends here. -/
def LineEnds (rest : List Char) : Prop := ∀ c ∈ rest.head?, c = '\n'

/-- The characters are a blank, the join of two lines or a whole comment, and no token. -/
inductive Layout : List Char → List Char → Prop
  | blank {c : Char} {rest : List Char} : isBlank c = true → Layout [c] rest
  | join {rest : List Char} : Layout ['\\', '\n'] rest
  | line {body rest : List Char} : '\n' ∉ body → LineEnds rest → Layout ('/' :: '/' :: body) rest
  | block {body rest : List Char} : ¬ ['*', '/'] <:+: body ++ ['*'] →
      Layout ('/' :: '*' :: (body ++ ['*', '/'])) rest

/-- Why no token and no layout starts here. -/
inductive Stuck : Malformed → List Char → Prop
  | comment {rest : List Char} : ¬ ['*', '/'] <:+: rest → Stuck .unclosedComment ('/' :: '*' :: rest)
  | number {digits rest : List Char} : digits ≠ [] → (∀ c ∈ digits, c.isDigit = true) →
      (∀ c ∈ rest.head?, c.isDigit = false) → UInt64.size ≤ decimal digits →
      Stuck (.numberTooLarge (String.ofList digits)) (digits ++ rest)
  | character {c : Char} {rest : List Char} : isBlank c = false → isWordStart c = false →
      c.isDigit = false → TokenKind.ofChar? c = none → c ∉ ['#', '\n'] →
      (c = '\\' → rest.head? ≠ some '\n') → Stuck (.unexpectedCharacter c) (c :: rest)

theorem opensComment_cons {c : Char} (h : c ≠ '/') (cs : List Char) : opensComment (c :: cs) = false := by
  unfold opensComment
  split
  next heq => exact absurd (List.cons.inj heq).1 h
  next heq => exact absurd (List.cons.inj heq).1 h
  next => rfl

/-- The first two characters tell whether a comment starts. -/
theorem opensComment_congr (c d : Char) (cs ds : List Char) :
    opensComment (c :: d :: cs) = opensComment (c :: d :: ds) := by
  unfold opensComment
  split <;> split <;> simp_all

/-- What a spelling starts with: the start of a word, a number, an operator, a directive or a line end. -/
theorem Spells.start {kind : TokenKind} {w rest : List Char} (h : Spells kind w rest) :
    ∃ c v, w = c :: v ∧ (isWordStart c = true ∨
      ((∀ d ∈ w, d.isDigit = true) ∧ (∀ d ∈ rest.head?, d.isDigit = false) ∧ decimal w < UInt64.size) ∨
      ((TokenKind.ofChar? c).isSome ∧ opensComment (w ++ rest) = false) ∨ c = '#' ∨ c = '\n') := by
  cases h with
  | keyword hmem _ =>
    have hall : ∀ p ∈ TokenKind.reserved, p.1.toList.head?.any isWordStart = true := by decide
    obtain ⟨c, hc, hstart⟩ := (Option.any_eq_true _ _).mp (hall _ hmem)
    obtain ⟨v, hv⟩ := List.head?_eq_some_iff.mp hc
    exact ⟨c, v, hv, .inl hstart⟩
  | ident hword _ _ =>
    obtain ⟨c, v, hv, hstart, -⟩ := hword
    exact ⟨c, v, hv, .inl hstart⟩
  | number hne hdigits hrest hsmall =>
    obtain ⟨c, v, rfl⟩ := List.exists_cons_of_ne_nil hne
    exact ⟨c, v, rfl, .inr (.inl ⟨hdigits, hrest, hsmall⟩)⟩
  | symbol hs _ hcomment =>
    obtain ⟨c, hc, hone | ⟨b, htwo, -⟩⟩ := TokenKind.symbol?_cases hs
    · exact ⟨c, [], hone, .inr (.inr (.inl ⟨hc, hcomment⟩))⟩
    · exact ⟨c, [b], htwo, .inr (.inr (.inl ⟨hc, hcomment⟩))⟩
  | define _ => exact ⟨'#', _, rfl, .inr (.inr (.inr (.inl rfl)))⟩
  | directive _ _ _ => exact ⟨'#', _, rfl, .inr (.inr (.inr (.inl rfl)))⟩
  | newline => exact ⟨'\n', [], rfl, .inr (.inr (.inr (.inr rfl)))⟩

theorem Spells.opensComment {kind : TokenKind} {w rest : List Char} (h : Spells kind w rest) :
    Lexer.opensComment (w ++ rest) = false := by
  obtain ⟨c, v, rfl, hstart⟩ := h.start
  by_cases hc : c = '/'
  · subst hc
    rcases hstart with hstart | ⟨hdigits, -⟩ | ⟨-, hcomment⟩ | hstart | hstart
    · exact absurd hstart (by decide)
    · exact absurd (hdigits '/' List.mem_cons_self) (by decide)
    · exact hcomment
    · exact absurd hstart (by decide)
    · exact absurd hstart (by decide)
  · exact opensComment_cons hc (v ++ rest)

theorem ofChar?_of_isDigit {c : Char} (h : c.isDigit = true) : TokenKind.ofChar? c = none := by
  unfold TokenKind.ofChar?
  split <;> first | rfl | exact absurd h (by decide)

/-- No token starts with a character of none of the forms. -/
theorem not_spells_of_other {c : Char} (hword : isWordStart c = false) (hdigit : c.isDigit = false)
    (hsymbol : TokenKind.ofChar? c = none) (hother : c ∉ ['#', '\n']) {kind : TokenKind} {w rest : List Char} :
    ¬ Spells kind (c :: w) rest := by
  intro hspells
  obtain ⟨c', v, heq, hstart⟩ := hspells.start
  obtain rfl : c = c' := (List.cons.inj heq).1
  rcases hstart with hstart | ⟨hw, -⟩ | ⟨hc, -⟩ | rfl | rfl
  · rw [hword] at hstart
    cases hstart
  · rw [hw c List.mem_cons_self] at hdigit
    cases hdigit
  · rw [hsymbol] at hc
    cases hc
  · exact hother (by decide)
  · exact hother (by decide)

/-- Where the reading of tokens stops, no token starts. -/
theorem Stuck.not_spells {how : Malformed} {text : List Char} (h : Stuck how text) {kind : TokenKind}
    {w rest : List Char} (htext : text = w ++ rest) : ¬ Spells kind w rest := by
  intro hspells
  obtain ⟨c, v, rfl, hstart⟩ := hspells.start
  cases h with
  | comment _ =>
    have hcomment := hspells.opensComment
    rw [← htext] at hcomment
    simp [opensComment] at hcomment
  | @number digits rest' hne hdigits hrest' hlarge =>
    obtain ⟨d, ds, rfl⟩ := List.exists_cons_of_ne_nil hne
    have hd : d.isDigit = true := hdigits d List.mem_cons_self
    obtain rfl : d = c := (List.cons.inj htext).1
    rcases hstart with hstart | ⟨hw, hrest, hsmall⟩ | ⟨hsymbol, -⟩ | rfl | rfl
    · rw [Lexeme.digit_of_wordStart hstart] at hd
      cases hd
    · -- both are the longest run of digits of one text
      have hrun := (takeWhile_run hdigits hrest').1
      rw [htext, (takeWhile_run hw hrest).1] at hrun
      rw [hrun] at hsmall
      exact absurd hsmall (Nat.not_lt.mpr hlarge)
    · rw [ofChar?_of_isDigit hd] at hsymbol
      cases hsymbol
    · exact absurd hd (by decide)
    · exact absurd hd (by decide)
  | @character c' _ _ hword hdigit hsymbol hother _ =>
    obtain rfl : c' = c := (List.cons.inj htext).1
    exact not_spells_of_other hword hdigit hsymbol hother hspells

end Lexer
end Promela
