import Promela.Proofs.Token.Spelling

/-! What the front of a text is taken for: each case of the reader finds layout, a spelling of its token, or
the reason why there is neither. -/
namespace Promela
namespace Lexer

open Lexeme (Parted)

/-- What is dropped behind a token: of another directive than `#define` the rest of its line. -/
def Drops (kind : TokenKind) (dropped rest : List Char) : Prop :=
  match kind with
  | .directive _ => '\n' ∉ dropped ∧ LineEnds rest
  | _ => dropped = []

/-- Whether the line of a directive goes on behind the token, if it went on before it or not. -/
def goesOn (kind : TokenKind) (inDirective : Bool) : Bool :=
  match kind with
  | .define | .directive _ => true
  | .newline => false
  | _ => inDirective

theorem goesOn_of_isPlain {kind : TokenKind} (h : kind.isPlain = true) (d : Bool) : goesOn kind d = d := by
  cases kind <;> first | rfl | cases h

theorem drops_of_isPlain {kind : TokenKind} (h : kind.isPlain = true) (rest : List Char) :
    Drops kind [] rest := by
  cases kind <;> first | rfl | cases h

/-- The front is the first part of the text. -/
inductive Front.Parts : Front → List Char → Prop
  | layout {c : Char} {w rest : List Char} : Layout (c :: w) rest → Parts (.layout w.length) (c :: (w ++ rest))
  | lineEnd {rest : List Char} : Parts .lineEnd ('\n' :: rest)
  | directive {kind : TokenKind} {c : Char} {w dropped rest : List Char} :
      Spells kind (c :: w) (dropped ++ rest) → (∀ d, goesOn kind d = true) → Drops kind dropped rest →
      Parts (.directive kind w.length dropped.length) (c :: (w ++ (dropped ++ rest)))
  | token {kind : TokenKind} {c : Char} {w rest : List Char} : Spells kind (c :: w) rest →
      kind.isPlain = true → Parts (.token kind w.length) (c :: (w ++ rest))
  | malformed {how : Malformed} {text : List Char} {extra : Nat} : Stuck how text →
      Parts (.malformed how extra) text

/-- The longest run of characters of a kind, and what follows it. -/
theorem exists_run (p : Char → Bool) (cs : List Char) :
    ∃ run rest, cs = run ++ rest ∧ cs.takeWhile p = run ∧ (∀ c ∈ run, p c = true) ∧
      ∀ c ∈ rest.head?, p c = false := by
  refine ⟨cs.takeWhile p, cs.dropWhile p, List.takeWhile_append_dropWhile.symm, rfl, ?_, ?_⟩
  · exact List.all_eq_true.mp List.all_takeWhile
  · intro c hc
    have hend := List.head?_dropWhile_not p cs
    rw [hc] at hend
    exact hend

theorem not_infix_cons {c : Char} {cs : List Char} (h : ¬ ['*', '/'] <:+: cs)
    (hc : ∀ rest, c :: cs ≠ '*' :: '/' :: rest) : ¬ ['*', '/'] <:+: c :: cs := by
  intro hinfix
  rcases List.infix_cons_iff.mp hinfix with hprefix | hinfix
  · obtain ⟨rest, hrest⟩ := hprefix
    exact hc rest hrest.symm
  · exact h hinfix

/-- The first end of a comment is found. -/
theorem commentLength?_some {cs : List Char} {n : Nat} (h : commentLength? cs = some n) :
    ∃ body rest, cs = body ++ ['*', '/'] ++ rest ∧ n = body.length + 2 ∧ ¬ ['*', '/'] <:+: body ++ ['*'] := by
  induction cs using commentLength?.induct generalizing n with
  | case1 rest =>
    cases h
    exact ⟨[], rest, rfl, rfl, by decide⟩
  | case2 c cs hc ih =>
    rw [commentLength?.eq_2 c cs hc] at h
    obtain ⟨m, hm, rfl⟩ := Option.map_eq_some_iff.mp h
    obtain ⟨body, rest, rfl, rfl, hbody⟩ := ih hm
    refine ⟨c :: body, rest, rfl, rfl, not_infix_cons hbody fun after hafter => ?_⟩
    obtain ⟨rfl, hbody⟩ := List.cons.inj hafter
    cases body with
    | nil => cases hbody
    | cons b bs =>
      cases hbody
      exact hc _ rfl rfl
  | case3 => cases h

theorem commentLength?_none {cs : List Char} (h : commentLength? cs = none) : ¬ ['*', '/'] <:+: cs := by
  induction cs using commentLength?.induct with
  | case1 rest => cases h
  | case2 c cs hc ih =>
    rw [commentLength?.eq_2 c cs hc] at h
    refine not_infix_cons (ih (Option.map_eq_none_iff.mp h)) fun rest hrest => ?_
    obtain ⟨rfl, rfl⟩ := List.cons.inj hrest
    exact hc rest rfl rfl
  | case3 => simp

theorem exists_line (cs : List Char) :
    ∃ line rest, cs = line ++ rest ∧ restOfLine cs = line ∧ '\n' ∉ line ∧ LineEnds rest := by
  obtain ⟨line, rest, hsplit, hline, hall, hrest⟩ := exists_run (· != '\n') cs
  refine ⟨line, rest, hsplit, hline, fun hmem => ?_, fun c hc => ?_⟩
  · simpa using hall '\n' hmem
  · simpa using hrest c hc

namespace Front

theorem ofDirective_parts (cs : List Char) : Parts (ofDirective cs) ('#' :: cs) := by
  obtain ⟨word, rest, rfl, hrun, hword, hrest⟩ := exists_run isWordRest cs
  unfold ofDirective
  rw [hrun]
  by_cases hdefine : word = "define".toList
  · have hspells : Spells .define ('#' :: word) ([] ++ rest) := by
      rw [hdefine]
      exact .define hrest
    dsimp only
    rw [if_pos hdefine]
    exact .directive hspells (fun _ => rfl) rfl
  · obtain ⟨dropped, after, rfl, hline, hdropped, hafter⟩ := exists_line rest
    dsimp only
    rw [if_neg hdefine, List.drop_left, hline]
    exact .directive (.directive hword hdefine hrest) (fun _ => rfl) ⟨hdropped, hafter⟩

theorem ofNumber_parts {c : Char} (hc : c.isDigit = true) (cs : List Char) :
    Parts (ofNumber c cs) (c :: cs) := by
  obtain ⟨run, rest, rfl, hrun, hdigits, hrest⟩ := exists_run Char.isDigit cs
  have hall : ∀ d ∈ c :: run, d.isDigit = true := List.forall_mem_cons.mpr ⟨hc, hdigits⟩
  unfold ofNumber
  rw [hrun]
  by_cases hsmall : decimal (c :: run) < UInt64.size
  · dsimp only
    rw [if_pos hsmall]
    exact .token (.number (List.cons_ne_nil c run) hall hrest hsmall) rfl
  · dsimp only
    rw [if_neg hsmall]
    exact .malformed (.number (List.cons_ne_nil c run) hall hrest (Nat.not_lt.mp hsmall))

theorem ofWord_parts {c : Char} (hc : isWordStart c = true) (cs : List Char) :
    Parts (ofWord c cs) (c :: cs) := by
  obtain ⟨run, rest, rfl, hrun, hword, hrest⟩ := exists_run isWordRest cs
  unfold ofWord
  rw [hrun]
  have htext : (String.ofList (c :: run)).toList = c :: run := String.toList_ofList
  obtain hmem | ⟨hident, hfree⟩ := TokenKind.ofWord_cases (String.ofList (c :: run))
  · have hspells := Spells.keyword hmem hrest
    rw [htext] at hspells
    exact .token hspells (TokenKind.isPlain_of_mem_reserved hmem)
  · have hspells := Spells.ident ⟨c, run, htext, hc, hword⟩ hfree hrest
    rw [htext, ← hident] at hspells
    have hplain : (TokenKind.ofWord (String.ofList (c :: run))).isPlain = true := by rw [hident]; rfl
    exact .token hspells hplain

theorem spells_pair {a b : Char} {kind : TokenKind} {rest : List Char} (h : TokenKind.ofPair? a b = some kind)
    (hcomment : opensComment (a :: b :: rest) = false) : Spells kind [a, b] rest := by
  obtain ⟨s, hs, htext⟩ := TokenKind.symbol?_of_ofPair? h
  have hlength : s.toList.length = 2 := by rw [htext]; rfl
  have hlongest : ∀ (kind' : TokenKind) (s' : String), kind'.symbol? = some s' →
      s'.toList <+: s.toList ++ rest → s'.length ≤ s.length := by
    intro kind' s' hs' _
    rw [← String.length_toList, ← String.length_toList, hlength]
    obtain ⟨a', -, hone | ⟨b', htwo, -⟩⟩ := TokenKind.symbol?_cases hs'
    · rw [hone]
      exact Nat.le_succ 1
    · rw [htwo]
      exact Nat.le_refl 2
  rw [← htext]
  apply Spells.symbol hs hlongest
  rw [htext]
  exact hcomment

theorem spells_single {a : Char} {kind : TokenKind} {rest : List Char} (h : TokenKind.ofChar? a = some kind)
    (hpair : rest.head?.bind (TokenKind.ofPair? a) = none) (hcomment : opensComment (a :: rest) = false) :
    Spells kind [a] rest := by
  obtain ⟨s, hs, htext⟩ := TokenKind.symbol?_of_ofChar? h
  have hlength : s.toList.length = 1 := by rw [htext]; rfl
  have hlongest : ∀ (kind' : TokenKind) (s' : String), kind'.symbol? = some s' →
      s'.toList <+: s.toList ++ rest → s'.length ≤ s.length := by
    intro kind' s' hs' hprefix
    rw [← String.length_toList, ← String.length_toList, hlength]
    obtain ⟨a', -, hone | ⟨b, htwo, hkind⟩⟩ := TokenKind.symbol?_cases hs'
    · rw [hone]
      exact Nat.le_refl 1
    · -- two characters would be a pair
      rw [htext, htwo] at hprefix
      obtain ⟨after, hafter⟩ := hprefix
      cases hafter
      rw [List.head?_cons, Option.bind_some, hkind] at hpair
      cases hpair
  rw [← htext]
  apply Spells.symbol hs hlongest
  rw [htext]
  exact hcomment

theorem ofOperator_parts {c : Char} {cs : List Char} (hblank : isBlank c = false)
    (hword : isWordStart c = false) (hdigit : c.isDigit = false) (hother : c ∉ ['#', '\n'])
    (hjoin : c = '\\' → cs.head? ≠ some '\n') (hcomment : opensComment (c :: cs) = false) :
    Parts (ofOperator c cs) (c :: cs) := by
  unfold ofOperator
  split
  next kind hpair =>
    obtain ⟨b, hb, hkind⟩ := Option.bind_eq_some_iff.mp hpair
    obtain ⟨rest, rfl⟩ := List.head?_eq_some_iff.mp hb
    obtain ⟨s, hs, -⟩ := TokenKind.symbol?_of_ofPair? hkind
    exact .token (spells_pair hkind hcomment) (TokenKind.isPlain_of_symbol? hs)
  next hpair =>
    split
    next kind hkind =>
      obtain ⟨s, hs, -⟩ := TokenKind.symbol?_of_ofChar? hkind
      exact .token (spells_single hkind hpair hcomment) (TokenKind.isPlain_of_symbol? hs)
    next hkind => exact .malformed (.character hblank hword hdigit hkind hother hjoin)

theorem ofComment_parts (cs : List Char) :
    Parts (match commentLength? cs with
      | some n => .layout (1 + n)
      | none => .malformed .unclosedComment 0) ('/' :: '*' :: cs) := by
  split
  next n hn =>
    obtain ⟨body, rest, rfl, rfl, hbody⟩ := commentLength?_some hn
    have hlayout : Layout ('/' :: '*' :: (body ++ ['*', '/'])) rest := .block hbody
    have hlength : ('*' :: (body ++ ['*', '/'])).length = 1 + (body.length + 2) := by
      rw [List.length_cons, List.length_append, Nat.add_comm]
      rfl
    rw [← hlength]
    exact .layout hlayout
  next hnone => exact .malformed (.comment (commentLength?_none hnone))

/-- The front of a text is what the first token, the layout before it or an error makes of it. -/
theorem ofChars_parts (c : Char) (cs : List Char) : Parts (ofChars c cs) (c :: cs) := by
  unfold ofChars
  by_cases hblank : isBlank c = true
  · rw [if_pos hblank]
    have hlayout : Layout [c] cs := .blank hblank
    exact .layout hlayout
  rw [if_neg hblank]
  by_cases hdigit : c.isDigit = true
  · rw [if_pos hdigit]
    exact ofNumber_parts hdigit cs
  rw [if_neg hdigit]
  by_cases hword : isWordStart c = true
  · rw [if_pos hword]
    exact ofWord_parts hword cs
  rw [if_neg hword]
  split
  next => exact .lineEnd
  next => exact ofDirective_parts _
  next rest => exact .layout .join
  next cs =>
    obtain ⟨line, rest, rfl, hline, hbody, hend⟩ := exists_line cs
    have hlayout : Layout ('/' :: '/' :: line) rest := .line hbody hend
    rw [hline, Nat.add_comm]
    exact .layout hlayout
  next cs => exact ofComment_parts cs
  next hnewline hdirective hjoin hline hblock =>
    simp only [Bool.not_eq_true] at hblank hdigit hword
    have hother : c ∉ ['#', '\n'] := by
      simpa using ⟨hdirective, hnewline⟩
    have hcontinued : c = '\\' → cs.head? ≠ some '\n' := by
      intro hc hhead
      obtain ⟨rest, hrest⟩ := List.head?_eq_some_iff.mp hhead
      exact hjoin rest hc hrest
    have hcomment : opensComment (c :: cs) = false := by
      unfold opensComment
      split
      next heq =>
        cases heq
        exact (hline _ rfl rfl).elim
      next heq =>
        cases heq
        exact (hblock _ rfl rfl).elim
      next => rfl
    exact ofOperator_parts hblank hword hdigit hother hcontinued hcomment

end Front

end Lexer
end Promela
