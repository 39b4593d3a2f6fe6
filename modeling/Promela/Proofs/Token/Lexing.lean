import Promela.Proofs.Token.Accounting

/-! The reader of tokens takes every text that is made of spellings and layout, and what it reads does not
depend on what follows: a part of a text that holds whole tokens is read alone as it is read inside. -/
namespace Promela
namespace Lexer

open Lexeme (Parted takeWhile_run blank_of_wordRest wordRest_of_digit wordRest_of_wordStart digit_of_wordStart)

/-- What holds of the next character still holds of it when less follows. -/
theorem forall_head?_of_append {P : Char → Prop} {x y : List Char} (h : ∀ c ∈ (x ++ y).head?, P c) :
    ∀ c ∈ x.head?, P c := by
  cases x with
  | nil => nofun
  | cons c x => exact h

theorem opensComment_append {x : List Char} (y : List Char) (h : opensComment (x ++ y) = false) :
    opensComment x = false := by
  unfold opensComment
  split
  · simp [opensComment] at h
  · simp [opensComment] at h
  · rfl

/-- A spelling stays one when less follows it. -/
theorem Spells.truncate {kind : TokenKind} {w x y : List Char} (h : Spells kind w (x ++ y)) : Spells kind w x := by
  have hparted : Parted (x ++ y) → Parted x := forall_head?_of_append
  cases h with
  | keyword hmem hrest => exact .keyword hmem (hparted hrest)
  | ident hword hfree hrest => exact .ident hword hfree (hparted hrest)
  | number hne hdigits hrest hsmall =>
    exact .number hne hdigits (forall_head?_of_append hrest) hsmall
  | symbol hs hlongest hcomment =>
    rw [← List.append_assoc] at hcomment
    refine .symbol hs (fun kind' s' hs' hprefix => hlongest kind' s' hs' ?_) (opensComment_append y hcomment)
    rw [← List.append_assoc]
    exact hprefix.trans (List.prefix_append _ y)
  | define hrest => exact .define (hparted hrest)
  | directive hword hne hrest => exact .directive hword hne (hparted hrest)
  | newline => exact .newline

/-- Layout stays layout when less follows it. -/
theorem Layout.truncate {w x y : List Char} (h : Layout w (x ++ y)) : Layout w x := by
  cases h with
  | blank hc => exact .blank hc
  | join => exact .join
  | line hbody hend => exact .line hbody (forall_head?_of_append hend)
  | block hbody => exact .block hbody

theorem commentLength?_block {body : List Char} (rest : List Char) (h : ¬ ['*', '/'] <:+: body ++ ['*']) :
    commentLength? (body ++ ['*', '/'] ++ rest) = some (body.length + 2) := by
  induction body with
  | nil => rfl
  | cons c body ih =>
    have hbody : ¬ ['*', '/'] <:+: body ++ ['*'] := fun hinfix => h (List.infix_cons hinfix)
    have hstart : ∀ after, c = '*' → body ++ ['*', '/'] ++ rest = '/' :: after → False := by
      rintro after rfl hafter
      cases body with
      | nil => cases hafter
      | cons d body =>
        cases hafter
        exact h ⟨[], body ++ ['*'], rfl⟩
    rw [List.cons_append, List.cons_append, commentLength?.eq_2 _ _ hstart, ih hbody]
    rfl

/-- An operator of one character is found by it. -/
theorem ofChar?_of_symbol? {kind : TokenKind} {s : String} {c : Char} (h : kind.symbol? = some s)
    (htext : s.toList = [c]) : TokenKind.ofChar? c = some kind := by
  unfold TokenKind.symbol? at h
  split at h
  case h_16 op =>
    cases h
    cases op <;> cases htext <;> rfl
  case h_17 => cases h
  all_goals
    cases h
    cases htext <;> rfl

theorem restOfLine_line {line rest : List Char} (hline : '\n' ∉ line) (hrest : LineEnds rest) :
    restOfLine (line ++ rest) = line := by
  refine (takeWhile_run (fun c hc => ?_) fun c hc => ?_).1
  · have hne : c ≠ '\n' := fun heq => hline (heq ▸ hc)
    simpa using hne
  · simpa using hrest c hc

namespace Front

theorem ofChars_comment {cs : List Char} {n : Nat} (h : commentLength? cs = some n) :
    ofChars '/' ('*' :: cs) = .layout (1 + n) := by
  unfold ofChars
  rw [if_neg (by decide), if_neg (by decide), if_neg (by decide)]
  simp only [h]

/-- Layout in front of a text is taken for layout. -/
theorem ofChars_layout {c : Char} {w rest : List Char} (h : Layout (c :: w) rest) :
    ofChars c (w ++ rest) = .layout w.length := by
  cases h with
  | blank hc => exact if_pos hc
  | join => rfl
  | @line body _ hbody hend =>
    have hfront : ofChars '/' ('/' :: (body ++ rest)) = .layout (1 + (restOfLine (body ++ rest)).length) := rfl
    rw [List.cons_append, hfront, restOfLine_line hbody hend, List.length_cons, Nat.add_comm]
  | @block body _ hbody =>
    rw [List.cons_append, ofChars_comment (commentLength?_block rest hbody)]
    simp only [List.length_cons, List.length_append, List.length_nil]
    rw [Nat.add_comm]

theorem ofWord_run {c : Char} {w rest : List Char} (hc : isWordStart c = true)
    (hw : ∀ d ∈ w, isWordRest d = true) (hrest : Parted rest) :
    ofChars c (w ++ rest) = .token (.ofWord (String.ofList (c :: w))) w.length := by
  have hblank := blank_of_wordRest (wordRest_of_wordStart hc)
  have hdigit := digit_of_wordStart hc
  unfold ofChars
  rw [hblank, hdigit, hc]
  simp only [Bool.false_eq_true, if_false, if_true, ofWord]
  rw [(takeWhile_run hw hrest).1]
  rfl

theorem ofNumber_run {c : Char} {w rest : List Char} (hdigits : ∀ d ∈ c :: w, d.isDigit = true)
    (hrest : ∀ d ∈ rest.head?, d.isDigit = false) (hsmall : decimal (c :: w) < UInt64.size) :
    ofChars c (w ++ rest) = .token (.number (decimal (c :: w))) w.length := by
  have hc := hdigits c List.mem_cons_self
  have hw : ∀ d ∈ w, d.isDigit = true := fun d hd => hdigits d (List.mem_cons_of_mem c hd)
  have hblank := blank_of_wordRest (wordRest_of_digit hc)
  unfold ofChars
  rw [hblank, hc]
  simp only [Bool.false_eq_true, if_false, if_true, ofNumber]
  rw [(takeWhile_run hw hrest).1, if_pos hsmall]
  rfl

/-- Operators and punctuation start like nothing else. -/
theorem ofChars_operator {c : Char} {cs : List Char} (hc : (TokenKind.ofChar? c).isSome)
    (hcomment : opensComment (c :: cs) = false) : ofChars c cs = ofOperator c cs := by
  have hfree : isBlank c = false ∧ c.isDigit = false ∧ isWordStart c = false ∧ c ∉ ['\n', '#', '\\'] := by
    unfold TokenKind.ofChar? at hc
    split at hc
    case h_25 => cases hc
    all_goals decide
  obtain ⟨hblank, hdigit, hword, hother⟩ := hfree
  unfold ofChars
  rw [hblank, hdigit, hword]
  simp only [Bool.false_eq_true, if_false]
  split
  case h_6 => rfl
  case h_1 | h_2 | h_3 => exact absurd (by decide) hother
  all_goals cases hcomment

/-- The longest operator is the one read. -/
theorem ofChars_symbol {kind : TokenKind} {s : String} {c : Char} {w rest : List Char}
    (hs : kind.symbol? = some s) (htext : s.toList = c :: w)
    (hlongest : ∀ (kind' : TokenKind) (s' : String), kind'.symbol? = some s' → s'.toList <+: s.toList ++ rest →
      s'.length ≤ s.length)
    (hcomment : opensComment (s.toList ++ rest) = false) : ofChars c (w ++ rest) = .token kind w.length := by
  rw [htext, List.cons_append] at hcomment
  obtain ⟨a, ha, hone | ⟨b, htwo, hpair⟩⟩ := TokenKind.symbol?_cases hs
  · have hkind := ofChar?_of_symbol? hs hone
    rw [htext] at hone
    obtain ⟨rfl, rfl⟩ := List.cons.inj hone
    have hpair : rest.head?.bind (TokenKind.ofPair? c) = none := by
      rw [Option.bind_eq_none_iff]
      intro b hb
      obtain ⟨after, rfl⟩ := List.head?_eq_some_iff.mp hb
      cases hkind' : TokenKind.ofPair? c b with
      | none => rfl
      | some kind' =>
        obtain ⟨s', hs', htext'⟩ := TokenKind.symbol?_of_ofPair? hkind'
        have hlength := hlongest kind' s' hs' (by rw [htext, htext']; exact List.prefix_append [c, b] after)
        rw [← String.length_toList, ← String.length_toList, htext, htext'] at hlength
        exact absurd hlength (Nat.not_succ_le_self 1)
    rw [ofChars_operator ha hcomment]
    unfold ofOperator
    rw [List.nil_append, hpair, hkind]
    rfl
  · rw [htext] at htwo
    cases htwo
    rw [ofChars_operator ha hcomment]
    unfold ofOperator
    rw [List.cons_append, List.head?_cons, Option.bind_some, hpair]
    rfl

/-- A spelling in front of a text is taken for its token. -/
theorem ofChars_spells {kind : TokenKind} {c : Char} {w rest : List Char} (h : Spells kind (c :: w) rest)
    (hplain : kind.isPlain = true) : ofChars c (w ++ rest) = .token kind w.length := by
  generalize htext : c :: w = text at h
  cases h with
  | @keyword word _ _ hmem hrest =>
    have hall : ∀ p ∈ TokenKind.reserved, TokenKind.ofWord p.1 = p.2 ∧
        p.1.toList.head?.any isWordStart = true ∧ p.1.toList.tail.all isWordRest = true := by decide
    obtain ⟨hkind, hstart, hword⟩ := hall _ hmem
    rw [← htext] at hstart hword
    have hfront : ofChars c (w ++ rest) = _ := ofWord_run hstart (List.all_eq_true.mp hword) hrest
    rw [hfront, htext, String.ofList_toList, hkind]
  | @ident word _ hword hfree hrest =>
    obtain ⟨c', w', htext', hstart, hword⟩ := hword
    obtain ⟨rfl, rfl⟩ := List.cons.inj (htext.trans htext')
    rw [ofWord_run hstart hword hrest, htext, String.ofList_toList]
    rcases TokenKind.ofWord_cases word with hmem | ⟨hkind, -⟩
    · exact absurd hmem (hfree _)
    · rw [hkind]
  | number _ hdigits hrest hsmall =>
    subst htext
    exact ofNumber_run hdigits hrest hsmall
  | symbol hs hlongest hcomment => exact ofChars_symbol hs htext.symm hlongest hcomment
  | define _ => cases hplain
  | directive _ _ _ => cases hplain
  | newline => cases hplain

theorem ofChars_define {rest : List Char} (h : Parted rest) : ofChars '#' ("define".toList ++ ([] ++ rest)) =
    .directive .define "define".toList.length ([] : List Char).length := by
  have hrun : ("define".toList ++ rest).takeWhile isWordRest = "define".toList :=
    (takeWhile_run (List.all_eq_true.mp (by decide)) h).1
  have hfront : ofChars '#' ("define".toList ++ ([] ++ rest)) = ofDirective ("define".toList ++ rest) := rfl
  rw [hfront, ofDirective, hrun]
  exact if_pos rfl

theorem ofChars_directive {word dropped rest : List Char} (hword : ∀ c ∈ word, isWordRest c = true)
    (hne : word ≠ "define".toList) (hparted : Parted (dropped ++ rest)) (hdropped : '\n' ∉ dropped)
    (hrest : LineEnds rest) : ofChars '#' (word ++ (dropped ++ rest)) =
      .directive (.directive ("#" ++ String.ofList word)) word.length dropped.length := by
  have hrun : (word ++ (dropped ++ rest)).takeWhile isWordRest = word := (takeWhile_run hword hparted).1
  have hfront : ofChars '#' (word ++ (dropped ++ rest)) = ofDirective (word ++ (dropped ++ rest)) := rfl
  rw [hfront, ofDirective, hrun, if_neg hne, List.drop_left, restOfLine_line hdropped hrest]

end Front

/-- Behind a directive its rest is dropped. -/
theorem tokensFrom_directive {kind : TokenKind} {c : Char} {w dropped rest : List Char}
    (h : Front.ofChars c (w ++ (dropped ++ rest)) = .directive kind w.length dropped.length) (path : String)
    (p : Position) (d : Bool) : tokensFrom path p d (c :: (w ++ (dropped ++ rest))) =
      (tokensFrom path (p.advance (c :: (w ++ dropped))) true rest).map ([⟨kind, spanOf path p w.length⟩] ++ ·) := by
  rw [tokensFrom, h]
  dsimp only
  rw [← List.append_assoc, List.take_left' List.length_append, List.drop_left' List.length_append]
  cases tokensFrom path (p.advance (c :: (w ++ dropped))) true rest <;> rfl

theorem tokensFrom_token {kind : TokenKind} {c : Char} {w rest : List Char}
    (h : Front.ofChars c (w ++ rest) = .token kind w.length) (path : String) (p : Position) (d : Bool) :
    tokensFrom path p d (c :: (w ++ rest)) =
      (tokensFrom path (p.advance (c :: w)) d rest).map ([⟨kind, spanOf path p w.length⟩] ++ ·) := by
  rw [tokensFrom, h]
  dsimp only
  rw [List.take_left, List.drop_left]
  cases tokensFrom path (p.advance (c :: w)) d rest <;> rfl

section

variable (path : String) (p : Position) (d : Bool) {w cs : List Char}

theorem tokensFrom_layout (h : Layout w cs) :
    tokensFrom path p d (w ++ cs) = tokensFrom path (p.advance w) d cs := by
  have hne : w ≠ [] := by cases h <;> simp
  obtain ⟨c, v, rfl⟩ := List.exists_cons_of_ne_nil hne
  rw [List.cons_append, tokensFrom, Front.ofChars_layout h]
  dsimp only
  rw [List.take_left, List.drop_left]

theorem tokensFrom_lineEnd : tokensFrom path p false ('\n' :: cs) = tokensFrom path (p.next '\n') false cs := by
  have hfront : Front.ofChars '\n' cs = .lineEnd := rfl
  rw [tokensFrom, hfront]
  dsimp only
  cases tokensFrom path (p.next '\n') false cs <;> rfl

theorem tokensFrom_spells {kind : TokenKind} (h : Spells kind w cs) (hplain : kind.isPlain = true) :
    ∃ s p', tokensFrom path p d (w ++ cs) = (tokensFrom path p' d cs).map (⟨kind, s⟩ :: ·) := by
  obtain ⟨c, v, rfl, -⟩ := h.start
  exact ⟨_, _, tokensFrom_token (Front.ofChars_spells h hplain) path p d⟩

end

theorem dropped_of_isPlain {kind : TokenKind} {dropped rest : List Char} (h : kind.isPlain = true)
    (hdrops : Drops kind dropped rest) : dropped = [] := by
  cases kind <;> first | exact hdrops | cases h

/-- A part of the text that is made of plain tokens and layout is read alone as it is read inside the text,
and on the line of a directive as elsewhere. -/
theorem Accounts.alone {text cs rest body : List Char} {d : Bool} {ts : List Token} (h : Accounts text d cs ts rest)
    (hcs : cs = body ++ rest) (hplain : ∀ t ∈ ts, t.kind.isPlain = true) (path : String) (p : Position) :
    ∃ us s, tokensFrom path p false body = .ok (us ++ [⟨.eof, s⟩]) ∧ us.map Token.kind = ts.map Token.kind := by
  induction h generalizing body p with
  | done d rest =>
    obtain rfl : body = [] := by simpa using hcs
    refine ⟨[], .point path p, ?_, rfl⟩
    rw [tokensFrom]
    rfl
  | @layout _ w cs _ _ hlayout h ih =>
    obtain ⟨body, rfl⟩ := h.suffix
    obtain rfl := List.append_cancel_right (hcs.symm.trans (List.append_assoc _ _ _).symm)
    rw [tokensFrom_layout path p false hlayout.truncate]
    exact ih rfl hplain _
  | @lineEnd cs _ _ h ih =>
    obtain ⟨body, rfl⟩ := h.suffix
    obtain rfl := List.append_cancel_right (hcs.symm.trans (List.cons_append ..).symm)
    rw [tokensFrom_lineEnd]
    exact ih rfl hplain _
  | @token _ t w dropped cs rest ts hspells hdrops hnewline hcovers h ih =>
    obtain ⟨ht, hts⟩ := List.forall_mem_cons.mp hplain
    obtain rfl : dropped = [] := dropped_of_isPlain ht hdrops
    obtain ⟨body, rfl⟩ := h.suffix
    rw [List.nil_append] at hcs hspells
    obtain rfl := List.append_cancel_right (hcs.symm.trans (List.append_assoc _ _ _).symm)
    obtain ⟨s, p', hp'⟩ := tokensFrom_spells path p false hspells.truncate ht
    obtain ⟨us, e, hus, hkinds⟩ := ih rfl hts p'
    refine ⟨⟨t.kind, s⟩ :: us, e, ?_, ?_⟩
    · rw [hp', hus]
      rfl
    · rw [List.map_cons, List.map_cons, hkinds]

theorem ofPair?_lineEnd (c : Char) : TokenKind.ofPair? c '\r' = none ∧ TokenKind.ofPair? c '\n' = none := by
  constructor <;>
  · unfold TokenKind.ofPair?
    split <;> first | rfl | contradiction

theorem ne_newline_of_isPlain {kind : TokenKind} (h : kind.isPlain = true) : kind ≠ .newline := by
  rintro rfl
  cases h

/-- Only the end of a line is spelled with one. -/
theorem Spells.newline_not_mem {kind : TokenKind} {w rest : List Char} (h : Spells kind w rest)
    (hkind : kind ≠ .newline) : '\n' ∉ w := by
  cases h with
  | keyword hmem _ =>
    have hall : ∀ p ∈ TokenKind.reserved, '\n' ∉ p.1.toList := by decide
    exact hall _ hmem
  | @ident word _ hword _ _ =>
    obtain ⟨c, v, htext, hc, hv⟩ := hword
    have hall : ∀ d ∈ c :: v, isWordRest d = true :=
      List.forall_mem_cons.mpr ⟨Lexeme.wordRest_of_wordStart hc, hv⟩
    rw [htext]
    exact fun hmem => absurd (hall _ hmem) (by decide)
  | number _ hdigits _ _ => exact fun hmem => absurd (hdigits _ hmem) (by decide)
  | symbol hs _ _ =>
    obtain ⟨a, ha, htext⟩ := TokenKind.symbol?_cases hs
    have hne : '\n' ≠ a := by
      rintro rfl
      cases ha
    rcases htext with hone | ⟨b, htwo, hpair⟩
    · simpa [hone] using hne
    · have hne' : '\n' ≠ b := by
        rintro rfl
        rw [(ofPair?_lineEnd a).2] at hpair
        cases hpair
      simp [htwo, hne, hne']
  | define _ => decide
  | directive hword _ _ => exact fun hmem => absurd (hword _ (by simpa using hmem)) (by decide)
  | newline => exact absurd rfl hkind

end Lexer
end Promela
