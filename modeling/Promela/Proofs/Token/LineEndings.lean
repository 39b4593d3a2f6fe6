import Mathlib.Data.List.Basic
import Mathlib.Logic.Relation
import Promela.Proofs.Token.Slices

/-! Texts whose lines end with a carriage return and a line feed. A carriage return is a blank, and a comment or
the rest of a directive takes it in, so the tokens stay where they are. Only the join of two lines is lost: a
backslash before a carriage return joins nothing. -/
namespace Promela

/-- The text with a carriage return before each line feed. -/
def crlf (cs : List Char) : List Char := cs.flatMap fun c => if c = '\n' then ['\r', '\n'] else [c]

/-- The source text with a carriage return before each line feed. -/
def withReturns (source : String) : String := String.ofList (crlf source.toList)

/-- The token one byte further to the right if it is the end of a line, behind the carriage return. -/
def Token.pastReturn (t : Token) : Token :=
  if t.kind = .newline then
    ⟨t.kind, ⟨t.span.path, ⟨t.span.start.line, t.span.start.column + 1⟩, ⟨t.span.stop.line, t.span.stop.column + 1⟩⟩⟩
  else t

section

variable {c : Char} {cs ds : List Char}

@[simp] theorem crlf_nil : crlf [] = [] := rfl

@[simp] theorem crlf_newline : crlf ('\n' :: cs) = '\r' :: '\n' :: crlf cs := rfl

theorem crlf_cons (h : c ≠ '\n') : crlf (c :: cs) = c :: crlf cs := by
  rw [crlf, List.flatMap_cons, if_neg h]
  rfl

theorem crlf_append : crlf (cs ++ ds) = crlf cs ++ crlf ds := List.flatMap_append

theorem crlf_eq_self (h : '\n' ∉ cs) : crlf cs = cs := by
  induction cs with
  | nil => rfl
  | cons c cs ih =>
    have hc : c ≠ '\n' := fun hc => h (hc ▸ List.mem_cons_self)
    rw [crlf_cons hc, ih fun hcs => h (List.mem_cons_of_mem c hcs)]

theorem Position.advance_crlf (p : Position) (cs : List Char) : p.advance (crlf cs) = p.advance cs := by
  induction cs generalizing p with
  | nil => rfl
  | cons c cs ih =>
    by_cases hc : c = '\n'
    · subst hc
      exact ih ((p.next '\r').next '\n')
    · rw [crlf_cons hc]
      exact ih (p.next c)

theorem newline_not_mem_charBytes (h : c ≠ '\n') : '\n' ∉ charBytes c := by
  intro hmem
  rcases charBytes_cases c with hbyte | hlarge
  · rw [hbyte, List.mem_singleton] at hmem
    exact h hmem.symm
  · exact absurd (hlarge _ hmem) (by decide)

/-- Bytes of line feeds are line feeds, so it makes no difference where they are replaced. -/
theorem sourceBytes_withReturns (source : String) : sourceBytes (withReturns source) = crlf (sourceBytes source) := by
  have hbytes := sourceBytes_ofList source.toList
  rw [String.ofList_toList] at hbytes
  rw [hbytes, withReturns, sourceBytes_ofList, crlf, List.flatMap_assoc, crlf, List.flatMap_assoc]
  refine List.flatMap_congr fun c _ => ?_
  by_cases hc : c = '\n'
  · subst hc
    decide
  · have hself : crlf (charBytes c) = charBytes c := crlf_eq_self (newline_not_mem_charBytes hc)
    rw [if_neg hc, List.flatMap_singleton]
    exact hself.symm

end

namespace Lexer

open Lexeme (Parted takeWhile_run)

/-! ### One front of both texts -/

section

variable {c : Char} {cs : List Char}

theorem takeWhile_crlf {q : Char → Bool} (hreturn : q '\r' = false) (hnewline : q '\n' = false) (cs : List Char) :
    (crlf cs).takeWhile q = cs.takeWhile q := by
  induction cs with
  | nil => rfl
  | cons c cs ih =>
    by_cases hc : c = '\n'
    · subst hc
      rw [crlf_newline, List.takeWhile_cons_of_neg (by simp [hreturn]), List.takeWhile_cons_of_neg (by simp [hnewline])]
    · rw [crlf_cons hc, List.takeWhile_cons, List.takeWhile_cons, ih]

theorem head?_crlf_bind (c : Char) (cs : List Char) :
    (crlf cs).head?.bind (TokenKind.ofPair? c) = cs.head?.bind (TokenKind.ofPair? c) := by
  cases cs with
  | nil => rfl
  | cons d cs =>
    by_cases hd : d = '\n'
    · subst hd
      simp [ofPair?_lineEnd]
    · rw [crlf_cons hd]
      rfl

theorem head?_crlf_ne (cs : List Char) : (crlf cs).head? ≠ some '\n' := by
  cases cs with
  | nil => exact nofun
  | cons c cs =>
    by_cases hc : c = '\n'
    · subst hc
      simp
    · simpa [crlf_cons hc] using hc

theorem opensComment_crlf (c : Char) (cs : List Char) : opensComment (c :: crlf cs) = opensComment (c :: cs) := by
  cases cs with
  | nil => rfl
  | cons d cs =>
    by_cases hd : d = '\n'
    · subst hd
      simp [opensComment]
    · rw [crlf_cons hd]
      exact opensComment_congr c d _ _

/-- Two characters that stand side by side stood side by side before, but for a line end. -/
theorem infix_of_infix_crlf {a b : Char} (ha : a ≠ '\r') (hb : b ≠ '\r') (hnewline : a ≠ '\n')
    (h : [a, b] <:+: crlf cs) : [a, b] <:+: cs := by
  induction cs with
  | nil => exact h
  | cons c cs ih =>
    by_cases hc : c = '\n'
    · subst hc
      rw [crlf_newline, List.infix_cons_iff, List.infix_cons_iff] at h
      rcases h with h | h | h
      · exact absurd (List.cons_prefix_cons.mp h).1 ha
      · exact absurd (List.cons_prefix_cons.mp h).1 hnewline
      · exact List.infix_cons (ih h)
    · rw [crlf_cons hc, List.infix_cons_iff] at h
      rcases h with h | h
      · obtain ⟨rfl, hnext⟩ := List.cons_prefix_cons.mp h
        cases cs with
        | nil => cases List.prefix_nil.mp hnext
        | cons d cs =>
          by_cases hd : d = '\n'
          · subst hd
            exact absurd (List.cons_prefix_cons.mp hnext).1 hb
          · rw [crlf_cons hd] at hnext
            obtain ⟨rfl, -⟩ := List.cons_prefix_cons.mp hnext
            exact (List.prefix_append [a, b] cs).isInfix
      · exact List.infix_cons (ih h)

theorem commentLength?_crlf_eq_none (h : commentLength? cs = none) : commentLength? (crlf cs) = none := by
  cases hlength : commentLength? (crlf cs) with
  | none => rfl
  | some n =>
    obtain ⟨body, rest, hsplit, -, -⟩ := commentLength?_some hlength
    have hinfix : ['*', '/'] <:+: crlf cs := ⟨body, rest, by rw [hsplit]⟩
    exact absurd (infix_of_infix_crlf (by decide) (by decide) (by decide) hinfix) (commentLength?_none h)

/-- The rest of a line takes in the carriage return behind it; elsewhere this is a blank. -/
theorem exists_lineTail {rest : List Char} (h : LineEnds rest) : ∃ tail rest', crlf rest = tail ++ rest' ∧
    '\n' ∉ tail ∧ LineEnds rest' ∧ ∀ path p d, tokensFrom path p d (crlf rest) =
      tokensFrom path (p.advance tail) d rest' := by
  cases rest with
  | nil => exact ⟨[], [], rfl, List.not_mem_nil, nofun, fun _ _ _ => rfl⟩
  | cons c rest =>
    obtain rfl : c = '\n' := h c rfl
    have hblank : Layout ['\r'] ('\n' :: crlf rest) := .blank rfl
    exact ⟨['\r'], '\n' :: crlf rest, rfl, by decide, fun c hc => by cases hc; rfl,
      fun path p d => tokensFrom_layout path p d hblank⟩

namespace Front

theorem ofNumber_crlf : ofNumber c (crlf cs) = ofNumber c cs := by
  unfold ofNumber
  rw [takeWhile_crlf rfl rfl]

theorem ofWord_crlf : ofWord c (crlf cs) = ofWord c cs := by
  unfold ofWord
  rw [takeWhile_crlf rfl rfl]

theorem ofOperator_crlf : ofOperator c (crlf cs) = ofOperator c cs := by
  unfold ofOperator
  rw [head?_crlf_bind]

/-- A character that starts none of the other fronts is looked up among the operators. -/
theorem ofChars_other (hblank : isBlank c = false) (hdigit : c.isDigit = false) (hword : isWordStart c = false)
    (hother : c ∉ ['\n', '#']) (hjoin : c = '\\' → cs.head? ≠ some '\n') (hcomment : opensComment (c :: cs) = false) :
    ofChars c cs = ofOperator c cs := by
  unfold ofChars
  rw [hblank, hdigit, hword]
  simp only [Bool.false_eq_true, if_false]
  split
  next => exact absurd (by decide) hother
  next => exact absurd (by decide) hother
  next => exact absurd rfl (hjoin rfl)
  next => cases hcomment
  next => cases hcomment
  next => rfl

theorem ofChars_unclosed (h : commentLength? cs = none) : ofChars '/' ('*' :: cs) = .malformed .unclosedComment 0 := by
  unfold ofChars
  rw [if_neg (by decide), if_neg (by decide), if_neg (by decide)]
  simp only [h]

/-- Tokens and errors are the same in front of both texts. -/
theorem ofChars_crlf (hc : c ≠ '\n') (hjoin : c = '\\' → cs.head? ≠ some '\n')
    (h : (∃ kind n, ofChars c cs = .token kind n) ∨ ∃ how n, ofChars c cs = .malformed how n) :
    ofChars c (crlf cs) = ofChars c cs := by
  by_cases hblank : isBlank c = true
  · unfold ofChars
    rw [if_pos hblank, if_pos hblank]
  simp only [Bool.not_eq_true] at hblank
  by_cases hdigit : c.isDigit = true
  · unfold ofChars
    rw [hblank, hdigit]
    exact ofNumber_crlf
  simp only [Bool.not_eq_true] at hdigit
  by_cases hword : isWordStart c = true
  · unfold ofChars
    rw [hblank, hdigit, hword]
    exact ofWord_crlf
  simp only [Bool.not_eq_true] at hword
  by_cases hdirective : c = '#'
  · -- what follows is a directive
    subst hdirective
    have hfront : ofChars '#' cs = ofDirective cs := rfl
    rw [hfront, ofDirective] at h
    split at h <;> rcases h with ⟨_, _, h⟩ | ⟨_, _, h⟩ <;> cases h
  cases hcomment : opensComment (c :: cs) with
  | false =>
    have hcomment' : opensComment (c :: crlf cs) = false := by rw [opensComment_crlf, hcomment]
    have hother : c ∉ ['\n', '#'] := by simp [hc, hdirective]
    rw [ofChars_other hblank hdigit hword hother hjoin hcomment,
      ofChars_other hblank hdigit hword hother (fun _ => head?_crlf_ne cs) hcomment', ofOperator_crlf]
  | true =>
    unfold opensComment at hcomment
    split at hcomment
    next line heq =>
      cases heq
      have hfront : ofChars '/' ('/' :: line) = .layout (1 + (restOfLine line).length) := rfl
      rw [hfront] at h
      rcases h with ⟨_, _, h⟩ | ⟨_, _, h⟩ <;> cases h
    next body heq =>
      cases heq
      cases hlength : commentLength? body with
      | some n =>
        rw [ofChars_comment hlength] at h
        rcases h with ⟨_, _, h⟩ | ⟨_, _, h⟩ <;> cases h
      | none =>
        rw [crlf_cons (by decide), ofChars_unclosed hlength, ofChars_unclosed (commentLength?_crlf_eq_none hlength)]
    next => cases hcomment

end Front

end

/-! ### Fronts one behind the other -/

/-- What follows the front, unless it is malformed. -/
def Front.rest? (cs : List Char) : Front → Option (List Char)
  | layout n | token _ n => some (cs.drop n)
  | lineEnd => some cs
  | directive _ n dropped => some (cs.drop (n + dropped))
  | malformed .. => none

/-- One front, and what follows it. -/
def Passes (text rest : List Char) : Prop := ∃ c cs, text = c :: cs ∧ (Front.ofChars c cs).rest? cs = some rest

theorem Front.rest?_eq_none {front : Front} {cs : List Char} (h : front.rest? cs = none) :
    ∃ how n, front = malformed how n := by
  cases front with
  | malformed how n => exact ⟨how, n, rfl⟩
  | _ => cases h

theorem Passes.length_lt {text rest : List Char} (h : Passes text rest) : rest.length < text.length := by
  obtain ⟨c, cs, rfl, hrest⟩ := h
  cases hfront : Front.ofChars c cs with
  | malformed how n => simp [hfront, Front.rest?] at hrest
  | _ =>
    simp only [hfront, Front.rest?, Option.some.injEq] at hrest
    simp only [← hrest, List.length_cons, List.length_drop]
    omega

/-- The reader comes from the one text to the other. -/
def Comes : List Char → List Char → Prop := Relation.ReflTransGen Passes

/-- The reader comes to a backslash that joins two lines. -/
def JoinsLines (text : List Char) : Prop := ∃ rest, Comes text ('\\' :: '\n' :: rest)

theorem not_joinsLines_nil : ¬ JoinsLines [] := by
  rintro ⟨rest, h⟩
  rcases h.cases_head with h | ⟨_, ⟨_, _, h, -⟩, -⟩ <;> cases h

theorem joinsLines_of_passes {text rest : List Char} (hpasses : Passes text rest)
    (hfront : ∀ rest, text ≠ '\\' :: '\n' :: rest) : JoinsLines text ↔ JoinsLines rest := by
  constructor
  · rintro ⟨after, h⟩
    rcases h.cases_head with h | ⟨rest', ⟨c, cs, htext, hrest'⟩, h⟩
    · exact absurd h (hfront after)
    · obtain ⟨c', cs', htext', hrest⟩ := hpasses
      cases htext.symm.trans htext'
      cases hrest.symm.trans hrest'
      exact ⟨after, h⟩
  · exact fun ⟨after, h⟩ => ⟨after, .head hpasses h⟩

theorem not_joinsLines_of_malformed {c : Char} {cs : List Char} (h : (Front.ofChars c cs).rest? cs = none) :
    ¬ JoinsLines (c :: cs) := by
  rintro ⟨rest, hcomes⟩
  rcases hcomes.cases_head with heq | ⟨_, ⟨_, _, heq, hrest⟩, -⟩
  · cases heq
    cases h
  · cases heq
    rw [h] at hrest
    cases hrest

/-- The reader goes on behind the same front of both texts, in the same place, with the same tokens before it
but for the ends of lines. -/
def Parallel (text rest : List Char) : Prop := ∀ path p d, ∃ pre ts d', text = pre ++ rest ∧
  tokensFrom path p d text = (tokensFrom path (p.advance pre) d' rest).map (ts ++ ·) ∧
  tokensFrom path p d (crlf text) =
    (tokensFrom path (p.advance pre) d' (crlf rest)).map (ts.map Token.pastReturn ++ ·)

theorem parallel_lineEnd (rest : List Char) : Parallel ('\n' :: rest) rest := by
  intro path p d
  let ends (p : Position) : List Token := if d then [⟨.newline, .point path p⟩] else []
  have hread : ∀ (p : Position) (cs : List Char), tokensFrom path p d ('\n' :: cs) =
      (tokensFrom path (p.next '\n') false cs).map (ends p ++ ·) := by
    intro p cs
    have hfront : Front.ofChars '\n' cs = .lineEnd := rfl
    rw [tokensFrom, hfront]
    dsimp only
    cases tokensFrom path (p.next '\n') false cs <;> cases d <;> rfl
  have hreturn : Layout ['\r'] ('\n' :: crlf rest) := .blank rfl
  have hends : ends (p.next '\r') = (ends p).map Token.pastReturn := by
    cases d <;> rfl
  refine ⟨['\n'], ends p, false, rfl, hread p rest, ?_⟩
  rw [crlf_newline, ← hends]
  exact (tokensFrom_layout path p d hreturn).trans (hread (p.next '\r') (crlf rest))

theorem parallel_layout {w rest : List Char} (h : Layout w rest) (hjoin : w ≠ ['\\', '\n']) :
    Parallel (w ++ rest) rest := by
  intro path p d
  have hmap : ∀ r : Except Rejection (List Token), r.map (([] : List Token) ++ ·) = r := by
    rintro (_ | _) <;> rfl
  refine ⟨w, [], d, rfl, ?_, ?_⟩
  · rw [hmap, tokensFrom_layout path p d h]
  · rw [List.map_nil, hmap, crlf_append]
    cases h with
    | @blank c _ hc =>
      have hne : c ≠ '\n' := by
        rintro rfl
        cases hc
      have hblank : Layout [c] (crlf rest) := .blank hc
      rw [crlf_cons hne]
      exact tokensFrom_layout path p d hblank
    | join => exact absurd rfl hjoin
    | @line body _ hbody hend =>
      obtain ⟨tail, rest', hsplit, htail, hend', hread⟩ := exists_lineTail hend
      have hline : Layout ('/' :: '/' :: (body ++ tail)) rest' := .line (by simp [hbody, htail]) hend'
      have hplain : '\n' ∉ '/' :: '/' :: body := by simp [hbody]
      rw [hread, crlf_eq_self hplain, hsplit, ← List.append_assoc]
      have hread' := tokensFrom_layout path p d hline
      rw [← Position.advance_append]
      exact hread'
    | @block body _ hbody =>
      have hbody' : ¬ ['*', '/'] <:+: crlf body ++ ['*'] := by
        intro hinfix
        have hstar : crlf (body ++ ['*']) = crlf body ++ ['*'] := crlf_append
        rw [← hstar] at hinfix
        exact hbody (infix_of_infix_crlf (by decide) (by decide) (by decide) hinfix)
      have hblock : Layout ('/' :: '*' :: (crlf body ++ ['*', '/'])) (crlf rest) := .block hbody'
      have htext : crlf ('/' :: '*' :: (body ++ ['*', '/'])) = '/' :: '*' :: (crlf body ++ ['*', '/']) := by
        rw [crlf_cons (by decide), crlf_cons (by decide), crlf_append]
        rfl
      rw [← Position.advance_crlf p ('/' :: '*' :: (body ++ ['*', '/'])), htext]
      exact tokensFrom_layout path p d hblock

theorem parted_crlf (h : Parted cs) : Parted (crlf cs) := by
  cases cs with
  | nil => exact h
  | cons c cs =>
    by_cases hc : c = '\n'
    · subst hc
      exact .cons rfl
    · rw [crlf_cons hc]
      exact .cons (h c rfl)

theorem parallel_define {rest : List Char} (h : Parted rest) : Parallel ("#define".toList ++ rest) rest := by
  intro path p d
  have hread : ∀ cs, Parted cs → tokensFrom path p d ("#define".toList ++ cs) =
      (tokensFrom path (p.advance "#define".toList) true cs).map ([⟨.define, spanOf path p 6⟩] ++ ·) :=
    fun cs hcs => tokensFrom_directive (Front.ofChars_define hcs) path p d
  refine ⟨"#define".toList, [⟨.define, spanOf path p 6⟩], true, rfl, hread rest h, ?_⟩
  rw [crlf_append]
  exact hread (crlf rest) (parted_crlf h)

/-- The word of a directive is the same in both texts. What is dropped behind it goes up to the line end. -/
theorem parallel_directive {word dropped rest : List Char} (hword : ∀ c ∈ word, isWordRest c = true)
    (hne : word ≠ "define".toList) (hparted : Parted (dropped ++ rest)) (hdropped : '\n' ∉ dropped)
    (hrest : LineEnds rest) : Parallel ('#' :: (word ++ (dropped ++ rest))) rest := by
  intro path p d
  have hplain : '\n' ∉ word := fun hmem => absurd (hword _ hmem) (by decide)
  obtain ⟨tail, rest', hsplit, htail, hrest', hread⟩ := exists_lineTail hrest
  have hcrlf : crlf (dropped ++ rest) = (dropped ++ tail) ++ rest' := by
    rw [crlf_append, crlf_eq_self hdropped, hsplit, List.append_assoc]
  have hparted' : Parted ((dropped ++ tail) ++ rest') := hcrlf ▸ parted_crlf hparted
  let kind : TokenKind := .directive ("#" ++ String.ofList word)
  refine ⟨'#' :: (word ++ dropped), [⟨kind, spanOf path p word.length⟩], true, by simp, ?_, ?_⟩
  · exact tokensFrom_directive (Front.ofChars_directive hword hne hparted hdropped hrest) path p d
  · have hfront := Front.ofChars_directive hword hne hparted' (by simp [hdropped, htail]) hrest'
    have hdirective := tokensFrom_directive hfront path p d
    rw [crlf_cons (by decide), crlf_append, crlf_eq_self hplain, hcrlf, hread, ← Position.advance_append,
      List.cons_append, List.append_assoc word dropped tail]
    exact hdirective

theorem pastReturn_of_isPlain {t : Token} (h : t.kind.isPlain = true) : t.pastReturn = t := by
  refine if_neg fun heq => ?_
  rw [heq] at h
  cases h

/-- The spelling of a token holds no line end, and a carriage return behind it does not prolong it. -/
theorem parallel_token {kind : TokenKind} {c : Char} {w rest : List Char}
    (hfront : Front.ofChars c (w ++ rest) = .token kind w.length) (hspells : Spells kind (c :: w) rest)
    (hplain : kind.isPlain = true) (hjoin : c ≠ '\\') : Parallel (c :: (w ++ rest)) rest := by
  intro path p d
  have hnewline := hspells.newline_not_mem (ne_newline_of_isPlain hplain)
  have hne : c ≠ '\n' := fun hc => hnewline (hc ▸ List.mem_cons_self)
  have hw : '\n' ∉ w := fun hmem => hnewline (List.mem_cons_of_mem c hmem)
  have hfront' : Front.ofChars c (w ++ crlf rest) = .token kind w.length := by
    have hsame := Front.ofChars_crlf hne (fun hc => absurd hc hjoin) (.inl ⟨kind, w.length, hfront⟩)
    rwa [hfront, crlf_append, crlf_eq_self hw] at hsame
  let t : Token := ⟨kind, spanOf path p w.length⟩
  have hunmoved : [t].map Token.pastReturn = [t] := by rw [List.map_singleton, pastReturn_of_isPlain hplain]
  refine ⟨c :: w, [t], d, rfl, tokensFrom_token hfront path p d, ?_⟩
  rw [hunmoved, crlf_cons hne, crlf_append, crlf_eq_self hw]
  exact tokensFrom_token hfront' path p d

/-- What makes the line of a directive go on is a directive. -/
theorem parallel_of_goesOn {kind : TokenKind} {c : Char} {w dropped rest : List Char}
    (hspells : Spells kind (c :: w) (dropped ++ rest)) (hgoes : goesOn kind false = true)
    (hdrops : Drops kind dropped rest) : Parallel (c :: (w ++ (dropped ++ rest))) rest := by
  by_cases hplain : kind.isPlain = true
  · rw [goesOn_of_isPlain hplain] at hgoes
    cases hgoes
  generalize htext : c :: w = text at hspells
  cases hspells with
  | keyword hmem _ => exact absurd (TokenKind.isPlain_of_mem_reserved hmem) hplain
  | ident _ _ _ => exact absurd rfl hplain
  | number _ _ _ _ => exact absurd rfl hplain
  | symbol hs _ _ => exact absurd (TokenKind.isPlain_of_symbol? hs) hplain
  | define hparted =>
    cases htext
    obtain rfl : dropped = [] := hdrops
    exact parallel_define hparted
  | directive hword hne hparted =>
    cases htext
    exact parallel_directive hword hne hparted hdrops.1 hdrops.2
  | newline => cases hgoes

/-- One front, whatever it is, unless it is malformed or joins two lines. -/
theorem parallel_of_passes {text rest : List Char} (h : Passes text rest)
    (hjoin : ∀ rest, text ≠ '\\' :: '\n' :: rest) : Parallel text rest := by
  obtain ⟨c, cs, rfl, hrest⟩ := h
  have hparts := Front.ofChars_parts c cs
  generalize hfront : Front.ofChars c cs = front at hparts hrest
  cases hparts with
  | @layout _ w after hlayout =>
    obtain rfl : after = rest := by simpa [Front.rest?] using hrest
    refine parallel_layout hlayout fun hw => hjoin after ?_
    obtain ⟨rfl, rfl⟩ := List.cons.inj hw
    rfl
  | lineEnd =>
    cases hrest
    exact parallel_lineEnd _
  | @directive kind _ w dropped after hspells hgoes hdrops =>
    obtain rfl : after = rest := by simpa [Front.rest?, ← List.append_assoc] using hrest
    exact parallel_of_goesOn hspells (hgoes false) hdrops
  | @token kind _ w after hspells hplain =>
    obtain rfl : after = rest := by simpa [Front.rest?] using hrest
    refine parallel_token hfront hspells hplain ?_
    rintro rfl
    exact not_spells_of_other rfl rfl rfl (by decide) hspells
  | malformed hstuck => cases hrest

/-- Two runs of the reader, over a text and over the same text with carriage returns. They go on side by side up to
the end, an error or the first join of two lines. -/
theorem tokensFrom_crlf (path : String) (p : Position) (d : Bool) (text : List Char) :
    (¬ JoinsLines text ∧ tokensFrom path p d (crlf text) = (tokensFrom path p d text).map (List.map Token.pastReturn)) ∨
    ∃ pre rest, text = pre ++ '\\' :: '\n' :: rest ∧ Comes text ('\\' :: '\n' :: rest) ∧
      tokensFrom path p d (crlf text) =
        .error (.ofMalformed (.unexpectedCharacter '\\') (.point path (p.advance pre))) := by
  induction hlength : text.length using Nat.strongRecOn generalizing text p d with
  | ind length ih =>
    subst hlength
    cases text with
    | nil => exact .inl ⟨not_joinsLines_nil, by rw [crlf_nil, tokensFrom]; rfl⟩
    | cons c cs =>
      by_cases hjoin : ∃ rest, c :: cs = '\\' :: '\n' :: rest
      · obtain ⟨rest, htext⟩ := hjoin
        cases htext
        have hfront : Front.ofChars '\\' ('\r' :: '\n' :: crlf rest) = .malformed (.unexpectedCharacter '\\') 0 := rfl
        refine .inr ⟨[], rest, rfl, .refl, ?_⟩
        rw [crlf_cons (by decide), crlf_newline, tokensFrom, hfront]
        rfl
      have hjoin : ∀ rest, c :: cs ≠ '\\' :: '\n' :: rest := fun rest h => hjoin ⟨rest, h⟩
      cases hrest : (Front.ofChars c cs).rest? cs with
      | none =>
        obtain ⟨how, n, hfront⟩ := Front.rest?_eq_none hrest
        have hne : c ≠ '\n' := by
          rintro rfl
          cases hrest
        have hfront' : Front.ofChars c (crlf cs) = .malformed how n := by
          rw [Front.ofChars_crlf hne (fun hc hhead => ?_) (.inr ⟨how, n, hfront⟩), hfront]
          obtain ⟨rest, rfl⟩ := List.head?_eq_some_iff.mp hhead
          exact hjoin rest (by rw [hc])
        refine .inl ⟨not_joinsLines_of_malformed hrest, ?_⟩
        rw [crlf_cons hne, tokensFrom, hfront', tokensFrom, hfront]
        rfl
      | some rest =>
        have hpasses : Passes (c :: cs) rest := ⟨c, cs, rfl, hrest⟩
        obtain ⟨pre, ts, d', htext, hread, hread'⟩ := parallel_of_passes hpasses hjoin path p d
        have hlt : rest.length < (c :: cs).length := hpasses.length_lt
        rw [joinsLines_of_passes hpasses hjoin, hread, hread']
        rcases ih _ hlt (p.advance pre) d' rest rfl with ⟨hnone, hsame⟩ | ⟨pre', after, rfl, hcomes, herror⟩
        · refine .inl ⟨hnone, ?_⟩
          rw [hsame]
          cases tokensFrom path (p.advance pre) d' rest <;> simp [Except.map]
        · refine .inr ⟨pre ++ pre', after, by rw [htext, List.append_assoc], .head hpasses hcomes, ?_⟩
          rw [herror, Position.advance_append]
          rfl

end Lexer

open Lexer

/-- Line feeds with carriage returns before them are read like line feeds: the same tokens in the same places, where
only the end of the line of a directive moves behind the carriage return, or the same error. The one exception is the
join of two lines: where the reader comes to one, the text with carriage returns is rejected there. -/
theorem tokens_withReturns (source path : String) :
    (¬ JoinsLines (sourceBytes source) ∧
      tokens (withReturns source) path = (tokens source path).map (List.map Token.pastReturn)) ∨
    ∃ pre rest, sourceBytes source = pre ++ '\\' :: '\n' :: rest ∧ Comes (sourceBytes source) ('\\' :: '\n' :: rest) ∧
      tokens (withReturns source) path =
        .error (.ofMalformed (.unexpectedCharacter '\\') (.point path (Position.first.advance pre))) := by
  rw [tokens, sourceBytes_withReturns]
  exact tokensFrom_crlf path .first false (sourceBytes source)

/-- A macro over two lines is read, and with carriage returns it is rejected at the backslash. -/
theorem tokens_withReturns_of_join :
    withReturns "#define A \\\n1\n" = "#define A \\\r\n1\r\n" ∧
      tokens "#define A \\\n1\n" "m" = .ok
        [⟨.define, ⟨"m", ⟨1, 1⟩, ⟨1, 7⟩⟩⟩, ⟨.ident "A", .point "m" ⟨1, 9⟩⟩, ⟨.number 1, .point "m" ⟨2, 1⟩⟩,
          ⟨.newline, .point "m" ⟨2, 2⟩⟩, ⟨.eof, .point "m" ⟨3, 1⟩⟩] ∧
      tokens (withReturns "#define A \\\n1\n") "m" =
        .error (.ofMalformed (.unexpectedCharacter '\\') (.point "m" ⟨1, 11⟩)) :=
  ⟨by decide +kernel, by decide +kernel, by decide +kernel⟩

end Promela
