import Promela.Proofs.Token.Slices

/-! Reading tokens undoes writing them, whatever the layout: a text that spells tokens one behind the other,
with blanks, line ends, joins of lines and comments between them, is read as these tokens. -/
namespace Promela

namespace TokenKind

/-- The tokens that a text can hold, but for its end and for directives that are not read on. -/
inductive Written : TokenKind → Prop
  | reserved {word : String} {kind : TokenKind} : (word, kind) ∈ TokenKind.reserved → Written kind
  | ident {word : String} : Lexeme.IsWord word → (∀ kind, (word, kind) ∉ TokenKind.reserved) → Written (ident word)
  | number {n : Nat} : n < UInt64.size → Written (number n)
  | symbol {kind : TokenKind} {s : String} : kind.symbol? = some s → Written kind
  | define : Written define
  | newline : Written newline

/-- Whether the token may come next, on the line of a directive or elsewhere. -/
def mayStand (inDirective : Bool) : TokenKind → Bool
  | define => !inDirective
  | newline => inDirective
  | directive _ => false
  | _ => true

end TokenKind

namespace Lexer

/-- Each directive is ended by a line end before the next one starts and before the tokens end. -/
def Alternates (inDirective : Bool) : List TokenKind → Prop
  | [] => inDirective = false
  | k :: ks => k.mayStand inDirective = true ∧ Alternates (goesOn k inDirective) ks

/-- A blank or the join of two lines, or the end of a line that is not the line of a directive. -/
inductive Break : Bool → List Char → Prop
  | blank {d : Bool} {c : Char} : isBlank c = true → Break d [c]
  | join {d : Bool} : Break d ['\\', '\n']
  | lineEnd : Break false ['\n']

/-- A comment. One that goes up to the end of the line cannot stand on the line of a directive. -/
inductive Comment : Bool → List Char → Prop
  | block {d : Bool} {body : List Char} : ¬ ['*', '/'] <:+: body ++ ['*'] →
      Comment d ('/' :: '*' :: (body ++ ['*', '/']))
  | line {body : List Char} : '\n' ∉ body → Comment false ('/' :: '/' :: (body ++ ['\n']))

/-- What stands between two tokens: a break, and then breaks and comments in any order. -/
inductive Separator (d : Bool) : List Char → Prop
  | opening {w : List Char} : Break d w → Separator d w
  | withBreak {s w : List Char} : Separator d s → Break d w → Separator d (s ++ w)
  | withComment {s w : List Char} : Separator d s → Comment d w → Separator d (s ++ w)

/-- The text spells the tokens in turn, with separators between them. It starts on the line of a directive or
elsewhere. -/
inductive Laid : Bool → List TokenKind → List Char → Prop
  | nil : Laid false [] []
  | last {d : Bool} {k : TokenKind} {w : List Char} : Spells k w [] → k.mayStand d = true → goesOn k d = false →
      Laid d [k] w
  | cons {d : Bool} {k : TokenKind} {ks : List TokenKind} {w s text : List Char} : Spells k w [] →
      k.mayStand d = true → Separator (goesOn k d) s → Laid (goesOn k d) ks text → Laid d (k :: ks) (w ++ (s ++ text))

/-- The characters that a break starts with. -/
def breaks : List Char := [' ', '\t', '\r', '\n', '\\']

/-- A text in front of which every token has ended. -/
def Apart (rest : List Char) : Prop := ∀ c ∈ rest.head?, c ∈ breaks

theorem mem_breaks_of_isBlank {c : Char} (h : isBlank c = true) : c ∈ breaks := by
  simp only [isBlank, Bool.or_eq_true, beq_iff_eq] at h
  obtain (rfl | rfl) | rfl := h <;> decide

theorem Break.apart {d : Bool} {w : List Char} (h : Break d w) : ∃ c v, w = c :: v ∧ c ∈ breaks := by
  cases h with
  | blank hc => exact ⟨_, _, rfl, mem_breaks_of_isBlank hc⟩
  | join | lineEnd => exact ⟨_, _, rfl, by decide⟩

theorem Separator.apart {d : Bool} {s : List Char} (h : Separator d s) : ∃ c v, s = c :: v ∧ c ∈ breaks := by
  induction h with
  | opening h => exact h.apart
  | withBreak _ _ ih | withComment _ _ ih =>
    obtain ⟨c, v, rfl, hc⟩ := ih
    exact ⟨c, _, rfl, hc⟩

theorem Apart.of_separator {d : Bool} {s : List Char} (h : Separator d s) (rest : List Char) : Apart (s ++ rest) := by
  obtain ⟨c, v, rfl, hc⟩ := h.apart
  intro c' hc'
  cases hc'
  exact hc

namespace Apart

variable {rest : List Char}

theorem parted (h : Apart rest) : Lexeme.Parted rest := by
  have hall : breaks.all (!isWordRest ·) = true := by decide
  exact fun c hc => by simpa using List.all_eq_true.mp hall c (h c hc)

theorem digit (h : Apart rest) : ∀ c ∈ rest.head?, c.isDigit = false := by
  have hall : breaks.all (!Char.isDigit ·) = true := by decide
  exact fun c hc => by simpa using List.all_eq_true.mp hall c (h c hc)

theorem ofPair? (h : Apart rest) {a b : Char} (hb : b ∈ rest.head?) : TokenKind.ofPair? a b = none := by
  have hb := h b hb
  unfold TokenKind.ofPair?
  split
  case h_10 => rfl
  all_goals exact absurd hb (by decide)

theorem opensComment (h : Apart rest) (a : Char) : Lexer.opensComment (a :: rest) = false := by
  unfold Lexer.opensComment
  split
  next heq =>
    cases heq
    exact absurd (h _ rfl) (by decide)
  next heq =>
    cases heq
    exact absurd (h _ rfl) (by decide)
  next => rfl

/-- No operator goes on into the text. -/
theorem symbol (h : Apart rest) {kind : TokenKind} {s : String} (hs : kind.symbol? = some s)
    (hcomment : Lexer.opensComment s.toList = false) : Spells kind s.toList rest := by
  obtain ⟨a, -, hone | ⟨b, htwo, hpair⟩⟩ := TokenKind.symbol?_cases hs
  · have hpair : rest.head?.bind (TokenKind.ofPair? a) = none :=
      Option.bind_eq_none_iff.mpr fun b hb => h.ofPair? hb
    rw [hone]
    exact Front.spells_single (ofChar?_of_symbol? hs hone) hpair (h.opensComment a)
  · rw [htwo] at hcomment ⊢
    exact Front.spells_pair hpair ((opensComment_congr a b rest []).trans hcomment)

end Apart

/-- A spelling that stands alone stays one in front of a separator. -/
theorem Spells.before {kind : TokenKind} {w rest : List Char} (h : Spells kind w []) (hrest : Apart rest) :
    Spells kind w rest := by
  cases h with
  | keyword hmem _ => exact .keyword hmem hrest.parted
  | ident hword hfree _ => exact .ident hword hfree hrest.parted
  | number hne hdigits _ hsmall => exact .number hne hdigits hrest.digit hsmall
  | symbol hs _ hcomment =>
    rw [List.append_nil] at hcomment
    exact hrest.symbol hs hcomment
  | define _ => exact .define hrest.parted
  | directive hword hne _ => exact .directive hword hne hrest.parted
  | newline => exact .newline

/-! Reading such a text. -/

section

variable (path : String) (p : Position) {d : Bool} {w : List Char}

theorem tokensFrom_break (h : Break d w) (cs : List Char) :
    tokensFrom path p d (w ++ cs) = tokensFrom path (p.advance w) d cs := by
  cases h with
  | blank hc => exact tokensFrom_layout path p d (.blank hc)
  | join => exact tokensFrom_layout path p d .join
  | lineEnd => exact tokensFrom_lineEnd path p

theorem tokensFrom_comment (h : Comment d w) (cs : List Char) :
    tokensFrom path p d (w ++ cs) = tokensFrom path (p.advance w) d cs := by
  cases h with
  | block hbody => exact tokensFrom_layout path p d (.block hbody)
  | @line body hbody =>
    have hline : Layout ('/' :: '/' :: body) ('\n' :: cs) := .line hbody fun c hc => (Option.some.inj hc).symm
    have hread := tokensFrom_layout path p false hline
    rw [tokensFrom_lineEnd] at hread
    have hsplit : '/' :: '/' :: (body ++ ['\n']) = ('/' :: '/' :: body) ++ ['\n'] := rfl
    rw [hsplit, Position.advance_append, List.append_assoc]
    exact hread

theorem tokensFrom_separator (h : Separator d w) (cs : List Char) :
    tokensFrom path p d (w ++ cs) = tokensFrom path (p.advance w) d cs := by
  induction h generalizing cs with
  | opening h => exact tokensFrom_break path p h cs
  | withBreak _ h ih => rw [List.append_assoc, ih, tokensFrom_break path _ h, Position.advance_append]
  | withComment _ h ih => rw [List.append_assoc, ih, tokensFrom_comment path _ h, Position.advance_append]

theorem tokensFrom_newline (cs : List Char) : tokensFrom path p true ('\n' :: cs) =
    (tokensFrom path (p.next '\n') false cs).map (⟨.newline, .point path p⟩ :: ·) := by
  have hfront : Front.ofChars '\n' cs = .lineEnd := rfl
  rw [tokensFrom, hfront]
  dsimp only
  cases tokensFrom path (p.next '\n') false cs <;> rfl

/-- A token that may come next is read, and the line of a directive goes on or not behind it. -/
theorem tokensFrom_mayStand {k : TokenKind} {cs : List Char} (h : Spells k w cs) (hstands : k.mayStand d = true) :
    ∃ s p', tokensFrom path p d (w ++ cs) = (tokensFrom path p' (goesOn k d) cs).map (⟨k, s⟩ :: ·) := by
  by_cases hplain : k.isPlain = true
  · rw [goesOn_of_isPlain hplain]
    exact tokensFrom_spells path p d h hplain
  cases h with
  | keyword hmem _ => exact absurd (TokenKind.isPlain_of_mem_reserved hmem) hplain
  | ident _ _ _ => exact absurd rfl hplain
  | number _ _ _ _ => exact absurd rfl hplain
  | symbol hs _ _ => exact absurd (TokenKind.isPlain_of_symbol? hs) hplain
  | define hrest => exact ⟨_, _, tokensFrom_directive (Front.ofChars_define hrest) path p d⟩
  | directive _ _ _ => cases hstands
  | newline =>
    obtain rfl : d = true := hstands
    exact ⟨_, _, tokensFrom_newline path p cs⟩

/-- The kinds of the tokens read, with the token in front. -/
theorem map_kind_prepend {r : Except Rejection (List Token)} {k : TokenKind} {s : Span} {ks : List TokenKind}
    (h : r.map (List.map Token.kind) = .ok ks) :
    (r.map (⟨k, s⟩ :: ·)).map (List.map Token.kind) = .ok (k :: ks) := by
  cases r with
  | error _ => cases h
  | ok ts =>
    cases h
    rfl

theorem Laid.tokensFrom {ks : List TokenKind} {text : List Char} (h : Laid d ks text) :
    (Lexer.tokensFrom path p d text).map (List.map Token.kind) = .ok (ks ++ [.eof]) := by
  have hend : ∀ p, (Lexer.tokensFrom path p false []).map (List.map Token.kind) = .ok [.eof] := by
    intro p
    rw [Lexer.tokensFrom]
    rfl
  induction h generalizing p with
  | nil => exact hend p
  | @last d k w hspells hstands hends =>
    obtain ⟨s, p', hread⟩ := tokensFrom_mayStand path p hspells hstands
    rw [List.append_nil, hends] at hread
    rw [hread]
    exact map_kind_prepend (hend p')
  | @cons d k ks w s text hspells hstands hseparator _ ih =>
    have hbefore : Spells k w (s ++ text) := hspells.before (.of_separator hseparator text)
    obtain ⟨t, p', hread⟩ := tokensFrom_mayStand path p hbefore hstands
    rw [hread, tokensFrom_separator path p' hseparator]
    exact map_kind_prepend (ih _)

end

/-! Every sequence of tokens can be written. -/

theorem opensComment_symbol {k : TokenKind} {s : String} (h : k.symbol? = some s) :
    opensComment s.toList = false := by
  unfold TokenKind.symbol? at h
  split at h
  case h_16 op =>
    cases h
    cases op <;> rfl
  case h_17 => cases h
  all_goals
    cases h
    rfl

theorem exists_spells {k : TokenKind} (h : k.Written) : ∃ w, Spells k w [] ∧ ∀ c ∈ w, c.toNat < 128 := by
  have hparted : Lexeme.Parted [] := nofun
  cases h with
  | reserved hmem =>
    have hspells := Spells.keyword hmem hparted
    exact ⟨_, hspells, hspells.ascii (TokenKind.isPlain_of_mem_reserved hmem)⟩
  | ident hword hfree =>
    have hspells := Spells.ident hword hfree hparted
    exact ⟨_, hspells, hspells.ascii rfl⟩
  | @number n hn =>
    have hdecimal : decimal (Nat.toDigits 10 n) = n := Lexeme.decimal_toDigits n
    have hspells : Spells (.number (decimal (Nat.toDigits 10 n))) (Nat.toDigits 10 n) [] :=
      .number Nat.toDigits_ne_nil (fun c hc => Nat.isDigit_of_mem_toDigits (by decide) (by decide) hc) nofun
        (hdecimal.symm ▸ hn)
    rw [hdecimal] at hspells
    exact ⟨_, hspells, hspells.ascii rfl⟩
  | @symbol k s hs =>
    have hapart : Apart [] := nofun
    have hspells : Spells k s.toList [] := hapart.symbol hs (opensComment_symbol hs)
    exact ⟨_, hspells, hspells.ascii (TokenKind.isPlain_of_symbol? hs)⟩
  | define => exact ⟨_, .define hparted, by simp⟩
  | newline => exact ⟨_, .newline, by simp⟩

theorem Spells.written {kind : TokenKind} {w rest : List Char} (h : Spells kind w rest) :
    kind.Written ∨ ∃ word, kind = .directive word := by
  cases h with
  | keyword hmem _ => exact .inl (.reserved hmem)
  | ident hword hfree _ => exact .inl (.ident hword hfree)
  | number _ _ _ hsmall => exact .inl (.number hsmall)
  | symbol hs _ _ => exact .inl (.symbol hs)
  | define _ => exact .inl .define
  | directive _ _ _ => exact .inr ⟨_, rfl⟩
  | newline => exact .inl .newline

/-- What a text holds can be written. -/
theorem written_of_tokens {source path : String} {ts : List Token} (h : tokens source path = .ok ts) :
    ∀ t ∈ ts, t.kind.Written ∨ t.kind = .eof ∨ ∃ word, t.kind = .directive word := by
  obtain ⟨us, e, rfl, haccounting⟩ := accounting_of_tokens h
  intro t ht
  rcases List.mem_append.mp ht with ht | ht
  · exact (haccounting.spelled t ht).written.imp_right .inr
  · obtain rfl := List.mem_singleton.mp ht
    exact .inr (.inl rfl)

/-- A blank behind each token is enough. -/
theorem exists_laid {ks : List TokenKind} {d : Bool} (hks : ∀ k ∈ ks, k.Written) (h : Alternates d ks) :
    ∃ text, Laid d ks text ∧ ∀ c ∈ text, c.toNat < 128 := by
  induction ks generalizing d with
  | nil =>
    obtain rfl : d = false := h
    exact ⟨[], .nil, nofun⟩
  | cons k ks ih =>
    obtain ⟨hk, hks⟩ := List.forall_mem_cons.mp hks
    obtain ⟨w, hw, hascii⟩ := exists_spells hk
    obtain ⟨text, htext, hascii'⟩ := ih hks h.2
    have hblank : Separator (goesOn k d) [' '] := .opening (.blank rfl)
    refine ⟨w ++ ([' '] ++ text), .cons hw h.1 hblank htext, ?_⟩
    simp only [List.forall_mem_append]
    exact ⟨hascii, by simp, hascii'⟩

end Lexer

open Lexer

/-- All tokens that are read from a text can be written, but for its end and for directives that are not read
on, and so can every sequence of them in which each directive is ended. However it is written, with any layout
between the tokens, it is read as these tokens and the end of the text. -/
theorem tokens_of_laid :
    (∀ (source path : String) (ts : List Token), tokens source path = .ok ts →
      ∀ t ∈ ts, t.kind.Written ∨ t.kind = .eof ∨ ∃ word, t.kind = .directive word) ∧
    (∀ ks : List TokenKind, (∀ k ∈ ks, k.Written) → Alternates false ks →
      ∃ source, Laid false ks (sourceBytes source)) ∧
    ∀ (ks : List TokenKind) (source path : String), Laid false ks (sourceBytes source) →
      (tokens source path).map (List.map Token.kind) = .ok (ks ++ [.eof]) := by
  refine ⟨fun _ _ _ => written_of_tokens, ?_, ?_⟩
  · intro ks hks halternates
    obtain ⟨text, htext, hascii⟩ := exists_laid hks halternates
    exact ⟨String.ofList text, (sourceBytes_of_ascii hascii).symm ▸ htext⟩
  · intro ks source path h
    exact h.tokensFrom path .first

/-- A macro whose line goes on behind a comment and behind a join, and a token behind another comment. -/
theorem tokens_of_laid_macro :
    (tokens "#define /*\n*/\tN\\\n010 \n\n// of\n;" "m").map (List.map Token.kind) =
      .ok [.define, .ident "N", .number 10, .newline, .semicolon, .eof] := by
  have hparted : Lexeme.Parted [] := nofun
  have hblock : Comment true ['/', '*', '\n', '*', '/'] := @Comment.block true ['\n'] (by decide)
  have hdefine : Separator true [' ', '/', '*', '\n', '*', '/', '\t'] :=
    .withBreak (.withComment (.opening (.blank rfl)) hblock) (.blank rfl)
  have hline : Comment false ['/', '/', ' ', 'o', 'f', '\n'] := @Comment.line [' ', 'o', 'f'] (by decide)
  have hcomment : Separator false ['\n', '/', '/', ' ', 'o', 'f', '\n'] := .withComment (.opening .lineEnd) hline
  have hfree := ((TokenKind.ofWord_cases "N").resolve_left (by decide)).2
  have hname : Spells (.ident "N") "N".toList [] := .ident (Lexeme.isWord_of_all rfl rfl rfl) hfree hparted
  have hnumber : Spells (.number (decimal ['0', '1', '0'])) ['0', '1', '0'] [] :=
    .number (by decide) (by simp) (by simp) (by decide)
  have hsemicolon : Laid false [.semicolon] ";".toList :=
    .last (Apart.symbol (by simp [Apart]) rfl rfl) rfl rfl
  have hvalue : Laid true [.number 10, .newline, .semicolon] _ :=
    .cons hnumber rfl (.opening (.blank (c := ' ') rfl)) (.cons .newline rfl hcomment hsemicolon)
  have htext : Laid false [.define, .ident "N", .number 10, .newline, .semicolon] _ :=
    .cons (.define hparted) rfl hdefine (.cons hname rfl (.opening .join) hvalue)
  have hascii : ∀ c ∈ "#define /*\n*/\tN\\\n010 \n\n// of\n;".toList, c.toNat < 128 := by simp
  have hbytes := sourceBytes_of_ascii hascii
  rw [String.ofList_toList] at hbytes
  refine tokens_of_laid.2.2 [.define, .ident "N", .number 10, .newline, .semicolon] _ "m" ?_
  rw [hbytes]
  exact htext

end Promela
