import Promela.Proofs.Token.Front

/-! Tokens and layout make up the text. The position of a token is turned back into an index of the text,
and a run of the reader is followed from its first character to its last. -/
namespace Promela

/-- The index of the first character of the line behind `n` line ends. -/
def lineStart : Nat → List Char → Nat
  | 0, _ => 0
  | _ + 1, [] => 0
  | n + 1, c :: cs => (if c = '\n' then lineStart n cs else lineStart (n + 1) cs) + 1

/-- The index of the character at the position. -/
def Position.index (text : List Char) (p : Position) : Nat := lineStart (p.line - 1) text + (p.column - 1)

theorem Position.advance_append (p : Position) (pre post : List Char) :
    p.advance (pre ++ post) = (p.advance pre).advance post :=
  List.foldl_append

@[simp] theorem lineStart_zero (text : List Char) : lineStart 0 text = 0 := by
  rw [lineStart]

theorem lineStart_newline (n : Nat) (cs : List Char) : lineStart (n + 1) ('\n' :: cs) = lineStart n cs + 1 := by
  rw [lineStart, if_pos rfl]

theorem lineStart_cons {c : Char} (h : c ≠ '\n') (n : Nat) (cs : List Char) :
    lineStart (n + 1) (c :: cs) = lineStart (n + 1) cs + 1 := by
  rw [lineStart, if_neg h]

/-- Counted from a position on, the characters passed are those up to the line reached and those on it. -/
theorem lineStart_advance (pre rest : List Char) (p : Position) :
    p.line ≤ (p.advance pre).line ∧
      lineStart ((p.advance pre).line - p.line) (pre ++ rest) + (p.advance pre).column
        = pre.length + if (p.advance pre).line = p.line then p.column else 1 := by
  induction pre generalizing p with
  | nil => simp [Position.advance]
  | cons c pre ih =>
    obtain ⟨hle, hsum⟩ := ih (p.next c)
    have hstep : p.advance (c :: pre) = (p.next c).advance pre := rfl
    rw [hstep]
    generalize (p.next c).advance pre = q at hle hsum ⊢
    by_cases hc : c = '\n'
    · have hnext : p.next c = ⟨p.line + 1, 1⟩ := if_pos hc
      rw [hnext] at hle hsum
      have hlt : p.line < q.line := hle
      have hlines : q.line - p.line = (q.line - (p.line + 1)) + 1 := by omega
      rw [hlines, hc, List.cons_append, lineStart_newline, if_neg (Nat.ne_of_gt hlt), List.length_cons]
      simp only [ite_self] at hsum
      exact ⟨Nat.le_of_lt hlt, by omega⟩
    · have hnext : p.next c = ⟨p.line, p.column + 1⟩ := if_neg hc
      rw [hnext] at hle hsum
      have hline : p.line ≤ q.line := hle
      refine ⟨hline, ?_⟩
      by_cases hq : q.line = p.line
      · simp only [hq, Nat.sub_self, lineStart_zero, if_true, List.length_cons] at hsum ⊢
        omega
      · have hlines : q.line - p.line = (q.line - p.line - 1) + 1 := by omega
        rw [if_neg hq] at hsum ⊢
        rw [hlines] at hsum ⊢
        rw [List.cons_append, lineStart_cons hc, List.length_cons]
        omega

theorem Position.column_pos (pre : List Char) {p : Position} (h : 0 < p.column) :
    0 < (p.advance pre).column := by
  induction pre generalizing p with
  | nil => exact h
  | cons c pre ih =>
    apply ih
    unfold next
    split
    · exact Nat.one_pos
    · exact Nat.succ_pos _

/-- The position behind a part of the text, moved on along its line, has the length of this part for its
index, moved on as far. -/
theorem index_advance (pre rest : List Char) (extra : Nat) :
    Position.index (pre ++ rest)
        ⟨(Position.first.advance pre).line, (Position.first.advance pre).column + extra⟩
      = pre.length + extra := by
  obtain ⟨-, hsum⟩ := lineStart_advance pre rest .first
  have hcolumn : 0 < (Position.first.advance pre).column := Position.column_pos pre Nat.one_pos
  generalize Position.first.advance pre = q at hsum hcolumn ⊢
  have hone : (if q.line = Position.first.line then Position.first.column else 1) = 1 := ite_self 1
  rw [hone] at hsum
  have hsum : lineStart (q.line - 1) (pre ++ rest) + q.column = pre.length + 1 := hsum
  change lineStart (q.line - 1) (pre ++ rest) + (q.column + extra - 1) = pre.length + extra
  omega

namespace Token

/-- The index of the first character of the token. -/
def first (text : List Char) (t : Token) : Nat := t.span.start.index text

/-- The index behind the last character of the token. -/
def behind (text : List Char) (t : Token) : Nat := t.span.stop.index text + 1

/-- The span of the token is where `w` stands in the text, before `rest`. -/
def Covers (text : List Char) (t : Token) (w rest : List Char) : Prop :=
  text.length = t.first text + (w ++ rest).length ∧ t.behind text = t.first text + w.length

theorem Covers.start {text pre w rest : List Char} {t : Token} (h : t.Covers text w rest)
    (htext : text = pre ++ (w ++ rest)) : t.first text = pre.length ∧ t.behind text = (pre ++ w).length := by
  obtain ⟨hlength, hbehind⟩ := h
  have hsplit : text.length = pre.length + (w ++ rest).length := by rw [htext, List.length_append]
  have hfirst : t.first text = pre.length := by omega
  refine ⟨hfirst, ?_⟩
  rw [hbehind, hfirst, List.length_append]

/-- The characters of the text where the token stands spell it, and they could not be more. -/
def Spelled (text : List Char) (t : Token) : Prop :=
  Lexer.Spells t.kind (text.extract (t.first text) (t.behind text)) (text.drop (t.behind text))

theorem Covers.spelled {text pre w rest : List Char} {t : Token} (h : t.Covers text w rest)
    (htext : text = pre ++ (w ++ rest)) (hspells : Lexer.Spells t.kind w rest) : t.Spelled text := by
  obtain ⟨hfirst, hbehind⟩ := h.start htext
  have hextract : text.extract pre.length (pre ++ w).length = w := by
    rw [List.extract_eq_take_drop, htext, List.drop_left, List.length_append, Nat.add_sub_cancel_left,
      List.take_left]
  have hdrop : text.drop (pre ++ w).length = rest := by
    rw [htext, ← List.append_assoc, List.drop_left]
  unfold Spelled
  rw [hfirst, hbehind, hextract, hdrop]
  exact hspells

end Token

namespace Lexer

/-- From a place in the text up to `rest`, inside the line of a directive or not, there is nothing but these
tokens and layout. A line end is a token on the line of a directive, and layout elsewhere. -/
inductive Accounts (text : List Char) : Bool → List Char → List Token → List Char → Prop
  | done (d : Bool) (rest : List Char) : Accounts text d rest [] rest
  | layout {d : Bool} {w cs rest : List Char} {ts : List Token} : Layout w cs → Accounts text d cs ts rest →
      Accounts text d (w ++ cs) ts rest
  | lineEnd {cs rest : List Char} {ts : List Token} : Accounts text false cs ts rest →
      Accounts text false ('\n' :: cs) ts rest
  | token {d : Bool} {t : Token} {w dropped cs rest : List Char} {ts : List Token} :
      Spells t.kind w (dropped ++ cs) → Drops t.kind dropped cs → (t.kind = .newline → d = true) →
      t.Covers text w (dropped ++ cs) → Accounts text (goesOn t.kind d) cs ts rest →
      Accounts text d (w ++ (dropped ++ cs)) (t :: ts) rest

/-- The tokens are all of the text up to `rest`: each spells its kind where its span says, they follow one
another, and nothing but layout is between them. -/
structure Accounting (text : List Char) (ts : List Token) (rest : List Char) : Prop where
  accounts : Accounts text false text ts rest
  spelled : ∀ t ∈ ts, t.Spelled text
  sorted : ts.Pairwise fun t u => t.behind text ≤ u.first text
  before : ∀ t ∈ ts, t.behind text + rest.length ≤ text.length

/-- What is read from a place in the text on, up to its end or up to where the reading stops. -/
def Accounted (text : List Char) (d : Bool) (cs : List Char) : Except Rejection (List Token) → Prop
  | .ok ts => ∃ us s, ts = us ++ [⟨.eof, s⟩] ∧ s.stop = s.start ∧ s.start.index text = text.length ∧
      Accounts text d cs us []
  | .error r => ∃ how s us rest, r = .ofMalformed how s ∧ text.length = s.start.index text + rest.length ∧
      Stuck how rest ∧ Accounts text d cs us rest

theorem Accounted.prepend {text cs cs' : List Char} {d d' : Bool} {x : Except Rejection (List Token)}
    (new : List Token) (hstep : ∀ us rest, Accounts text d cs us rest → Accounts text d' cs' (new ++ us) rest)
    (h : Accounted text d cs x) : Accounted text d' cs' (do let ts ← x; pure (new ++ ts)) := by
  cases x with
  | ok ts =>
    obtain ⟨us, s, rfl, hstop, hindex, hus⟩ := h
    exact ⟨new ++ us, s, (List.append_assoc _ _ _).symm, hstop, hindex, hstep _ _ hus⟩
  | error r =>
    obtain ⟨how, s, us, rest, rfl, hindex, hstuck, hus⟩ := h
    exact ⟨how, s, new ++ us, rest, rfl, hindex, hstuck, hstep _ _ hus⟩

/-- The span of a token that was read at its position is where the token stands. -/
theorem covers_spanOf {path : String} {kind : TokenKind} {text pre w rest : List Char} {c : Char}
    (htext : text = pre ++ c :: (w ++ rest)) :
    (⟨kind, spanOf path (Position.first.advance pre) w.length⟩ : Token).Covers text (c :: w) rest := by
  have hstart := index_advance pre (c :: (w ++ rest)) 0
  have hstop := index_advance pre (c :: (w ++ rest)) w.length
  rw [← htext] at hstart hstop
  have hfirst : (⟨kind, spanOf path (Position.first.advance pre) w.length⟩ : Token).first text = pre.length :=
    hstart
  constructor
  · rw [hfirst, htext, List.length_append]
    rfl
  · rw [hfirst]
    exact congrArg (· + 1) hstop

section

variable {path : String} {text pre w cs : List Char} {d : Bool} {x : Except Rejection (List Token)}

theorem Accounted.layout (hlayout : Layout w cs) (h : Accounted text d cs x) : Accounted text d (w ++ cs) x := by
  have hstep := h.prepend [] fun us rest hus => Accounts.layout hlayout hus
  simpa using hstep

theorem Accounted.token {kind : TokenKind} {dropped : List Char} {c : Char}
    (htext : text = pre ++ c :: (w ++ (dropped ++ cs))) (hspells : Spells kind (c :: w) (dropped ++ cs))
    (hdrops : Drops kind dropped cs) (hnewline : kind = .newline → d = true)
    (h : Accounted text (goesOn kind d) cs x) :
    Accounted text d (c :: (w ++ (dropped ++ cs)))
      (do let ts ← x; pure (⟨kind, spanOf path (Position.first.advance pre) w.length⟩ :: ts)) := by
  apply h.prepend [⟨kind, spanOf path (Position.first.advance pre) w.length⟩]
  intro us rest hus
  exact Accounts.token hspells hdrops hnewline (covers_spanOf htext) hus

theorem accounted_eof (htext : text = pre) :
    Accounted text d [] (.ok [⟨.eof, .point path (Position.first.advance pre)⟩]) := by
  have hindex := index_advance pre [] 0
  rw [List.append_nil, ← htext] at hindex
  rw [← htext]
  exact ⟨[], _, rfl, rfl, hindex, .done d []⟩

theorem accounted_malformed {how : Malformed} {extra : Nat} (htext : text = pre ++ cs) (h : Stuck how cs) :
    Accounted text d cs (.error (.ofMalformed how (spanOf path (Position.first.advance pre) extra))) := by
  have hindex := index_advance pre cs 0
  rw [← htext] at hindex
  refine ⟨how, spanOf path (Position.first.advance pre) extra, [], cs, rfl, ?_, h, .done d cs⟩
  rw [htext, List.length_append, ← htext]
  exact congrArg (· + cs.length) hindex.symm

end

/-- Each step of the reader keeps account of the characters it passes. -/
theorem accounted_tokensFrom {path : String} {text pre cs : List Char} {p : Position} {d : Bool}
    (hp : p = Position.first.advance pre) (htext : text = pre ++ cs) :
    Accounted text d cs (tokensFrom path p d cs) := by
  fun_induction tokensFrom path p d cs generalizing pre with
  | case1 p d =>
    rw [hp]
    exact accounted_eof (htext.trans (List.append_nil pre))
  | case2 p d c cs n hfront ih =>
    have hparts := Front.ofChars_parts c cs
    rw [hfront] at hparts
    cases hparts with
    | @layout _ w rest hlayout =>
      have htext' : text = (pre ++ c :: w) ++ rest := htext.trans (List.append_assoc pre (c :: w) rest).symm
      rw [List.take_left, List.drop_left] at ih ⊢
      have hrest := ih (by rw [hp, Position.advance_append]) htext'
      exact hrest.layout hlayout
  | case3 p d c cs hfront ih =>
    have hparts := Front.ofChars_parts c cs
    rw [hfront] at hparts
    cases hparts with
    | lineEnd =>
      have htext' : text = (pre ++ ['\n']) ++ cs := htext.trans (List.append_assoc pre ['\n'] cs).symm
      have hrest := ih (by rw [hp, Position.advance_append]; rfl) htext'
      cases d with
      | false => exact hrest.prepend [] fun us rest hus => Accounts.lineEnd hus
      | true =>
        have hspells : Spells .newline ['\n'] ([] ++ cs) := .newline
        subst hp
        exact Accounted.token htext hspells rfl (fun _ => rfl) hrest
  | case4 p d c cs kind n dropped hfront n' =>
    rename_i ih
    have hparts := Front.ofChars_parts c cs
    rw [hfront] at hparts
    cases hparts with
    | @directive _ _ w skipped rest hspells hdirective hdrops =>
      have htext' : text = (pre ++ c :: (w ++ skipped)) ++ rest := by
        rw [htext, List.append_assoc, List.cons_append, List.append_assoc]
      have htake : (w ++ (skipped ++ rest)).take n' = w ++ skipped := by
        rw [← List.append_assoc]
        exact List.take_left' List.length_append
      have hdrop : (w ++ (skipped ++ rest)).drop n' = rest := by
        rw [← List.append_assoc]
        exact List.drop_left' List.length_append
      rw [htake, hdrop] at ih ⊢
      have hrest := ih (by rw [hp, Position.advance_append]) htext'
      have hnewline : kind = .newline → d = true := by
        rintro rfl
        exact absurd (hdirective true) (by decide)
      subst hp
      apply Accounted.token htext hspells hdrops hnewline
      rw [hdirective]
      exact hrest
  | case5 p d c cs kind n hfront ih =>
    have hparts := Front.ofChars_parts c cs
    rw [hfront] at hparts
    cases hparts with
    | @token _ _ w rest hspells hplain =>
      have htext' : text = (pre ++ c :: w) ++ rest := htext.trans (List.append_assoc pre (c :: w) rest).symm
      rw [List.take_left, List.drop_left] at ih ⊢
      have hrest := ih (by rw [hp, Position.advance_append]) htext'
      have hnewline : kind = .newline → d = true := by
        rintro rfl
        cases hplain
      have hspells : Spells kind (c :: w) ([] ++ rest) := hspells
      subst hp
      apply Accounted.token htext hspells (drops_of_isPlain hplain rest) hnewline
      rw [goesOn_of_isPlain hplain]
      exact hrest
  | case6 p d c cs how n hfront =>
    have hparts := Front.ofChars_parts c cs
    rw [hfront] at hparts
    cases hparts with
    | malformed hstuck =>
      rw [hp]
      exact accounted_malformed htext hstuck

theorem Accounts.suffix {text cs rest : List Char} {d : Bool} {ts : List Token}
    (h : Accounts text d cs ts rest) : rest <:+ cs := by
  induction h with
  | done d rest => exact List.suffix_rfl
  | @layout _ w cs _ _ _ _ ih => exact ih.trans (List.suffix_append w cs)
  | @lineEnd cs _ _ _ ih => exact ih.trans (List.suffix_cons _ cs)
  | @token _ _ w dropped cs _ _ _ _ _ _ _ ih =>
    have hdropped : cs <:+ dropped ++ cs := List.suffix_append dropped cs
    exact ih.trans (hdropped.trans (List.suffix_append w (dropped ++ cs)))

/-- The tokens lie between the index and the last characters of the text, each where its spelling stands and
one behind the other. -/
structure Placed (text : List Char) (start : Nat) (ts : List Token) (rest : List Char) : Prop where
  spelled : ∀ t ∈ ts, t.Spelled text
  after : ∀ t ∈ ts, start ≤ t.first text
  before : ∀ t ∈ ts, t.behind text + rest.length ≤ text.length
  sorted : ts.Pairwise fun t u => t.behind text ≤ u.first text

theorem Placed.nil (text rest : List Char) (start : Nat) : Placed text start [] rest :=
  ⟨nofun, nofun, nofun, .nil⟩

theorem Placed.earlier {text rest : List Char} {i j : Nat} {ts : List Token} (h : Placed text j ts rest)
    (hij : i ≤ j) : Placed text i ts rest :=
  { h with after := fun t ht => Nat.le_trans hij (h.after t ht) }

theorem Placed.cons {text rest : List Char} {t : Token} {ts : List Token} (hspelled : t.Spelled text)
    (hbefore : t.behind text + rest.length ≤ text.length) (h : Placed text (t.behind text) ts rest)
    (hlt : t.first text ≤ t.behind text) : Placed text (t.first text) (t :: ts) rest where
  spelled := List.forall_mem_cons.mpr ⟨hspelled, h.spelled⟩
  after := List.forall_mem_cons.mpr ⟨Nat.le_refl _, (h.earlier hlt).after⟩
  before := List.forall_mem_cons.mpr ⟨hbefore, h.before⟩
  sorted := List.pairwise_cons.mpr ⟨h.after, h.sorted⟩

theorem Accounts.placed {text cs rest pre : List Char} {d : Bool} {ts : List Token}
    (h : Accounts text d cs ts rest) (htext : text = pre ++ cs) : Placed text pre.length ts rest := by
  induction h generalizing pre with
  | done d rest => exact .nil text rest pre.length
  | @layout _ w cs _ _ _ _ ih =>
    have hplaced := ih (htext.trans (List.append_assoc pre w cs).symm)
    exact hplaced.earlier (List.prefix_append pre w).length_le
  | @lineEnd cs _ _ _ ih =>
    have hplaced := ih (htext.trans (List.append_assoc pre ['\n'] cs).symm)
    exact hplaced.earlier (List.prefix_append pre ['\n']).length_le
  | @token _ t w dropped cs rest ts hspells _ _ hcovers htail ih =>
    obtain ⟨hfirst, hbehind⟩ := hcovers.start htext
    have htext' : text = (pre ++ w ++ dropped) ++ cs := by
      rw [htext, List.append_assoc, List.append_assoc]
    have hplaced := (ih htext').earlier (List.prefix_append (pre ++ w) dropped).length_le
    have hbefore : t.behind text + rest.length ≤ text.length := by
      have hrest := htail.suffix.length_le
      rw [hbehind, htext']
      simp only [List.length_append]
      omega
    rw [← hbehind] at hplaced
    rw [← hfirst]
    apply Placed.cons (hcovers.spelled htext hspells) hbefore hplaced
    rw [hfirst, hbehind]
    exact (List.prefix_append pre w).length_le

theorem Accounts.accounting {text rest : List Char} {ts : List Token} (h : Accounts text false text ts rest) :
    Accounting text ts rest :=
  have hplaced : Placed text 0 ts rest := h.placed (List.nil_append text).symm
  ⟨h, hplaced.spelled, hplaced.sorted, hplaced.before⟩

theorem Spells.ne_eof {kind : TokenKind} {w rest : List Char} (h : Spells kind w rest) : kind ≠ .eof := by
  rintro rfl
  cases h with
  | keyword hmem _ =>
    have hall : ∀ p ∈ TokenKind.reserved, p.2 ≠ .eof := by decide
    exact hall _ hmem rfl
  | symbol hs _ _ => cases hs

/-- A character that is not expected is one that no token starts with. -/
theorem Stuck.not_spells_character {c : Char} {text : List Char} (h : Stuck (.unexpectedCharacter c) text)
    {kind : TokenKind} {w rest : List Char} : ¬ Spells kind (c :: w) rest := by
  cases h with
  | character _ hword hdigit hsymbol hother _ => exact not_spells_of_other hword hdigit hsymbol hother

theorem Stuck.ne_nil {how : Malformed} {text : List Char} (h : Stuck how text) : text ≠ [] := by
  cases h with
  | comment _ => exact List.cons_ne_nil _ _
  | number hne _ _ _ => exact List.append_ne_nil_of_left_ne_nil hne _
  | character _ _ _ _ _ _ => exact List.cons_ne_nil _ _

theorem accounted_tokens (source path : String) :
    Accounted (sourceBytes source) false (sourceBytes source) (tokens source path) :=
  accounted_tokensFrom rfl (List.nil_append _).symm

/-- Where a text is read, its tokens up to its end are accounted for. -/
theorem accounting_of_tokens {source path : String} {ts : List Token} (h : tokens source path = .ok ts) :
    ∃ us s, ts = us ++ [⟨.eof, s⟩] ∧ Accounting (sourceBytes source) us [] := by
  have haccounted := accounted_tokens source path
  rw [h] at haccounted
  obtain ⟨us, s, hts, -, -, hus⟩ := haccounted
  exact ⟨us, s, hts, hus.accounting⟩

theorem Spells.isWord {word : String} {w rest : List Char} (h : Spells (.ident word) w rest) :
    Lexeme.IsWord word := by
  cases h with
  | keyword hmem _ => simp [TokenKind.reserved] at hmem
  | ident hword _ _ => exact hword
  | symbol hs _ _ => cases hs

/-- The names in a text are words. -/
theorem isWord_of_mem_tokens {source path : String} {ts : List Token} (h : tokens source path = .ok ts)
    {name : String} {span : Span} (hmem : ⟨.ident name, span⟩ ∈ ts) : Lexeme.IsWord name := by
  obtain ⟨us, e, rfl, haccounting⟩ := accounting_of_tokens h
  rcases List.mem_append.mp hmem with hmem | hmem
  · exact (haccounting.spelled _ hmem).isWord
  · cases List.mem_singleton.mp hmem

end Lexer

open Lexer

/-- Every byte of a source text is accounted for. Where the text is read, its tokens and the layout between
them make up the whole of it, and the end of the text is the last token. Where it is not, the same holds for
what precedes the place of the rejection, and no token starts there: a comment does not end, a number is too
large, or the character starts no token at all. -/
theorem tokens_account (source path : String) :
    match tokens source path with
    | .ok ts => ∃ us s, ts = us ++ [⟨.eof, s⟩] ∧ (∀ t ∈ us, t.kind ≠ .eof) ∧ s.stop = s.start ∧
        s.start.index (sourceBytes source) = (sourceBytes source).length ∧
        Accounting (sourceBytes source) us []
    | .error r => ∃ how s us rest, r = .ofMalformed how s ∧ rest ≠ [] ∧
        rest = (sourceBytes source).drop (s.start.index (sourceBytes source)) ∧
        Accounting (sourceBytes source) us rest ∧ Stuck how rest ∧
        (∀ kind w after, rest = w ++ after → ¬ Spells kind w after) ∧
        ∀ c, how = .unexpectedCharacter c → ∀ kind w after, ¬ Spells kind (c :: w) after := by
  have haccounted := accounted_tokens source path
  generalize sourceBytes source = text at haccounted ⊢
  cases htokens : tokens source path with
  | ok ts =>
    rw [htokens] at haccounted
    obtain ⟨us, s, rfl, hstop, hindex, hus⟩ := haccounted
    have haccounting := hus.accounting
    exact ⟨us, s, rfl, fun t ht => (haccounting.spelled t ht).ne_eof, hstop, hindex, haccounting⟩
  | error r =>
    rw [htokens] at haccounted
    obtain ⟨how, s, us, rest, rfl, hindex, hstuck, hus⟩ := haccounted
    have hrest : rest = text.drop (s.start.index text) := by
      have hdrop := List.suffix_iff_eq_drop.mp hus.suffix
      rwa [hindex, Nat.add_sub_cancel] at hdrop
    refine ⟨how, s, us, rest, rfl, hstuck.ne_nil, hrest, hus.accounting, hstuck,
      fun kind w after => hstuck.not_spells, ?_⟩
    rintro c rfl kind w after
    exact hstuck.not_spells_character

end Promela
