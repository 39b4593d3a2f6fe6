import Promela.Proofs.Surface.Nodes
import Promela.Proofs.Token.Lexing

/-! Cutting a source text where tokens start and end. A cut beside a token leaves every character whole, and
the piece between the first and the last of some tokens that follow one another is read as these tokens. -/
namespace Promela

/-- The bytes of one character, each as the character with its code. -/
def charBytes (c : Char) : List Char := (String.utf8EncodeChar c).map fun b => Char.ofNat b.toNat

theorem ByteArray.toList_loop (b : ByteArray) (i : Nat) (r : List UInt8) :
    ByteArray.toList.loop b i r = r.reverse ++ b.data.toList.drop i := by
  rw [ByteArray.toList.loop]
  split
  next h =>
    have hdrop : b.data.toList.drop i = b.get! i :: b.data.toList.drop (i + 1) := by
      rw [List.drop_eq_getElem_cons h]
      simp [ByteArray.get!, h]
    rw [ByteArray.toList_loop b (i + 1), hdrop, List.reverse_cons, List.append_assoc]
    rfl
  next h =>
    have hdrop : b.data.toList.drop i = [] := List.drop_eq_nil_of_le (Nat.le_of_not_lt h)
    rw [hdrop, List.append_nil]
termination_by b.size - i

theorem sourceBytes_ofList (cs : List Char) : sourceBytes (String.ofList cs) = cs.flatMap charBytes := by
  have hbytes : (String.ofList cs).toUTF8.toList = cs.flatMap String.utf8EncodeChar := by
    have hloop := ByteArray.toList_loop (String.ofList cs).toUTF8 0 []
    simpa [ByteArray.toList, String.toUTF8, List.utf8Encode] using hloop
  unfold sourceBytes
  rw [hbytes, List.map_flatMap]
  rfl

theorem toNat_ofNat_byte (b : UInt8) : (Char.ofNat b.toNat).toNat = b.toNat := by
  have hlt := b.toNat_lt
  have hvalid : b.toNat.isValidChar := .inl (by omega)
  unfold Char.ofNat
  rw [dif_pos hvalid]
  rfl

/-- An ASCII character is its own byte. -/
theorem charBytes_of_ascii {c : Char} (h : c.toNat < 128) : charBytes c = [c] := by
  have hval : c.val.toNat < 128 := h
  have hbyte : (UInt8.ofNat c.val.toNat).toNat = c.toNat := by
    rw [UInt8.toNat_ofNat']
    exact Nat.mod_eq_of_lt (by omega)
  unfold charBytes String.utf8EncodeChar
  dsimp only
  rw [if_pos (Nat.le_of_lt_succ hval), List.map_singleton, hbyte, Char.ofNat_toNat]

theorem sourceBytes_of_ascii {cs : List Char} (h : ∀ c ∈ cs, c.toNat < 128) :
    sourceBytes (String.ofList cs) = cs := by
  rw [sourceBytes_ofList]
  induction cs with
  | nil => rfl
  | cons c cs ih =>
    obtain ⟨hc, hcs⟩ := List.forall_mem_cons.mp h
    rw [List.flatMap_cons, charBytes_of_ascii hc, ih hcs]
    rfl

/-- A character is its own byte or has only bytes beyond ASCII. -/
theorem charBytes_cases (c : Char) : charBytes c = [c] ∨ ∀ b ∈ charBytes c, 128 ≤ b.toNat := by
  by_cases hascii : c.toNat < 128
  · exact .inl (charBytes_of_ascii hascii)
  unfold charBytes String.utf8EncodeChar
  dsimp only
  split
  next h => exact absurd (Nat.lt_succ_of_le h) hascii
  · refine .inr fun b hb => ?_
    obtain ⟨n, hn, rfl⟩ := List.mem_map.mp hb
    rw [toNat_ofNat_byte]
    -- the first byte is 192 or more, each other one is 128 or more
    split at hn
    all_goals try split at hn
    all_goals
      simp only [List.mem_cons, List.not_mem_nil, or_false] at hn
      rcases hn with rfl | rfl | rfl | rfl <;> simp only [UInt8.toNat_ofNat'] <;> omega

/-- A cut beside an ASCII character leaves every character whole. -/
theorem exists_cut {cs x y : List Char} (h : cs.flatMap charBytes = x ++ y)
    (hcut : ∀ a ∈ x.getLast?, ∀ b ∈ y.head?, a.toNat < 128 ∨ b.toNat < 128) :
    ∃ cs₁ cs₂, cs = cs₁ ++ cs₂ ∧ cs₁.flatMap charBytes = x ∧ cs₂.flatMap charBytes = y := by
  induction cs generalizing x with
  | nil =>
    obtain ⟨rfl, rfl⟩ := List.append_eq_nil_iff.mp h.symm
    exact ⟨[], [], rfl, rfl, rfl⟩
  | cons c cs ih =>
    rw [List.flatMap_cons] at h
    rcases List.append_eq_append_iff.mp h with ⟨x', rfl, hrest⟩ | ⟨w, hc, rfl⟩
    · have hcut' : ∀ a ∈ x'.getLast?, ∀ b ∈ y.head?, a.toNat < 128 ∨ b.toNat < 128 := by
        intro a ha
        refine hcut a ?_
        rw [List.getLast?_append, Option.mem_def.mp ha]
        rfl
      obtain ⟨cs₁, cs₂, rfl, rfl, rfl⟩ := ih hrest hcut'
      exact ⟨c :: cs₁, cs₂, rfl, rfl, rfl⟩
    · -- the cut is inside the character or behind it
      rcases List.eq_nil_or_concat x with rfl | ⟨x, a, rfl⟩
      · exact ⟨[], c :: cs, rfl, rfl, by rw [List.flatMap_cons, hc]; rfl⟩
      cases w with
      | nil => exact ⟨[c], cs, rfl, by simpa using hc, rfl⟩
      | cons b w =>
        have hascii := hcut a (by simp) b rfl
        rcases charBytes_cases c with hb | hlarge
        · have hlength := congrArg List.length (hc.symm.trans hb)
          simp only [List.concat_eq_append, List.length_append, List.length_cons, List.length_nil] at hlength
          omega
        · rw [hc] at hlarge
          have ha := hlarge a (by simp)
          have hb := hlarge b (by simp)
          omega

section

variable {ws : List Token} {s : Span} (text : List Char)

theorem Surface.Spans.opens (h : Surface.Spans ws s) :
    ∃ t tail, ws = t :: tail ∧ t.first text = s.start.index text := by
  obtain ⟨t, tail, rfl⟩ := List.exists_cons_of_ne_nil h.ne_nil
  exact ⟨t, tail, rfl, congrArg (Position.index text) (Option.some.inj h.start)⟩

theorem Surface.Spans.closes (h : Surface.Spans ws s) :
    ∃ init t, ws = init ++ [t] ∧ t.behind text = s.stop.index text + 1 := by
  obtain ⟨init, t, rfl⟩ := (List.eq_nil_or_concat ws).resolve_left h.ne_nil
  have hstop := h.stop
  rw [List.concat_eq_append, List.getLast?_concat] at hstop
  exact ⟨init, t, List.concat_eq_append, congrArg (fun p => Position.index text p + 1) (Option.some.inj hstop)⟩

end

namespace Lexer

theorem ascii_of_wordRest {c : Char} (h : isWordRest c = true) : c.toNat < 128 := by
  have hrest : isWordRest c = (decide (65 ≤ c.val ∧ c.val ≤ 90) || (decide (97 ≤ c.val) && decide (c.val ≤ 122))
    || (decide (48 ≤ c.val) && decide (c.val ≤ 57)) || c == '_') := rfl
  simp only [hrest, Bool.or_eq_true, Bool.and_eq_true, decide_eq_true_eq, beq_iff_eq] at h
  change c.val.toNat < 128
  rcases h with ((⟨-, h⟩ | ⟨-, h⟩) | ⟨-, h⟩) | rfl
  · exact Nat.lt_of_le_of_lt (UInt32.le_iff_toNat_le.mp h) (by decide)
  · exact Nat.lt_of_le_of_lt (UInt32.le_iff_toNat_le.mp h) (by decide)
  · exact Nat.lt_of_le_of_lt (UInt32.le_iff_toNat_le.mp h) (by decide)
  · decide

theorem ascii_of_ofChar? {c : Char} (h : (TokenKind.ofChar? c).isSome) : c.toNat < 128 := by
  unfold TokenKind.ofChar? at h
  split at h
  case h_25 => cases h
  all_goals decide

theorem ascii_of_ofPair? {a b : Char} {kind : TokenKind} (h : TokenKind.ofPair? a b = some kind) : b.toNat < 128 := by
  unfold TokenKind.ofPair? at h
  split at h
  case h_10 => cases h
  all_goals decide

/-- Plain tokens are spelled in ASCII. -/
theorem Spells.ascii {kind : TokenKind} {w rest : List Char} (h : Spells kind w rest) (hplain : kind.isPlain = true) :
    ∀ c ∈ w, c.toNat < 128 := by
  cases h with
  | keyword hmem _ =>
    have hall : ∀ p ∈ TokenKind.reserved, p.1.toList.all isWordRest = true := by decide
    exact fun c hc => ascii_of_wordRest (List.all_eq_true.mp (hall _ hmem) c hc)
  | ident hword _ _ =>
    obtain ⟨c, cs, htext, hc, hcs⟩ := hword
    rw [htext]
    refine List.forall_mem_cons.mpr ⟨ascii_of_wordRest (Lexeme.wordRest_of_wordStart hc), fun d hd => ?_⟩
    exact ascii_of_wordRest (hcs d hd)
  | number _ hdigits _ _ => exact fun c hc => ascii_of_wordRest (Lexeme.wordRest_of_digit (hdigits c hc))
  | symbol hs _ _ =>
    obtain ⟨a, ha, hone | ⟨b, htwo, hpair⟩⟩ := TokenKind.symbol?_cases hs
    · rw [hone]
      exact List.forall_mem_singleton.mpr (ascii_of_ofChar? ha)
    · rw [htwo]
      exact List.forall_mem_cons.mpr ⟨ascii_of_ofChar? ha, List.forall_mem_singleton.mpr (ascii_of_ofPair? hpair)⟩
  | define _ | directive _ _ _ | newline => cases hplain

section

variable {text cs rest : List Char} {d : Bool} {t : Token} {us vs : List Token}

/-- The account of a text can be taken up at any of its tokens. -/
theorem Accounts.starting (h : Accounts text d cs (us ++ t :: vs) rest) :
    ∃ d' gap w after, cs = gap ++ (w ++ after) ∧ Spells t.kind w after ∧
      text.length = t.first text + (w ++ after).length ∧ Accounts text d' (w ++ after) (t :: vs) rest := by
  generalize hts : us ++ t :: vs = ts at h
  induction h generalizing us with
  | done d rest => cases us <;> cases hts
  | @layout _ w _ _ _ _ _ ih =>
    obtain ⟨d', gap, w', after, rfl, hspells, hlength, htail⟩ := ih hts
    exact ⟨d', w ++ gap, w', after, (List.append_assoc _ _ _).symm, hspells, hlength, htail⟩
  | lineEnd _ ih =>
    obtain ⟨d', gap, w', after, rfl, hspells, hlength, htail⟩ := ih hts
    exact ⟨d', '\n' :: gap, w', after, rfl, hspells, hlength, htail⟩
  | @token d t' w dropped cs rest ts hspells hdrops hnewline hcovers h ih =>
    cases us with
    | nil =>
      obtain ⟨rfl, rfl⟩ := List.cons.inj hts
      exact ⟨d, [], w, dropped ++ cs, rfl, hspells, hcovers.1, .token hspells hdrops hnewline hcovers h⟩
    | cons u us =>
      obtain ⟨d', gap, w', after, rfl, hspells', hlength, htail⟩ := ih (List.cons.inj hts).2
      refine ⟨d', w ++ (dropped ++ gap), w', after, ?_, hspells', hlength, htail⟩
      simp only [List.append_assoc]

/-- The account of a text can be ended behind any of its tokens. -/
theorem Accounts.stopping (h : Accounts text d cs (us ++ t :: vs) rest) (ht : t.kind.isPlain = true) :
    ∃ front w after, cs = front ++ w ++ after ∧ Spells t.kind w after ∧
      text.length = t.behind text + after.length ∧ Accounts text d cs (us ++ [t]) after := by
  generalize hts : us ++ t :: vs = ts at h
  induction h generalizing us with
  | done d rest => cases us <;> cases hts
  | @layout _ w _ _ _ hlayout _ ih =>
    obtain ⟨front, w', after, rfl, hspells, hlength, htail⟩ := ih hts
    refine ⟨w ++ front, w', after, ?_, hspells, hlength, .layout hlayout htail⟩
    simp only [List.append_assoc]
  | lineEnd _ ih =>
    obtain ⟨front, w', after, rfl, hspells, hlength, htail⟩ := ih hts
    exact ⟨'\n' :: front, w', after, rfl, hspells, hlength, .lineEnd htail⟩
  | @token d t' w dropped cs rest ts hspells hdrops hnewline hcovers h ih =>
    cases us with
    | nil =>
      obtain ⟨rfl, rfl⟩ := List.cons.inj hts
      obtain rfl : dropped = [] := dropped_of_isPlain ht hdrops
      have hlength : text.length = t.behind text + cs.length := by
        rw [hcovers.2, hcovers.1, List.length_append, Nat.add_assoc]
        rfl
      exact ⟨[], w, cs, rfl, hspells, hlength, .token hspells hdrops hnewline hcovers (.done _ cs)⟩
    | cons u us =>
      obtain ⟨front, w', after, rfl, hspells', hlength, htail⟩ := ih (List.cons.inj hts).2
      obtain ⟨rfl, -⟩ := List.cons.inj hts
      refine ⟨w ++ (dropped ++ front), w', after, ?_, hspells', hlength, .token hspells hdrops hnewline hcovers htail⟩
      simp only [List.append_assoc]

/-- Tokens that follow one another account for the piece of the text that their span cuts out, and the cuts are
beside ASCII characters. -/
theorem Accounts.between {ws : List Token} {s : Span} (h : Accounts text d text (us ++ ws ++ vs) rest)
    (hspan : Surface.Spans ws s) (hplain : ∀ t ∈ ws, t.kind.isPlain = true) :
    ∃ d' pre body post, text = pre ++ (body ++ post) ∧ pre.length = s.start.index text ∧
      (pre ++ body).length = s.stop.index text + 1 ∧ Accounts text d' (body ++ post) ws post ∧
      (∀ c ∈ body.head?, c.toNat < 128) ∧ ∀ c ∈ body.getLast?, c.toNat < 128 := by
  obtain ⟨t, tail, htail, hfirst⟩ := hspan.opens text
  obtain ⟨init, last, hlast, hbehind⟩ := hspan.closes text
  have hopen : us ++ ws ++ vs = us ++ t :: (tail ++ vs) := by rw [htail, List.append_assoc, List.cons_append]
  have hclose : t :: (tail ++ vs) = init ++ last :: vs := by
    rw [← List.cons_append, ← htail, hlast, List.append_assoc]
    rfl
  have hpfirst : t.kind.isPlain = true := hplain t (by rw [htail]; exact List.mem_cons_self)
  have hplast : last.kind.isPlain = true := hplain last (by rw [hlast]; simp)
  rw [hopen] at h
  obtain ⟨d', pre, w, after, htext, hspells, hlength, h⟩ := h.starting
  rw [hclose] at h
  obtain ⟨front, w', post, hsplit, hspells', hlength', h⟩ := h.stopping hplast
  rw [← hlast, hsplit] at h
  rw [hsplit] at htext hlength
  have hpre : pre.length = t.first text := by
    rw [htext, List.length_append] at hlength
    rw [htext]
    omega
  have hbody : (pre ++ (front ++ w')).length = last.behind text := by
    rw [htext] at hlength' ⊢
    simp only [List.length_append] at hlength' ⊢
    omega
  refine ⟨d', pre, front ++ w', post, htext, hpre.trans hfirst, hbody.trans hbehind, h, ?_, ?_⟩
  · refine forall_head?_of_append (P := fun c => c.toNat < 128) (y := post) ?_
    rw [← hsplit]
    obtain ⟨c, v, rfl, -⟩ := hspells.start
    intro b hb
    cases hb
    exact hspells.ascii hpfirst c List.mem_cons_self
  · obtain ⟨c, v, rfl, -⟩ := hspells'.start
    intro b hb
    have hlast := List.getLast?_eq_some_getLast (List.cons_ne_nil c v)
    rw [List.getLast?_append, hlast, Option.some_or, ← hlast] at hb
    exact hspells'.ascii hplast b (List.mem_of_getLast? hb)

end
end Lexer

open Lexer

/-- A piece of a source text that starts and ends with ASCII characters is a text of its own. -/
theorem exists_slice {source : String} {pre body post : List Char} (h : sourceBytes source = pre ++ (body ++ post))
    (hfirst : ∀ c ∈ body.head?, c.toNat < 128) (hlast : ∀ c ∈ body.getLast?, c.toNat < 128) :
    ∃ slice, sourceBytes slice = body := by
  cases body with
  | nil => exact ⟨String.ofList [], sourceBytes_ofList []⟩
  | cons c body =>
    have hbytes := sourceBytes_ofList source.toList
    rw [String.ofList_toList, h] at hbytes
    obtain ⟨-, cs, -, -, hcs⟩ := exists_cut hbytes.symm fun _ _ b hb => .inr (hfirst b hb)
    obtain ⟨cs, -, -, hbody, -⟩ := exists_cut hcs fun a ha _ _ => .inl (hlast a ha)
    exact ⟨String.ofList cs, (sourceBytes_ofList cs).trans hbody⟩

section

variable {source path : String} {ts ws vs : List Token} {s s' : Span}

/-- Tokens of a text other than its end are among those accounted for. -/
theorem accounting_of_infix (htokens : tokens source path = .ok ts) (hws : ws <:+: ts)
    (hend : ∀ t ∈ ws, t.kind ≠ .eof) : ∃ us, ws <:+: us ∧ Accounting (sourceBytes source) us [] := by
  obtain ⟨us, e, rfl, haccounting⟩ := accounting_of_tokens htokens
  refine ⟨us, ?_, haccounting⟩
  rcases List.infix_concat_iff.mp hws with hsuffix | hinfix
  · rcases List.suffix_concat_iff.mp hsuffix with rfl | ⟨ws, rfl, -⟩
    · exact List.nil_infix
    · exact absurd rfl (hend ⟨.eof, e⟩ (by simp))
  · exact hinfix

/-- Plain tokens that follow one another are what the piece of the text that their span cuts out is read as. -/
theorem exists_slice_of_tokens (htokens : tokens source path = .ok ts) (hws : ws <:+: ts) (hspan : Surface.Spans ws s)
    (hplain : ∀ t ∈ ws, t.kind.isPlain = true) (hend : ∀ t ∈ ws, t.kind ≠ .eof) :
    ∃ slice, sourceBytes slice = (sourceBytes source).extract (s.start.index (sourceBytes source))
        (s.stop.index (sourceBytes source) + 1) ∧
      ∀ path', ∃ us e, tokens slice path' = .ok (us ++ [⟨.eof, e⟩]) ∧ us.map Token.kind = ws.map Token.kind := by
  obtain ⟨us, ⟨a, b, rfl⟩, haccounting⟩ := accounting_of_infix htokens hws hend
  obtain ⟨d, pre, body, post, htext, hpre, hbody, haccounts, hfirst, hlast⟩ :=
    haccounting.accounts.between hspan hplain
  have hextract : (sourceBytes source).extract pre.length (pre ++ body).length = body := by
    rw [List.extract_eq_take_drop, htext, List.drop_left, List.length_append, Nat.add_sub_cancel_left, List.take_left]
  obtain ⟨slice, hslice⟩ := exists_slice htext hfirst hlast
  refine ⟨slice, ?_, fun path' => ?_⟩
  · rw [← hpre, ← hbody, hextract, hslice]
  · unfold tokens
    rw [hslice]
    exact haccounts.alone rfl hplain path' .first

/-- The tokens do not go back. -/
theorem Lexer.Accounting.ordered {text rest : List Char} (h : Accounting text ts rest) :
    ts.Pairwise fun t u => t.first text ≤ u.first text ∧ t.behind text ≤ u.behind text := by
  have hspelled : ∀ t ∈ ts, t.first text < t.behind text := by
    intro t ht
    obtain ⟨c, v, hextract, -⟩ := (h.spelled t ht).start
    have hlength := congrArg List.length hextract
    simp only [List.extract_eq_take_drop, List.length_take, List.length_drop, List.length_cons] at hlength
    omega
  refine h.sorted.imp_of_mem fun ht hu htu => ?_
  exact ⟨Nat.le_trans (Nat.le_of_lt (hspelled _ ht)) htu, Nat.le_trans htu (Nat.le_of_lt (hspelled _ hu))⟩

/-- All of the tokens stand within their span. -/
theorem Surface.Spans.bounds {text : List Char} (hspan : Surface.Spans ws s)
    (hordered : ws.Pairwise fun t u => t.first text ≤ u.first text ∧ t.behind text ≤ u.behind text) :
    ∀ t ∈ ws, s.start.index text ≤ t.first text ∧ t.behind text ≤ s.stop.index text + 1 := by
  intro t ht
  constructor
  · obtain ⟨first, tail, rfl, hfirst⟩ := hspan.opens text
    rw [← hfirst]
    rcases List.mem_cons.mp ht with rfl | ht
    · exact Nat.le_refl _
    · exact ((List.pairwise_cons.mp hordered).1 t ht).1
  · obtain ⟨init, last, rfl, hlast⟩ := hspan.closes text
    rw [← hlast]
    rcases List.mem_append.mp ht with ht | ht
    · exact ((List.pairwise_append.mp hordered).2.2 t ht last List.mem_cons_self).2
    · obtain rfl := List.mem_singleton.mp ht
      exact Nat.le_refl _

/-- The span of tokens contains that of each run of them. -/
theorem Surface.Spans.contains (htokens : tokens source path = .ok ts) (hws : ws <:+: ts) (hend : ∀ t ∈ ws, t.kind ≠ .eof)
    (hspan : Surface.Spans ws s) (hvs : vs <:+: ws) (hspan' : Surface.Spans vs s') :
    s.start.index (sourceBytes source) ≤ s'.start.index (sourceBytes source) ∧
      s'.stop.index (sourceBytes source) ≤ s.stop.index (sourceBytes source) := by
  obtain ⟨us, hus, haccounting⟩ := accounting_of_infix htokens hws hend
  have hbounds := hspan.bounds (haccounting.ordered.sublist hus.sublist)
  obtain ⟨first, tail, htail, hfirst⟩ := hspan'.opens (sourceBytes source)
  obtain ⟨init, last, hinit, hlast⟩ := hspan'.closes (sourceBytes source)
  have hstart := (hbounds first (hvs.subset (by rw [htail]; exact List.mem_cons_self))).1
  have hstop := (hbounds last (hvs.subset (by rw [hinit]; simp))).2
  rw [hfirst] at hstart
  rw [hlast] at hstop
  exact ⟨hstart, Nat.le_of_succ_le_succ hstop⟩

end
end Promela
