import Promela.Proofs.Token.Lexing

/-! The places of a text: each token, each run of tokens, and what is rejected when tokens are read, stands
between two of them. -/
namespace Promela

/-- Earlier positions first: lines count before columns. -/
instance : LE Position := ⟨fun p q => p.line < q.line ∨ p.line = q.line ∧ p.column ≤ q.column⟩

/-- The position of a byte of the text, or the one behind its last byte. -/
def Position.PointsInto (text : List Char) (p : Position) : Prop :=
  ∃ pre post, text = pre ++ post ∧ p = first.advance pre

/-- The span is of the file, starts and stops at places of the text, and does not stop before it starts. -/
structure Span.PointsInto (path : String) (text : List Char) (s : Span) : Prop where
  path : s.path = path
  start : s.start.PointsInto text
  stop : s.stop.PointsInto text
  ordered : s.start ≤ s.stop

namespace Position

theorem le_iff {p q : Position} : p ≤ q ↔ p.line < q.line ∨ p.line = q.line ∧ p.column ≤ q.column := Iff.rfl

theorem le_refl (p : Position) : p ≤ p := .inr ⟨rfl, Nat.le_refl _⟩

theorem le_trans {p q r : Position} (h : p ≤ q) (h' : q ≤ r) : p ≤ r := by
  rw [le_iff] at h h' ⊢
  omega

theorem le_next (p : Position) (c : Char) : p ≤ p.next c := by
  unfold next
  split
  · exact .inl (Nat.lt_succ_self _)
  · exact .inr ⟨rfl, Nat.le_succ _⟩

theorem le_advance (p : Position) (text : List Char) : p ≤ p.advance text := by
  induction text generalizing p with
  | nil => exact le_refl p
  | cons c text ih => exact le_trans (le_next p c) (ih (p.next c))

/-- Without a line end the line stays. -/
theorem advance_of_newline_not_mem {text : List Char} (h : '\n' ∉ text) (p : Position) :
    p.advance text = ⟨p.line, p.column + text.length⟩ := by
  induction text generalizing p with
  | nil => rfl
  | cons c text ih =>
    have hc : c ≠ '\n' := fun hc => h (hc ▸ List.mem_cons_self)
    have hstep : p.advance (c :: text) = (p.next c).advance text := rfl
    have hnext : p.next c = ⟨p.line, p.column + 1⟩ := if_neg hc
    rw [hstep, ih (fun hmem => h (List.mem_cons_of_mem c hmem)), hnext, List.length_cons, Nat.add_assoc,
      Nat.add_comm 1]

theorem PointsInto.of_append {text pre mid post : List Char} (h : text = pre ++ (mid ++ post)) :
    ((first.advance pre).advance mid).PointsInto text :=
  ⟨pre ++ mid, post, by rw [h, List.append_assoc], (advance_append first pre mid).symm⟩

end Position

namespace Lexer

/-- The number of characters is not more than there are, and no line ends among them. -/
def InLine (extra : Nat) (cs : List Char) : Prop := extra ≤ cs.length ∧ '\n' ∉ cs.take extra

theorem InLine.none (cs : List Char) : InLine 0 cs := ⟨Nat.zero_le _, List.not_mem_nil⟩

theorem InLine.of_append {c : Char} {w : List Char} (h : '\n' ∉ c :: w) (rest : List Char) :
    InLine w.length (c :: (w ++ rest)) := by
  have hlength : w.length ≤ (c :: w).length := Nat.le_succ _
  have htake : ((c :: w) ++ rest).take w.length = (c :: w).take w.length := List.take_append_of_le_length hlength
  constructor
  · rw [List.length_cons, List.length_append]
    omega
  · rw [← List.cons_append, htake]
    exact fun hmem => h (List.mem_of_mem_take hmem)

variable {path : String} {text pre cs : List Char} {p : Position} {d : Bool}

theorem pointsInto_point (hp : p = Position.first.advance pre) (htext : text = pre ++ cs) :
    (Span.point path p).PointsInto path text :=
  have hpoint : p.PointsInto text := ⟨pre, cs, htext, hp⟩
  ⟨rfl, hpoint, hpoint, p.le_refl⟩

/-- A span on one line, which ends within the text. -/
theorem pointsInto_spanOf (hp : p = Position.first.advance pre) (htext : text = pre ++ cs) {extra : Nat}
    (h : InLine extra cs) : (spanOf path p extra).PointsInto path text := by
  obtain ⟨hextra, hline⟩ := h
  have hstop : (spanOf path p extra).stop = p.advance (cs.take extra) := by
    rw [Position.advance_of_newline_not_mem hline, List.length_take, Nat.min_eq_left hextra]
    rfl
  have hsplit : text = pre ++ (cs.take extra ++ cs.drop extra) := by rw [List.take_append_drop, htext]
  refine ⟨rfl, ⟨pre, cs, htext, hp⟩, ?_, ?_⟩
  · rw [hstop, hp]
    exact .of_append hsplit
  · rw [hstop]
    exact p.le_advance _

theorem Spells.inLine {kind : TokenKind} {c : Char} {w rest : List Char} (h : Spells kind (c :: w) rest)
    (hkind : kind ≠ .newline) (after : List Char) : InLine w.length (c :: (w ++ after)) :=
  .of_append (h.newline_not_mem hkind) after

/-- What is rejected is one character or a number. -/
theorem Front.malformed_inLine {c : Char} {cs : List Char} {how : Malformed} {extra : Nat}
    (h : ofChars c cs = .malformed how extra) : InLine extra (c :: cs) := by
  unfold ofChars at h
  split at h
  · cases h
  split at h
  · next hdigit =>
    unfold ofNumber at h
    dsimp only at h
    split at h
    · cases h
    · cases h
      obtain ⟨run, rest, rfl, hrun, hdigits, -⟩ := exists_run Char.isDigit cs
      rw [hrun]
      have hall : ∀ d ∈ c :: run, d.isDigit = true := List.forall_mem_cons.mpr ⟨hdigit, hdigits⟩
      exact .of_append (fun hmem => absurd (hall _ hmem) (by decide)) rest
  split at h
  · cases h
  split at h
  · cases h
  · unfold ofDirective at h
    dsimp only at h
    split at h <;> cases h
  · cases h
  · cases h
  · split at h
    · cases h
    · cases h
      exact .none _
  · unfold ofOperator at h
    split at h
    · cases h
    · split at h
      · cases h
      · cases h
        exact .none _

/-- From a position of the text on: the tokens stand at places of the text, none before the position and none
before the one that precedes it, and what is rejected stands at a place of the text. -/
def StandsIn (path : String) (text : List Char) (p : Position) : Except Rejection (List Token) → Prop
  | .ok ts => (∀ t ∈ ts, t.span.PointsInto path text ∧ p ≤ t.span.start) ∧
      ts.Pairwise fun t u => t.span.start ≤ u.span.start
  | .error r => ∃ s, r.span = some s ∧ s.PointsInto path text

namespace StandsIn

variable {q : Position} {x : Except Rejection (List Token)}

theorem earlier (h : StandsIn path text q x) (hpq : p ≤ q) : StandsIn path text p x := by
  cases x with
  | error r => exact h
  | ok ts =>
    obtain ⟨hts, hsorted⟩ := h
    exact ⟨fun t ht => ⟨(hts t ht).1, Position.le_trans hpq (hts t ht).2⟩, hsorted⟩

theorem cons {t : Token} (ht : t.span.PointsInto path text) (h : StandsIn path text t.span.start x) :
    StandsIn path text t.span.start (do let ts ← x; pure (t :: ts)) := by
  cases x with
  | error r => exact h
  | ok ts =>
    obtain ⟨hts, hsorted⟩ := h
    refine ⟨List.forall_mem_cons.mpr ⟨⟨ht, Position.le_refl _⟩, hts⟩, List.pairwise_cons.mpr ⟨?_, hsorted⟩⟩
    exact fun u hu => (hts u hu).2

end StandsIn

/-- Each step of the reader goes on at a place of the text behind the one where it started. -/
theorem standsIn_tokensFrom (hp : p = Position.first.advance pre) (htext : text = pre ++ cs) :
    StandsIn path text p (tokensFrom path p d cs) := by
  fun_induction tokensFrom path p d cs generalizing pre with
  | case1 p d =>
    have heof : (Span.point path p).PointsInto path text := pointsInto_point hp htext
    exact ⟨List.forall_mem_singleton.mpr ⟨heof, p.le_refl⟩, List.pairwise_singleton _ _⟩
  | case2 p d c cs n hfront ih =>
    have htext' : text = (pre ++ c :: cs.take n) ++ cs.drop n := by simp [htext]
    have hrest := ih (by rw [hp, Position.advance_append]) htext'
    exact hrest.earlier (p.le_advance _)
  | case3 p d c cs hfront ih =>
    have hparts := Front.ofChars_parts c cs
    rw [hfront] at hparts
    cases hparts with
    | lineEnd =>
      have htext' : text = (pre ++ ['\n']) ++ cs := by simp [htext]
      have hrest := (ih (by rw [hp, Position.advance_append]; rfl) htext').earlier (p.le_next '\n')
      cases d with
      | false => simpa using hrest
      | true => exact hrest.cons (t := ⟨.newline, .point path p⟩) (pointsInto_point hp htext)
  | case4 p d c cs kind n dropped hfront n' =>
    rename_i ih
    have htext' : text = (pre ++ c :: cs.take n') ++ cs.drop n' := by simp [htext]
    have hrest := ih (by rw [hp, Position.advance_append]) htext'
    have hparts := Front.ofChars_parts c cs
    rw [hfront] at hparts
    cases hparts with
    | @directive _ _ w skipped rest hspells hdirective hdrops =>
      have hkind : kind ≠ .newline := by
        rintro rfl
        exact absurd (hdirective true) (by decide)
      have hspan : (spanOf path p w.length).PointsInto path text :=
        pointsInto_spanOf hp htext (hspells.inLine hkind (skipped ++ rest))
      exact (hrest.earlier (p.le_advance _)).cons (t := ⟨kind, spanOf path p w.length⟩) hspan
  | case5 p d c cs kind n hfront ih =>
    have htext' : text = (pre ++ c :: cs.take n) ++ cs.drop n := by simp [htext]
    have hrest := ih (by rw [hp, Position.advance_append]) htext'
    have hparts := Front.ofChars_parts c cs
    rw [hfront] at hparts
    cases hparts with
    | @token _ _ w rest hspells hplain =>
      have hspan : (spanOf path p w.length).PointsInto path text :=
        pointsInto_spanOf hp htext (hspells.inLine (ne_newline_of_isPlain hplain) rest)
      exact (hrest.earlier (p.le_advance _)).cons (t := ⟨kind, spanOf path p w.length⟩) hspan
  | case6 p d c cs how n hfront =>
    exact ⟨_, rfl, pointsInto_spanOf hp htext (Front.malformed_inLine hfront)⟩

end Lexer
end Promela
