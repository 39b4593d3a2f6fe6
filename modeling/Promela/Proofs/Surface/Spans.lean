import Promela.Proofs.Surface.Completeness
import Promela.Proofs.Surface.Sources
import Promela.Proofs.Token.Slices

/-! Spans of expressions denote their own text: what the span of an expression cuts out of the source is a
text of its own, and it is read as this expression. -/
namespace Promela

/-- Whether an expression may have the token: no line of a directive and no text ends with it. -/
def TokenKind.isInner (kind : TokenKind) : Bool := kind.isPlain && kind != .eof

namespace Surface

theorem Derives.inner {form : Form} {ks : List TokenKind} (h : Derives form ks) :
    ks.all TokenKind.isInner = true := by
  have hinner : ∀ k : TokenKind, k.inExpr = true → k.isInner = true := by
    intro k hk
    cases k <;> first | rfl | cases hk
  exact List.all_eq_true.mpr fun k hk => hinner k (List.all_eq_true.mp h.inExpr k hk)

/-- The tokens that an expression stands on are plain, and the end of the text is not among them. -/
theorem Stands.inner {us : List Token} {e : Expr} (h : Stands us e) :
    (∀ t ∈ us, t.kind.isPlain = true) ∧ ∀ t ∈ us, t.kind ≠ .eof := by
  have hinner : ∀ t ∈ us, t.kind.isPlain = true ∧ t.kind ≠ .eof := by
    intro t ht
    have hkind := List.all_eq_true.mp h.derives.inner t.kind (List.mem_map_of_mem ht)
    simpa [TokenKind.isInner] using hkind
  exact ⟨fun t ht => (hinner t ht).1, fun t ht => (hinner t ht).2⟩

end Surface

open Surface

/-- The span of every expression that is read from a source text, at any depth of an initial value or of the
body of a macro, denotes the text of this expression. What it cuts out of the source, its last byte included,
is read alone, under any name, as a tree that is the same but for its spans, and nothing is left but the end.
The spans of the expressions below it lie within it. -/
theorem expressions_denote_spans {source path : String} {items : List Item}
    (hitems : (tokens source path).bind Surface.items = .ok items) :
    ∀ i ∈ items, ∀ e ∈ i.exprs, ∀ n ∈ e.nodes,
      (∃ slice, sourceBytes slice = (sourceBytes source).extract (n.span.start.index (sourceBytes source))
          (n.span.stop.index (sourceBytes source) + 1) ∧
        ∀ path', ∃ ts p s, tokens slice path' = .ok ts ∧ binary levels ts = .ok p ∧ p.rest = [⟨.eof, s⟩] ∧
          p.value.bare = n.bare) ∧
      ∀ m ∈ n.descendants, n.span.start.index (sourceBytes source) ≤ m.span.start.index (sourceBytes source) ∧
        m.span.stop.index (sourceBytes source) ≤ n.span.stop.index (sourceBytes source) := by
  intro i hi e he n hn
  obtain ⟨ts, htokens, hitems⟩ := bind_ok hitems
  have hgrounded := (from_of_items hitems i hi).exprs
  obtain ⟨us, hus, hstands⟩ := hgrounded n (List.mem_flatMap.mpr ⟨e, he, hn⟩)
  obtain ⟨hplain, hend⟩ := hstands.inner
  constructor
  · obtain ⟨slice, hslice, hread⟩ := exists_slice_of_tokens htokens hus hstands.spans hplain hend
    refine ⟨slice, hslice, fun path' => ?_⟩
    obtain ⟨vs, s, hvs, hkinds⟩ := hread path'
    have hderives := hstands.derives
    rw [← hkinds] at hderives
    have hfollow : ∀ t ∈ [(⟨.eof, s⟩ : Token)].head?, t.kind.mayFollow = true := by
      intro t ht
      cases ht
      rfl
    obtain ⟨p, hp, hrest, hbare⟩ := binary_of_derives hderives hfollow
    exact ⟨vs ++ [⟨.eof, s⟩], p, s, hvs, hp, hrest, hbare⟩
  · intro m hm
    obtain ⟨vs, hvs, hspan⟩ := hstands.below m hm
    exact hstands.spans.contains htokens hus hend hvs hspan

/-- A sum in parentheses that goes on over two lines, with an index below it. -/
theorem expressions_denote_spans_over_lines :
    ∃ slice, sourceBytes slice = "(1+\\\ny[2])".toList ∧ ∀ path', ∃ ts p s, tokens slice path' = .ok ts ∧
      binary levels ts = .ok p ∧ p.rest = [⟨.eof, s⟩] ∧
      p.value.bare = .binary .add (.number 1) (.reference (.leaf "y" (some (.number 2)))) := by
  let span (line first line' last : Nat) : Span := ⟨"m", ⟨line, first⟩, ⟨line', last⟩⟩
  let sum : Surface.Expr := .binary (span 1 8 2 5) .add (.number (span 1 9 1 9) 1)
    (.reference (span 2 1 2 4) (.leaf ⟨"y", span 2 1 2 1⟩ (some (.number (span 2 3 2 3) 2))))
  let ts : List Token :=
    [⟨.typeName .byte, span 1 1 1 4⟩, ⟨.ident "x", span 1 6 1 6⟩, ⟨.assign, span 1 7 1 7⟩,
      ⟨.openParen, span 1 8 1 8⟩, ⟨.number 1, span 1 9 1 9⟩, ⟨.binary .add, span 1 10 1 10⟩,
      ⟨.ident "y", span 2 1 2 1⟩, ⟨.openBracket, span 2 2 2 2⟩, ⟨.number 2, span 2 3 2 3⟩,
      ⟨.closeBracket, span 2 4 2 4⟩, ⟨.closeParen, span 2 5 2 5⟩, ⟨.eof, span 2 6 2 6⟩]
  let x : Item := .globals ⟨.scalar .byte, span 1 1 1 4⟩ [⟨⟨"x", span 1 6 1 6⟩, none, some (.value sum)⟩]
  have htokens : tokens "byte x=(1+\\\ny[2])" "m" = .ok ts := by decide +kernel
  have hitems : (tokens "byte x=(1+\\\ny[2])" "m").bind Surface.items = .ok [x] := by
    rw [htokens]
    cbv
  obtain ⟨⟨slice, hslice, hread⟩, -⟩ :=
    expressions_denote_spans hitems x List.mem_cons_self sum List.mem_cons_self sum List.mem_cons_self
  refine ⟨slice, hslice.trans ?_, hread⟩
  decide +kernel

end Promela
