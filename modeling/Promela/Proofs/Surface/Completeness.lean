import Promela.Proofs.Surface.Soundness
import Promela.Surface.ItemParser

/-! Every sentence of an expression is read as that expression, up to the last token of the sentence,
whatever follows it that may follow an expression. -/
namespace Promela
namespace Surface

theorem map_kind_eq_cons {us : List Token} {k : TokenKind} {ks : List TokenKind} :
    us.map Token.kind = k :: ks ↔ ∃ s vs, us = ⟨k, s⟩ :: vs ∧ vs.map Token.kind = ks := by
  rw [List.map_eq_cons_iff]
  constructor
  · rintro ⟨⟨k, s⟩, vs, rfl, rfl, rfl⟩
    exact ⟨s, vs, rfl, rfl⟩
  · rintro ⟨s, vs, rfl, rfl⟩
    exact ⟨⟨k, s⟩, vs, rfl, rfl, rfl⟩

/-- The tokens are read as what the form means, up to whatever is tied no closer. On a level with
operators only the start of a chain is read: more of the chain may follow. -/
def ReadAs : Form → List Token → Prop
  | .level 0 e, us | .operand e, us =>
    ∀ rest, Ends 3 rest → ∃ e' : Expr, e'.bare = e ∧ Yields (unary (us ++ rest)) e' rest
  | .level (n + 1) e, us =>
    ∀ rest, Ends (n + 3) rest → ∃ left : Expr, left.bare = e ∧
      ∀ e' rest', Yields (chain n left rest) e' rest' → Yields (binary (n + 1) (us ++ rest)) e' rest'
  | .primary e, us =>
    ∀ rest, Ends 3 rest → ∃ e' : Expr, e'.bare = e ∧ Yields (primary (us ++ rest)) e' rest
  | .reference r, us =>
    ∃ name vs, us = ⟨.ident name.value, name.span⟩ :: vs ∧ ∀ rest, Ends 2 rest →
      ∃ (r' : Reference) (stop : Span), r'.bare = r ∧ Yields (reference name (vs ++ rest)) (r', stop) rest
  | .index i, us =>
    ∀ (name : Located String) rest, Ends 1 rest → ∃ i' stop, bareIndex i' = i ∧
      ∀ r stop' rest', Yields (member name i' stop rest) (r, stop') rest' →
        Yields (reference name (us ++ rest)) (r, stop') rest'
  | .arguments es, us =>
    ∀ s rest, ∃ es', bareArguments es' = es ∧
      Yields (arguments (us ++ ⟨.closeBracket, s⟩ :: rest)) es' (⟨.closeBracket, s⟩ :: rest)

/-- What follows an expression of level `n` is no operator of the level. -/
theorem ReadAs.level {n : Nat} {e : BareExpr} {us rest : List Token} (h : ReadAs (.level n e) us)
    (hrest : Ends (n + 3) rest) :
    ∃ e' : Expr, e'.bare = e ∧ Yields (binary n (us ++ rest)) e' rest := by
  cases n with
  | zero =>
    obtain ⟨e', he', h⟩ := h rest hrest
    rw [binary]
    exact ⟨e', he', h⟩
  | succ n =>
    obtain ⟨left, hleft, h⟩ := h rest (hrest.mono (by omega))
    exact ⟨left, hleft, h left rest (yields_chain_end hrest)⟩

section

variable {n : Nat} {us vs ws : List Token} {e c a b : BareExpr} {r : BareReference}
  {i : Option BareExpr} {es : List BareExpr} {s s₁ s₂ s₃ : Span}

namespace ReadAs

theorem tighter (h : ReadAs (.level n e) us) : ReadAs (.level (n + 1) e) us := by
  intro rest hrest
  obtain ⟨e, rfl, he⟩ := h.level hrest
  exact ⟨e, rfl, fun _ _ hchain => yields_binary_succ he hchain⟩

/-- The left side is the start of the chain that the operator goes on with. -/
theorem binary {op : BinaryOp} {l r : BareExpr} (hop : op.looseness = n) (hl : ReadAs (.level (n + 1) l) us)
    (hr : ReadAs (.level n r) vs) :
    ReadAs (.level (n + 1) (.binary op l r)) (us ++ ⟨.binary op, s⟩ :: vs) := by
  intro rest hrest
  have hreach : Ends (n + 3) (⟨.binary op, s⟩ :: vs ++ rest) := .cons (by simp [TokenKind.reach, hop])
  obtain ⟨left, rfl, hleft⟩ := hl _ hreach
  obtain ⟨right, rfl, hright⟩ := hr.level hrest
  refine ⟨.binary (left.span.through right.span) op left right, by simp only [Expr.bare], ?_⟩
  intro e' rest' hchain
  rw [List.append_assoc]
  exact hleft e' rest' (yields_chain_cons hop hright hchain)

theorem prefixed (op : UnaryOp) (h : ReadAs (.operand e) us) :
    ReadAs (.operand (.unary op e)) (⟨prefixToken op, s⟩ :: us) := by
  intro rest hrest
  obtain ⟨e, rfl, he⟩ := h rest hrest
  exact ⟨_, by simp only [Expr.bare], yields_unary_prefixed op he⟩

theorem primary (h : ReadAs (.primary e) us) : ReadAs (.operand e) us := by
  intro rest hrest
  obtain ⟨e, rfl, he⟩ := h rest hrest
  exact ⟨e, rfl, yields_unary_primary he⟩

theorem token {t : Token} {e : Expr} (h : ∀ rest, Yields (Surface.primary (t :: rest)) e rest) :
    ReadAs (.primary e.bare) [t] :=
  fun rest _ => ⟨e, rfl, h rest⟩

theorem group (h : ReadAs (.level levels e) us) :
    ReadAs (.primary e) (⟨.openParen, s⟩ :: us ++ [⟨.closeParen, s₁⟩]) := by
  intro rest _
  have hclose : Ends (levels + 3) (⟨.closeParen, s₁⟩ :: rest) := .cons (by decide)
  obtain ⟨e, rfl, he⟩ := h.level hclose
  rw [List.append_assoc]
  exact ⟨_, e.bare_withSpan _, yields_group he⟩

theorem ternary (hc : ReadAs (.level levels c) us) (ha : ReadAs (.level levels a) vs)
    (hb : ReadAs (.level levels b) ws) :
    ReadAs (.primary (.ternary c a b))
      (⟨.openParen, s⟩ :: us ++ ⟨.arrow, s₁⟩ :: vs ++ ⟨.colon, s₂⟩ :: ws ++ [⟨.closeParen, s₃⟩]) := by
  intro rest _
  have hclose : Ends (levels + 3) (⟨.closeParen, s₃⟩ :: rest) := .cons (by decide)
  obtain ⟨b, rfl, hsecond⟩ := hb.level hclose
  have hcolon : Ends (levels + 3) (⟨.colon, s₂⟩ :: (ws ++ ⟨.closeParen, s₃⟩ :: rest)) := .cons (by decide)
  obtain ⟨a, rfl, hfirst⟩ := ha.level hcolon
  have harrow : Ends (levels + 3) (⟨.arrow, s₁⟩ :: (vs ++ ⟨.colon, s₂⟩ :: (ws ++ ⟨.closeParen, s₃⟩ :: rest))) :=
    .cons (by decide)
  obtain ⟨c, rfl, hcondition⟩ := hc.level harrow
  refine ⟨.ternary (s.through s₃) c a b, by simp only [Expr.bare], ?_⟩
  rw [List.append_assoc, List.append_assoc, List.append_assoc]
  exact yields_ternary hcondition hfirst hsecond

theorem query (op : ChannelOp) (h : ReadAs (.level levels e) us) :
    ReadAs (.primary (.query op e)) (⟨.query op, s⟩ :: ⟨.openParen, s₁⟩ :: us ++ [⟨.closeParen, s₂⟩]) := by
  intro rest _
  have hclose : Ends (levels + 3) (⟨.closeParen, s₂⟩ :: rest) := .cons (by decide)
  obtain ⟨e, rfl, he⟩ := h.level hclose
  rw [List.append_assoc]
  exact ⟨_, by simp only [Expr.bare], yields_query op he⟩

theorem eval (h : ReadAs (.level levels e) us) :
    ReadAs (.primary (.eval e)) (⟨.eval, s⟩ :: ⟨.openParen, s₁⟩ :: us ++ [⟨.closeParen, s₂⟩]) := by
  intro rest _
  have hclose : Ends (levels + 3) (⟨.closeParen, s₂⟩ :: rest) := .cons (by decide)
  obtain ⟨e, rfl, he⟩ := h.level hclose
  rw [List.append_assoc]
  exact ⟨_, by simp only [Expr.bare], yields_eval he⟩

theorem reference (h : ReadAs (.reference r) us) : ReadAs (.primary (.reference r)) us := by
  obtain ⟨name, vs, rfl, h⟩ := h
  intro rest hrest
  obtain ⟨r, stop, rfl, hr⟩ := h rest (hrest.mono (by decide))
  exact ⟨_, by simp only [Expr.bare], yields_reference hr hrest⟩

theorem poll (hr : ReadAs (.reference r) us) (hes : ReadAs (.arguments es) vs) :
    ReadAs (.primary (.poll (.reference r) es))
      (us ++ ⟨.question, s₁⟩ :: ⟨.openBracket, s₂⟩ :: vs ++ [⟨.closeBracket, s₃⟩]) := by
  obtain ⟨name, us, rfl, hr⟩ := hr
  intro rest _
  obtain ⟨es, rfl, hargs⟩ := hes s₃ rest
  have hquestion : Ends 2 (⟨.question, s₁⟩ :: ⟨.openBracket, s₂⟩ :: (vs ++ ⟨.closeBracket, s₃⟩ :: rest)) :=
    .cons (by decide)
  obtain ⟨r, stop, rfl, hchannel⟩ := hr _ hquestion
  refine ⟨.poll (name.span.through s₃) (.reference (name.span.through stop) r) es,
    by simp only [Expr.bare], ?_⟩
  rw [List.append_assoc, List.append_assoc]
  exact yields_poll hchannel hargs

theorem leaf (name : String) (h : ReadAs (.index i) us) :
    ReadAs (.reference (.leaf name i)) (⟨.ident name, s⟩ :: us) := by
  refine ⟨⟨name, s⟩, us, rfl, ?_⟩
  intro rest hrest
  obtain ⟨i, stop, rfl, hi⟩ := h ⟨name, s⟩ rest (hrest.mono (by decide))
  exact ⟨_, stop, by simp only [Reference.bare], hi _ _ _ (yields_leaf hrest)⟩

theorem field (name : String) (hi : ReadAs (.index i) us) (hr : ReadAs (.reference r) vs) :
    ReadAs (.reference (.field name i r)) (⟨.ident name, s⟩ :: us ++ ⟨.dot, s₁⟩ :: vs) := by
  obtain ⟨f, vs, rfl, hr⟩ := hr
  refine ⟨⟨name, s⟩, us ++ ⟨.dot, s₁⟩ :: ⟨.ident f.value, f.span⟩ :: vs, rfl, ?_⟩
  intro rest hrest
  obtain ⟨r, stop, rfl, hbelow⟩ := hr rest hrest
  have hdot : Ends 1 (⟨.dot, s₁⟩ :: ⟨.ident f.value, f.span⟩ :: vs ++ rest) := .cons (by decide)
  obtain ⟨i, stop', rfl, hmember⟩ := hi ⟨name, s⟩ _ hdot
  refine ⟨.field ⟨name, s⟩ i r, stop, by simp only [Reference.bare], ?_⟩
  rw [List.append_assoc]
  exact hmember _ _ _ (yields_field hbelow)

theorem unindexed : ReadAs (.index none) [] :=
  fun name _ hrest => ⟨none, name.span, rfl, fun _ _ _ h => yields_unindexed hrest h⟩

theorem indexed (h : ReadAs (.level levels e) us) :
    ReadAs (.index (some e)) (⟨.openBracket, s⟩ :: us ++ [⟨.closeBracket, s₁⟩]) := by
  intro name rest _
  have hclose : Ends (levels + 3) (⟨.closeBracket, s₁⟩ :: rest) := .cons (by decide)
  obtain ⟨e, rfl, he⟩ := h.level hclose
  refine ⟨some e, s₁, rfl, ?_⟩
  intro r stop rest' hmember
  rw [List.append_assoc]
  exact yields_indexed he hmember

theorem single (h : ReadAs (.level levels e) us) : ReadAs (.arguments [e]) us := by
  intro s rest
  have hclose : Ends (levels + 3) (⟨.closeBracket, s⟩ :: rest) := .cons (by decide)
  obtain ⟨e, rfl, he⟩ := h.level hclose
  exact ⟨[e], rfl, yields_single he (by simp)⟩

theorem more (h : ReadAs (.level levels e) us) (hes : ReadAs (.arguments es) vs) :
    ReadAs (.arguments (e :: es)) (us ++ ⟨.comma, s₁⟩ :: vs) := by
  intro s rest
  obtain ⟨es, rfl, hrest⟩ := hes s rest
  have hcomma : Ends (levels + 3) (⟨.comma, s₁⟩ :: (vs ++ ⟨.closeBracket, s⟩ :: rest)) := .cons (by decide)
  obtain ⟨e, rfl, he⟩ := h.level hcomma
  rw [List.append_assoc]
  exact ⟨e :: es, rfl, yields_more he hrest⟩

end ReadAs

end

/-- Tokens that spell a sentence are read as what the sentence means. -/
theorem Derives.read {form : Form} {ks : List TokenKind} (h : Derives form ks) :
    ∀ {us : List Token}, us.map Token.kind = ks → ReadAs form us := by
  induction h with
  | operand _ ih => exact ih
  | tighter _ ih => exact fun hks => (ih hks).tighter
  | binary hop _ _ ihl ihr =>
    intro us hks
    simp only [List.map_eq_append_iff, map_kind_eq_cons] at hks
    obtain ⟨us, _, rfl, hus, s, vs, rfl, hvs⟩ := hks
    exact .binary (looseness_of_mem hop) (ihl hus) (ihr hvs)
  | prefixed op _ ih =>
    intro us hks
    obtain ⟨s, us, rfl, hus⟩ := map_kind_eq_cons.mp hks
    exact .prefixed op (ih hus)
  | primary _ ih => exact fun hks => (ih hks).primary
  | number n =>
    intro us hks
    simp only [map_kind_eq_cons, List.map_eq_nil_iff] at hks
    obtain ⟨s, _, rfl, rfl⟩ := hks
    exact .token fun _ => yields_number
  | truth b =>
    intro us hks
    simp only [map_kind_eq_cons, List.map_eq_nil_iff] at hks
    obtain ⟨s, _, rfl, rfl⟩ := hks
    exact .token fun _ => yields_truth
  | skip =>
    intro us hks
    simp only [map_kind_eq_cons, List.map_eq_nil_iff] at hks
    obtain ⟨s, _, rfl, rfl⟩ := hks
    exact .token fun _ => yields_skip
  | group _ ih =>
    intro us hks
    simp only [List.map_eq_append_iff, map_kind_eq_cons, List.map_eq_nil_iff] at hks
    obtain ⟨_, _, rfl, ⟨s, us, rfl, hus⟩, s₁, _, rfl, rfl⟩ := hks
    exact .group (ih hus)
  | ternary _ _ _ ihc iha ihb =>
    intro us hks
    simp only [List.map_eq_append_iff, map_kind_eq_cons, List.map_eq_nil_iff] at hks
    obtain ⟨_, _, rfl, ⟨_, _, rfl, ⟨_, _, rfl, ⟨s, us, rfl, hus⟩, s₁, vs, rfl, hvs⟩, s₂, ws, rfl, hws⟩,
      s₃, _, rfl, rfl⟩ := hks
    exact .ternary (ihc hus) (iha hvs) (ihb hws)
  | query op _ ih =>
    intro us hks
    simp only [List.map_eq_append_iff, map_kind_eq_cons, List.map_eq_nil_iff] at hks
    obtain ⟨_, _, rfl, ⟨s, _, rfl, s₁, us, rfl, hus⟩, s₂, _, rfl, rfl⟩ := hks
    exact .query op (ih hus)
  | eval _ ih =>
    intro us hks
    simp only [List.map_eq_append_iff, map_kind_eq_cons, List.map_eq_nil_iff] at hks
    obtain ⟨_, _, rfl, ⟨s, _, rfl, s₁, us, rfl, hus⟩, s₂, _, rfl, rfl⟩ := hks
    exact .eval (ih hus)
  | reference _ ih => exact fun hks => (ih hks).reference
  | poll _ _ ihr ihes =>
    intro us hks
    simp only [List.map_eq_append_iff, map_kind_eq_cons, List.map_eq_nil_iff] at hks
    obtain ⟨_, _, rfl, ⟨us, _, rfl, hus, s₁, _, rfl, s₂, vs, rfl, hvs⟩, s₃, _, rfl, rfl⟩ := hks
    exact .poll (ihr hus) (ihes hvs)
  | leaf name _ ih =>
    intro us hks
    obtain ⟨s, us, rfl, hus⟩ := map_kind_eq_cons.mp hks
    exact .leaf name (ih hus)
  | field name _ _ ihi ihr =>
    intro us hks
    simp only [List.map_eq_append_iff, map_kind_eq_cons] at hks
    obtain ⟨_, _, rfl, ⟨s, us, rfl, hus⟩, s₁, vs, rfl, hvs⟩ := hks
    exact .field name (ihi hus) (ihr hvs)
  | unindexed =>
    intro us hks
    obtain rfl := List.map_eq_nil_iff.mp hks
    exact .unindexed
  | indexed _ ih =>
    intro us hks
    simp only [List.map_eq_append_iff, map_kind_eq_cons, List.map_eq_nil_iff] at hks
    obtain ⟨_, _, rfl, ⟨s, us, rfl, hus⟩, s₁, _, rfl, rfl⟩ := hks
    exact .indexed (ih hus)
  | single _ ih => exact fun hks => (ih hks).single
  | more _ _ ih ihes =>
    intro us hks
    simp only [List.map_eq_append_iff, map_kind_eq_cons] at hks
    obtain ⟨us, _, rfl, hus, s, vs, rfl, hvs⟩ := hks
    exact .more (ih hus) (ihes hvs)

theorem binary_of_derives {e : BareExpr} {us rest : List Token}
    (h : Derives (.level levels e) (us.map Token.kind)) (hrest : ∀ t ∈ rest.head?, t.kind.mayFollow = true) :
    ∃ p, binary levels (us ++ rest) = .ok p ∧ p.rest = rest ∧ p.value.bare = e := by
  obtain ⟨e', he', hlt, hok⟩ := (h.read rfl).level (ends_of_mayFollow hrest)
  exact ⟨⟨e', rest, hlt⟩, hok, rfl, he'⟩

theorem derives_of_binary {ts : List Token} {p : Parsed Expr ts.length} (h : binary levels ts = .ok p) :
    ∃ us, ts = us ++ p.rest ∧ Derives (.level levels p.value.bare) (us.map Token.kind) := by
  obtain ⟨us, hts, hus⟩ := reads_of_binary ⟨p.shorter, h⟩
  exact ⟨us, hts, hus.derives⟩

/-- A token of a kind, at no particular place. -/
def somewhere (k : TokenKind) : Token := ⟨k, .point "" .first⟩

@[simp] theorem map_kind_map_somewhere (ks : List TokenKind) : (ks.map somewhere).map Token.kind = ks := by
  rw [List.map_map]
  exact List.map_id ks

/-- A sentence has one tree. -/
theorem Derives.unique {e e' : BareExpr} {ks : List TokenKind} (h : Derives (.level levels e) ks)
    (h' : Derives (.level levels e') ks) : e = e' := by
  have hkinds := map_kind_map_somewhere ks
  have hend : ∀ t ∈ ([] : List Token).head?, t.kind.mayFollow = true := by simp
  obtain ⟨p, hp, -, hpe⟩ := binary_of_derives (hkinds.symm ▸ h) hend
  obtain ⟨p', hp', -, hpe'⟩ := binary_of_derives (hkinds.symm ▸ h') hend
  obtain rfl := Except.ok.inj (hp.symm.trans hp')
  exact hpe.symm.trans hpe'

/-- The reader of expressions reads the language of the grammar: what it takes is a sentence of the
tree it returns, it reads every sentence to its end as the tree of the sentence whatever follows that
may follow an expression, and so it reads the printed form of a tree as this tree. -/
theorem binary_reads_grammar :
    (∀ (ts : List Token) (p : Parsed Expr ts.length), binary levels ts = .ok p →
      ∃ us, ts = us ++ p.rest ∧ Derives (.level levels p.value.bare) (us.map Token.kind)) ∧
    (∀ (e : BareExpr) (us rest : List Token), Derives (.level levels e) (us.map Token.kind) →
      (∀ t ∈ rest.head?, t.kind.mayFollow = true) →
      ∃ p, binary levels (us ++ rest) = .ok p ∧ p.rest = rest ∧ p.value.bare = e) ∧
    (∀ (e : BareExpr) (ks : List TokenKind) (us rest : List Token), Derives (.level levels e) ks →
      us.map Token.kind = e.tokens levels → (∀ t ∈ rest.head?, t.kind.mayFollow = true) →
      ∃ p, binary levels (us ++ rest) = .ok p ∧ p.rest = rest ∧ p.value.bare = e) := by
  refine ⟨fun _ _ h => derives_of_binary h, fun _ _ _ h hrest => binary_of_derives h hrest, ?_⟩
  intro e ks us rest h hus hrest
  exact binary_of_derives (hus ▸ h.printed levels) hrest

/-- The tree of `a - (b - c)`. -/
def difference : BareExpr :=
  .binary .sub (.reference (.leaf "a" none))
    (.binary .sub (.reference (.leaf "b" none)) (.reference (.leaf "c" none)))

theorem binary_reads_difference :
    Derives (.level levels difference)
      [.ident "a", .binary .sub, .openParen, .ident "b", .binary .sub, .ident "c", .closeParen] ∧
    ∃ p, binary levels ((difference.tokens levels).map somewhere ++ [somewhere .semicolon]) = .ok p ∧
      p.rest = [somewhere .semicolon] ∧ p.value.bare = difference ∧
      ∃ us, (difference.tokens levels).map somewhere ++ [somewhere .semicolon] = us ++ p.rest ∧
        Derives (.level levels p.value.bare) (us.map Token.kind) := by
  have hinner := Derives.binary (by decide : BinaryOp.sub ∈ operators 1) (.name "b" 2)
    (.name "c" 1)
  have hsentence := (Derives.binary (by decide : BinaryOp.sub ∈ operators 1) (.name "a" 2)
    ((Derives.group (hinner.looser (by decide))).primary_level 1)).looser (by decide : 2 ≤ levels)
  obtain ⟨p, hp, hrest, htree⟩ := binary_reads_grammar.2.2 difference _
    ((difference.tokens levels).map somewhere) [somewhere .semicolon] hsentence
    (map_kind_map_somewhere _) (by decide)
  exact ⟨hsentence, p, hp, hrest, htree, binary_reads_grammar.1 _ p hp⟩

end Surface
end Promela
