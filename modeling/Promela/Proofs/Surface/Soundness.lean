import Promela.Proofs.Surface.Nodes
import Promela.Proofs.Surface.Reading

/-! What the reader of expressions takes from a token list is a sentence of the tree it returns, and each
node of the tree stands on the tokens that its span says: one theorem for each part of the reader, with the
recursion and the measure of the part. -/
namespace Promela
namespace Surface

/-- The tokens before `rest`, with those in front of them, are what the expression was read from. -/
def ReadFrom (form : BareExpr → Form) (front : List Token) (e : Expr) (ts rest : List Token) : Prop :=
  ∃ us, ts = us ++ rest ∧ Reads form (front ++ us) e

/-- The tokens before `rest`, with those in front of them, are a reference that stops where the span does. -/
def RefersFrom (front : List Token) (s : Span) (r : Reference) (ts rest : List Token) : Prop :=
  ∃ us, ts = us ++ rest ∧ Sentence (.reference r.bare) (front ++ us) r.descendants ∧ Spans (front ++ us) s

mutual

theorem reads_of_binary {n : Nat} {ts rest : List Token} {e : Expr} (h : Yields (binary n ts) e rest) :
    ReadFrom (.level n) [] e ts rest := by
  cases n with
  | zero =>
    rw [binary] at h
    obtain ⟨us, rfl, hus⟩ := reads_of_unary h
    exact ⟨us, rfl, hus.operand⟩
  | succ n =>
    rw [binary] at h
    simp only [yields_bind, yields_pure] at h
    obtain ⟨left, ts₁, h₁, hleft, e, ts₂, h₂, he, rfl, rfl⟩ := h
    obtain ⟨us, rfl, hus⟩ := reads_of_binary hleft
    obtain ⟨vs, rfl, hvs⟩ := reads_of_chain he hus.tighter
    exact ⟨us ++ vs, by simp, hvs⟩
termination_by (ts.length, n + 2)

theorem reads_of_chain {n : Nat} {left : Expr} {ts rest : List Token} {e : Expr} {front : List Token}
    (h : Yields (chain n left ts) e rest) (hleft : Reads (.level (n + 1)) front left) :
    ReadFrom (.level (n + 1)) front e ts rest := by
  unfold chain at h
  split at h
  next op s ts =>
    split at h
    next hop =>
      simp only [yields_bind, yields_pure] at h
      obtain ⟨right, ts₁, h₁, hright, e, ts₂, h₂, he, rfl, rfl⟩ := h
      obtain ⟨us, rfl, hus⟩ := reads_of_binary hright
      -- all that is read so far is the left side of what follows
      have hbinary := hleft.binary s (hop ▸ mem_operators op) hus
      obtain ⟨vs, rfl, hvs⟩ := reads_of_chain he hbinary
      exact ⟨⟨.binary op, s⟩ :: us ++ vs, by simp, by simpa using hvs⟩
    next =>
      obtain ⟨rfl, rfl⟩ := yields_pure.mp h
      exact ⟨[], rfl, by simpa using hleft⟩
  next =>
    obtain ⟨rfl, rfl⟩ := yields_pure.mp h
    exact ⟨[], rfl, by simpa using hleft⟩
termination_by (ts.length, 0)

theorem reads_of_unary {ts rest : List Token} {e : Expr} (h : Yields (unary ts) e rest) :
    ReadFrom .operand [] e ts rest := by
  unfold unary at h
  split at h
  next s ts =>
    obtain ⟨us, rfl, hus⟩ := reads_of_prefixed h
    exact ⟨⟨.bang, s⟩ :: us, rfl, hus⟩
  next s ts =>
    obtain ⟨us, rfl, hus⟩ := reads_of_prefixed h
    exact ⟨⟨.binary .sub, s⟩ :: us, rfl, hus⟩
  next s ts =>
    obtain ⟨us, rfl, hus⟩ := reads_of_prefixed h
    exact ⟨⟨.tilde, s⟩ :: us, rfl, hus⟩
  next =>
    obtain ⟨us, rfl, hus⟩ := reads_of_primary h
    exact ⟨us, rfl, hus.primary⟩
termination_by (ts.length, 1)

theorem reads_of_prefixed {op : UnaryOp} {s : Span} {ts rest : List Token} {e : Expr}
    (h : Yields (prefixed op s ts) e rest) : ReadFrom .operand [⟨prefixToken op, s⟩] e ts rest := by
  unfold prefixed at h
  simp only [yields_bind, yields_pure] at h
  obtain ⟨e, ts₁, h₁, he, rfl, rfl⟩ := h
  obtain ⟨us, rfl, hus⟩ := reads_of_unary he
  exact ⟨us, rfl, hus.prefixed op⟩
termination_by (ts.length, 2)

theorem reads_of_primary {ts rest : List Token} {e : Expr} (h : Yields (primary ts) e rest) :
    ReadFrom .primary [] e ts rest := by
  unfold primary at h
  split at h
  next n s ts =>
    obtain ⟨rfl, rfl⟩ := yields_pure.mp h
    exact ⟨[⟨.number n, s⟩], rfl, .number s n⟩
  next b s ts =>
    obtain ⟨rfl, rfl⟩ := yields_pure.mp h
    exact ⟨[⟨.truth b, s⟩], rfl, .truth s b⟩
  next s ts =>
    obtain ⟨rfl, rfl⟩ := yields_pure.mp h
    exact ⟨[⟨.skip, s⟩], rfl, .skip s⟩
  next s ts =>
    simp only [yields_bind] at h
    obtain ⟨c, ts₁, h₁, hc, h⟩ := h
    obtain ⟨us, rfl, hus⟩ := reads_of_binary hc
    split at h
    next s₁ ts₂ h₂ _ =>
      simp only [yields_bind, yields_pure, yields_expect] at h
      obtain ⟨a, ts₃, h₃, ha, s₂, ts₄, h₄, rfl, b, ts₅, h₅, hb, s₃, ts₆, h₆, rfl, rfl, rfl⟩ := h
      obtain ⟨vs, rfl, hvs⟩ := reads_of_binary ha
      obtain ⟨ws, rfl, hws⟩ := reads_of_binary hb
      exact ⟨⟨.openParen, s⟩ :: us ++ ⟨.arrow, s₁⟩ :: vs ++ ⟨.colon, s₂⟩ :: ws ++ [⟨.closeParen, s₃⟩],
        by simp, .ternary hus hvs hws⟩
    next =>
      simp only [yields_bind, yields_pure, yields_expect] at h
      obtain ⟨s₁, ts₂, h₂, rfl, rfl, rfl⟩ := h
      exact ⟨⟨.openParen, s⟩ :: us ++ [⟨.closeParen, s₁⟩], by simp, .group hus⟩
  next op s ts =>
    simp only [yields_bind, yields_pure, yields_expect] at h
    obtain ⟨s₁, ts₁, h₁, rfl, c, ts₂, h₂, hc, s₂, ts₃, h₃, rfl, rfl, rfl⟩ := h
    obtain ⟨us, rfl, hus⟩ := reads_of_binary hc
    exact ⟨⟨.query op, s⟩ :: ⟨.openParen, s₁⟩ :: us ++ [⟨.closeParen, s₂⟩], by simp, .query op hus⟩
  next s ts =>
    simp only [yields_bind, yields_pure, yields_expect] at h
    obtain ⟨s₁, ts₁, h₁, rfl, c, ts₂, h₂, hc, s₂, ts₃, h₃, rfl, rfl, rfl⟩ := h
    obtain ⟨us, rfl, hus⟩ := reads_of_binary hc
    exact ⟨⟨.eval, s⟩ :: ⟨.openParen, s₁⟩ :: us ++ [⟨.closeParen, s₂⟩], by simp, .eval hus⟩
  next name s ts =>
    simp only [yields_bind] at h
    obtain ⟨⟨r, stop⟩, ts₁, h₁, hr, h⟩ := h
    obtain ⟨us, rfl, hus, hspans⟩ := reads_of_reference hr
    split at h
    next s₁ s₂ ts₂ h₂ _ =>
      simp only [yields_bind, yields_pure, yields_expect] at h
      obtain ⟨es, ts₃, h₃, hes, s₃, ts₄, h₄, rfl, rfl, rfl⟩ := h
      obtain ⟨vs, rfl, hvs⟩ := reads_of_arguments hes
      exact ⟨⟨.ident name, s⟩ :: us ++ ⟨.question, s₁⟩ :: ⟨.openBracket, s₂⟩ :: vs ++ [⟨.closeBracket, s₃⟩],
        by simp, .poll hus hspans hvs⟩
    next =>
      obtain ⟨rfl, rfl⟩ := yields_pure.mp h
      exact ⟨⟨.ident name, s⟩ :: us, rfl, .reference hus hspans⟩
  next => exact absurd h not_yields_error
termination_by (ts.length, 0)

theorem reads_of_reference {name : Located String} {ts rest : List Token} {r : Reference} {stop : Span}
    (h : Yields (reference name ts) (r, stop) rest) :
    RefersFrom [⟨.ident name.value, name.span⟩] (name.span.through stop) r ts rest := by
  unfold reference at h
  split at h
  next s ts =>
    simp only [yields_bind, yields_pure, yields_expect] at h
    obtain ⟨i, ts₁, h₁, hi, s₁, ts₂, h₂, rfl, ⟨r, stop⟩, ts₃, h₃, hr, heq, rfl⟩ := h
    cases heq
    obtain ⟨us, rfl, hus⟩ := reads_of_binary hi
    have hspans := (Spans.single ⟨.ident name.value, name.span⟩).through (⟨.openBracket, s⟩ :: us)
      (.single ⟨.closeBracket, s₁⟩)
    obtain ⟨vs, rfl, hvs⟩ := reads_of_member hr (.indexed s s₁ hus) (by simpa using hspans)
    exact ⟨⟨.openBracket, s⟩ :: us ++ ⟨.closeBracket, s₁⟩ :: vs, by simp, by simpa using hvs⟩
  next => exact reads_of_member h .unindexed (.single ⟨.ident name.value, name.span⟩)
termination_by (ts.length, 1)

theorem reads_of_member {name : Located String} {index : Option Expr} {s : Span}
    {ts rest : List Token} {r : Reference} {stop : Span} {front : List Token}
    (h : Yields (member name index s ts) (r, stop) rest)
    (hindex : Sentence (.index (bareIndex index)) front (indexNodes index))
    (hspans : Spans (⟨.ident name.value, name.span⟩ :: front) (name.span.through s)) :
    RefersFrom (⟨.ident name.value, name.span⟩ :: front) (name.span.through stop) r ts rest := by
  unfold member at h
  split at h
  next s₁ ts =>
    simp only [yields_bind, yields_pure, yields_ident] at h
    obtain ⟨f, ts₁, h₁, rfl, ⟨r, stop⟩, ts₂, h₂, hr, heq, rfl⟩ := h
    cases heq
    obtain ⟨us, rfl, hus, hfield⟩ := reads_of_reference hr
    refine ⟨⟨.dot, s₁⟩ :: ⟨.ident f.value, f.span⟩ :: us, by simp, ?_, ?_⟩
    · simpa using hindex.field name s₁ hus
    · have hall := hspans.through [⟨.dot, s₁⟩] hfield
      rw [List.append_assoc] at hall
      exact hall.congr rfl rfl rfl
  next =>
    obtain ⟨heq, rfl⟩ := yields_pure.mp h
    cases heq
    exact ⟨[], rfl, by simpa using hindex.leaf, by simpa using hspans⟩
termination_by (ts.length, 0)

theorem reads_of_arguments {ts rest : List Token} {es : List Expr} (h : Yields (arguments ts) es rest) :
    ∃ us, ts = us ++ rest ∧ Sentence (.arguments (bareArguments es)) us (argumentNodes es) := by
  unfold arguments at h
  simp only [yields_bind] at h
  obtain ⟨e, ts₁, h₁, he, h⟩ := h
  obtain ⟨us, rfl, hus⟩ := reads_of_binary he
  split at h
  next s ts₂ h₂ _ =>
    simp only [yields_bind, yields_pure] at h
    obtain ⟨es, ts₃, h₃, hes, rfl, rfl⟩ := h
    obtain ⟨vs, rfl, hvs⟩ := reads_of_arguments hes
    exact ⟨us ++ ⟨.comma, s⟩ :: vs, by simp, .more hus hvs⟩
  next =>
    obtain ⟨rfl, rfl⟩ := yields_pure.mp h
    exact ⟨us, rfl, .single hus⟩
termination_by (ts.length, levels + 3)

end

end Surface
end Promela
