import Promela.Proofs.Surface.Grammar

/-! Where the parts of an expression stand. Tokens that are a sentence of an expression have the span of it,
and each expression below it stands on a run of them: one lemma for each rule of the grammar. -/
namespace Promela
namespace Surface

mutual

/-- The expressions below, at any depth: operands, indexes and the arguments of polls. -/
def Expr.descendants : Expr → List Expr
  | .number .. | .truth .. => []
  | .reference _ r => r.descendants
  | .unary _ _ e | .query _ _ e | .eval _ e => e :: e.descendants
  | .binary _ _ l r => l :: l.descendants ++ r :: r.descendants
  | .ternary _ c a b => c :: c.descendants ++ a :: a.descendants ++ b :: b.descendants
  | .poll _ c es => c :: c.descendants ++ argumentNodes es

def Reference.descendants : Reference → List Expr
  | .leaf _ i => indexNodes i
  | .field _ i r => indexNodes i ++ r.descendants

def indexNodes : Option Expr → List Expr
  | none => []
  | some e => e :: e.descendants

def argumentNodes : List Expr → List Expr
  | [] => []
  | e :: es => e :: e.descendants ++ argumentNodes es

end

/-- The expression and all below it. -/
def Expr.nodes (e : Expr) : List Expr := e :: e.descendants

@[simp] theorem Expr.descendants_withSpan (e : Expr) (s : Span) : (e.withSpan s).descendants = e.descendants := by
  cases e <;> simp only [withSpan, descendants]

@[simp] theorem Expr.span_withSpan (e : Expr) (s : Span) : (e.withSpan s).span = s := by
  cases e <;> rfl

/-- The span is of the file of the first token and goes from the start of it to the end of the last one. -/
structure Spans (us : List Token) (s : Span) : Prop where
  start : us.head?.map (·.span.start) = some s.start
  stop : us.getLast?.map (·.span.stop) = some s.stop
  path : us.head?.map (·.span.path) = some s.path

namespace Spans

variable {us vs : List Token} {s s' : Span}

theorem single (t : Token) : Spans [t] t.span := ⟨rfl, rfl, rfl⟩

theorem ne_nil (h : Spans us s) : us ≠ [] := by
  rintro rfl
  cases h.start

theorem through (h : Spans us s) (mid : List Token) (h' : Spans vs s') : Spans (us ++ mid ++ vs) (s.through s') := by
  obtain ⟨t, us, rfl⟩ := List.exists_cons_of_ne_nil h.ne_nil
  refine ⟨h.start, ?_, h.path⟩
  have hlast := List.getLast?_eq_some_getLast h'.ne_nil
  rw [List.getLast?_append, hlast, Option.some_or, ← hlast]
  exact h'.stop

/-- Only the file and the ends count. -/
theorem congr (h : Spans us s) (hstart : s.start = s'.start) (hstop : s.stop = s'.stop) (hpath : s.path = s'.path) :
    Spans us s' :=
  ⟨hstart ▸ h.start, hstop ▸ h.stop, hpath ▸ h.path⟩

end Spans

/-- The tokens are a sentence of the expression and have its span, and those of what is below it are spans of
runs of them. -/
structure Stands (us : List Token) (e : Expr) : Prop where
  derives : Derives (.level levels e.bare) (us.map Token.kind)
  spans : Spans us e.span
  below : ∀ m ∈ e.descendants, ∃ v, v <:+: us ∧ Spans v m.span

/-- Each of the expressions stands on a run of the tokens. -/
def Grounded (us : List Token) (es : List Expr) : Prop := ∀ e ∈ es, ∃ w, w <:+: us ∧ Stands w e

namespace Grounded

variable {us vs : List Token} {es es' : List Expr}

theorem nil (us : List Token) : Grounded us [] := nofun

theorem append (h : Grounded us es) (h' : Grounded us es') : Grounded us (es ++ es') := by
  intro e he
  exact (List.mem_append.mp he).elim (h e) (h' e)

/-- More tokens around them do no harm. -/
theorem amid (h : Grounded us es) (pre post : List Token) : Grounded (pre ++ us ++ post) es := by
  intro e he
  obtain ⟨w, hw, hstands⟩ := h e he
  exact ⟨w, hw.trans (List.infix_append pre us post), hstands⟩

end Grounded

/-- No operator stands on a level of its own beyond the last one. -/
theorem Derives.topmost {n : Nat} {e : BareExpr} {us : List TokenKind} (h : Derives (.level n e) us) :
    Derives (.level levels e) us := by
  induction n with
  | zero => exact h.looser (Nat.zero_le levels)
  | succ n ih =>
    cases h with
    | tighter h => exact ih h
    | binary hop hl hr =>
      have hlt : n < levels := looseness_of_mem hop ▸ looseness_lt_levels _
      exact (Derives.binary hop hl hr).looser hlt

/-- The tokens are a sentence of the form, and the expressions stand on runs of them. -/
structure Sentence (form : Form) (us : List Token) (below : List Expr) : Prop where
  derives : Derives form (us.map Token.kind)
  below : Grounded us below

/-- The tokens are a sentence of the expression, have its span, and what is below it stands on runs of them. -/
structure Reads (form : BareExpr → Form) (us : List Token) (e : Expr) : Prop extends
    Sentence (form e.bare) us e.descendants where
  spans : Spans us e.span

namespace Reads

variable {n : Nat} {us vs ws : List Token} {e l r c a b : Expr} {t : Token} {s s₁ s₂ s₃ : Span}

theorem nodes (h : Reads (.level n) us e) : Grounded us e.nodes := by
  intro m hm
  rcases List.mem_cons.mp hm with rfl | hm
  · refine ⟨us, List.infix_rfl, h.derives.topmost, h.spans, fun k hk => ?_⟩
    obtain ⟨w, hw, hstands⟩ := h.below k hk
    exact ⟨w, hw, hstands.spans⟩
  · exact h.below m hm

theorem operand (h : Reads .operand us e) : Reads (.level 0) us e := ⟨⟨.operand h.derives, h.below⟩, h.spans⟩

theorem tighter (h : Reads (.level n) us e) : Reads (.level (n + 1)) us e :=
  ⟨⟨.tighter h.derives, h.below⟩, h.spans⟩

theorem primary (h : Reads .primary us e) : Reads .operand us e := ⟨⟨.primary h.derives, h.below⟩, h.spans⟩

theorem binary (s : Span) {op : BinaryOp} (hop : op ∈ operators n) (hl : Reads (.level (n + 1)) us l)
    (hr : Reads (.level n) vs r) :
    Reads (.level (n + 1)) (us ++ ⟨.binary op, s⟩ :: vs) (.binary (l.span.through r.span) op l r) where
  derives := by simpa [Expr.bare] using Derives.binary hop hl.derives hr.derives
  below := by
    have hleft := hl.nodes.amid [] (⟨.binary op, s⟩ :: vs)
    have hright := hr.nodes.amid (us ++ [⟨.binary op, s⟩]) []
    simp only [List.append_assoc, List.cons_append, List.nil_append, List.append_nil] at hleft hright
    simpa [Expr.descendants, Expr.nodes] using hleft.append hright
  spans := by simpa [Expr.span] using hl.spans.through [⟨.binary op, s⟩] hr.spans

theorem prefixed (op : UnaryOp) (h : Reads .operand us e) :
    Reads .operand (⟨prefixToken op, s⟩ :: us) (.unary (s.through e.span) op e) where
  derives := by simpa [Expr.bare] using Derives.prefixed op h.derives
  below := by
    simpa [Expr.descendants, Expr.nodes] using h.operand.nodes.amid [⟨prefixToken op, s⟩] []
  spans := by simpa [Expr.span] using (Spans.single ⟨prefixToken op, s⟩).through [] h.spans

theorem number (s : Span) (v : Nat) : Reads .primary [⟨.number v, s⟩] (.number s v) where
  derives := .number v
  below := .nil _
  spans := .single _

theorem truth (s : Span) (b : Bool) : Reads .primary [⟨.truth b, s⟩] (.truth s b) where
  derives := .truth b
  below := .nil _
  spans := .single _

theorem skip (s : Span) : Reads .primary [⟨.skip, s⟩] (.number s 1) where
  derives := .skip
  below := .nil _
  spans := .single _

/-- Parentheses belong to what they enclose. -/
theorem group (h : Reads (.level levels) us e) :
    Reads .primary (⟨.openParen, s⟩ :: us ++ [⟨.closeParen, s₁⟩]) (e.withSpan (s.through s₁)) where
  derives := by simpa using Derives.group h.derives
  below := by simpa using h.below.amid [⟨.openParen, s⟩] [⟨.closeParen, s₁⟩]
  spans := by simpa using (Spans.single ⟨.openParen, s⟩).through us (.single ⟨.closeParen, s₁⟩)

theorem ternary (hc : Reads (.level levels) us c) (ha : Reads (.level levels) vs a)
    (hb : Reads (.level levels) ws b) :
    Reads .primary (⟨.openParen, s⟩ :: us ++ ⟨.arrow, s₁⟩ :: vs ++ ⟨.colon, s₂⟩ :: ws ++ [⟨.closeParen, s₃⟩])
      (.ternary (s.through s₃) c a b) where
  derives := by simpa [Expr.bare] using Derives.ternary hc.derives ha.derives hb.derives
  below := by
    have hcondition := hc.nodes.amid [⟨.openParen, s⟩] (⟨.arrow, s₁⟩ :: vs ++ ⟨.colon, s₂⟩ :: ws ++ [⟨.closeParen, s₃⟩])
    have hfirst := ha.nodes.amid (⟨.openParen, s⟩ :: us ++ [⟨.arrow, s₁⟩]) (⟨.colon, s₂⟩ :: ws ++ [⟨.closeParen, s₃⟩])
    have hsecond := hb.nodes.amid (⟨.openParen, s⟩ :: us ++ ⟨.arrow, s₁⟩ :: vs ++ [⟨.colon, s₂⟩]) [⟨.closeParen, s₃⟩]
    simp only [List.append_assoc, List.cons_append, List.nil_append] at hcondition hfirst hsecond ⊢
    simpa [Expr.descendants, Expr.nodes] using (hcondition.append hfirst).append hsecond
  spans := by
    simpa [Expr.span] using (Spans.single ⟨.openParen, s⟩).through
      (us ++ ⟨.arrow, s₁⟩ :: vs ++ ⟨.colon, s₂⟩ :: ws) (.single ⟨.closeParen, s₃⟩)

theorem query (op : ChannelOp) (h : Reads (.level levels) us c) :
    Reads .primary (⟨.query op, s⟩ :: ⟨.openParen, s₁⟩ :: us ++ [⟨.closeParen, s₂⟩])
      (.query (s.through s₂) op c) where
  derives := by simpa [Expr.bare] using Derives.query op h.derives
  below := by
    simpa [Expr.descendants, Expr.nodes] using
      h.nodes.amid [⟨.query op, s⟩, ⟨.openParen, s₁⟩] [⟨.closeParen, s₂⟩]
  spans := by
    simpa [Expr.span] using
      (Spans.single ⟨.query op, s⟩).through (⟨.openParen, s₁⟩ :: us) (.single ⟨.closeParen, s₂⟩)

theorem eval (h : Reads (.level levels) us e) :
    Reads .primary (⟨.eval, s⟩ :: ⟨.openParen, s₁⟩ :: us ++ [⟨.closeParen, s₂⟩]) (.eval (s.through s₂) e) where
  derives := by simpa [Expr.bare] using Derives.eval h.derives
  below := by
    simpa [Expr.descendants, Expr.nodes] using h.nodes.amid [⟨.eval, s⟩, ⟨.openParen, s₁⟩] [⟨.closeParen, s₂⟩]
  spans := by
    simpa [Expr.span] using
      (Spans.single ⟨.eval, s⟩).through (⟨.openParen, s₁⟩ :: us) (.single ⟨.closeParen, s₂⟩)

variable {ref : Reference} {es : List Expr}

theorem reference (h : Sentence (.reference ref.bare) us ref.descendants) (hspans : Spans us s) :
    Reads .primary us (.reference s ref) where
  derives := by simpa [Expr.bare] using Derives.reference h.derives
  below := by simpa [Expr.descendants] using h.below
  spans := hspans

theorem poll (h : Sentence (.reference ref.bare) us ref.descendants) (hspans : Spans us s)
    (hes : Sentence (.arguments (bareArguments es)) vs (argumentNodes es)) :
    Reads .primary (us ++ ⟨.question, s₁⟩ :: ⟨.openBracket, s₂⟩ :: vs ++ [⟨.closeBracket, s₃⟩])
      (.poll (s.through s₃) (.reference s ref) es) where
  derives := by simpa [Expr.bare] using Derives.poll h.derives hes.derives
  below := by
    have hchannel := ((reference h hspans).primary.operand.nodes).amid []
      (⟨.question, s₁⟩ :: ⟨.openBracket, s₂⟩ :: vs ++ [⟨.closeBracket, s₃⟩])
    have harguments := hes.below.amid (us ++ [⟨.question, s₁⟩, ⟨.openBracket, s₂⟩]) [⟨.closeBracket, s₃⟩]
    simp only [List.append_assoc, List.cons_append, List.nil_append] at hchannel harguments ⊢
    simpa [Expr.descendants, Expr.nodes] using hchannel.append harguments
  spans := by
    simpa [Expr.span] using
      hspans.through (⟨.question, s₁⟩ :: ⟨.openBracket, s₂⟩ :: vs) (.single ⟨.closeBracket, s₃⟩)

end Reads

namespace Sentence

variable {us vs : List Token} {e : Expr} {es : List Expr} {name : Located String} {i : Option Expr}
  {ref : Reference} {s s₁ : Span}

theorem leaf (h : Sentence (.index (bareIndex i)) us (indexNodes i)) :
    Sentence (.reference (Reference.leaf name i).bare) (⟨.ident name.value, name.span⟩ :: us)
      (Reference.leaf name i).descendants where
  derives := by simpa [Reference.bare] using Derives.leaf name.value h.derives
  below := by simpa [Reference.descendants] using h.below.amid [⟨.ident name.value, name.span⟩] []

theorem field (name : Located String) (s : Span) (h : Sentence (.index (bareIndex i)) us (indexNodes i))
    (href : Sentence (.reference ref.bare) vs ref.descendants) :
    Sentence (.reference (Reference.field name i ref).bare) (⟨.ident name.value, name.span⟩ :: us ++ ⟨.dot, s⟩ :: vs)
      (Reference.field name i ref).descendants where
  derives := by simpa [Reference.bare] using Derives.field name.value h.derives href.derives
  below := by
    have hindex := h.below.amid [⟨.ident name.value, name.span⟩] (⟨.dot, s⟩ :: vs)
    have hrest := href.below.amid (⟨.ident name.value, name.span⟩ :: us ++ [⟨.dot, s⟩]) []
    simp only [List.append_assoc, List.cons_append, List.nil_append, List.append_nil] at hindex hrest ⊢
    simpa [Reference.descendants] using hindex.append hrest

theorem unindexed : Sentence (.index (bareIndex none)) [] (indexNodes none) := ⟨.unindexed, .nil _⟩

theorem indexed (s s₁ : Span) (h : Reads (.level levels) us e) :
    Sentence (.index (bareIndex (some e))) (⟨.openBracket, s⟩ :: us ++ [⟨.closeBracket, s₁⟩])
      (indexNodes (some e)) where
  derives := by simpa [bareIndex] using Derives.indexed h.derives
  below := by simpa [indexNodes, Expr.nodes] using h.nodes.amid [⟨.openBracket, s⟩] [⟨.closeBracket, s₁⟩]

theorem single (h : Reads (.level levels) us e) :
    Sentence (.arguments (bareArguments [e])) us (argumentNodes [e]) where
  derives := .single h.derives
  below := by simpa [argumentNodes, Expr.nodes] using h.nodes

theorem more (h : Reads (.level levels) us e)
    (hes : Sentence (.arguments (bareArguments es)) vs (argumentNodes es)) :
    Sentence (.arguments (bareArguments (e :: es))) (us ++ ⟨.comma, s⟩ :: vs) (argumentNodes (e :: es)) where
  derives := by simpa [bareArguments] using Derives.more h.derives hes.derives
  below := by
    have hfirst := h.nodes.amid [] (⟨.comma, s⟩ :: vs)
    have hrest := hes.below.amid (us ++ [⟨.comma, s⟩]) []
    simp only [List.append_assoc, List.cons_append, List.nil_append, List.append_nil] at hfirst hrest
    simpa [argumentNodes, Expr.nodes] using hfirst.append hrest

end Sentence
end Surface
end Promela
