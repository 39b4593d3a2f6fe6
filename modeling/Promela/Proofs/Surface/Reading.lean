import Promela.Proofs.Building
import Promela.Proofs.Surface.Grammar

/-! Readings that succeed: what the reader of expressions does at each kind of token, and at tokens
that go on with no more than a part of an expression. -/
namespace Promela

/-- How loosely the token is tied to the expression before it: an index, a field and a poll belong to
a reference, an operator to the expressions of its level, and 13 stands for a token that goes on with
no expression. -/
def TokenKind.reach : TokenKind → Nat
  | openBracket => 0
  | dot => 1
  | question => 2
  | binary op => op.looseness + 3
  | _ => 13

theorem TokenKind.reach_of_mayFollow {k : TokenKind} (h : k.mayFollow = true) : k.reach = 13 := by
  cases k <;> first | rfl | cases h

namespace Surface

/-- The reading succeeds with the value and leaves these tokens. -/
def Yields {α : Type} {bound : Nat} (r : Except Rejection (Parsed α bound)) (value : α)
    (rest : List Token) : Prop :=
  ∃ h, r = .ok ⟨value, rest, h⟩

theorem Yields.shorter {α : Type} {bound : Nat} {r : Except Rejection (Parsed α bound)} {v : α}
    {rest : List Token} (h : Yields r v rest) : rest.length < bound :=
  h.1

theorem yields_bind {α β : Type} {b c : Nat} {x : Except Rejection (Parsed α b)}
    {f : Parsed α b → Except Rejection (Parsed β c)} {v : β} {rest : List Token} :
    Yields (x >>= f) v rest ↔ ∃ a ts h, Yields x a ts ∧ Yields (f ⟨a, ts, h⟩) v rest := by
  constructor
  · rintro ⟨h, hx⟩
    obtain ⟨⟨a, ts, ha⟩, hx, hf⟩ := bind_ok hx
    exact ⟨a, ts, ha, ⟨ha, hx⟩, h, hf⟩
  · rintro ⟨a, ts, ha, ⟨_, rfl⟩, hf⟩
    exact hf

theorem Yields.bind {α β : Type} {b c : Nat} {x : Except Rejection (Parsed α b)}
    {f : Parsed α b → Except Rejection (Parsed β c)} {a : α} {v : β} {ts rest : List Token}
    (h : Yields x a ts) (hf : Yields (f ⟨a, ts, h.shorter⟩) v rest) : Yields (x >>= f) v rest :=
  yields_bind.mpr ⟨a, ts, h.shorter, h, hf⟩

theorem yields_pure {α : Type} {b : Nat} {a v : α} {ts rest : List Token} {h : ts.length < b} :
    Yields (pure ⟨a, ts, h⟩ : Except Rejection (Parsed α b)) v rest ↔ v = a ∧ rest = ts := by
  constructor
  · rintro ⟨h', heq⟩
    cases heq
    exact ⟨rfl, rfl⟩
  · rintro ⟨rfl, rfl⟩
    exact ⟨h, rfl⟩

theorem not_yields_error {α : Type} {b : Nat} {r : Rejection} {v : α} {rest : List Token} :
    ¬ Yields (.error r : Except Rejection (Parsed α b)) v rest := by
  rintro ⟨_, h⟩
  cases h

theorem yields_expect {kind : TokenKind} {what : String} {ts rest : List Token} {s : Span} :
    Yields (expect kind what ts) s rest ↔ ts = ⟨kind, s⟩ :: rest := by
  constructor
  · rintro ⟨h, heq⟩
    unfold expect at heq
    split at heq
    next t us =>
      split at heq
      next hkind =>
        cases heq
        rw [← hkind]
      next => cases heq
    next => cases heq
  · rintro rfl
    exact ⟨length_lt_succ _, by simp [expect]⟩

theorem yields_ident {what : String} {ts rest : List Token} {name : Located String} :
    Yields (ident what ts) name rest ↔ ts = ⟨.ident name.value, name.span⟩ :: rest := by
  constructor
  · rintro ⟨h, heq⟩
    unfold ident at heq
    split at heq <;> cases heq
    rfl
  · rintro rfl
    exact ⟨length_lt_succ _, rfl⟩

/-- What follows is tied no closer than `bound`. -/
def Ends (bound : Nat) (rest : List Token) : Prop := ∀ t ∈ rest.head?, bound ≤ t.kind.reach

namespace Ends

theorem cons {bound : Nat} {k : TokenKind} {s : Span} {rest : List Token} (h : bound ≤ k.reach) :
    Ends bound (⟨k, s⟩ :: rest) := by
  intro t ht
  cases ht
  exact h

theorem mono {k m : Nat} {rest : List Token} (h : Ends m rest) (hkm : k ≤ m) : Ends k rest :=
  fun t ht => Nat.le_trans hkm (h t ht)

theorem le_reach {bound : Nat} {k : TokenKind} {s : Span} {rest : List Token}
    (h : Ends bound (⟨k, s⟩ :: rest)) : bound ≤ k.reach :=
  h ⟨k, s⟩ rfl

end Ends

/-- A token that may follow an expression goes on with none. -/
theorem ends_of_mayFollow {rest : List Token} (h : ∀ t ∈ rest.head?, t.kind.mayFollow = true) :
    Ends 13 rest :=
  fun t ht => Nat.le_of_eq (TokenKind.reach_of_mayFollow (h t ht)).symm

section

-- each reader is opened by its equations
attribute [local simp] binary chain unary prefixed primary reference member arguments

variable {n : Nat} {ts us rest : List Token} {e left right : Expr} {s s' : Span}

theorem yields_binary_succ (hleft : Yields (binary n ts) left us) (h : Yields (chain n left us) e rest) :
    Yields (binary (n + 1) ts) e rest := by
  rw [binary]
  refine hleft.bind ?_
  refine h.bind ?_
  exact yields_pure.mpr ⟨rfl, rfl⟩

theorem yields_chain_cons {op : BinaryOp} (hop : op.looseness = n) (hright : Yields (binary n ts) right us)
    (h : Yields (chain n (.binary (left.span.through right.span) op left right) us) e rest) :
    Yields (chain n left (⟨.binary op, s⟩ :: ts)) e rest := by
  rw [chain, if_pos hop]
  refine hright.bind ?_
  refine h.bind ?_
  exact yields_pure.mpr ⟨rfl, rfl⟩

theorem yields_chain_end (h : Ends (n + 4) rest) : Yields (chain n left rest) left rest := by
  unfold chain
  split
  next op s rest =>
    have hlt : n + 4 ≤ op.looseness + 3 := h.le_reach
    rw [if_neg (by omega)]
    exact yields_pure.mpr ⟨rfl, rfl⟩
  next => exact yields_pure.mpr ⟨rfl, rfl⟩

theorem yields_unary_prefixed (op : UnaryOp) (h : Yields (unary ts) e rest) :
    Yields (unary (⟨prefixToken op, s⟩ :: ts)) (.unary (s.through e.span) op e) rest := by
  have hprefixed : Yields (prefixed op s ts) (.unary (s.through e.span) op e) rest := by
    rw [prefixed]
    refine h.bind ?_
    exact yields_pure.mpr ⟨rfl, rfl⟩
  cases op <;> rw [prefixToken, unary] <;> exact hprefixed

theorem not_yields_primary_prefixed (op : UnaryOp) :
    ¬ Yields (primary (⟨prefixToken op, s⟩ :: ts)) e rest := by
  cases op <;> simp [prefixToken, not_yields_error]

/-- No operand starts with a prefix operator. -/
theorem yields_unary_primary (h : Yields (primary ts) e rest) : Yields (unary ts) e rest := by
  unfold unary
  split
  next => exact absurd h (not_yields_primary_prefixed .not)
  next => exact absurd h (not_yields_primary_prefixed .neg)
  next => exact absurd h (not_yields_primary_prefixed .bitNot)
  next => exact h

theorem yields_number {v : Nat} : Yields (primary (⟨.number v, s⟩ :: rest)) (.number s v) rest := by
  rw [primary]
  exact yields_pure.mpr ⟨rfl, rfl⟩

theorem yields_truth {b : Bool} : Yields (primary (⟨.truth b, s⟩ :: rest)) (.truth s b) rest := by
  rw [primary]
  exact yields_pure.mpr ⟨rfl, rfl⟩

theorem yields_skip : Yields (primary (⟨.skip, s⟩ :: rest)) (.number s 1) rest := by
  rw [primary]
  exact yields_pure.mpr ⟨rfl, rfl⟩

theorem yields_group (h : Yields (binary levels ts) e (⟨.closeParen, s'⟩ :: rest)) :
    Yields (primary (⟨.openParen, s⟩ :: ts)) (e.withSpan (s.through s')) rest := by
  rw [primary]
  refine h.bind ?_
  refine (yields_expect.mpr rfl).bind ?_
  exact yields_pure.mpr ⟨rfl, rfl⟩

theorem yields_ternary {c a b : Expr} {s₁ s₂ s₃ : Span} {us vs : List Token}
    (hc : Yields (binary levels ts) c (⟨.arrow, s₁⟩ :: us))
    (ha : Yields (binary levels us) a (⟨.colon, s₂⟩ :: vs))
    (hb : Yields (binary levels vs) b (⟨.closeParen, s₃⟩ :: rest)) :
    Yields (primary (⟨.openParen, s⟩ :: ts)) (.ternary (s.through s₃) c a b) rest := by
  rw [primary]
  refine hc.bind ?_
  refine ha.bind ?_
  refine (yields_expect.mpr rfl).bind ?_
  refine hb.bind ?_
  refine (yields_expect.mpr rfl).bind ?_
  exact yields_pure.mpr ⟨rfl, rfl⟩

theorem yields_query (op : ChannelOp) {s₁ s₂ : Span}
    (h : Yields (binary levels ts) e (⟨.closeParen, s₂⟩ :: rest)) :
    Yields (primary (⟨.query op, s⟩ :: ⟨.openParen, s₁⟩ :: ts)) (.query (s.through s₂) op e) rest := by
  rw [primary]
  refine (yields_expect.mpr rfl).bind ?_
  refine h.bind ?_
  refine (yields_expect.mpr rfl).bind ?_
  exact yields_pure.mpr ⟨rfl, rfl⟩

theorem yields_eval {s₁ s₂ : Span} (h : Yields (binary levels ts) e (⟨.closeParen, s₂⟩ :: rest)) :
    Yields (primary (⟨.eval, s⟩ :: ⟨.openParen, s₁⟩ :: ts)) (.eval (s.through s₂) e) rest := by
  rw [primary]
  refine (yields_expect.mpr rfl).bind ?_
  refine h.bind ?_
  refine (yields_expect.mpr rfl).bind ?_
  exact yields_pure.mpr ⟨rfl, rfl⟩

variable {name : Located String} {index : Option Expr} {r : Reference} {stop : Span}

theorem yields_reference (h : Yields (reference name ts) (r, stop) rest) (hrest : Ends 3 rest) :
    Yields (primary (⟨.ident name.value, name.span⟩ :: ts)) (.reference (name.span.through stop) r) rest := by
  rw [primary]
  refine h.bind ?_
  dsimp only
  split
  next => exact absurd hrest.le_reach (by decide)
  next => exact yields_pure.mpr ⟨rfl, rfl⟩

theorem yields_poll {es : List Expr} {s₁ s₂ s₃ : Span}
    (h : Yields (reference name ts) (r, stop) (⟨.question, s₁⟩ :: ⟨.openBracket, s₂⟩ :: us))
    (hes : Yields (arguments us) es (⟨.closeBracket, s₃⟩ :: rest)) :
    Yields (primary (⟨.ident name.value, name.span⟩ :: ts))
      (.poll (name.span.through s₃) (.reference (name.span.through stop) r) es) rest := by
  rw [primary]
  refine h.bind ?_
  refine hes.bind ?_
  refine (yields_expect.mpr rfl).bind ?_
  exact yields_pure.mpr ⟨rfl, rfl⟩

theorem yields_unindexed (hts : Ends 1 ts) (h : Yields (member name none name.span ts) (r, stop) rest) :
    Yields (reference name ts) (r, stop) rest := by
  unfold reference
  split
  next => exact absurd hts.le_reach (by decide)
  next => exact h

theorem yields_indexed {s₁ : Span} (he : Yields (binary levels ts) e (⟨.closeBracket, s₁⟩ :: us))
    (h : Yields (member name (some e) s₁ us) (r, stop) rest) :
    Yields (reference name (⟨.openBracket, s⟩ :: ts)) (r, stop) rest := by
  rw [reference]
  refine he.bind ?_
  refine (yields_expect.mpr rfl).bind ?_
  refine h.bind ?_
  exact yields_pure.mpr ⟨rfl, rfl⟩

theorem yields_leaf (hrest : Ends 2 rest) :
    Yields (member name index stop rest) (.leaf name index, stop) rest := by
  unfold member
  split
  next => exact absurd hrest.le_reach (by decide)
  next => exact yields_pure.mpr ⟨rfl, rfl⟩

theorem yields_field {f : Located String} (h : Yields (reference f ts) (r, stop) rest) :
    Yields (member name index s' (⟨.dot, s⟩ :: ⟨.ident f.value, f.span⟩ :: ts))
      (.field name index r, stop) rest := by
  rw [member]
  refine (yields_ident.mpr rfl).bind ?_
  refine h.bind ?_
  exact yields_pure.mpr ⟨rfl, rfl⟩

theorem yields_single (h : Yields (binary levels ts) e rest) (hrest : ∀ t ∈ rest.head?, t.kind ≠ .comma) :
    Yields (arguments ts) [e] rest := by
  rw [arguments]
  refine h.bind ?_
  dsimp only
  split
  next => exact absurd rfl (hrest _ rfl)
  next => exact yields_pure.mpr ⟨rfl, rfl⟩

theorem yields_more {es : List Expr} (h : Yields (binary levels ts) e (⟨.comma, s⟩ :: us))
    (hes : Yields (arguments us) es rest) : Yields (arguments ts) (e :: es) rest := by
  rw [arguments]
  refine h.bind ?_
  refine hes.bind ?_
  exact yields_pure.mpr ⟨rfl, rfl⟩

end

end Surface
end Promela
