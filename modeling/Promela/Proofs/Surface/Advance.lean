import Promela.Proofs.Surface.Sources
import Promela.Proofs.Surface.Traced
import Promela.Proofs.Token.Accounting

/-! The readers advance. Each call is given credit for the tokens in front of it and for what its reader has to
do before it takes one; the calls inside it have less credit, and all of them together are paid from it. The end
of the text stays in front of every call, and what is refused is a token. -/
namespace Promela
namespace Surface

mutual

/-- The spans of the names in an expression. -/
def Expr.nameSpans : Expr → List Span
  | .number .. | .truth .. => []
  | .reference _ r => r.nameSpans
  | .unary _ _ e | .query _ _ e | .eval _ e => e.nameSpans
  | .binary _ _ l r => l.nameSpans ++ r.nameSpans
  | .ternary _ c a b => c.nameSpans ++ a.nameSpans ++ b.nameSpans
  | .poll _ c as => c.nameSpans ++ nameSpansOfArgs as

def Reference.nameSpans : Reference → List Span
  | .leaf n i => n.span :: nameSpansOfIndex i
  | .field n i r => n.span :: nameSpansOfIndex i ++ r.nameSpans

def nameSpansOfIndex : Option Expr → List Span
  | none => []
  | some e => e.nameSpans

def nameSpansOfArgs : List Expr → List Span
  | [] => []
  | e :: es => e.nameSpans ++ nameSpansOfArgs es

end

@[simp] theorem Expr.nameSpans_withSpan (e : Expr) (s : Span) : (e.withSpan s).nameSpans = e.nameSpans := by
  cases e <;> simp only [withSpan, nameSpans]

def Size.span : Size → Span
  | number n => n.span
  | named n => n.span

def FieldDecl.spans (f : FieldDecl) : List Span := f.type.span :: f.name.span :: (f.size.map Size.span).toList

/-- The spans of what an initializer is made of, but for those of expressions. -/
def Initializer.spans : Initializer → List Span
  | value e => e.nameSpans
  | channel capacity fields s => s :: capacity.span :: fields.map (·.span)

def Declarator.spans (d : Declarator) : List Span :=
  d.name.span :: (d.size.map Size.span).toList ++ d.init.toList.flatMap Initializer.spans

/-- The spans of what an item is made of, but for those of expressions. -/
def Item.spans : Item → List Span
  | mtypes names => names.map (·.span)
  | record name fields => name.span :: fields.flatMap FieldDecl.spans
  | globals type ds => type.span :: ds.flatMap Declarator.spans
  | define name body => name.span :: body.nameSpans
  | unread word => [word.span]

/-- Some of the tokens that follow one another have the span. -/
def OnRun (all : List Token) (s : Span) : Prop := ∃ us, us <:+: all ∧ Spans us s

/-- What is left of the tokens, with the end of the text. -/
structure Ahead (all ts : List Token) : Prop where
  suffix : ts <:+ all
  eof : ∃ t ∈ ts, t.kind = .eof

theorem Ahead.of_concat (us : List Token) (s : Span) : Ahead (us ++ [⟨.eof, s⟩]) (us ++ [⟨.eof, s⟩]) :=
  ⟨List.suffix_rfl, ⟨.eof, s⟩, by simp, rfl⟩

section

variable {all ts rest : List Token} {t : Token}

theorem OnRun.of_mem (h : t ∈ all) : OnRun all t.span := by
  obtain ⟨pre, post, rfl⟩ := List.append_of_mem h
  exact ⟨[t], ⟨pre, post, by simp⟩, .single t⟩

namespace Ahead

theorem tail (h : Ahead all (t :: rest)) (ht : t.kind ≠ .eof) : Ahead all rest := by
  obtain ⟨hsuffix, u, hu, heof⟩ := h
  rcases List.mem_cons.mp hu with rfl | hu
  · exact absurd heof ht
  · exact ⟨(List.suffix_cons t rest).trans hsuffix, u, hu, heof⟩

theorem head (h : Ahead all (t :: rest)) : OnRun all t.span := .of_mem (h.suffix.subset List.mem_cons_self)

theorem exists_cons (h : Ahead all ts) : ∃ t rest, ts = t :: rest := by
  obtain ⟨-, t, ht, -⟩ := h
  exact List.exists_cons_of_ne_nil (List.ne_nil_of_mem ht)

theorem ne_nil (h : Ahead all ts) : ts ≠ [] := by
  obtain ⟨t, rest, rfl⟩ := h.exists_cons
  exact List.cons_ne_nil t rest

theorem skip (h : Ahead all ts) {kind : TokenKind} (hkind : kind ≠ .eof) : Ahead all (skip kind ts) := by
  obtain ⟨t, rest, rfl⟩ := h.exists_cons
  unfold Surface.skip
  dsimp only
  split
  next ht => exact h.tail (ht ▸ hkind)
  next => exact h

end Ahead

theorem OnRun.through {us : List Token} {u : Token} (h : t :: ts <:+ all) (h' : u :: us <:+ all)
    (hlt : us.length < ts.length) : OnRun all (t.span.through u.span) := by
  have hsuffix : u :: us <:+ ts := List.suffix_of_suffix_length_le h' ((List.suffix_cons t ts).trans h) hlt
  obtain ⟨mid, rfl⟩ := hsuffix
  refine ⟨[t] ++ mid ++ [u], ?_, (Spans.single t).through mid (.single u)⟩
  obtain ⟨pre, rfl⟩ := h
  exact ⟨pre, us, by simp⟩

end

namespace Phase

/-- What the reader may have to pay before it takes a token, and one more for each reader it goes through. Those
that may take no token have what one token is worth in addition. -/
def rank : Phase → Nat
  | token => 1
  | names | typeNames | size | globals | mtypes | record | define => 2
  | primary | fields | item => 3
  | unary | declarators => 4
  | prefixed => 5
  | binary n => 2 * n + 5
  | arguments | initializer => 26
  | chain _ | member | arraySize | fieldGroups | optionalInitializer | lineEnd | skipLine | skipBlock | items => 65
  | reference => 66

end Phase

/-- The credit of a call. -/
def Visit.credit (v : Visit) : Nat := 64 * v.rest.length + v.phase.rank

/-- One token pays for as much. -/
theorem credit_cons {rest : List Token} {t : Token} {j k : Nat} (h : j ≤ 64 + k) :
    64 * rest.length + j ≤ 64 * (t :: rest).length + k := by
  rw [List.length_cons]
  omega

namespace Traced

variable {α β : Type}

/-- The credit that is left: what the tokens left are worth, and one token more. A reading that fails leaves none. -/
def unspent {bound : Nat} : Except Rejection (Parsed α bound) → Nat
  | .ok p => 64 * (p.rest.length + 1)
  | .error _ => 0

/-- With the credit: every call inside has the end of the text in front of it and no more credit than this, and
less than each call around it; the calls and what is unspent are paid from it; what is read has the property, and
what is refused is a token. -/
structure Orderly (all : List Token) (credit : Nat) (Q : α → List Token → Prop) {bound : Nat}
    (x : Traced (Parsed α bound)) : Prop where
  calls : ∀ c ∈ x.calls, (∀ v ∈ c, Ahead all v.rest ∧ v.credit ≤ credit) ∧
    c.Pairwise fun outer inner => inner.credit < outer.credit
  paid : x.calls.length + unspent x.outcome ≤ credit
  outcome : match x.outcome with
    | .ok p => Ahead all p.rest ∧ Q p.value p.rest
    | .error r => ∃ t ∈ all, r.span = some t.span

namespace Orderly

variable {all ts rest : List Token} {w w' w₁ a m n : Nat} {Q : α → List Token → Prop} {R : β → List Token → Prop}

theorem pure {v : α} {h : rest.length < n} (hahead : Ahead all rest) (hv : Q v rest) (hw : 64 * (rest.length + 1) ≤ w) :
    Orderly all w Q (pure ⟨v, rest, h⟩ : Traced (Parsed α n)) :=
  ⟨nofun, Nat.le_trans (Nat.le_of_eq (Nat.zero_add _)) hw, hahead, hv⟩

theorem refuse {t : Token} {r : Rejection} (ht : t ∈ all) (hr : r.span = some t.span) :
    Orderly all w Q (lift (.error r) : Traced (Parsed α n)) :=
  ⟨nofun, Nat.zero_le _, t, ht, hr⟩

theorem unexpected (h : Ahead all ts) (what : String) :
    Orderly all w Q (lift (.error (unexpected what ts)) : Traced (Parsed α n)) := by
  obtain ⟨t, rest, rfl⟩ := h.exists_cons
  exact refuse (h.suffix.subset List.mem_cons_self) rfl

theorem mono {x : Traced (Parsed α n)} (h : Orderly all w Q x) (hw : w ≤ w') : Orderly all w' Q x where
  calls c hc := ⟨fun v hv => ⟨((h.calls c hc).1 v hv).1, Nat.le_trans ((h.calls c hc).1 v hv).2 hw⟩, (h.calls c hc).2⟩
  paid := Nat.le_trans h.paid hw
  outcome := h.outcome

/-- What comes next has for credit what is left of it. -/
theorem bind {x : Traced (Parsed α m)} {f : Parsed α m → Traced (Parsed β n)} (hx : Orderly all w₁ Q x)
    (hf : ∀ v rest h, Ahead all rest → Q v rest → Orderly all (64 * rest.length + a) R (f ⟨v, rest, h⟩))
    (hw : w₁ ≤ w) (ha : w₁ + a ≤ w + 64) : Orderly all w R (x >>= f) := by
  obtain ⟨outcome, calls⟩ := x
  cases outcome with
  | error r => exact ⟨(hx.mono hw).calls, (hx.mono hw).paid, hx.outcome⟩
  | ok p =>
    obtain ⟨v, rest, h⟩ := p
    obtain ⟨hahead, hv⟩ := hx.outcome
    have hpaid : calls.length + 64 * (rest.length + 1) ≤ w₁ := hx.paid
    have hnext := hf v rest h hahead hv
    have hnextPaid := hnext.paid
    refine ⟨List.forall_mem_append.mpr ⟨(hx.mono hw).calls, (hnext.mono ?_).calls⟩, ?_, hnext.outcome⟩
    · omega
    · change (calls ++ (f ⟨v, rest, h⟩).calls).length + unspent (f ⟨v, rest, h⟩).outcome ≤ w
      rw [List.length_append]
      omega

/-- It may have less credit than that: what is left of the tokens, and one token more. -/
theorem andThen {x : Traced (Parsed α m)} {f : Parsed α m → Traced (Parsed β n)} (hx : Orderly all w₁ Q x)
    (hf : ∀ v rest h, Ahead all rest → Q v rest → Orderly all (64 * rest.length + 64) R (f ⟨v, rest, h⟩))
    (hw : w₁ ≤ w) : Orderly all w R (x >>= f) :=
  hx.bind hf hw (Nat.add_le_add_right hw 64)

/-- The calls of the body are below this one. -/
theorem enter (phase : Phase) {x : Traced (Parsed α n)} (h : Ahead all ts) (hx : Orderly all w Q x)
    (hw : w < 64 * ts.length + phase.rank) : Orderly all (64 * ts.length + phase.rank) Q (enter phase ts x) where
  calls c hc := by
    rcases List.mem_cons.mp hc with rfl | hc
    · exact ⟨List.forall_mem_singleton.mpr ⟨h, Nat.le_refl _⟩, List.pairwise_singleton _ _⟩
    · obtain ⟨d, hd, rfl⟩ := List.mem_map.mp hc
      obtain ⟨hvisits, hpairs⟩ := hx.calls d hd
      have hbelow : ∀ v ∈ d, v.credit < 64 * ts.length + phase.rank :=
        fun v hv => Nat.lt_of_le_of_lt (hvisits v hv).2 hw
      refine ⟨List.forall_mem_cons.mpr ⟨⟨h, Nat.le_refl _⟩, fun v hv => ?_⟩, List.pairwise_cons.mpr ⟨hbelow, hpairs⟩⟩
      exact ⟨(hvisits v hv).1, Nat.le_of_lt (hbelow v hv)⟩
  paid := by
    have hpaid := hx.paid
    change ([⟨phase, ts⟩] :: x.calls.map (⟨phase, ts⟩ :: ·)).length + unspent x.outcome ≤ _
    rw [List.length_cons, List.length_map]
    omega
  outcome := hx.outcome

theorem within {h : m ≤ n} {x : Traced (Parsed α m)} (hx : Orderly all w Q x) :
    Orderly all w Q ((·.within h) <$> x : Traced (Parsed α n)) :=
  hx.bind (fun _ _ _ hahead hv => pure hahead hv (Nat.le_refl _)) (Nat.le_refl _) (Nat.le_refl _)

/-- A check that reads no token. -/
theorem check {r : Except Rejection Unit} {f : Unit → Traced (Parsed α n)}
    (hr : ∀ e, r = .error e → ∃ t ∈ all, e.span = some t.span) (hf : Orderly all w Q (f ())) :
    Orderly all w Q (lift r >>= f) := by
  cases r with
  | error e => exact ⟨nofun, Nat.zero_le _, hr e rfl⟩
  | ok u => exact hf

end Orderly

/-- The next token is of the kind that is looked for, and is taken, or it is refused. -/
def TakesOne (Q : α → List Token → Prop) (ts : List Token) (r : Except Rejection (Parsed α ts.length)) : Prop :=
  (∃ what, r = .error (unexpected what ts)) ∨
    ∃ t rest v h, ts = t :: rest ∧ t.kind ≠ .eof ∧ Q v rest ∧ r = .ok ⟨v, rest, h⟩

theorem TakesOne.orderly {all ts : List Token} {Q : α → List Token → Prop} {r : Except Rejection (Parsed α ts.length)}
    (h : TakesOne Q ts r) (hts : Ahead all ts) : Orderly all (64 * ts.length + 1) Q (token ts r) := by
  refine .enter .token hts (w := 64 * ts.length) ?_ (Nat.lt_succ_self _)
  obtain ⟨what, rfl⟩ | ⟨t, rest, v, h, rfl, ht, hv, rfl⟩ := h
  · exact .unexpected hts what
  · exact .pure (hts.tail ht) hv (Nat.le_refl _)

section

variable {all ts : List Token}

theorem takesOne_expect {kind : TokenKind} (hkind : kind ≠ .eof) (what : String) (ts : List Token) :
    TakesOne (fun s rest => ⟨kind, s⟩ :: rest = ts) ts (expect kind what ts) := by
  unfold expect
  split
  next t rest =>
    split
    next ht =>
      subst ht
      exact .inr ⟨t, rest, t.span, _, rfl, hkind, rfl, rfl⟩
    next => exact .inl ⟨what, rfl⟩
  next => exact .inl ⟨what, rfl⟩

theorem orderly_expect (kind : TokenKind) {what : String} (hkind : kind ≠ .eof) (h : Ahead all ts) :
    Orderly all (64 * ts.length + 1) (fun s rest => ⟨kind, s⟩ :: rest = ts) (token ts (expect kind what ts)) :=
  (takesOne_expect hkind what ts).orderly h

/-- What follows one token. -/
theorem Orderly.expect {α : Type} {n : Nat} {Q : α → List Token → Prop} (kind : TokenKind) {what : String}
    (hkind : kind ≠ .eof) (h : Ahead all ts) {f : Parsed Span ts.length → Traced (Parsed α n)}
    (hf : ∀ s rest hlt, Ahead all rest → ⟨kind, s⟩ :: rest = ts →
      Orderly all (64 * rest.length + 64) Q (f ⟨s, rest, hlt⟩)) :
    Orderly all (64 * ts.length + 64) Q (token ts (Surface.expect kind what ts) >>= f) :=
  .andThen (orderly_expect kind hkind h) hf (Nat.add_le_add_left (by decide) _)

theorem takesOne_ident (h : Ahead all ts) (what : String) :
    TakesOne (fun n _ => OnRun all n.span) ts (ident what ts) := by
  unfold ident
  split
  next name s rest => exact .inr ⟨_, rest, ⟨name, s⟩, _, rfl, nofun, h.head, rfl⟩
  next => exact .inl ⟨what, rfl⟩

theorem takesOne_typeName (h : Ahead all ts) : TakesOne (fun t _ => OnRun all t.span) ts (typeName ts) := by
  unfold typeName
  split
  case h_5 => exact .inl ⟨_, rfl⟩
  all_goals exact .inr ⟨_, _, _, _, rfl, nofun, h.head, rfl⟩

theorem takesOne_sizeValue (h : Ahead all ts) : TakesOne (fun n _ => OnRun all n.span) ts (sizeValue ts) := by
  unfold sizeValue
  split
  next n s rest => exact .inr ⟨_, rest, .number ⟨n, s⟩, _, rfl, nofun, h.head, rfl⟩
  next n s rest => exact .inr ⟨_, rest, .named ⟨n, s⟩, _, rfl, nofun, h.head, rfl⟩
  next => exact .inl ⟨_, rfl⟩

end

/-- These spans of what is read are spans of tokens. -/
def SpansOn (all : List Token) (spans : α → List Span) (a : α) (_ : List Token) : Prop :=
  ∀ s ∈ spans a, OnRun all s

section

variable {all : List Token}

mutual

theorem orderly_binary {n : Nat} (hn : n ≤ levels) {ts : List Token} (h : Ahead all ts) :
    Orderly all (64 * ts.length + (2 * n + 5)) (SpansOn all Expr.nameSpans) (binary n ts) := by
  rw [binary.eq_def]
  cases n with
  | zero => exact .enter (.binary 0) h (orderly_unary h) (Nat.lt_succ_self _)
  | succ n =>
    refine .enter (.binary (n + 1)) h (w := 64 * ts.length + (2 * n + 6)) ?_ (Nat.lt_succ_self _)
    have hn' : n ≤ levels := Nat.le_of_succ_le hn
    refine .bind (a := 65) (orderly_binary hn' h) (fun left ts₁ h₁ hts₁ hleft => ?_) (by omega) (by omega)
    refine .andThen (orderly_chain hn' hts₁ hleft) (fun e ts₂ h₂ hts₂ he => ?_) (Nat.le_refl _)
    exact .pure hts₂ he (by omega)
termination_by (ts.length, n + 2)

theorem orderly_chain {n : Nat} (hn : n ≤ levels) {left : Expr} {ts : List Token} (h : Ahead all ts)
    (hleft : SpansOn all Expr.nameSpans left ts) :
    Orderly all (64 * ts.length + 65) (SpansOn all Expr.nameSpans) (chain n left ts) := by
  rw [chain.eq_def]
  refine .enter (.chain n) h (w := 64 * ts.length + 64) ?_ (Nat.lt_succ_self _)
  split
  next op s rest =>
    split
    next =>
      have hlevels : levels = 10 := rfl
      have hrest := h.tail nofun
      refine .bind (a := 65) (orderly_binary hn hrest) (fun right ts₁ h₁ hts₁ hright => ?_) ?_ ?_
      · have hboth : SpansOn all Expr.nameSpans (.binary (left.span.through right.span) op left right) ts₁ := by
          simp only [SpansOn, Expr.nameSpans]
          exact List.forall_mem_append.mpr ⟨hleft, hright⟩
        refine .andThen (orderly_chain hn hts₁ hboth) (fun e ts₂ h₂ hts₂ he => ?_) (Nat.le_refl _)
        exact .pure hts₂ he (by omega)
      · exact credit_cons (by omega)
      · simp only [List.length_cons]
        omega
    next => exact .pure h hleft (by omega)
  next => exact .pure h hleft (by omega)
termination_by (ts.length, 0)
decreasing_by all_goals (subst_vars; decreasing_tactic)

theorem orderly_unary {ts : List Token} (h : Ahead all ts) :
    Orderly all (64 * ts.length + 4) (SpansOn all Expr.nameSpans) (unary ts) := by
  rw [unary.eq_def]
  refine .enter .unary h (w := 64 * ts.length + 3) ?_ (Nat.lt_succ_self _)
  split
  next s rest => exact (orderly_prefixed (h.tail nofun)).mono (credit_cons (by decide))
  next s rest => exact (orderly_prefixed (h.tail nofun)).mono (credit_cons (by decide))
  next s rest => exact (orderly_prefixed (h.tail nofun)).mono (credit_cons (by decide))
  next => exact orderly_primary h
termination_by (ts.length, 1)
decreasing_by all_goals (subst_vars; decreasing_tactic)

theorem orderly_prefixed {op : UnaryOp} {s : Span} {ts : List Token} (h : Ahead all ts) :
    Orderly all (64 * ts.length + 5) (SpansOn all Expr.nameSpans) (prefixed op s ts) := by
  rw [prefixed]
  refine .enter .prefixed h (w := 64 * ts.length + 4) ?_ (Nat.lt_succ_self _)
  refine .andThen (orderly_unary h) (fun e ts₁ h₁ hts₁ he => ?_) (Nat.le_refl _)
  exact .pure hts₁ he (by omega)
termination_by (ts.length, 2)

theorem orderly_primary {ts : List Token} (h : Ahead all ts) :
    Orderly all (64 * ts.length + 3) (SpansOn all Expr.nameSpans) (primary ts) := by
  rw [primary.eq_def]
  refine .enter .primary h (w := 64 * ts.length + 2) ?_ (Nat.lt_succ_self _)
  split
  next n s rest => exact .pure (h.tail nofun) nofun (Nat.le_add_right _ 2)
  next b s rest => exact .pure (h.tail nofun) nofun (Nat.le_add_right _ 2)
  next s rest => exact .pure (h.tail nofun) nofun (Nat.le_add_right _ 2)
  next s rest =>
    have hrest := h.tail nofun
    refine .andThen (orderly_binary (Nat.le_refl levels) hrest) (fun e ts₁ h₁ hts₁ he => ?_) (credit_cons (by decide))
    dsimp only
    split
    next s₁ ts₂ h₂ =>
      have hts₂ := hts₁.tail nofun
      have hlt : ts₂.length < rest.length := Nat.lt_of_succ_lt h₂
      refine .andThen (orderly_binary (Nat.le_refl levels) hts₂) (fun a ts₃ h₃ hts₃ ha => ?_) (credit_cons (by decide))
      refine .expect .colon nofun hts₃ fun _ ts₄ h₄ hts₄ _ => ?_
      have hlt' : ts₄.length < rest.length := Nat.lt_trans h₄ (Nat.lt_trans h₃ hlt)
      refine .andThen (orderly_binary (Nat.le_refl levels) hts₄) (fun b ts₅ h₅ hts₅ hb => ?_) ?_
      · refine .expect .closeParen nofun hts₅ fun close ts₆ h₆ hts₆ _ => ?_
        refine .pure hts₆ ?_ (Nat.le_refl _)
        simp only [SpansOn, Expr.nameSpans]
        exact List.forall_mem_append.mpr ⟨List.forall_mem_append.mpr ⟨he, ha⟩, hb⟩
      · simp only [levels]
        omega
    next =>
      refine .expect .closeParen nofun hts₁ fun close ts₂ h₂ hts₂ _ => ?_
      refine .pure hts₂ ?_ (Nat.le_refl _)
      rwa [SpansOn, Expr.nameSpans_withSpan]
  next op s rest =>
    have hle : 64 * rest.length + 64 ≤ 64 * (rest.length + 1) + 2 := Nat.le_add_right _ 2
    refine .mono (.expect .openParen nofun (h.tail nofun) fun _ ts₁ (h₁ : ts₁.length < rest.length) hts₁ _ => ?_) hle
    refine .andThen (orderly_binary (Nat.le_refl levels) hts₁) (fun e ts₂ h₂ hts₂ he => ?_) ?_
    · refine .expect .closeParen nofun hts₂ fun close ts₃ h₃ hts₃ _ => ?_
      exact .pure hts₃ he (Nat.le_refl _)
    · simp only [levels]
      omega
  next s rest =>
    have hle : 64 * rest.length + 64 ≤ 64 * (rest.length + 1) + 2 := Nat.le_add_right _ 2
    refine .mono (.expect .openParen nofun (h.tail nofun) fun _ ts₁ (h₁ : ts₁.length < rest.length) hts₁ _ => ?_) hle
    refine .andThen (orderly_binary (Nat.le_refl levels) hts₁) (fun e ts₂ h₂ hts₂ he => ?_) ?_
    · refine .expect .closeParen nofun hts₂ fun close ts₃ h₃ hts₃ _ => ?_
      exact .pure hts₃ he (Nat.le_refl _)
    · simp only [levels]
      omega
  next name s rest =>
    have hname : OnRun all (Located.mk name s).span := h.head
    refine .andThen (orderly_reference hname (h.tail nofun)) (fun (r, stop) ts₁ h₁ hts₁ hr => ?_)
      (credit_cons (by decide))
    dsimp only
    split
    next s₁ s₂ ts₂ h₂ =>
      have hts₂ := (hts₁.tail nofun).tail nofun
      have hlt : ts₂.length < rest.length := length_lt_of_add_two_lt_succ h₂
      refine .andThen (orderly_arguments hts₂) (fun args ts₃ h₃ hts₃ hargs => ?_)
        (Nat.le_trans (credit_cons (k := 0) (by decide)) (credit_cons (by decide)))
      refine .expect .closeBracket nofun hts₃ fun close ts₄ h₄ hts₄ _ => ?_
      refine .pure hts₄ ?_ (Nat.le_refl _)
      simp only [SpansOn, Expr.nameSpans]
      exact List.forall_mem_append.mpr ⟨hr, hargs⟩
    next => exact .pure hts₁ hr (Nat.le_refl _)
  next => exact .unexpected h _
termination_by (ts.length, 0)
decreasing_by all_goals (subst_vars; decreasing_tactic)

theorem orderly_reference {name : Located String} (hname : OnRun all name.span) {ts : List Token}
    (h : Ahead all ts) :
    Orderly all (64 * ts.length + 66) (SpansOn all fun r => r.1.nameSpans) (reference name ts) := by
  rw [reference.eq_def]
  refine .enter .reference h (w := 64 * ts.length + 65) ?_ (Nat.lt_succ_self _)
  split
  next s rest =>
    refine .andThen (orderly_binary (Nat.le_refl levels) (h.tail nofun)) (fun i ts₁ h₁ hts₁ hi => ?_)
      (credit_cons (by decide))
    refine .bind (a := 65) (orderly_expect .closeBracket nofun hts₁) (fun close ts₂ h₂ hts₂ _ => ?_)
      (Nat.add_le_add_left (by decide) _) ?_
    · have hlt : ts₂.length < rest.length := Nat.lt_trans h₂ h₁
      have hindex : ∀ s ∈ nameSpansOfIndex (some i), OnRun all s := hi
      refine .andThen (orderly_member hname hindex hts₂) (fun r ts₃ h₃ hts₃ hr => ?_) (Nat.le_refl _)
      exact .pure hts₃ hr (Nat.le_refl _)
    · omega
  next => exact orderly_member hname (List.forall_mem_nil _) h
termination_by (ts.length, 1)
decreasing_by all_goals (subst_vars; decreasing_tactic)

theorem orderly_member {name : Located String} {index : Option Expr} {stop : Span} (hname : OnRun all name.span)
    (hindex : ∀ s ∈ nameSpansOfIndex index, OnRun all s) {ts : List Token} (h : Ahead all ts) :
    Orderly all (64 * ts.length + 65) (SpansOn all fun r => r.1.nameSpans) (member name index stop ts) := by
  rw [member.eq_def]
  refine .enter .member h (w := 64 * ts.length + 64) ?_ (Nat.lt_succ_self _)
  split
  next s rest =>
    have hrest := h.tail nofun
    refine .bind (a := 66) ((takesOne_ident hrest _).orderly hrest)
      (fun f ts₁ (h₁ : ts₁.length < rest.length) hts₁ hf => ?_) ?_ ?_
    · refine .andThen (orderly_reference hf hts₁) (fun (r, stop) ts₂ h₂ hts₂ hr => ?_) (Nat.le_refl _)
      refine .pure hts₂ ?_ (Nat.le_refl _)
      simp only [SpansOn, Reference.nameSpans]
      exact List.forall_mem_append.mpr ⟨List.forall_mem_cons.mpr ⟨hname, hindex⟩, hr⟩
    all_goals
      simp only [List.length_cons]
      omega
  next =>
    refine .pure h ?_ (Nat.le_refl _)
    simp only [SpansOn, Reference.nameSpans]
    exact List.forall_mem_cons.mpr ⟨hname, hindex⟩
termination_by (ts.length, 0)
decreasing_by all_goals (subst_vars; decreasing_tactic)

theorem orderly_arguments {ts : List Token} (h : Ahead all ts) :
    Orderly all (64 * ts.length + 26) (SpansOn all nameSpansOfArgs) (arguments ts) := by
  rw [arguments]
  refine .enter .arguments h (w := 64 * ts.length + 25) ?_ (Nat.lt_succ_self _)
  refine .andThen (orderly_binary (Nat.le_refl levels) h) (fun e ts₁ h₁ hts₁ he => ?_) (Nat.le_refl _)
  dsimp only
  split
  next s ts₂ h₂ =>
    have hlt : ts₂.length < ts.length := Nat.lt_of_succ_lt h₂
    refine .andThen (orderly_arguments (hts₁.tail nofun)) (fun es ts₃ h₃ hts₃ hes => ?_) (credit_cons (by decide))
    refine .pure hts₃ ?_ (Nat.le_refl _)
    simp only [SpansOn, nameSpansOfArgs]
    exact List.forall_mem_append.mpr ⟨he, hes⟩
  next =>
    refine .pure hts₁ ?_ (Nat.le_refl _)
    simp only [SpansOn, nameSpansOfArgs, List.append_nil]
    exact he
termination_by (ts.length, levels + 3)

end

theorem orderly_names {what : String} {ts : List Token} (h : Ahead all ts) :
    Orderly all (64 * ts.length + 2) (SpansOn all fun ns => ns.map (·.span)) (names what ts) := by
  rw [names]
  refine .enter .names h (w := 64 * ts.length + 1) ?_ (Nat.lt_succ_self _)
  refine .andThen ((takesOne_ident h what).orderly h) (fun n ts₁ h₁ hts₁ hn => ?_) (Nat.le_refl _)
  dsimp only
  split
  next s ts₂ h₂ =>
    have hlt : ts₂.length < ts.length := Nat.lt_of_succ_lt h₂
    refine .andThen (orderly_names (hts₁.tail nofun)) (fun ns ts₃ h₃ hts₃ hns => ?_) (credit_cons (by decide))
    exact .pure hts₃ (List.forall_mem_cons.mpr ⟨hn, hns⟩) (Nat.le_refl _)
  next => exact .pure hts₁ (List.forall_mem_singleton.mpr hn) (Nat.le_refl _)
termination_by ts.length
decreasing_by all_goals (subst_vars; decreasing_tactic)

theorem orderly_typeNames {ts : List Token} (h : Ahead all ts) :
    Orderly all (64 * ts.length + 2) (SpansOn all fun us => us.map (·.span)) (typeNames ts) := by
  rw [typeNames]
  refine .enter .typeNames h (w := 64 * ts.length + 1) ?_ (Nat.lt_succ_self _)
  refine .andThen ((takesOne_typeName h).orderly h) (fun t ts₁ h₁ hts₁ ht => ?_) (Nat.le_refl _)
  dsimp only
  split
  next s ts₂ h₂ =>
    have hlt : ts₂.length < ts.length := Nat.lt_of_succ_lt h₂
    refine .andThen (orderly_typeNames (hts₁.tail nofun)) (fun us ts₃ h₃ hts₃ hus => ?_) (credit_cons (by decide))
    exact .pure hts₃ (List.forall_mem_cons.mpr ⟨ht, hus⟩) (Nat.le_refl _)
  next => exact .pure hts₁ (List.forall_mem_singleton.mpr ht) (Nat.le_refl _)
termination_by ts.length
decreasing_by all_goals (subst_vars; decreasing_tactic)

theorem orderly_size {ts : List Token} (h : Ahead all ts) :
    Orderly all (64 * ts.length + 2) (fun n _ => OnRun all n.span) (size ts) := by
  refine .enter .size h (w := 64 * ts.length + 1) ?_ (Nat.lt_succ_self _)
  refine .andThen ((takesOne_sizeValue h).orderly h) (fun n ts₁ h₁ hts₁ hn => ?_) (Nat.le_refl _)
  refine .expect .closeBracket nofun hts₁ fun _ ts₂ h₂ hts₂ _ => ?_
  exact .pure hts₂ hn (Nat.le_refl _)

theorem orderly_arraySize {ts : List Token} (h : Ahead all ts) :
    Orderly all (64 * ts.length + 65) (SpansOn all fun n => (n.map Size.span).toList) (arraySize ts) := by
  refine .enter .arraySize h (w := 64 * ts.length + 64) ?_ (Nat.lt_succ_self _)
  split
  next s rest =>
    refine .andThen (orderly_size (h.tail nofun)) (fun n ts₁ h₁ hts₁ hn => ?_) (credit_cons (by decide))
    exact .pure hts₁ (List.forall_mem_singleton.mpr hn) (Nat.le_refl _)
  next => exact .pure h (List.forall_mem_nil _) (Nat.le_refl _)

theorem orderly_fields {type : Located TypeName} (htype : OnRun all type.span) {ts : List Token} (h : Ahead all ts) :
    Orderly all (64 * ts.length + 3) (SpansOn all (·.flatMap FieldDecl.spans)) (fields type ts) := by
  rw [fields]
  refine .enter .fields h (w := 64 * ts.length + 2) ?_ (Nat.lt_succ_self _)
  refine .bind (a := 65) ((takesOne_ident h _).orderly h) (fun n ts₁ (h₁ : ts₁.length < ts.length) hts₁ hn => ?_)
    (Nat.le_succ _) (Nat.le_refl _)
  refine .andThen (orderly_arraySize hts₁) (fun size ts₂ h₂ hts₂ hsize => ?_) (Nat.le_refl _)
  have hfield : ∀ s ∈ FieldDecl.spans ⟨type, n, size⟩, OnRun all s :=
    List.forall_mem_cons.mpr ⟨htype, List.forall_mem_cons.mpr ⟨hn, hsize⟩⟩
  dsimp only
  split
  next s ts₃ h₃ =>
    have hlt : ts₃.length < ts.length := length_lt_trans (length_lt_of_succ_lt_succ h₃) h₁
    refine .andThen (orderly_fields htype (hts₂.tail nofun)) (fun fs ts₄ h₄ hts₄ hfs => ?_) (credit_cons (by decide))
    exact .pure hts₄ (List.forall_mem_append.mpr ⟨hfield, hfs⟩) (Nat.le_refl _)
  next => exact .pure hts₂ (List.forall_mem_append.mpr ⟨hfield, List.forall_mem_nil _⟩) (Nat.le_refl _)
termination_by ts.length
decreasing_by all_goals (subst_vars; decreasing_tactic)

theorem orderly_fieldGroups {ts : List Token} (h : Ahead all ts) :
    Orderly all (64 * ts.length + 65) (SpansOn all (·.flatMap FieldDecl.spans)) (fieldGroups ts) := by
  rw [fieldGroups.eq_def]
  refine .enter .fieldGroups h (w := 64 * ts.length + 64) ?_ (Nat.lt_succ_self _)
  split
  next s rest => exact .pure h (List.forall_mem_nil _) (Nat.le_refl _)
  next =>
    refine .andThen ((takesOne_typeName h).orderly h) (fun type ts₁ (h₁ : ts₁.length < ts.length) hts₁ htype => ?_)
      (Nat.add_le_add_left (by decide) _)
    refine .andThen (orderly_fields htype hts₁) (fun fs ts₂ h₂ hts₂ hfs => ?_) (Nat.add_le_add_left (by decide) _)
    dsimp only
    split
    next s ts₃ h₃ =>
      have hlt : ts₃.length < ts.length := length_lt_trans (length_lt_of_succ_lt h₃) h₁
      refine .andThen (orderly_fieldGroups (hts₂.tail (by simp))) (fun gs ts₄ h₄ hts₄ hgs => ?_)
        (credit_cons (by decide))
      refine .pure hts₄ ?_ (Nat.le_refl _)
      rw [SpansOn, List.flatMap_append]
      exact List.forall_mem_append.mpr ⟨hfs, hgs⟩
    next => exact .pure hts₂ hfs (Nat.le_refl _)
    next => exact .unexpected hts₂ _
termination_by ts.length
decreasing_by all_goals (subst_vars; decreasing_tactic)

theorem orderly_initializer {ts : List Token} (h : Ahead all ts) :
    Orderly all (64 * ts.length + 26) (SpansOn all Initializer.spans) (initializer ts) := by
  rw [initializer.eq_def]
  refine .enter .initializer h (w := 64 * ts.length + 25) ?_ (Nat.lt_succ_self _)
  split
  next => exact .unexpected h _
  next s rest =>
    refine .andThen (orderly_size (h.tail nofun)) (fun capacity ts₁ h₁ hts₁ hcapacity => ?_) (credit_cons (by decide))
    refine .expect .of nofun hts₁ fun _ ts₂ (h₂ : ts₂.length < ts₁.length) hts₂ _ => ?_
    refine .expect .openBrace nofun hts₂ fun _ ts₃ (h₃ : ts₃.length < ts₂.length) hts₃ _ => ?_
    refine .andThen (orderly_typeNames hts₃) (fun fields ts₄ h₄ hts₄ hfields => ?_)
      (Nat.add_le_add_left (by decide) _)
    refine .expect .closeBrace nofun hts₄ fun close ts₅ (h₅ : ts₅.length < ts₄.length) hts₅ hclose => ?_
    have hspan : OnRun all (s.through close) :=
      .through (t := ⟨.openBracket, s⟩) (u := ⟨.closeBrace, close⟩) h.suffix (hclose ▸ hts₄.suffix) (by omega)
    have hinner := List.forall_mem_cons.mpr ⟨hcapacity, hfields⟩
    exact .pure hts₅ (List.forall_mem_cons.mpr ⟨hspan, hinner⟩) (Nat.le_refl _)
  next t rest _ =>
    refine .andThen (orderly_binary (Nat.le_refl levels) h) (fun e ts₁ h₁ hts₁ he => ?_) (Nat.le_refl _)
    exact .pure hts₁ he (Nat.le_refl _)

theorem orderly_optionalInitializer {ts : List Token} (h : Ahead all ts) :
    Orderly all (64 * ts.length + 65) (SpansOn all (·.toList.flatMap Initializer.spans)) (optionalInitializer ts) := by
  refine .enter .optionalInitializer h (w := 64 * ts.length + 64) ?_ (Nat.lt_succ_self _)
  split
  next s rest =>
    refine .andThen (orderly_initializer (h.tail nofun)) (fun i ts₁ h₁ hts₁ hi => ?_) (credit_cons (by decide))
    exact .pure hts₁ (List.forall_mem_append.mpr ⟨hi, List.forall_mem_nil _⟩) (Nat.le_refl _)
  next => exact .pure h (List.forall_mem_nil _) (Nat.le_refl _)

theorem orderly_declarators {ts : List Token} (h : Ahead all ts) :
    Orderly all (64 * ts.length + 4) (SpansOn all (·.flatMap Declarator.spans)) (declarators ts) := by
  rw [declarators]
  refine .enter .declarators h (w := 64 * ts.length + 3) ?_ (Nat.lt_succ_self _)
  refine .bind (a := 66) ((takesOne_ident h _).orderly h) (fun n ts₁ (h₁ : ts₁.length < ts.length) hts₁ hn => ?_)
    (Nat.le_add_right _ 2) (Nat.le_refl _)
  refine .bind (a := 65) (orderly_arraySize hts₁) (fun size ts₂ h₂ hts₂ hsize => ?_) (Nat.le_succ _) (Nat.le_refl _)
  refine .andThen (orderly_optionalInitializer hts₂) (fun init ts₃ h₃ hts₃ hinit => ?_) (Nat.le_refl _)
  have hdeclarator : ∀ s ∈ Declarator.spans ⟨n, size, init⟩, OnRun all s :=
    List.forall_mem_append.mpr ⟨List.forall_mem_cons.mpr ⟨hn, hsize⟩, hinit⟩
  dsimp only
  split
  next s ts₄ h₄ =>
    have hlt : ts₄.length < ts.length :=
      length_lt_trans (length_lt_of_succ_lt_succ h₄) (length_lt_of_lt_succ h₂ h₁)
    refine .andThen (orderly_declarators (hts₃.tail nofun)) (fun ds ts₅ h₅ hts₅ hds => ?_) (credit_cons (by decide))
    exact .pure hts₅ (List.forall_mem_append.mpr ⟨hdeclarator, hds⟩) (Nat.le_refl _)
  next => exact .pure hts₃ (List.forall_mem_append.mpr ⟨hdeclarator, List.forall_mem_nil _⟩) (Nat.le_refl _)
termination_by ts.length
decreasing_by all_goals (subst_vars; decreasing_tactic)

theorem orderly_globals {ts : List Token} (h : Ahead all ts) :
    Orderly all (64 * ts.length + 2) (SpansOn all Item.spans) (globals ts) := by
  refine .enter .globals h (w := 64 * ts.length + 1) ?_ (Nat.lt_succ_self _)
  refine .andThen ((takesOne_typeName h).orderly h) (fun type ts₁ h₁ hts₁ htype => ?_) (Nat.le_refl _)
  refine .andThen (orderly_declarators hts₁) (fun ds ts₂ h₂ hts₂ hds => ?_) (Nat.add_le_add_left (by decide) _)
  have hle := length_skip_le .semicolon ts₂
  exact .pure (hts₂.skip nofun) (List.forall_mem_cons.mpr ⟨htype, hds⟩) (by omega)

theorem orderly_mtypes {ts : List Token} (h : Ahead all ts) :
    Orderly all (64 * ts.length + 2) (SpansOn all Item.spans) (mtypes ts) := by
  refine .enter .mtypes h (w := 64 * ts.length + 1) ?_ (Nat.lt_succ_self _)
  have hle := length_skip_le .assign ts
  refine .andThen (orderly_expect .openBrace nofun (h.skip nofun)) (fun _ ts₁ h₁ hts₁ _ => ?_) (by omega)
  refine .andThen (orderly_names hts₁) (fun ns ts₂ h₂ hts₂ hns => ?_) (Nat.add_le_add_left (by decide) _)
  refine .expect .closeBrace nofun hts₂ fun _ ts₃ h₃ hts₃ _ => ?_
  have hle' := length_skip_le .semicolon ts₃
  exact .pure (hts₃.skip nofun) hns (by omega)

theorem orderly_record {ts : List Token} (h : Ahead all ts) :
    Orderly all (64 * ts.length + 2) (SpansOn all Item.spans) (record ts) := by
  refine .enter .record h (w := 64 * ts.length + 1) ?_ (Nat.lt_succ_self _)
  refine .andThen ((takesOne_ident h _).orderly h) (fun n ts₁ h₁ hts₁ hn => ?_) (Nat.le_refl _)
  refine .bind (a := 65) (orderly_expect .openBrace nofun hts₁) (fun _ ts₂ h₂ hts₂ _ => ?_)
    (Nat.add_le_add_left (by decide) _) (by omega)
  refine .andThen (orderly_fieldGroups hts₂) (fun fs ts₃ h₃ hts₃ hfs => ?_) (Nat.le_refl _)
  refine .expect .closeBrace nofun hts₃ fun _ ts₄ h₄ hts₄ _ => ?_
  have hle := length_skip_le .semicolon ts₄
  exact .pure (hts₄.skip nofun) (List.forall_mem_cons.mpr ⟨hn, hfs⟩) (by omega)

theorem orderly_lineEnd {ts : List Token} (h : Ahead all ts) :
    Orderly all (64 * ts.length + 65) (fun _ _ => True) (lineEnd ts) := by
  refine .enter .lineEnd h (w := 64 * ts.length + 64) ?_ (Nat.lt_succ_self _)
  unfold Surface.lineEnd
  split
  next s rest =>
    exact .pure (h.tail nofun) trivial (Nat.le_add_right _ 64)
  next => exact .pure h trivial (Nat.le_refl _)
  next => exact .unexpected h _

theorem span_of_notParameterized {name : Located String} {ts : List Token} (h : Ahead all ts) {r : Rejection}
    (hr : notParameterized name ts = .error r) : ∃ t ∈ all, r.span = some t.span := by
  unfold notParameterized at hr
  split at hr
  next s rest =>
    split at hr
    · cases hr
      exact ⟨_, h.suffix.subset List.mem_cons_self, rfl⟩
    · cases hr
  next => cases hr

theorem orderly_define {ts : List Token} (h : Ahead all ts) :
    Orderly all (64 * ts.length + 2) (SpansOn all Item.spans) (define ts) := by
  refine .enter .define h (w := 64 * ts.length + 1) ?_ (Nat.lt_succ_self _)
  refine .andThen ((takesOne_ident h _).orderly h) (fun n ts₁ h₁ hts₁ hn => ?_) (Nat.le_refl _)
  refine .check (fun r => span_of_notParameterized hts₁) ?_
  refine .bind (a := 65) (orderly_binary (Nat.le_refl levels) hts₁) (fun e ts₂ h₂ hts₂ he => ?_)
    (Nat.add_le_add_left (by decide) _) (by simp only [levels]; omega)
  refine .andThen (orderly_lineEnd hts₂) (fun _ ts₃ h₃ hts₃ _ => ?_) (Nat.le_refl _)
  exact .pure hts₃ (List.forall_mem_cons.mpr ⟨hn, he⟩) (Nat.le_refl _)

/-- One token is skipped, and the reader goes on behind it. -/
theorem orderly_behind {rest : List Token} {t : Token} {x : Traced (Parsed Unit (rest.length + 1))}
    (hx : Orderly all (64 * rest.length + 65) (fun _ _ => True) x) :
    Orderly all (64 * (t :: rest).length + 64) (fun _ _ => True)
      (x >>= fun p => pure ⟨(), p.rest, length_lt_add_two_of_lt_succ p.shorter⟩ :
        Traced (Parsed Unit (rest.length + 1 + 1))) :=
  .andThen hx (fun _ ts₁ h₁ hts₁ _ => .pure hts₁ trivial (Nat.le_refl _)) (credit_cons (by decide))

theorem orderly_skipLine {ts : List Token} (h : Ahead all ts) :
    Orderly all (64 * ts.length + 65) (fun _ _ => True) (skipLine ts) := by
  induction ts with
  | nil => exact absurd rfl h.ne_nil
  | cons t rest ih =>
    rw [skipLine]
    refine .enter .skipLine h (w := 64 * (t :: rest).length + 64) ?_ (Nat.lt_succ_self _)
    dsimp only
    split
    next => exact .pure h trivial (Nat.le_refl _)
    next hend => exact orderly_behind (ih (h.tail fun heof => hend (.inr heof)))

theorem orderly_skipBlock {depth : Nat} {ts : List Token} (h : Ahead all ts) :
    Orderly all (64 * ts.length + 65) (fun _ _ => True) (skipBlock depth ts) := by
  induction ts generalizing depth with
  | nil => exact absurd rfl h.ne_nil
  | cons t rest ih =>
    rw [skipBlock]
    refine .enter .skipBlock h (w := 64 * (t :: rest).length + 64) ?_ (Nat.lt_succ_self _)
    dsimp only
    split
    next => exact .pure h trivial (Nat.le_refl _)
    next ht => exact orderly_behind (ih (h.tail (by simp [ht])))
    next ht =>
      have heof : t.kind ≠ .eof := by simp [ht]
      split
      next => exact .pure (h.tail heof) trivial (Nat.le_add_right _ 64)
      next => exact orderly_behind (ih (h.tail heof))
    next heof _ _ => exact orderly_behind (ih (h.tail heof))

theorem orderly_item {ts : List Token} (h : Ahead all ts) :
    Orderly all (64 * ts.length + 3) (SpansOn all Item.spans) (item ts) := by
  refine .enter .item h (w := 64 * ts.length + 2) ?_ (Nat.lt_succ_self _)
  split
  next s rest =>
    split
    next => exact (orderly_mtypes (h.tail nofun)).within.mono (credit_cons (by decide))
    next => exact orderly_globals h
  next s rest => exact (orderly_record (h.tail nofun)).within.mono (credit_cons (by decide))
  next s rest => exact (orderly_define (h.tail nofun)).within.mono (credit_cons (by decide))
  next w s rest =>
    refine .andThen (orderly_skipLine (h.tail nofun)) (fun _ ts₁ h₁ hts₁ _ => ?_) (credit_cons (by decide))
    exact .pure hts₁ (List.forall_mem_singleton.mpr h.head) (Nat.le_refl _)
  next w s rest =>
    refine .andThen (orderly_skipBlock (h.tail nofun)) (fun _ ts₁ h₁ hts₁ _ => ?_) (credit_cons (by decide))
    exact .pure hts₁ (List.forall_mem_singleton.mpr h.head) (Nat.le_refl _)
  next => exact orderly_globals h
  next => exact orderly_globals h
  next => exact orderly_globals h
  next => exact .unexpected h _

/-- The spans of items are on the tokens, and reading has come to an end of the text. -/
def ItemsOn (all : List Token) (is : List Item) (rest : List Token) : Prop :=
  (∀ i ∈ is, SpansOn all Item.spans i rest) ∧ ∃ s post, rest = ⟨.eof, s⟩ :: post

theorem orderly_items {ts : List Token} (h : Ahead all ts) :
    Orderly all (64 * ts.length + 65) (ItemsOn all) (items ts) := by
  rw [items.eq_def]
  refine .enter .items h (w := 64 * ts.length + 64) ?_ (Nat.lt_succ_self _)
  split
  next => exact absurd rfl h.ne_nil
  next s rest => exact .pure h ⟨List.forall_mem_nil _, s, rest, rfl⟩ (Nat.le_refl _)
  next s rest => exact (orderly_items (h.tail (by simp))).within.mono (credit_cons (by decide))
  next s rest => exact (orderly_items (h.tail (by simp))).within.mono (credit_cons (by decide))
  next =>
    refine .bind (a := 65) (orderly_item h) (fun i ts₁ (h₁ : ts₁.length < ts.length) hts₁ hi => ?_)
      (Nat.add_le_add_left (by decide) _) (by omega)
    refine .andThen (orderly_items hts₁) (fun is ts₂ h₂ hts₂ his => ?_) (Nat.le_refl _)
    exact .pure hts₂ ⟨List.forall_mem_cons.mpr ⟨hi, his.1⟩, his.2⟩ (Nat.le_refl _)
termination_by ts.length
decreasing_by all_goals (subst_vars; decreasing_tactic)

end

/-- A reading of the tokens that ends, and ends on this one: it stands in front of all calls, no reader is called
inside itself with as many tokens left, the number of calls is bounded by the number of tokens, and without an
error everything in front of the last token is read. -/
structure Terminates (ts : List Token) (last : Token) {bound : Nat} (x : Traced (Parsed α bound)) : Prop where
  inside : ∀ c ∈ x.calls, ∀ v ∈ c, v.rest <:+ ts ∧ last ∈ v.rest
  advances : ∀ c ∈ x.calls, c.Pairwise fun outer inner =>
    outer.phase = inner.phase → inner.rest.length < outer.rest.length
  bounded : x.calls.length ≤ 64 * ts.length + 65
  stops : ∀ p, x.outcome = .ok p → p.rest = [last]

theorem length_lt_of_credit_lt {outer inner : Visit} (h : inner.credit < outer.credit)
    (hphase : outer.phase = inner.phase) : inner.rest.length < outer.rest.length := by
  rw [Visit.credit, Visit.credit, hphase] at h
  omega

theorem terminates_items {us : List Token} {s : Span} (hus : ∀ t ∈ us, t.kind ≠ .eof) :
    Terminates (us ++ [⟨.eof, s⟩]) ⟨.eof, s⟩ (items (us ++ [⟨.eof, s⟩])) := by
  have hitems := orderly_items (Ahead.of_concat us s)
  have hlast : ∀ t ∈ us ++ [⟨.eof, s⟩], t.kind = .eof → t = ⟨.eof, s⟩ := by
    intro t ht heof
    rcases List.mem_append.mp ht with ht | ht
    · exact absurd heof (hus t ht)
    · exact List.mem_singleton.mp ht
  constructor
  case inside =>
    intro c hc v hv
    obtain ⟨⟨hsuffix, t, ht, heof⟩, -⟩ := (hitems.calls c hc).1 v hv
    exact ⟨hsuffix, hlast t (hsuffix.subset ht) heof ▸ ht⟩
  case advances =>
    intro c hc
    exact (hitems.calls c hc).2.imp length_lt_of_credit_lt
  case bounded => exact Nat.le_trans (Nat.le_add_right _ _) hitems.paid
  case stops =>
    intro p hp
    have houtcome := hitems.outcome
    rw [hp] at houtcome
    obtain ⟨⟨⟨pre, hpre⟩, -⟩, -, s', post, hrest⟩ := houtcome
    rw [hrest] at hpre ⊢
    -- An end of the text that something follows would stand among the tokens before the end.
    rcases List.eq_nil_or_concat post with rfl | ⟨post, u, rfl⟩
    · rw [← List.append_inj_right' hpre rfl]
    · rw [List.concat_eq_append, ← List.cons_append, ← List.append_assoc] at hpre
      have hmem : ⟨.eof, s'⟩ ∈ us := List.append_inj_left' hpre rfl ▸ by simp
      exact absurd rfl (hus _ hmem)

/-- Reading the tokens of a text ends, and what the record says of it is so of the reading itself. -/
theorem tokens_terminate {source path : String} {ts : List Token} (h : tokens source path = .ok ts) :
    ∃ us s, ts = us ++ [⟨.eof, s⟩] ∧ (∀ t ∈ us, t.kind ≠ .eof) ∧ Terminates ts ⟨.eof, s⟩ (items ts) ∧
      (items ts).outcome.map (·.value) = Surface.items ts := by
  obtain ⟨us, s, rfl, haccounting⟩ := Lexer.accounting_of_tokens h
  have hus : ∀ t ∈ us, t.kind ≠ .eof := fun t ht => (haccounting.spelled t ht).ne_eof
  exact ⟨us, s, rfl, hus, terminates_items hus, outcome_items _⟩

/-- A block that is not closed. -/
theorem tokens_terminate_unclosed : ∃ ts, tokens "init \x7b" "m" = .ok ts ∧ (items ts).calls.length ≤ 257 ∧
    ∀ p, (items ts).outcome = .ok p → p.rest.length = 1 := by
  have h : tokens "init \x7b" "m" = .ok [⟨.unread "init", ⟨"m", ⟨1, 1⟩, ⟨1, 4⟩⟩⟩,
      ⟨.openBrace, ⟨"m", ⟨1, 6⟩, ⟨1, 6⟩⟩⟩, ⟨.eof, ⟨"m", ⟨1, 7⟩, ⟨1, 7⟩⟩⟩] := by decide +kernel
  obtain ⟨us, s, -, -, hterminates, -⟩ := tokens_terminate h
  exact ⟨_, h, hterminates.bounded, fun p hp => congrArg List.length (hterminates.stops p hp)⟩

end Traced

theorem Ahead.of_tokens {source path : String} {ts : List Token} (h : tokens source path = .ok ts) : Ahead ts ts := by
  obtain ⟨us, s, rfl, -⟩ := Lexer.accounting_of_tokens h
  exact .of_concat us s

/-- The spans of items are on the tokens that they are read from, and what is refused is one of these. -/
theorem onRun_of_items {ts : List Token} (h : Ahead ts ts) :
    match items ts with
    | .ok is => ∀ i ∈ is, ∀ s ∈ i.spans, OnRun ts s
    | .error r => ∃ t ∈ ts, r.span = some t.span := by
  have houtcome := (Traced.orderly_items h).outcome
  rw [← Traced.outcome_items ts]
  split at houtcome
  next p heq =>
    rw [heq]
    exact houtcome.2.1
  next r heq =>
    rw [heq]
    exact houtcome

end Surface
end Promela
