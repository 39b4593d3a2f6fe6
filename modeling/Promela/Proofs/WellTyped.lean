import Promela.Proofs.Bounds
import Promela.Proofs.Interchange

/-! The typing rule that belongs to the form of a node, and what it demands of the operands. Both hold at
every node of an expression that was built, however deep the node stands. The rule of a unary operator also bounds
the values of the node. -/
namespace Promela

/-- The typing rule of the form that the node has, applied where the node stands. -/
def Typing.infer : Expr → Checked ValueType
  | .bool .. => pure .bool
  | .int n v =>
    match ValueType.ofLiteral? v with
    | some t => pure t
    | none => throw ⟨.literalRange v, n.span⟩
  | .mtype .. => pure .mtype
  | .place n p =>
    match p.target.type? with
    | some t => pure t
    | none => throw ⟨.wholeRecord p.target.name, n.span⟩
  | .unary n op a => unary op a.type n.span
  | .binary n op l r => binary op l r n.span
  | .ternary n c a b => ternary c.type a.type b.type n.span
  | .query _ op c => query op c
  | .poll n c as => do
    message c as n.span
    pure .bool
  | .eval n a => eval a.type n.span

/-- Every index stands at an array and fits it. -/
def Place.IndexesFit : Place → Prop
  | leaf v i => v.FitsIndex i
  | field v i p => v.FitsIndex i ∧ p.IndexesFit

namespace Expr

/-- The node with another type noted. -/
def retype (t : ValueType) : Expr → Expr
  | bool n b => bool ⟨n.span, t⟩ b
  | int n v => int ⟨n.span, t⟩ v
  | mtype n code => mtype ⟨n.span, t⟩ code
  | place n p => place ⟨n.span, t⟩ p
  | unary n op a => unary ⟨n.span, t⟩ op a
  | binary n op l r => binary ⟨n.span, t⟩ op l r
  | ternary n c a b => ternary ⟨n.span, t⟩ c a b
  | query n op c => query ⟨n.span, t⟩ op c
  | poll n c as => poll ⟨n.span, t⟩ c as
  | eval n a => eval ⟨n.span, t⟩ a

/-- The node with the type that its rule gives, whatever type was noted. -/
def check (e : Expr) : Checked Expr := do
  let t ← Typing.infer e
  pure (e.retype t)

/-- What the typing rule of the node demands of the expressions directly below. -/
def OperandsFit : Expr → Prop
  | bool .. | int .. | mtype .. => True
  | place _ p => p.IndexesFit
  | unary _ _ a | eval _ a => a.type ≠ .chan
  | binary _ op l r =>
    if op.group = .equality then (l.type = .chan ↔ r.type = .chan)
    else l.type ≠ .chan ∧ r.type ≠ .chan ∧ (op = .div ∨ op = .mod → r.constant? ≠ some 0)
  | ternary _ c a b => c.type ≠ .chan ∧ (a.type = .chan ↔ b.type = .chan)
  | query _ _ c => c.type = .chan
  | poll _ c as => c.type = .chan ∧ as ≠ [] ∧ ∀ p ∈ c.place?, ∀ s ∈ p.target.signature,
      List.Forall₂ (fun field a => field.accepts a.type = true) s.fields as

@[simp] theorem type_retype (t : ValueType) (e : Expr) : (e.retype t).type = t := by
  cases e <;> rfl

@[simp] theorem infer_retype (t : ValueType) (e : Expr) :
    Typing.infer (e.retype t) = Typing.infer e := by
  cases e <;> rfl

theorem infer_of_check {e₀ e : Expr} (h : e₀.check = .ok e) : Typing.infer e = .ok e.type := by
  obtain ⟨t, ht, h⟩ := bind_ok h
  cases h
  simpa using ht

/-! Every constructor that can be refused applies the rule of its form to a node that has no type yet. -/

variable (span : Span) (t : ValueType)

theorem buildInt_eq_check (v : Int) : buildInt span v = (int ⟨span, t⟩ v).check := by
  cases h : ValueType.ofLiteral? v <;> simp only [buildInt, check, Typing.infer, h] <;> rfl

theorem buildPlace_eq_check (p : Place) : buildPlace span p = (place ⟨span, t⟩ p).check := by
  cases h : p.target.type? <;> simp only [buildPlace, check, Typing.infer, h] <;> rfl

theorem buildUnary_eq_check (op : UnaryOp) (a : Expr) :
    buildUnary span op a = (unary ⟨span, t⟩ op a).check := rfl

theorem buildBinary_eq_check (op : BinaryOp) (l r : Expr) :
    buildBinary span op l r = (binary ⟨span, t⟩ op l r).check := rfl

theorem buildTernary_eq_check (c a b : Expr) :
    buildTernary span c a b = (ternary ⟨span, t⟩ c a b).check := rfl

theorem buildQuery_eq_check (op : ChannelOp) (c : Expr) :
    buildQuery span op c = (query ⟨span, t⟩ op c).check := rfl

theorem buildPoll_eq_check (c : Expr) (as : List Expr) :
    buildPoll span c as = (poll ⟨span, t⟩ c as).check := by
  cases h : Typing.message c as span <;> simp only [buildPoll, check, Typing.infer, h] <;> rfl

theorem buildEval_eq_check (a : Expr) : buildEval span a = (eval ⟨span, t⟩ a).check := rfl

end Expr

variable {d : Declarations}

/-- The type that a node has is the one its rule gives, also where a constructor did not ask the rule. -/
theorem Expr.Built.infer_eq {e : Expr} (h : e.Built d) : Typing.infer e = .ok e.type := by
  cases h with
  | bool | mtype => rfl
  | int span v h => exact infer_of_check (buildInt_eq_check span .int v ▸ h)
  | place span _ h => exact infer_of_check (buildPlace_eq_check span .int _ ▸ h)
  | unary span op _ h => exact infer_of_check (buildUnary_eq_check span .int op _ ▸ h)
  | binary span op _ _ h => exact infer_of_check (buildBinary_eq_check span .int op _ _ ▸ h)
  | ternary span _ _ _ h => exact infer_of_check (buildTernary_eq_check span .int _ _ _ ▸ h)
  | query span op _ h => exact infer_of_check (buildQuery_eq_check span .int op _ ▸ h)
  | poll span _ _ h => exact infer_of_check (buildPoll_eq_check span .int _ _ ▸ h)
  | eval span _ h => exact infer_of_check (buildEval_eq_check span .int _ ▸ h)

namespace ValueType

theorem numeric_iff {t : ValueType} : t.numeric = true ↔ t ≠ .chan := by
  simp [numeric]

theorem chan_iff_of_numeric {t u : ValueType} (h : t.numeric = u.numeric) : t = .chan ↔ u = .chan := by
  rw [eq_chan_iff, eq_chan_iff, h]

/-- A signed type reaches one further below zero than above. -/
theorem maxValue_of_signed {t : ValueType} (h : t.signed) : t.maxValue = -t.minValue - 1 := by
  cases t <;> first | rfl | cases h

theorem range_of_not_signed {t : ValueType} (h : ¬ t.signed) : t.minValue = 0 ∧ t.maxValue ≤ 255 := by
  cases t <;> first | decide | exact absurd rfl h

end ValueType

namespace Typing

variable {span : Span} {t : ValueType}

theorem unary_ok {op : UnaryOp} {u : ValueType} (h : unary op u span = .ok t) : u ≠ .chan := by
  obtain ⟨_, hnumeric, -⟩ := bind_ok h
  exact ValueType.numeric_iff.mp (require_ok hnumeric)

/-- Negation keeps a signed type and widens every other one to `short`. -/
theorem neg_ok {u : ValueType} (h : unary .neg u span = .ok t) : t = if u.signed then u else .short := by
  obtain ⟨_, -, h⟩ := bind_ok h
  cases h
  cases u <;> rfl

/-- The value of a unary operator lies in the range of the type that the rule gives, but for the negation of
the least value of a signed type. -/
theorem contains_unary {op : UnaryOp} {u : ValueType} {v : Int} (h : unary op u span = .ok t)
    (hv : u.contains v) :
    t.contains (op.result v) ↔ ¬ (op = .neg ∧ u.signed ∧ v = u.minValue) := by
  cases op with
  | neg =>
    have ht := neg_ok h
    have hrange := ValueType.contains_iff.mp hv
    by_cases hsigned : u.signed
    · rw [if_pos hsigned] at ht
      subst ht
      have hmax := ValueType.maxValue_of_signed hsigned
      simp only [ValueType.contains_iff, UnaryOp.result, hsigned, true_and]
      omega
    · rw [if_neg hsigned] at ht
      subst ht
      obtain ⟨hmin, hmax⟩ := ValueType.range_of_not_signed hsigned
      have hshort : ValueType.short.contains (-v) := by
        simp only [ValueType.contains_iff, ValueType.minValue, ValueType.maxValue]
        omega
      simp [UnaryOp.result, hsigned, hshort]
  | bitNot =>
    obtain ⟨_, -, h⟩ := bind_ok h
    cases h
    have hint := ValueType.contains_iff.mp (ValueType.contains_int hv)
    have hnot : ValueType.int.contains (-v - 1) := by
      simp only [ValueType.contains_iff, ValueType.minValue, ValueType.maxValue] at hint ⊢
      omega
    simp [UnaryOp.result, hnot]
  | not =>
    obtain ⟨_, -, h⟩ := bind_ok h
    cases h
    have hbool : ValueType.bool.contains (if v = 0 then 1 else 0) := by split <;> decide
    simp [UnaryOp.result, hbool]

theorem eval_ok {u : ValueType} (h : eval u span = .ok t) : u ≠ .chan := by
  obtain ⟨_, hnumeric, -⟩ := bind_ok h
  exact ValueType.numeric_iff.mp (require_ok hnumeric)

theorem binary_ok {op : BinaryOp} {l r : Expr} (h : binary op l r span = .ok t) :
    if op.group = .equality then (l.type = .chan ↔ r.type = .chan)
    else l.type ≠ .chan ∧ r.type ≠ .chan ∧ (op = .div ∨ op = .mod → r.constant? ≠ some 0) := by
  unfold binary at h
  split
  case isTrue hgroup =>
    rw [if_pos hgroup] at h
    obtain ⟨_, hnumeric, -⟩ := bind_ok h
    exact ValueType.chan_iff_of_numeric (require_ok hnumeric)
  case isFalse hgroup =>
    rw [if_neg hgroup] at h
    obtain ⟨_, hnumeric, h⟩ := bind_ok h
    obtain ⟨hl, hr⟩ := require_ok hnumeric
    refine ⟨ValueType.numeric_iff.mp hl, ValueType.numeric_iff.mp hr, fun hop hzero => ?_⟩
    have hdivision : op.group = .arithmetic := by rcases hop with rfl | rfl <;> rfl
    simp only [hdivision] at h
    obtain ⟨_, hnonzero, -⟩ := bind_ok h
    exact require_ok hnonzero ⟨hop, hzero⟩

theorem ternary_ok {c a b : ValueType} (h : ternary c a b span = .ok t) :
    c ≠ .chan ∧ (a = .chan ↔ b = .chan) := by
  obtain ⟨_, hcondition, h⟩ := bind_ok h
  obtain ⟨_, hbranches, -⟩ := bind_ok h
  exact ⟨ValueType.numeric_iff.mp (require_ok hcondition),
    ValueType.chan_iff_of_numeric (require_ok hbranches)⟩

theorem query_ok {op : ChannelOp} {c : Expr} (h : query op c = .ok t) : c.type = .chan := by
  obtain ⟨_, hchan, -⟩ := bind_ok h
  exact require_ok hchan

theorem messageFields_ok {u : Unit} : ∀ {ts : List ValueType} {as : List Expr},
    ts.length = as.length → messageFields ts as = .ok u →
      List.Forall₂ (fun t a => t.accepts a.type = true) ts as
  | [], [], _, _ => .nil
  | t :: ts, a :: as, hlength, h => by
    have ⟨_, haccepts, h⟩ := bind_ok h
    exact .cons (require_ok haccepts) (messageFields_ok (Nat.succ.inj hlength) h)

theorem message_ok {c : Expr} {as : List Expr} {u : Unit} (h : message c as span = .ok u) :
    c.type = .chan ∧ as ≠ [] ∧ ∀ p ∈ c.place?, ∀ s ∈ p.target.signature,
      List.Forall₂ (fun field a => field.accepts a.type = true) s.fields as := by
  obtain ⟨_, hchan, h⟩ := bind_ok h
  obtain ⟨_, hnonempty, h⟩ := bind_ok h
  refine ⟨require_ok hchan, require_ok hnonempty, fun p hp s hs => ?_⟩
  have hsignature : c.place?.bind (·.target.signature) = some s := Option.bind_eq_some_iff.mpr ⟨p, hp, hs⟩
  rw [hsignature] at h
  obtain ⟨_, hlength, h⟩ := bind_ok h
  exact messageFields_ok (require_ok hlength) h

end Typing

theorem Place.Fits.indexesFit {p : Place} (h : p.Fits d) : p.IndexesFit := by
  cases h with
  | leaf _ hi => exact hi
  | field _ hi _ _ hj => exact ⟨hi, hj⟩

/-- The indexes of a place were checked when the place was built, all other operands by the rule of the
node that they stand below. -/
theorem Expr.Built.operandsFit (hd : d.Coherent) {e : Expr} (he : e.Built d) : e.OperandsFit := by
  have hrule := he.infer_eq
  cases e with
  | bool | int | mtype => trivial
  | place n p => exact (he.place_fits hd).1.indexesFit
  | unary n op a => exact Typing.unary_ok hrule
  | binary n op l r => exact Typing.binary_ok hrule
  | ternary n c a b => exact Typing.ternary_ok hrule
  | query n op c => exact Typing.query_ok hrule
  | poll n c as =>
    obtain ⟨_, hmessage, -⟩ := bind_ok hrule
    exact Typing.message_ok hmessage
  | eval n a => exact Typing.eval_ok hrule

/-- At every node of an expression that constructors built over a table, the typing rule gives the type
that is noted there, and the operands are as the rule demands. -/
theorem Declarations.Reachable.well_typed (hd : d.Reachable) {e : Expr} (he : e.Built d) {o : Occurrence}
    (ho : e.Reaches o) : Typing.infer o.node = .ok o.node.type ∧ o.node.OperandsFit := by
  have hnode : o.node.Built d := he.of_reaches hd.coherent (o := ⟨e, false⟩) ho
  exact ⟨hnode.infer_eq, hnode.operandsFit hd.coherent⟩

/-- The divisor within the index of an argument of the poll `c?[x, a[7 / 3]]`. -/
theorem Declarations.well_typed_of_poll :
    let s := Span.point "" .first
    let signature : Signature := ⟨2, [.bool, .int]⟩
    let d := Declarations.after [.channel "c" (some signature) none s, .scalar "x" .byte none s,
      .scalar "a" .int (some 4) s]
    let c := Expr.place ⟨s, .chan⟩ (.leaf ⟨0, "c", .scalar .chan, none, some signature⟩ none)
    let x := Expr.place ⟨s, .byte⟩ (.leaf ⟨1, "x", .scalar .byte, none, none⟩ none)
    let seven := Expr.int ⟨s, .byte⟩ 7
    let three := Expr.int ⟨s, .byte⟩ 3
    let quotient := Expr.binary ⟨s, .byte⟩ .div seven three
    let a : Variable := ⟨2, "a", .scalar .int, some 4, none⟩
    let e := Expr.poll ⟨s, .bool⟩ c [x, .place ⟨s, .int⟩ (.leaf a (some quotient))]
    (d.Reachable ∧ e.Built d ∧ e.Reaches ⟨quotient, false⟩) ∧
      Typing.infer quotient = .ok .byte ∧ quotient.OperandsFit ∧ e.OperandsFit := by
  intro s signature d c x seven three quotient a e
  have hd : d.Reachable := ⟨_, rfl⟩
  have hc : c.Built d := .place s (.build _ none s (.head _) (by simp) rfl) rfl
  have hx : x.Built d := .place s (.build _ none s (.tail _ (.head _)) (by simp) rfl) rfl
  have hquotient : quotient.Built d := .binary s .div (.int s 7 rfl) (.int s 3 rfl) rfl
  have ha : (Place.leaf a (some quotient)).Built d :=
    .build a (some quotient) s (.tail _ (.tail _ (.head _))) (by simpa using hquotient) rfl
  have he : e.Built d :=
    .poll s hc (List.forall_mem_cons.mpr ⟨hx, List.forall_mem_singleton.mpr (.place s ha rfl)⟩) rfl
  have hreach : e.Reaches ⟨quotient, false⟩ :=
    .head (b := ⟨.place ⟨s, .int⟩ (.leaf a (some quotient)), true⟩) ⟨2, rfl, rfl⟩ (.single ⟨0, rfl, rfl⟩)
  obtain ⟨hinfer, hfit⟩ := Declarations.Reachable.well_typed hd he hreach
  exact ⟨⟨hd, he, hreach⟩, hinfer, hfit, (Declarations.Reachable.well_typed hd he .refl).2⟩

end Promela
