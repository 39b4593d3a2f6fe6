import Promela.Expr.Code
import Promela.Expr.Reads
import Promela.Proofs.WellTyped

/-! Expressions with their spans forgotten. Spans make no difference to what is computed from an expression
nor to what the typing rules say of it, but for the place at which they refuse it. -/
namespace Promela

/-- The note with a span that is the same for all. -/
def Note.unspanned (n : Note) : Note := ⟨.point "" .first, n.type⟩

mutual

/-- The expression with all spans forgotten. Types and variables stay. -/
def Expr.unspanned : Expr → Expr
  | .bool n b => .bool n.unspanned b
  | .int n v => .int n.unspanned v
  | .mtype n code => .mtype n.unspanned code
  | .place n p => .place n.unspanned p.unspanned
  | .unary n op a => .unary n.unspanned op a.unspanned
  | .binary n op l r => .binary n.unspanned op l.unspanned r.unspanned
  | .ternary n c a b => .ternary n.unspanned c.unspanned a.unspanned b.unspanned
  | .query n op c => .query n.unspanned op c.unspanned
  | .poll n c as => .poll n.unspanned c.unspanned (unspannedArgs as)
  | .eval n a => .eval n.unspanned a.unspanned

def Place.unspanned : Place → Place
  | .leaf v i => .leaf v (unspannedIndex i)
  | .field v i p => .field v (unspannedIndex i) p.unspanned

def unspannedIndex : Option Expr → Option Expr
  | none => none
  | some e => some e.unspanned

def unspannedArgs : List Expr → List Expr
  | [] => []
  | e :: es => e.unspanned :: unspannedArgs es

end

theorem unspannedArgs_eq (as : List Expr) : unspannedArgs as = as.map Expr.unspanned := by
  induction as with
  | nil => rfl
  | cons a as ih => rw [unspannedArgs, ih, List.map_cons]

/-! ### Spans make no difference to what is computed -/

namespace Place

@[simp] theorem var_unspanned (p : Place) : p.unspanned.var = p.var := by
  cases p <;> rfl

@[simp] theorem target_unspanned : ∀ p : Place, p.unspanned.target = p.target
  | leaf _ _ => rfl
  | field _ _ p => target_unspanned p

@[simp] theorem indexes_unspanned : ∀ p : Place, p.unspanned.indexes = p.indexes.map Expr.unspanned
  | leaf _ i => by cases i <;> rfl
  | field _ i p => by
    have ih := indexes_unspanned p
    cases i <;> simp [unspanned, indexes, unspannedIndex, ih]

end Place

namespace Expr

@[simp] theorem type_unspanned (e : Expr) : e.unspanned.type = e.type := by
  cases e <;> rfl

@[simp] theorem place?_unspanned (e : Expr) : e.unspanned.place? = e.place?.map Place.unspanned := by
  cases e <;> rfl

@[simp] theorem children_unspanned (e : Expr) : e.unspanned.children = e.children.map unspanned := by
  cases e with
  | place n p => exact p.indexes_unspanned
  | poll n c as => simp [unspanned, children, unspannedArgs_eq]
  | _ => rfl

@[simp] theorem constant?_unspanned : ∀ e : Expr, e.unspanned.constant? = e.constant?
  | .bool .. | .int .. | .mtype .. | .place .. | .query .. | .poll .. => rfl
  | .unary _ _ a => by simp only [unspanned, constant?, constant?_unspanned a]
  | .binary _ _ l r => by simp only [unspanned, constant?, constant?_unspanned l, constant?_unspanned r]
  | .ternary _ c a b => by
    simp only [unspanned, constant?, constant?_unspanned c, constant?_unspanned a, constant?_unspanned b]
  | .eval _ a => constant?_unspanned a

end Expr

@[simp] theorem slotOf_unspanned (v : Variable) (i : Option Expr) :
    slotOf v (unspannedIndex i) = slotOf v i := by
  cases i <;> simp [slotOf, unspannedIndex]

@[simp] theorem Place.access_unspanned : ∀ p : Place, p.unspanned.access = p.access
  | .leaf _ _ => by simp only [unspanned, access, slotOf_unspanned]
  | .field _ _ p => by simp only [unspanned, access, slotOf_unspanned, access_unspanned p]

mutual

theorem Expr.readList_unspanned : ∀ e : Expr, e.unspanned.readList = e.readList
  | .bool .. | .int .. | .mtype .. => rfl
  | .place _ p => by
    simp only [Expr.unspanned, Expr.readList, p.access_unspanned, p.indexReadList_unspanned]
  | .unary _ _ a | .query _ _ a | .eval _ a => a.readList_unspanned
  | .binary _ _ l r => by
    simp only [Expr.unspanned, Expr.readList, l.readList_unspanned, r.readList_unspanned]
  | .ternary _ c a b => by
    simp only [Expr.unspanned, Expr.readList, c.readList_unspanned, a.readList_unspanned,
      b.readList_unspanned]
  | .poll _ c as => by
    simp only [Expr.unspanned, Expr.readList, c.readList_unspanned, pollReadList_unspanned as]

theorem Place.indexReadList_unspanned : ∀ p : Place, p.unspanned.indexReadList = p.indexReadList
  | .leaf _ i => subscriptReadList_unspanned i
  | .field _ i p => by
    simp only [Place.unspanned, Place.indexReadList, subscriptReadList_unspanned i,
      p.indexReadList_unspanned]

theorem subscriptReadList_unspanned :
    ∀ i : Option Expr, subscriptReadList (unspannedIndex i) = subscriptReadList i
  | none => rfl
  | some e => e.readList_unspanned

theorem pollReadList_unspanned : ∀ as : List Expr, pollReadList (unspannedArgs as) = pollReadList as
  | [] => rfl
  | a :: as => by
    have ha := a.readList_unspanned
    have ih := pollReadList_unspanned as
    cases a with
    | place n p => simp only [unspannedArgs, Expr.unspanned, pollReadList, p.indexReadList_unspanned, ih]
    | _ =>
      rw [unspannedArgs, pollReadList_cons rfl, pollReadList_cons rfl, ha, ih]

end

mutual

theorem Expr.toTarget_unspanned : ∀ (want : Sense) (e : Expr), e.unspanned.toTarget want = e.toTarget want
  | _, .bool .. | _, .int .. | _, .mtype .. => rfl
  | _, .place _ p => by simp only [Expr.unspanned, Expr.toTarget, Place.toTarget_unspanned none p]
  | _, .unary _ op a => by simp only [Expr.unspanned, Expr.toTarget, Expr.toTarget_unspanned op.sense a]
  | _, .binary _ op l r => by
    simp only [Expr.unspanned, Expr.toTarget, Expr.toTarget_unspanned op.operandSense l,
      Expr.toTarget_unspanned op.operandSense r]
  | want, .ternary _ c a b => by
    simp only [Expr.unspanned, Expr.toTarget, Expr.toTarget_unspanned .bool c,
      Expr.toTarget_unspanned want a, Expr.toTarget_unspanned want b]
  | _, .query _ _ c => by simp only [Expr.unspanned, Expr.toTarget, Expr.toTarget_unspanned .int c]
  | _, .poll _ c as => by
    simp only [Expr.unspanned, Expr.toTarget, Expr.toTarget_unspanned .int c, pollTargets_unspanned as]
  | want, .eval _ a => Expr.toTarget_unspanned want a

theorem Place.toTarget_unspanned :
    ∀ (base : Option Target) (p : Place), p.unspanned.toTarget base = p.toTarget base
  | _, .leaf _ i => by simp only [Place.unspanned, Place.toTarget, indexTarget_unspanned i]
  | base, .field v i p => by
    simp only [Place.unspanned, Place.toTarget, indexTarget_unspanned i,
      Place.toTarget_unspanned (some (.cell base v (indexTarget i))) p]

theorem indexTarget_unspanned : ∀ i : Option Expr, indexTarget (unspannedIndex i) = indexTarget i
  | none => rfl
  | some e => by simp only [unspannedIndex, indexTarget, Expr.toTarget_unspanned .int e]

theorem pollTargets_unspanned : ∀ as : List Expr, pollTargets (unspannedArgs as) = pollTargets as
  | [] => rfl
  | a :: as => by
    have ha := Expr.toTarget_unspanned .int a
    have ih := pollTargets_unspanned as
    cases a <;> simp_all only [unspannedArgs, Expr.unspanned, pollTargets]

end

/-- Both succeed with related values, or both are refused for the same cause, wherever that is found. -/
def Agree {α β : Type} (R : α → β → Prop) : Checked α → Checked β → Prop
  | .ok a, .ok b => R a b
  | .error f, .error g => f.value = g.value
  | _, _ => False

namespace Agree

variable {α β γ δ : Type} {R : α → β → Prop} {S : γ → δ → Prop}

theorem bind {x : Checked α} {y : Checked β} {f : α → Checked γ} {g : β → Checked δ} (h : Agree R x y)
    (hf : ∀ a b, R a b → Agree S (f a) (g b)) : Agree S (x >>= f) (y >>= g) := by
  cases x with
  | ok a =>
    cases y with
    | ok b => exact hf a b h
    | error => exact h.elim
  | error =>
    cases y with
    | ok => exact h.elim
    | error => exact h

/-- The condition and the cause are the same; only where the cause is found differs. -/
theorem require {p : Prop} [Decidable p] (f : Fault) (s s' : Span) {x : Checked γ} {y : Checked δ}
    (h : p → Agree S x y) :
    Agree S (require p f s >>= fun _ => x) (Promela.require p f s' >>= fun _ => y) := by
  refine Agree.bind (R := fun _ _ => p) ?_ fun _ _ hp => h hp
  unfold Promela.require
  split
  · assumption
  · rfl

theorem mono {R' : α → β → Prop} {x : Checked α} {y : Checked β} (h : Agree R x y)
    (hR : ∀ a b, x = .ok a → y = .ok b → R a b → R' a b) : Agree R' x y := by
  cases x <;> cases y <;> first | exact hR _ _ rfl rfl h | exact h

theorem symm {x y : Checked α} (h : Agree Eq x y) : Agree Eq y x := by
  cases x <;> cases y <;> first | exact Eq.symm h | exact h.elim

theorem trans {x y z : Checked α} (h : Agree Eq x y) (h' : Agree Eq y z) : Agree Eq x z := by
  cases x <;> cases y <;> cases z <;> first | exact Eq.trans h h' | exact h.elim | exact h'.elim

end Agree

/-! ### The typing rules ask for types, constants and signatures only -/

namespace Typing

variable (span span' : Span)

theorem agree_unary (op : UnaryOp) (t : ValueType) : Agree Eq (unary op t span) (unary op t span') := by
  refine Agree.require _ _ _ fun _ => ?_
  cases op <;> rfl

theorem agree_binary (op : BinaryOp) {l l' r r' : Expr} (hl : l.type = l'.type) (hr : r.type = r'.type)
    (hconstant : r.constant? = r'.constant?) : Agree Eq (binary op l r span) (binary op l' r' span') := by
  unfold binary
  rw [hl, hr, hconstant]
  split
  · exact Agree.require _ _ _ fun _ => rfl
  · refine Agree.require _ _ _ fun _ => ?_
    split
    · exact Agree.require _ _ _ fun _ => rfl
    · exact Agree.require _ _ _ fun _ => rfl
    all_goals rfl

theorem agree_ternary (c a b : ValueType) : Agree Eq (ternary c a b span) (ternary c a b span') := by
  refine Agree.require _ _ _ fun _ => Agree.require _ _ _ fun _ => ?_
  cases a <;> cases b <;> rfl

theorem agree_query (op : ChannelOp) {c c' : Expr} (hc : c.type = c'.type) :
    Agree Eq (query op c) (query op c') := by
  unfold query
  rw [hc]
  exact Agree.require _ _ _ fun _ => rfl

theorem agree_messageFields : ∀ (ts : List ValueType) {as as' : List Expr},
    List.Forall₂ (fun a a' => a.type = a'.type) as as' →
      Agree Eq (messageFields ts as) (messageFields ts as')
  | [], _, _, _ => rfl
  | _ :: _, _, _, .nil => rfl
  | t :: ts, _, _, .cons (a := a) (b := b) ha has => by
    unfold messageFields
    rw [ha]
    exact Agree.require _ _ _ fun _ => agree_messageFields ts has

theorem agree_message {c c' : Expr} {as as' : List Expr} (hc : c.type = c'.type)
    (hsignature : c.place?.bind (·.target.signature) = c'.place?.bind (·.target.signature))
    (has : List.Forall₂ (fun a a' => a.type = a'.type) as as') :
    Agree Eq (message c as span) (message c' as' span') := by
  have hnil : as ≠ [] ↔ as' ≠ [] := by cases has <;> simp
  unfold message
  rw [hc, hsignature, has.length_eq]
  simp only [hnil]
  refine Agree.require _ _ _ fun _ => Agree.require _ _ _ fun _ => ?_
  split
  · rfl
  · exact Agree.require _ _ _ fun _ => agree_messageFields _ has

theorem agree_eval (t : ValueType) : Agree Eq (eval t span) (eval t span') :=
  Agree.require _ _ _ fun _ => rfl

end Typing

namespace Expr

@[simp] theorem retype_type (e : Expr) : e.retype e.type = e := by
  cases e <;> rfl

@[simp] theorem retype_retype (t u : ValueType) (e : Expr) : (e.retype t).retype u = e.retype u := by
  cases e <;> rfl

theorem unspanned_retype (t : ValueType) (e : Expr) : (e.retype t).unspanned = e.unspanned.retype t := by
  cases e <;> rfl

theorem agree_infer_unspanned (e : Expr) : Agree Eq (Typing.infer e) (Typing.infer e.unspanned) := by
  cases e with
  | bool | mtype => rfl
  | int n v => cases h : ValueType.ofLiteral? v <;> simp [Typing.infer, unspanned, h] <;> rfl
  | place n p => cases h : p.target.type? <;> simp [Typing.infer, unspanned, h] <;> rfl
  | unary n op a =>
    simp only [Typing.infer, unspanned, type_unspanned]
    exact Typing.agree_unary _ _ op a.type
  | binary n op l r =>
    exact Typing.agree_binary _ _ op l.type_unspanned.symm r.type_unspanned.symm r.constant?_unspanned.symm
  | ternary n c a b =>
    simp only [Typing.infer, unspanned, type_unspanned]
    exact Typing.agree_ternary _ _ c.type a.type b.type
  | query n op c => exact Typing.agree_query op c.type_unspanned.symm
  | poll n c as =>
    have hsignature : c.place?.bind (·.target.signature) = c.unspanned.place?.bind (·.target.signature) := by
      cases h : c.place? <;> simp [h]
    have has : List.Forall₂ (fun a a' => a.type = a'.type) as (unspannedArgs as) := by
      rw [unspannedArgs_eq, List.forall₂_map_right_iff, List.forall₂_same]
      exact fun a _ => a.type_unspanned.symm
    exact (Typing.agree_message _ _ c.type_unspanned.symm hsignature has).bind fun _ _ _ => rfl
  | eval n a =>
    simp only [Typing.infer, unspanned, type_unspanned]
    exact Typing.agree_eval _ _ a.type

/-- Nodes of one form over operands that differ in spans only get the same type, whatever types they have. -/
theorem agree_infer {t : ValueType} {e e' : Expr} (h : e.unspanned.retype t = e'.unspanned.retype t) :
    Agree Eq (Typing.infer e) (Typing.infer e') := by
  have hinfer : Typing.infer e.unspanned = Typing.infer e'.unspanned := by
    rw [← infer_retype t e.unspanned, h, infer_retype]
  exact (agree_infer_unspanned e).trans (hinfer ▸ (agree_infer_unspanned e').symm)

theorem agree_check {e e' : Expr} (h : e.unspanned = e'.unspanned) :
    Agree (fun r r' => r.unspanned = r'.unspanned) e.check e'.check := by
  refine (agree_infer (t := e.type) (by rw [h])).bind ?_
  rintro t _ rfl
  show (e.retype t).unspanned = (e'.retype t).unspanned
  rw [unspanned_retype, unspanned_retype, h]

end Expr

end Promela
