import Promela.Model.Reading
import Promela.Proofs.Notices
import Promela.Proofs.Surface.Advance

/-! Where faults stand. Whatever holds of the spans of what is written, and of those in the macros that are known,
holds of the span of a fault and of the spans of all nodes of the expression that is built. -/
namespace Promela

/-- The span of every node has the property. -/
inductive Expr.Spanned (P : Span → Prop) : Expr → Prop
  | intro {e : Expr} (root : P e.span) (children : ∀ c ∈ e.children, c.Spanned P) : e.Spanned P

namespace Expr.Spanned

variable {P : Span → Prop} {e : Expr}

theorem root (h : e.Spanned P) : P e.span := by
  cases h
  assumption

theorem children (h : e.Spanned P) : ∀ c ∈ e.children, c.Spanned P := by
  cases h
  assumption

theorem reaches (h : e.Spanned P) {o : Occurrence} (ho : e.Reaches o) : P o.node.span := by
  have hnode : o.node.Spanned P := by
    induction ho with
    | refl => exact h
    | tail _ hbelow ih => exact ih.children _ hbelow.mem_children
  exact hnode.root

end Expr.Spanned

namespace Checked

variable {α β : Type} {P : Span → Prop} {Q : α → Prop} {R : β → Prop}

/-- A fault stands at a span with the first property, and what is found to be in order has the second one. -/
def Confined (P : Span → Prop) (Q : α → Prop) : Checked α → Prop
  | .ok a => Q a
  | .error f => P f.span

theorem Confined.bind {x : Checked α} {f : α → Checked β} (hx : Confined P Q x) (hf : ∀ a, Q a → Confined P R (f a)) :
    Confined P R (x >>= f) := by
  cases x with
  | error e => exact hx
  | ok a => exact hf a hx

theorem Confined.map {x : Checked α} {f : α → β} (hx : Confined P Q x) (hf : ∀ a, Q a → R (f a)) :
    Confined P R (f <$> x) := by
  cases x with
  | error e => exact hx
  | ok a => exact hf a hx

theorem confined_require {ok : Prop} [Decidable ok] {fault : Fault} {span : Span} (h : P span) :
    Confined P (fun _ => True) (require ok fault span) := by
  unfold require
  split
  · trivial
  · exact h

end Checked

open Checked

section

variable {P : Span → Prop} {span : Span}

namespace Typing

theorem confined_unary (hspan : P span) (op : UnaryOp) (t : ValueType) :
    Confined P (fun _ => True) (unary op t span) :=
  (confined_require hspan).bind fun _ _ => by cases op <;> trivial

theorem confined_binary (hspan : P span) (op : BinaryOp) {l r : Expr} (hr : P r.span) :
    Confined P (fun _ => True) (binary op l r span) := by
  unfold binary
  dsimp only
  split
  next => exact (confined_require hspan).bind fun _ _ => trivial
  next =>
    refine (confined_require hspan).bind fun _ _ => ?_
    split
    next => exact (confined_require hr).bind fun _ _ => trivial
    next => exact (confined_require hr).bind fun _ _ => trivial
    all_goals trivial

theorem confined_ternary (hspan : P span) (c a b : ValueType) : Confined P (fun _ => True) (ternary c a b span) := by
  refine (confined_require hspan).bind fun _ _ => (confined_require hspan).bind fun _ _ => ?_
  split <;> trivial

theorem confined_query (op : ChannelOp) {c : Expr} (hc : P c.span) : Confined P (fun _ => True) (query op c) :=
  (confined_require hc).bind fun _ _ => trivial

theorem confined_messageFields {fs : List ValueType} {as : List Expr} (has : ∀ a ∈ as, P a.span) :
    Confined P (fun _ => True) (messageFields fs as) := by
  induction fs generalizing as with
  | nil => trivial
  | cons f fs ih =>
    cases as with
    | nil => trivial
    | cons a as =>
      obtain ⟨ha, has⟩ := List.forall_mem_cons.mp has
      exact (confined_require ha).bind fun _ _ => ih has

theorem confined_message (hspan : P span) {c : Expr} {as : List Expr} (hc : P c.span) (has : ∀ a ∈ as, P a.span) :
    Confined P (fun _ => True) (message c as span) := by
  refine (confined_require hc).bind fun _ _ => (confined_require hspan).bind fun _ _ => ?_
  split
  · trivial
  · exact (confined_require hspan).bind fun _ _ => confined_messageFields has

theorem confined_eval (hspan : P span) (t : ValueType) : Confined P (fun _ => True) (eval t span) :=
  (confined_require hspan).bind fun _ _ => trivial

end Typing

namespace Place

theorem confined_build (hspan : P span) (v : Variable) {i : Option Expr} (hi : ∀ e ∈ i, e.Spanned P) :
    Confined P (fun p => ∀ e ∈ p.indexes, e.Spanned P) (build v i span) := by
  unfold build
  split
  next => exact nofun
  next => exact hspan
  next e n _ =>
    have he := hi e rfl
    refine (confined_require he.root).bind fun _ _ => ?_
    split
    · exact (confined_require he.root).bind fun _ _ => List.forall_mem_singleton.mpr he
    · exact List.forall_mem_singleton.mpr he

theorem confined_select (hspan : P span) {f : Place} (hf : ∀ e ∈ f.indexes, e.Spanned P) : ∀ {p : Place},
    (∀ e ∈ p.indexes, e.Spanned P) → Confined P (fun q => ∀ e ∈ q.indexes, e.Spanned P) (p.select f span)
  | .leaf v i, hp => by
    unfold select
    split
    · exact hspan
    · exact (confined_require hspan).bind fun _ _ => List.forall_mem_append.mpr ⟨hp, hf⟩
  | .field v i p, hp => by
    obtain ⟨hi, hp⟩ := List.forall_mem_append.mp hp
    unfold select
    exact (confined_select hspan hf hp).bind fun _ hq => List.forall_mem_append.mpr ⟨hi, hq⟩

end Place

namespace Expr

theorem spanned_buildBool (hspan : P span) (b : Bool) : (buildBool span b).Spanned P :=
  .intro hspan (List.forall_mem_nil _)

theorem spanned_buildMtype (hspan : P span) (code : Nat) : (buildMtype span code).Spanned P :=
  .intro hspan (List.forall_mem_nil _)

theorem confined_buildInt (hspan : P span) (v : Int) : Confined P (Spanned P) (buildInt span v) := by
  unfold buildInt
  split
  · exact .intro hspan (List.forall_mem_nil _)
  · exact hspan

theorem confined_buildPlace (hspan : P span) {p : Place} (hp : ∀ e ∈ p.indexes, e.Spanned P) :
    Confined P (Spanned P) (buildPlace span p) := by
  unfold buildPlace
  split
  · exact .intro hspan hp
  · exact hspan

variable {a b c : Expr}

theorem confined_buildUnary (hspan : P span) (op : UnaryOp) (ha : a.Spanned P) :
    Confined P (Spanned P) (buildUnary span op a) :=
  (Typing.confined_unary hspan op a.type).bind fun _ _ => .intro hspan (List.forall_mem_singleton.mpr ha)

theorem confined_buildBinary (hspan : P span) (op : BinaryOp) (ha : a.Spanned P) (hb : b.Spanned P) :
    Confined P (Spanned P) (buildBinary span op a b) := by
  refine (Typing.confined_binary hspan op hb.root).bind fun _ _ => .intro hspan ?_
  exact List.forall_mem_cons.mpr ⟨ha, List.forall_mem_singleton.mpr hb⟩

theorem confined_buildTernary (hspan : P span) (hc : c.Spanned P) (ha : a.Spanned P) (hb : b.Spanned P) :
    Confined P (Spanned P) (buildTernary span c a b) := by
  refine (Typing.confined_ternary hspan c.type a.type b.type).bind fun _ _ => .intro hspan ?_
  exact List.forall_mem_cons.mpr ⟨hc, List.forall_mem_cons.mpr ⟨ha, List.forall_mem_singleton.mpr hb⟩⟩

theorem confined_buildQuery (hspan : P span) (op : ChannelOp) (hc : c.Spanned P) :
    Confined P (Spanned P) (buildQuery span op c) :=
  (Typing.confined_query op hc.root).bind fun _ _ => .intro hspan (List.forall_mem_singleton.mpr hc)

theorem confined_buildPoll (hspan : P span) {as : List Expr} (hc : c.Spanned P) (has : ∀ a ∈ as, a.Spanned P) :
    Confined P (Spanned P) (buildPoll span c as) := by
  refine (Typing.confined_message hspan hc.root fun a ha => (has a ha).root).bind fun _ _ => .intro hspan ?_
  exact List.forall_mem_cons.mpr ⟨hc, has⟩

theorem confined_buildEval (hspan : P span) (ha : a.Spanned P) : Confined P (Spanned P) (buildEval span a) :=
  (Typing.confined_eval hspan a.type).bind fun _ _ => .intro hspan (List.forall_mem_singleton.mpr ha)

end Expr

namespace Surface

mutual

/-- The spans of all nodes and names have the property. -/
def Expr.Spanned (P : Span → Prop) : Expr → Prop
  | .number s _ | .truth s _ => P s
  | .reference s r => P s ∧ r.Spanned P
  | .unary s _ e | .query s _ e | .eval s e => P s ∧ e.Spanned P
  | .binary s _ l r => P s ∧ l.Spanned P ∧ r.Spanned P
  | .ternary s c a b => P s ∧ c.Spanned P ∧ a.Spanned P ∧ b.Spanned P
  | .poll s c as => P s ∧ c.Spanned P ∧ ArgsSpanned P as

def Reference.Spanned (P : Span → Prop) : Reference → Prop
  | .leaf n i => P n.span ∧ IndexSpanned P i
  | .field n i r => P n.span ∧ IndexSpanned P i ∧ r.Spanned P

def IndexSpanned (P : Span → Prop) : Option Expr → Prop
  | none => True
  | some e => e.Spanned P

def ArgsSpanned (P : Span → Prop) : List Expr → Prop
  | [] => True
  | e :: es => e.Spanned P ∧ ArgsSpanned P es

end

mutual

theorem Expr.spanned_of_nodes : ∀ {e : Expr}, (∀ m ∈ e.nodes, P m.span) → (∀ s ∈ e.nameSpans, P s) → e.Spanned P
  | .number s _, h, _ | .truth s _, h, _ => h _ List.mem_cons_self
  | .reference s r, h, hnames => by
    obtain ⟨hs, h⟩ := List.forall_mem_cons.mp h
    exact ⟨hs, Reference.spanned_of_nodes h hnames⟩
  | .unary s _ e, h, hnames | .query s _ e, h, hnames | .eval s e, h, hnames => by
    obtain ⟨hs, h⟩ := List.forall_mem_cons.mp h
    exact ⟨hs, Expr.spanned_of_nodes h hnames⟩
  | .binary s _ l r, h, hnames => by
    obtain ⟨hs, h⟩ := List.forall_mem_cons.mp h
    obtain ⟨hl, hr⟩ := List.forall_mem_append.mp h
    obtain ⟨hlnames, hrnames⟩ := List.forall_mem_append.mp hnames
    exact ⟨hs, Expr.spanned_of_nodes hl hlnames, Expr.spanned_of_nodes hr hrnames⟩
  | .ternary s c a b, h, hnames => by
    obtain ⟨hs, h⟩ := List.forall_mem_cons.mp h
    obtain ⟨hca, hb⟩ := List.forall_mem_append.mp h
    obtain ⟨hc, ha⟩ := List.forall_mem_append.mp hca
    obtain ⟨hnames, hbnames⟩ := List.forall_mem_append.mp hnames
    obtain ⟨hcnames, hanames⟩ := List.forall_mem_append.mp hnames
    exact ⟨hs, Expr.spanned_of_nodes hc hcnames, Expr.spanned_of_nodes ha hanames, Expr.spanned_of_nodes hb hbnames⟩
  | .poll s c as, h, hnames => by
    obtain ⟨hs, h⟩ := List.forall_mem_cons.mp h
    obtain ⟨hc, has⟩ := List.forall_mem_append.mp h
    obtain ⟨hcnames, hasnames⟩ := List.forall_mem_append.mp hnames
    exact ⟨hs, Expr.spanned_of_nodes hc hcnames, argsSpanned_of_nodes has hasnames⟩

theorem Reference.spanned_of_nodes : ∀ {r : Reference}, (∀ m ∈ r.descendants, P m.span) →
    (∀ s ∈ r.nameSpans, P s) → r.Spanned P
  | .leaf n i, h, hnames => by
    obtain ⟨hname, hnames⟩ := List.forall_mem_cons.mp hnames
    exact ⟨hname, indexSpanned_of_nodes h hnames⟩
  | .field n i r, h, hnames => by
    obtain ⟨hi, hr⟩ := List.forall_mem_append.mp h
    obtain ⟨hnames, hrnames⟩ := List.forall_mem_append.mp hnames
    obtain ⟨hname, hinames⟩ := List.forall_mem_cons.mp hnames
    exact ⟨hname, indexSpanned_of_nodes hi hinames, Reference.spanned_of_nodes hr hrnames⟩

theorem indexSpanned_of_nodes : ∀ {i : Option Expr}, (∀ m ∈ indexNodes i, P m.span) →
    (∀ s ∈ nameSpansOfIndex i, P s) → IndexSpanned P i
  | none, _, _ => trivial
  | some _, h, hnames => Expr.spanned_of_nodes h hnames

theorem argsSpanned_of_nodes : ∀ {es : List Expr}, (∀ m ∈ argumentNodes es, P m.span) →
    (∀ s ∈ nameSpansOfArgs es, P s) → ArgsSpanned P es
  | [], _, _ => trivial
  | e :: es, h, hnames => by
    obtain ⟨he, hes⟩ := List.forall_mem_append.mp h
    obtain ⟨henames, hesnames⟩ := List.forall_mem_append.mp hnames
    exact ⟨Expr.spanned_of_nodes he henames, argsSpanned_of_nodes hes hesnames⟩

end

theorem Expr.Spanned.root {e : Expr} (h : e.Spanned P) : P e.span := by
  cases e with
  | number | truth => exact h
  | _ => exact h.1

theorem Reference.Spanned.name {r : Reference} (h : r.Spanned P) : P r.name.span := by
  cases r with
  | leaf n i => exact h.1
  | field n i r => exact h.1

end Surface

namespace Scope

variable {s : Scope}

/-- The spans in the bodies of the macros have the property. -/
def Spanned (P : Span → Prop) (s : Scope) : Prop := ∀ d ∈ s.definitions, d.body.Spanned P

theorem confined_literal (hspan : P span) (v : Int) : Confined P (Expr.Spanned P) (literal v span) :=
  (confined_require hspan).bind fun _ _ => Expr.confined_buildInt hspan v

theorem confined_lookup (hspan : P span) (d : Declarations) (name : String) :
    Confined P (fun _ => True) (d.lookup name span) := by
  unfold Declarations.lookup
  split
  · trivial
  · exact hspan

mutual

theorem confined_expr (hs : s.Spanned P) : ∀ {e : Surface.Expr}, e.Spanned P → Confined P (Expr.Spanned P) (s.expr e)
  | .number span n, h => confined_literal h n
  | .truth span b, h => Expr.spanned_buildBool h b
  | .reference span r, h => by
    obtain ⟨hspan, hr⟩ := h
    simp only [expr]
    split
    next d hd => exact (confined_require hspan).bind fun _ _ => hs d (List.mem_of_find?_eq_some hd)
    next => exact (confined_require hspan).bind fun _ _ => Expr.spanned_buildMtype hspan _
    next =>
      refine (confined_lookup hr.name _ _).bind fun v _ => ?_
      exact (confined_place hs hr).bind fun p hp => Expr.confined_buildPlace hspan hp
  | .unary span op e, h => by
    obtain ⟨hspan, he⟩ := h
    obtain ⟨_, n, rfl, rfl⟩ | hgeneral := expr_unary op e
    · exact confined_literal hspan _
    · rw [hgeneral]
      exact (confined_expr hs he).bind fun a ha => Expr.confined_buildUnary hspan op ha
  | .binary span op l r, ⟨hspan, hl, hr⟩ =>
    (confined_expr hs hl).bind fun _ ha => (confined_expr hs hr).bind fun _ hb =>
      Expr.confined_buildBinary hspan op ha hb
  | .ternary span c a b, ⟨hspan, hc, ha, hb⟩ =>
    (confined_expr hs hc).bind fun _ hc => (confined_expr hs ha).bind fun _ ha =>
      (confined_expr hs hb).bind fun _ hb => Expr.confined_buildTernary hspan hc ha hb
  | .query span op c, ⟨hspan, hc⟩ => (confined_expr hs hc).bind fun _ hc => Expr.confined_buildQuery hspan op hc
  | .poll span c as, ⟨hspan, hc, has⟩ =>
    (confined_expr hs hc).bind fun _ hc => (confined_args hs has).bind fun _ has => Expr.confined_buildPoll hspan hc has
  | .eval span e, ⟨hspan, he⟩ => (confined_expr hs he).bind fun _ ha => Expr.confined_buildEval hspan ha

theorem confined_place (hs : s.Spanned P) : ∀ {r : Surface.Reference} {v : Variable}, r.Spanned P →
    Confined P (fun p => ∀ e ∈ p.indexes, e.Spanned P) (s.place v r)
  | .leaf name i, v, ⟨hname, hi⟩ => (confined_index hs hi).bind fun _ hj => Place.confined_build hname v hj
  | .field name i rest, v, ⟨hname, hi, hrest⟩ => by
    refine (confined_index hs hi).bind fun _ hj => (Place.confined_build hname v hj).bind fun p hp => ?_
    dsimp only
    split
    · exact hrest.name
    split
    · exact hrest.name
    · exact (confined_place hs hrest).bind fun q hq => Place.confined_select hrest.name hq hp

theorem confined_index (hs : s.Spanned P) : ∀ {i : Option Surface.Expr}, Surface.IndexSpanned P i →
    Confined P (fun j => ∀ e ∈ j, e.Spanned P) (s.index i)
  | none, _ => nofun
  | some _, he => (confined_expr hs he).bind fun _ ha _ h => Option.some.inj h ▸ ha

theorem confined_args (hs : s.Spanned P) : ∀ {as : List Surface.Expr}, Surface.ArgsSpanned P as →
    Confined P (fun bs => ∀ b ∈ bs, b.Spanned P) (s.args as)
  | [], _ => List.forall_mem_nil _
  | _ :: _, ⟨ha, has⟩ =>
    (confined_expr hs ha).bind fun _ hb => (confined_args hs has).bind fun _ hbs => List.forall_mem_cons.mpr ⟨hb, hbs⟩

end

theorem confined_size {n : Surface.Size} (hn : P n.span) : Confined P (fun _ => True) (s.size n) := by
  cases n with
  | number n => exact (confined_require hn).bind fun _ _ => trivial
  | named n =>
    rw [size]
    split
    · exact hn
    · exact (confined_require hn).bind fun _ _ => trivial

theorem confined_optionalSize {n : Option Surface.Size} (hn : ∀ s ∈ (n.map Surface.Size.span).toList, P s) :
    Confined P (fun _ => True) (s.optionalSize n) := by
  cases n with
  | none => trivial
  | some n => exact (confined_size (List.forall_mem_singleton.mp hn)).bind fun _ _ => trivial

theorem confined_checkFresh {name : Located String} (hname : P name.span) :
    Confined P (fun _ => True) (s.checkFresh name) :=
  (confined_require hname).bind fun _ _ => confined_require hname

end Scope

namespace Declarations

variable {d : Declarations} {name : String} {length : Option Nat}

theorem confined_addGlobal (hspan : P span) {layout : Layout} {signature : Option Signature} :
    Confined P (fun _ => True) (d.addGlobal name layout length signature span) := by
  unfold addGlobal
  split
  · exact hspan
  split
  · exact hspan
  split
  · exact hspan
  · trivial

theorem confined_declareChannel (hspan : P span) {signature : Option Signature} :
    Confined P (fun _ => True) (d.declareChannel name signature length span) := by
  unfold declareChannel
  split
  · exact hspan
  · exact confined_addGlobal hspan

theorem confined_declareRecordVariable (hspan : P span) {record : String} :
    Confined P (fun _ => True) (d.declareRecordVariable name record length span) := by
  unfold declareRecordVariable
  split
  · exact hspan
  · exact confined_addGlobal hspan

theorem confined_addFields (hspan : P span) {record : String} {fs : List FieldDecl} {done : List Field} :
    Confined P (fun _ => True) (addFields record span fs done d).1 := by
  fun_induction addFields record span fs done d with
  | case1 => trivial
  | case2 | case3 | case4 => exact hspan
  | case5 _ _ _ _ _ _ _ _ ih => exact ih

theorem confined_defineRecord (hspan : P span) {fields : List FieldDecl} :
    Confined P (fun _ => True) (d.defineRecord name fields span).1 := by
  unfold defineRecord
  split
  · exact hspan
  split
  · exact hspan
  have hfields : Confined P (fun _ => True) (addFields name span fields [] d).1 := confined_addFields hspan
  split
  next e _ heq =>
    rw [heq] at hfields
    exact hfields
  next => trivial

end Declarations

theorem Mtypes.confined_declareAll {names : List (Located String)} (hnames : ∀ n ∈ names, P n.span) {m : Mtypes} :
    Confined P (fun _ => True) (m.declareAll names) := by
  induction names generalizing m with
  | nil => trivial
  | cons n names ih =>
    obtain ⟨hn, hnames⟩ := List.forall_mem_cons.mp hnames
    have hdeclare : Confined P (fun _ => True) (m.declare n.value n.span) := by
      unfold declare
      split
      · exact hn
      split
      · exact hn
      split
      · exact hn
      · trivial
    have hnext : Confined P (fun _ => True) (Prod.snd <$> m.declare n.value n.span) := hdeclare.map fun _ _ => trivial
    exact hnext.bind fun _ _ => ih hnames

end
end Promela
