import Promela.Proofs.FaultSpans
import Promela.Proofs.Locations
import Promela.Proofs.Scoping
import Promela.Proofs.Token.Points

/-! Whatever holds of the spans of items holds of the span of a rejection, and of all spans of a model. For the
items of a text these are the spans of tokens that follow one another, and so places of the text. -/
namespace Promela

variable {P : Span → Prop}

/-- The rejection stands at a span with the property. -/
def Rejection.StandsAt (P : Span → Prop) (r : Rejection) : Prop := ∃ s, r.span = some s ∧ P s

namespace Surface

def FieldDecl.Spanned (P : Span → Prop) (f : FieldDecl) : Prop := ∀ s ∈ f.spans, P s

def Initializer.Spanned (P : Span → Prop) : Initializer → Prop
  | value e => e.Spanned P
  | channel capacity fields s => P s ∧ P capacity.span ∧ ∀ f ∈ fields, P f.span

structure Declarator.Spanned (P : Span → Prop) (d : Declarator) : Prop where
  name : P d.name.span
  size : ∀ s ∈ (d.size.map Size.span).toList, P s
  init : ∀ i ∈ d.init, i.Spanned P

/-- The spans of what an item is made of have the property. -/
def Item.Spanned (P : Span → Prop) : Item → Prop
  | mtypes names => ∀ n ∈ names, P n.span
  | record name fields => P name.span ∧ ∀ f ∈ fields, f.Spanned P
  | globals _ ds => ∀ d ∈ ds, d.Spanned P
  | define name body => P name.span ∧ body.Spanned P
  | unread word => P word.span

theorem Initializer.spanned_of_spans {i : Initializer} (hspans : ∀ s ∈ i.spans, P s)
    (hexprs : ∀ e ∈ i.exprs, ∀ m ∈ e.nodes, P m.span) : i.Spanned P := by
  cases i with
  | value e => exact Expr.spanned_of_nodes (hexprs e List.mem_cons_self) hspans
  | channel capacity fields s =>
    obtain ⟨hs, hspans⟩ := List.forall_mem_cons.mp hspans
    obtain ⟨hcapacity, hfields⟩ := List.forall_mem_cons.mp hspans
    exact ⟨hs, hcapacity, fun f hf => hfields _ (List.mem_map_of_mem hf)⟩

theorem Declarator.spanned_of_spans {d : Declarator} (hspans : ∀ s ∈ d.spans, P s)
    (hexprs : ∀ e ∈ d.exprs, ∀ m ∈ e.nodes, P m.span) : d.Spanned P := by
  obtain ⟨hhead, hinit⟩ := List.forall_mem_append.mp hspans
  obtain ⟨hname, hsize⟩ := List.forall_mem_cons.mp hhead
  refine ⟨hname, hsize, fun i hi => Initializer.spanned_of_spans (fun s hs => ?_) (fun e he => ?_)⟩
  · exact hinit s (List.mem_flatMap.mpr ⟨i, Option.mem_toList.mpr hi, hs⟩)
  · exact hexprs e (List.mem_flatMap.mpr ⟨i, Option.mem_toList.mpr hi, he⟩)

theorem Item.spanned_of_spans {i : Item} (hspans : ∀ s ∈ i.spans, P s)
    (hexprs : ∀ e ∈ i.exprs, ∀ m ∈ e.nodes, P m.span) : i.Spanned P := by
  cases i with
  | mtypes names => exact fun n hn => hspans _ (List.mem_map_of_mem hn)
  | record name fields =>
    obtain ⟨hname, hfields⟩ := List.forall_mem_cons.mp hspans
    exact ⟨hname, fun f hf s hs => hfields s (List.mem_flatMap.mpr ⟨f, hf, hs⟩)⟩
  | globals type ds =>
    obtain ⟨-, hds⟩ := List.forall_mem_cons.mp hspans
    refine fun d hd => Declarator.spanned_of_spans (fun s hs => ?_) (fun e he => ?_)
    · exact hds s (List.mem_flatMap.mpr ⟨d, hd, hs⟩)
    · exact hexprs e (List.mem_flatMap.mpr ⟨d, hd, he⟩)
  | define name body =>
    obtain ⟨hname, hbody⟩ := List.forall_mem_cons.mp hspans
    exact ⟨hname, Expr.spanned_of_nodes (hexprs body List.mem_cons_self) hbody⟩
  | unread word => exact hspans _ List.mem_cons_self

end Surface

/-- The spans in the macros' bodies and in the initial values have the property. -/
structure Progress.Spanned (P : Span → Prop) (p : Progress) : Prop where
  definitions : p.toScope.Spanned P
  initials : ∀ i ∈ p.initials, i.value.Spanned P

namespace Resolving

variable {α β : Type} {Q : α → Prop} {R : β → Prop}

/-- A rejection stands at a span with the first property, what is found has the second one, and so all that is
known keeps the first. -/
def Confined (P : Span → Prop) (Q : α → Prop) (x : Resolving α) : Prop :=
  ∀ p : Progress, p.Spanned P →
    match x.run p with
    | .ok a q => Q a ∧ q.Spanned P
    | .error r _ => r.StandsAt P

namespace Confined

theorem pure {a : α} (ha : Q a) : Confined P Q (pure a) := fun _ hp => ⟨ha, hp⟩

theorem throw {r : Rejection} (hr : r.StandsAt P) : Confined P Q (throw r) := fun _ _ => hr

theorem checked {c : Checked α} (hc : Checked.Confined P Q c) : Confined P Q (checked c) := by
  cases c with
  | error f => exact throw ⟨f.span, rfl, hc⟩
  | ok a => exact pure hc

theorem bind {x : Resolving α} {f : α → Resolving β} (hx : Confined P Q x) (hf : ∀ a, Q a → Confined P R (f a)) :
    Confined P R (x >>= f) := by
  intro p hp
  have hfirst := hx p hp
  change match EStateM.bind x f p with
    | .ok b q => R b ∧ q.Spanned P
    | .error r _ => r.StandsAt P
  unfold EStateM.bind
  change match x p with
    | .ok a q => Q a ∧ q.Spanned P
    | .error r _ => r.StandsAt P at hfirst
  split at hfirst
  next a q heq =>
    rw [heq]
    exact hf a hfirst.1 q hfirst.2
  next r q heq =>
    rw [heq]
    exact hfirst

theorem get_bind {f : Progress → Resolving α} (hf : ∀ p, p.Spanned P → Confined P Q (f p)) :
    Confined P Q (get >>= f) := fun p hp => hf p hp p hp

theorem set {p : Progress} (hp : p.Spanned P) : Confined P (fun _ => True) (set p) := fun _ _ => ⟨trivial, hp⟩

theorem modify {f : Progress → Progress} (hf : ∀ p, p.Spanned P → (f p).Spanned P) :
    Confined P (fun _ => True) (modify f) := fun p hp => ⟨trivial, hf p hp⟩

theorem mapM {f : α → Resolving β} {xs : List α} (hf : ∀ x ∈ xs, Confined P (fun _ => True) (f x)) :
    Confined P (fun _ => True) (xs.mapM f) := by
  induction xs with
  | nil => exact pure trivial
  | cons x xs ih =>
    obtain ⟨hx, hxs⟩ := List.forall_mem_cons.mp hf
    rw [List.mapM_cons]
    exact hx.bind fun _ _ => (ih hxs).bind fun _ _ => pure trivial

theorem forM {f : α → Resolving Unit} {xs : List α} (hf : ∀ x ∈ xs, Confined P (fun _ => True) (f x)) :
    Confined P (fun _ => True) (xs.forM f) := by
  induction xs with
  | nil => exact pure trivial
  | cons x xs ih =>
    obtain ⟨hx, hxs⟩ := List.forall_mem_cons.mp hf
    exact hx.bind fun _ _ => ih hxs

end Confined

variable {s : Scope}

theorem confined_resolve (hs : s.Spanned P) {e : Surface.Expr} (he : e.Spanned P) :
    Confined P (Expr.Spanned P) (resolve s e) := by
  refine (Confined.checked (Scope.confined_expr hs he)).bind fun a ha => ?_
  exact .bind (.modify fun p hp => ⟨hp.definitions, hp.initials⟩) fun _ _ => .pure ha

theorem confined_declare {op : Declarations → Checked (Variable × Declarations)}
    (hop : ∀ d, Checked.Confined P (fun _ => True) (op d)) : Confined P (fun _ => True) (declare op) := by
  refine .get_bind fun p hp => (Confined.checked (hop p.declared)).bind fun (v, d) _ => ?_
  exact .bind (.set ⟨hp.definitions, hp.initials⟩) fun _ _ => .pure trivial

theorem confined_recordField {record : String} {f : Surface.FieldDecl} (hf : f.Spanned P) :
    Confined P (fun _ => True) (recordField s record f) := by
  obtain ⟨htype, hf⟩ := List.forall_mem_cons.mp hf
  obtain ⟨-, hsize⟩ := List.forall_mem_cons.mp hf
  unfold recordField
  split
  · exact .throw ⟨_, rfl, htype⟩
  · exact (Confined.checked (Scope.confined_optionalSize hsize)).bind fun _ _ => .pure trivial

theorem confined_record {name : Located String} {fields : List Surface.FieldDecl} (hname : P name.span)
    (hfields : ∀ f ∈ fields, f.Spanned P) : Confined P (fun _ => True) (record name fields) := by
  refine .get_bind fun p hp => (Confined.mapM fun f hf => confined_recordField (hfields f hf)).bind fun fs _ => ?_
  have hrecord : Checked.Confined P (fun _ => True) (p.declared.defineRecord name.value fs name.span).1 :=
    Declarations.confined_defineRecord hname
  split
  next => exact .set ⟨hp.definitions, hp.initials⟩
  next f d heq =>
    rw [heq] at hrecord
    exact .bind (.set ⟨hp.definitions, hp.initials⟩) fun _ _ => .throw ⟨f.span, rfl, hrecord⟩

theorem confined_messageField {t : Located Surface.TypeName} (ht : P t.span) :
    Confined P (fun _ => True) (messageField t) := by
  unfold messageField
  split
  · exact .pure trivial
  · exact .throw ⟨_, rfl, ht⟩

theorem confined_signature {capacity : Surface.Size} {fields : List (Located Surface.TypeName)}
    (hcapacity : P capacity.span) (hfields : ∀ f ∈ fields, P f.span) :
    Confined P (fun _ => True) (signature s capacity fields) := by
  refine (Confined.checked (Scope.confined_size hcapacity)).bind fun _ _ => ?_
  exact (Confined.mapM fun f hf => confined_messageField (hfields f hf)).bind fun _ _ => .pure trivial

variable {d : Surface.Declarator} {length : Option Nat}

theorem confined_channel (hd : d.Spanned P) : Confined P (fun _ => True) (channel s d length) := by
  have hadd (sig : Option Signature) :
      Confined P (fun _ => True) (do let _ ← declare (·.declareChannel d.name.value sig length d.name.span)) :=
    .bind (confined_declare fun _ => Declarations.confined_declareChannel hd.name) fun _ _ => .pure trivial
  unfold channel
  split
  next e hinit =>
    have he : e.Spanned P := hd.init _ hinit
    exact .bind (Q := fun _ => True) (.throw ⟨e.span, rfl, he.root⟩) fun sig _ => hadd sig
  next capacity fields span hinit =>
    obtain ⟨-, hcapacity, hfields⟩ : P span ∧ P capacity.span ∧ ∀ f ∈ fields, P f.span := hd.init _ hinit
    refine .bind (Q := fun _ => True) ?_ fun sig _ => hadd sig
    exact .bind (confined_signature hcapacity hfields) fun _ _ => .pure trivial
  next => exact hadd none

theorem confined_scalar (hs : s.Spanned P) {t : ValueType} (hd : d.Spanned P) :
    Confined P (fun _ => True) (scalar s t d length) := by
  have hadd : Confined P (fun _ => True) (declare (·.declareScalar d.name.value t length d.name.span)) :=
    confined_declare fun _ => Declarations.confined_addGlobal hd.name
  unfold scalar
  dsimp only
  split
  next span hinit => exact .throw ⟨span, rfl, (hd.init _ hinit).1⟩
  next => exact hadd.bind fun _ _ => .pure trivial
  next e hinit =>
    have he : e.Spanned P := hd.init _ hinit
    refine (confined_resolve hs he).bind fun a ha => hadd.bind fun v _ => ?_
    refine .bind (.checked (Checked.confined_require ha.root)) fun _ _ => .modify fun p hp => ?_
    exact ⟨hp.definitions, List.forall_mem_append.mpr ⟨hp.initials, List.forall_mem_singleton.mpr ha⟩⟩

theorem confined_recordVariable {r : String} (hd : d.Spanned P) :
    Confined P (fun _ => True) (recordVariable r d length) := by
  unfold recordVariable
  split
  next span hinit => exact .throw ⟨span, rfl, (hd.init _ hinit).1⟩
  next e hinit =>
    have he : e.Spanned P := hd.init _ hinit
    exact .throw ⟨e.span, rfl, he.root⟩
  next =>
    refine .bind (confined_declare fun _ => ?_) fun _ _ => .pure trivial
    exact Declarations.confined_declareRecordVariable hd.name

theorem confined_declarator {t : Surface.TypeName} (hd : d.Spanned P) :
    Confined P (fun _ => True) (declarator t d) := by
  refine .get_bind fun p hp => .bind (.checked (Scope.confined_checkFresh hd.name)) fun _ _ => ?_
  refine .bind (.checked (Scope.confined_optionalSize hd.size)) fun length _ => ?_
  split
  · exact confined_channel hd
  · exact confined_scalar hp.definitions hd
  · exact confined_recordVariable hd

theorem confined_define {name : Located String} {body : Surface.Expr} (hname : P name.span) (hbody : body.Spanned P) :
    Confined P (fun _ => True) (define name body) := by
  refine .get_bind fun p hp => .bind (.checked (Scope.confined_checkFresh hname)) fun _ _ => ?_
  refine .bind (.checked (Checked.confined_require hname)) fun _ _ => ?_
  refine .bind (confined_resolve hp.definitions hbody) fun e he => .modify fun q hq => ?_
  exact ⟨List.forall_mem_append.mpr ⟨hq.definitions, List.forall_mem_singleton.mpr he⟩, hq.initials⟩

theorem confined_item {i : Surface.Item} (hi : i.Spanned P) : Confined P (fun _ => True) (item i) := by
  cases i with
  | mtypes _ | unread _ => exact .pure trivial
  | record name fields => exact confined_record hi.1 hi.2
  | globals t ds => exact .forM fun d hd => confined_declarator (hi d hd)
  | define name body => exact confined_define hi.1 hi.2

end Resolving

/-- The spans of the notices and of all nodes of expressions have the property. -/
structure Model.Spanned (P : Span → Prop) (m : Model) : Prop where
  notices : ∀ n ∈ m.notices, P n.span
  exprs : ∀ e ∈ m.exprs, e.Spanned P

/-- Only a text without items is rejected at no place. -/
def Reading.Confined (P : Span → Prop) (r : Reading) : Prop :=
  match r.outcome with
  | .error r => r = ⟨.malformed .noDeclarations, none⟩ ∨ r.StandsAt P
  | .ok m => m.Spanned P

theorem Reading.confined_ofItems {base : Nat} {path : String} {items : List Surface.Item}
    (hitems : ∀ i ∈ items, i.Spanned P) : (ofItems base path items).Confined P := by
  have hnames : ∀ n ∈ items.flatMap (·.mtypeNames), P n.span := by
    intro n hn
    obtain ⟨i, hi, hn⟩ := List.mem_flatMap.mp hn
    cases i with
    | mtypes names => exact hitems _ hi n hn
    | _ => cases hn
  unfold ofItems
  split
  next => exact .inl rfl
  next word hword =>
    obtain ⟨i, hi, hunread⟩ := List.exists_of_findSome?_eq_some hword
    cases i with
    | unread w =>
      cases hunread
      exact .inr ⟨_, rfl, hitems _ hi⟩
    | _ => cases hunread
  next =>
    have hmtypes := Mtypes.confined_declareAll hnames (m := .withBase base)
    dsimp only
    split
    next f heq =>
      rw [heq] at hmtypes
      exact .inr ⟨f.span, rfl, hmtypes⟩
    next mtypes _ =>
      have hstart : (Progress.start mtypes base).Spanned P := ⟨List.forall_mem_nil _, List.forall_mem_nil _⟩
      have hrun := Resolving.Confined.forM (fun i hi => Resolving.confined_item (hitems i hi)) _ hstart
      unfold Progress.start at hrun
      split
      next r p heq =>
        rw [heq] at hrun
        exact .inr hrun
      next p heq =>
        rw [heq] at hrun
        obtain ⟨-, hdefinitions, hinitials⟩ := hrun
        refine ⟨fun n hn => ?_, fun e he => ?_⟩
        · obtain ⟨c, hc, rfl⟩ := mem_of_unusedMtypes hn
          exact hnames c hc
        · rcases List.mem_append.mp he with he | he
          · obtain ⟨d, hd, rfl⟩ := List.mem_map.mp he
            exact hdefinitions d hd
          · obtain ⟨i, hi, rfl⟩ := List.mem_map.mp he
            exact hinitials i hi

/-- The tokens of a text stand in it, and so does what is rejected instead. -/
theorem Lexer.standsIn_tokens (source path : String) :
    StandsIn path (sourceBytes source) .first (tokens source path) :=
  standsIn_tokensFrom (p := .first) rfl (List.nil_append _).symm

section

variable {base : Nat} {path source : String} {ts : List Token}

theorem Surface.OnRun.pointsInto (h : tokens source path = .ok ts) {s : Span} (hs : Surface.OnRun ts s) :
    s.PointsInto path (sourceBytes source) := by
  have hstands := Lexer.standsIn_tokens source path
  rw [h] at hstands
  obtain ⟨hts, hsorted⟩ := hstands
  obtain ⟨us, hus, hspans⟩ := hs
  obtain ⟨t, us, rfl⟩ := List.exists_cons_of_ne_nil hspans.ne_nil
  obtain ⟨u, hlast, hstop⟩ := Option.map_eq_some_iff.mp hspans.stop
  have hu := List.mem_of_getLast? hlast
  have hstart : t.span.start = s.start := Option.some.inj hspans.start
  have hpath : t.span.path = s.path := Option.some.inj hspans.path
  have htpoints := (hts t (hus.subset List.mem_cons_self)).1
  have hupoints := (hts u (hus.subset hu)).1
  have hle : t.span.start ≤ u.span.start := by
    rcases List.mem_cons.mp hu with rfl | hu
    · exact Position.le_refl _
    · exact (List.pairwise_cons.mp (hsorted.sublist hus.sublist)).1 u hu
  constructor
  · rw [← hpath]
    exact htpoints.path
  · rw [← hstart]
    exact htpoints.start
  · rw [← hstop]
    exact hupoints.stop
  · rw [← hstart, ← hstop]
    exact Position.le_trans hle hupoints.ordered

theorem Surface.Item.spanned_of_items (h : tokens source path = .ok ts) {is : List Surface.Item}
    (his : Surface.items ts = .ok is) : ∀ i ∈ is, i.Spanned (Span.PointsInto path (sourceBytes source)) := by
  intro i hi
  have hspans := Surface.onRun_of_items (.of_tokens h)
  rw [his] at hspans
  refine spanned_of_spans (fun s hs => (hspans i hi s hs).pointsInto h) fun e he m hm => ?_
  obtain ⟨us, hus, hstands⟩ := (Surface.from_of_items his i hi).exprs m (List.mem_flatMap.mpr ⟨e, he, hm⟩)
  exact Surface.OnRun.pointsInto h ⟨us, hus, hstands.spans⟩

theorem Reading.confined_ofSource (base : Nat) (path source : String) :
    (ofSource base path source).Confined (Span.PointsInto path (sourceBytes source)) := by
  unfold ofSource
  cases htokens : tokens source path with
  | error r =>
    have hstands := Lexer.standsIn_tokens source path
    rw [htokens] at hstands
    exact .inr hstands
  | ok ts =>
    rw [show (Except.ok ts).bind Surface.items = Surface.items ts from rfl]
    cases hitems : Surface.items ts with
    | error r =>
      have hrefused := Surface.onRun_of_items (.of_tokens htokens)
      rw [hitems] at hrefused
      obtain ⟨t, ht, hspan⟩ := hrefused
      exact .inr ⟨t.span, hspan, Surface.OnRun.pointsInto htokens (.of_mem ht)⟩
    | ok items => exact confined_ofItems (Surface.Item.spanned_of_items htokens hitems)

end

/-- A text that is rejected has no items, or the rejection points into it; all notices of a model and all nodes
of its expressions point into the text, too. -/
theorem Model.spans_pointInto (base : Nat) (path source : String) :
    match ofSource base path source with
    | .error r => r = ⟨.malformed .noDeclarations, none⟩ ∨
        ∃ s, r.span = some s ∧ s.PointsInto path (sourceBytes source)
    | .ok m => (∀ n ∈ m.notices, n.span.PointsInto path (sourceBytes source)) ∧
        ∀ e ∈ m.exprs, ∀ o, e.Reaches o → o.node.span.PointsInto path (sourceBytes source) := by
  have hconfined := Reading.confined_ofSource base path source
  unfold ofSource
  unfold Reading.Confined at hconfined
  split at hconfined
  next => exact hconfined
  next m _ => exact ⟨hconfined.notices, fun e he o ho => (hconfined.exprs e he).reaches ho⟩

end Promela
