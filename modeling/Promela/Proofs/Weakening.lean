import Promela.Analysis
import Promela.Proofs.Declarations.History
import Promela.Proofs.Mtypes
import Promela.Proofs.Referents
import Promela.Proofs.Scoping

/-! What further items change for the items before them: nothing. The constants of the further items are
known from the start, but none of them has the name of a variable that is declared, so every name means
what it means without them. -/
namespace Promela

namespace Mtypes

/-- The constants of `m` come first in `m'`, under the same codes. -/
structure Begins (m m' : Mtypes) : Prop where
  base : m'.base = m.base
  names : m.names <+: m'.names

namespace Begins

variable {m m' m'' : Mtypes}

theorem refl (m : Mtypes) : m.Begins m := ⟨rfl, List.prefix_refl _⟩

theorem trans (h : m.Begins m') (h' : m'.Begins m'') : m.Begins m'' :=
  ⟨h'.base.trans h.base, h.names.trans h'.names⟩

theorem code? (h : m.Begins m') {name : String} {code : Nat} (hcode : m.code? name = some code) :
    m'.code? name = some code := by
  obtain ⟨k, hk, rfl⟩ := Option.map_eq_some_iff.mp hcode
  have hk' : m'.names.idxOf? name = some k := h.names.findIdx?_eq_some hk
  simp [Mtypes.code?, hk', h.base]

end Begins

theorem declare_begins {m m' : Mtypes} {name : String} {span : Span} {code : Nat}
    (h : m.declare name span = .ok (code, m')) : m.Begins m' := by
  obtain ⟨-, -, rfl⟩ := declare_ok h
  exact ⟨rfl, List.prefix_append _ _⟩

theorem declareAll_begins {m m' : Mtypes} {names : List (Located String)}
    (h : m.declareAll names = .ok m') : m.Begins m' := by
  induction names generalizing m with
  | nil =>
    cases h
    exact .refl _
  | cons n names ih =>
    obtain ⟨m₁, hm₁, hrest⟩ := bind_ok h
    dsimp only at hm₁
    cases hdeclare : m.declare n.value n.span with
    | error f =>
      rw [hdeclare] at hm₁
      cases hm₁
    | ok p =>
      rw [hdeclare] at hm₁
      cases hm₁
      exact (declare_begins hdeclare).trans (ih hrest)

end Mtypes

namespace Scope

/-- The same variables and macros are known, and all constants with their codes. None of the further
constants has the name of a variable. -/
structure Within (s s' : Scope) : Prop where
  mtypes : s.mtypes.Begins s'.mtypes
  declared : s'.declared = s.declared
  definitions : s'.definitions = s.definitions
  fresh : ∀ v ∈ s.declared.globals, s'.mtypes.code? v.name = none

variable {s s' : Scope}

theorem Within.definition? (h : s.Within s') (name : String) : s'.definition? name = s.definition? name := by
  rw [Scope.definition?, h.definitions, ← Scope.definition?]

theorem Within.size (h : s.Within s') (n : Surface.Size) : s'.size n = s.size n := by
  cases n with
  | number n => rfl
  | named n => simp only [Scope.size, h.definition?]

theorem Within.optionalSize (h : s.Within s') (n : Option Surface.Size) :
    s'.optionalSize n = s.optionalSize n := by
  cases n with
  | none => rfl
  | some n => simp only [Scope.optionalSize, h.size]

/-- No name that stands for something without the further constants stands for something else with them. -/
theorem Within.keeps (h : s.Within s') : s.Keeps s' := by
  intro name r hr
  simp only [referent?, nameOrder, List.findSome?, referentIn?, h.definition?, h.declared] at hr ⊢
  cases hd : s.definition? name with
  | some d => simpa [hd] using hr
  | none =>
    cases hcode : s.mtypes.code? name with
    | some code => simpa [hd, hcode, h.mtypes.code? hcode] using hr
    | none =>
      cases hv : s.declared.lookup? name with
      | none => simp [hd, hcode, hv] at hr
      | some v =>
        have hname : v.name = name := by simpa using List.find?_some hv
        have hnone : s'.mtypes.code? name = none := hname ▸ h.fresh v (List.mem_of_find?_eq_some hv)
        simpa [hd, hcode, hv, hnone] using hr

end Scope

namespace Resolving

open Declarations

variable {α β : Type} {m : Mtypes} {p p' : Progress}

/-- The same is settled, apart from the log and the constants that are used, in scopes of which the second
knows the constants of `m`. -/
structure Agrees (m : Mtypes) (p p' : Progress) : Prop where
  scope : p.toScope.Within p'.toScope
  mtypes : p'.mtypes = m
  initials : p'.initials = p.initials

/-- Where both computations succeed they return the same and settle the same. -/
def Lockstep (m : Mtypes) (p p' : Progress) (x y : Resolving α) : Prop :=
  ∀ a b q q', x.run p = .ok a q → y.run p' = .ok b q' → b = a ∧ Agrees m q q'

namespace Lockstep

theorem pure (h : Agrees m p p') (a : α) : Lockstep m p p' (pure a) (pure a) := by
  intro b b' q q' hx hy
  cases hx
  cases hy
  exact ⟨rfl, h⟩

theorem throw (r : Rejection) (y : Resolving α) : Lockstep m p p' (throw r) y := by
  intro a b q q' hx _
  cases hx

theorem checked (h : Agrees m p p') {c c' : Checked α} (hc : Stays c c') :
    Lockstep m p p' (checked c) (checked c') := by
  intro a b q q' hx hy
  obtain ⟨ha, rfl⟩ := run_checked_ok hx
  obtain ⟨hb, rfl⟩ := run_checked_ok hy
  have hab : b = a := Except.ok.inj (hb.symm.trans (hc a ha))
  exact ⟨hab, h⟩

theorem set {r r' : Progress} (h : Agrees m r r') : Lockstep m p p' (set r) (set r') := by
  intro a b q q' hx hy
  cases hx
  cases hy
  exact ⟨rfl, h⟩

theorem modify {f f' : Progress → Progress} (h : Agrees m (f p) (f' p')) :
    Lockstep m p p' (modify f) (modify f') := by
  intro a b q q' hx hy
  cases hx
  cases hy
  exact ⟨rfl, h⟩

theorem bind {x y : Resolving α} {f g : α → Resolving β} (h : Lockstep m p p' x y)
    (hf : ∀ a q q', Agrees m q q' → Lockstep m q q' (f a) (g a)) : Lockstep m p p' (x >>= f) (y >>= g) := by
  intro b b' r r' hx hy
  obtain ⟨a, q, hq, hf'⟩ := run_bind_ok hx
  obtain ⟨a', q', hq', hg'⟩ := run_bind_ok hy
  obtain ⟨rfl, hagrees⟩ := h a a' q q' hq hq'
  exact hf a' q q' hagrees b b' r r' hf' hg'

theorem get_bind {f g : Progress → Resolving β} (h : Lockstep m p p' (f p) (g p')) :
    Lockstep m p p' (get >>= f) (get >>= g) := h

theorem mapM {f g : α → Resolving β} (hf : ∀ a q q', Agrees m q q' → Lockstep m q q' (f a) (g a))
    (h : Agrees m p p') (as : List α) : Lockstep m p p' (as.mapM f) (as.mapM g) := by
  induction as generalizing p p' with
  | nil =>
    rw [List.mapM_nil, List.mapM_nil]
    exact pure h []
  | cons a as ih =>
    rw [List.mapM_cons, List.mapM_cons]
    exact (hf a p p' h).bind fun b q q' hq => (ih hq).bind fun bs r r' hr => pure hr (b :: bs)

theorem forM {f : α → Resolving Unit} (hf : ∀ a q q', Agrees m q q' → Lockstep m q q' (f a) (f a))
    (h : Agrees m p p') (as : List α) : Lockstep m p p' (as.forM f) (as.forM f) := by
  induction as generalizing p p' with
  | nil => exact pure h ()
  | cons a as ih => exact (hf a p p' h).bind fun _ q q' hq => ih hq

end Lockstep

section

variable {s s' : Scope}

theorem lockstep_declare (h : Agrees m p p') {op : Declarations → Checked (Variable × Declarations)}
    {name : String} (hop : Adds op name) (hname : m.code? name = none) :
    Lockstep m p p' (declare op) (declare op) := by
  intro v w q q' hx hy
  obtain ⟨⟨v, d⟩, hv, hset⟩ := run_checked_bind_ok (run_get_bind_ok hx)
  obtain ⟨⟨w, d'⟩, hw, hset'⟩ := run_checked_bind_ok (run_get_bind_ok hy)
  rw [h.scope.declared, hv] at hw
  cases hw
  cases hset
  cases hset'
  obtain ⟨-, rfl, rfl⟩ := hop _ _ _ hv
  refine ⟨rfl, ⟨h.scope.mtypes, rfl, h.scope.definitions, ?_⟩, h.mtypes, h.initials⟩
  intro w hw
  rcases List.mem_append.mp hw with hw | hw
  · exact h.scope.fresh w hw
  · cases List.mem_singleton.mp hw
    rw [h.mtypes]
    exact hname

theorem lockstep_resolve (hs : s.Within s') (h : Agrees m p p') (raw : Surface.Expr) :
    Lockstep m p p' (resolve s raw) (resolve s' raw) := by
  refine (Lockstep.checked h (Scope.stays_expr hs.keeps raw)).bind fun e q q' hq => ?_
  exact Lockstep.bind (.modify ⟨hq.scope, hq.mtypes, hq.initials⟩) fun _ _ _ hr => .pure hr e

theorem lockstep_recordField (hs : s.Within s') (record : String) (f : Surface.FieldDecl) (h : Agrees m p p') :
    Lockstep m p p' (recordField s record f) (recordField s' record f) := by
  unfold recordField
  split
  · exact .throw _ _
  · rw [hs.optionalSize]
    exact (Lockstep.checked h (.refl _)).bind fun _ _ _ hq => .pure hq _

theorem lockstep_record (h : Agrees m p p') (name : Located String) (fields : List Surface.FieldDecl) :
    Lockstep m p p' (record name fields) (record name fields) := by
  refine Lockstep.get_bind ?_
  refine (Lockstep.mapM (fun f _ _ hq => lockstep_recordField h.scope name.value f hq) h fields).bind ?_
  intro decls q q' hq
  have hglobals := globals_defineRecord p.declared name.value decls name.span
  rw [h.scope.declared]
  split
  next r d hd =>
    rw [hd] at hglobals
    have hfresh : ∀ v ∈ d.globals, p'.mtypes.code? v.name = none :=
      fun v hv => h.scope.fresh v (hglobals ▸ hv)
    exact .set ⟨⟨h.scope.mtypes, rfl, h.scope.definitions, hfresh⟩, h.mtypes, h.initials⟩
  next f d hd =>
    intro a b q q' hx _
    cases hx

theorem lockstep_messageField (t : Located Surface.TypeName) (p p' : Progress) (h : Agrees m p p') :
    Lockstep m p p' (messageField t) (messageField t) := by
  unfold messageField
  split
  · exact .pure h _
  · exact .throw _ _

theorem lockstep_signature (hs : s.Within s') (h : Agrees m p p') (capacity : Surface.Size)
    (fields : List (Located Surface.TypeName)) :
    Lockstep m p p' (signature s capacity fields) (signature s' capacity fields) := by
  have hsize : Stays (s.size capacity) (s'.size capacity) := by
    rw [hs.size]
    exact .refl _
  refine (Lockstep.checked h hsize).bind fun n q q' hq => ?_
  exact (Lockstep.mapM lockstep_messageField hq fields).bind fun _ _ _ hr => .pure hr _

variable {d : Surface.Declarator} {length : Option Nat}

theorem lockstep_add (h : Agrees m p p') {op : Declarations → Checked (Variable × Declarations)}
    (hop : Adds op d.name.value) (hname : m.code? d.name.value = none) :
    Lockstep m p p' (do let _ ← declare op; pure ()) (do let _ ← declare op; pure ()) :=
  (lockstep_declare h hop hname).bind fun _ _ _ hq => .pure hq ()

theorem lockstep_channel (hs : s.Within s') (h : Agrees m p p') (hname : m.code? d.name.value = none) :
    Lockstep m p p' (channel s d length) (channel s' d length) := by
  have hop : ∀ sig, Adds (·.declareChannel d.name.value sig length d.name.span) d.name.value :=
    fun _ _ _ _ => declareChannel_ok
  unfold channel
  dsimp only
  split
  · exact .throw _ _
  · rename_i capacity fields _ _
    rw [map_eq_pure_bind, bind_assoc, map_eq_pure_bind, bind_assoc]
    exact (lockstep_signature hs h capacity fields).bind fun sig _ _ hq => lockstep_add hq (hop _) hname
  · exact lockstep_add h (hop none) hname

theorem lockstep_scalar (hs : s.Within s') (h : Agrees m p p') {t : ValueType}
    (hname : m.code? d.name.value = none) : Lockstep m p p' (scalar s t d length) (scalar s' t d length) := by
  have hop : Adds (·.declareScalar d.name.value t length d.name.span) d.name.value :=
    fun _ _ _ => declareScalar_ok
  unfold scalar
  dsimp only
  split
  · exact .throw _ _
  · exact lockstep_add h hop hname
  · rename_i raw _
    refine (lockstep_resolve hs h raw).bind fun e _ _ hq => ?_
    refine (lockstep_declare hq hop hname).bind fun v _ _ hr => ?_
    refine (Lockstep.checked hr (.refl _)).bind fun _ r r' hr => ?_
    have hinitials : r'.initials ++ [⟨v, e⟩] = r.initials ++ [⟨v, e⟩] := by rw [hr.initials]
    exact .modify ⟨hr.scope, hr.mtypes, hinitials⟩

theorem lockstep_recordVariable (h : Agrees m p p') {record : String} (hname : m.code? d.name.value = none) :
    Lockstep m p p' (recordVariable record d length) (recordVariable record d length) := by
  unfold recordVariable
  split
  · exact .throw _ _
  · exact .throw _ _
  · exact lockstep_add h (fun _ _ _ => declareRecordVariable_ok) hname

/-- No constant has the name of what is declared, those of the further items included. -/
theorem code?_of_checkFresh {name : Located String} {u : Unit} (h : s.checkFresh name = .ok u) :
    s.mtypes.code? name.value = none := by
  obtain ⟨_, hmtype, -⟩ := bind_ok h
  exact require_ok hmtype

theorem lockstep_declarator (h : Agrees m p p') (t : Surface.TypeName) (d : Surface.Declarator) :
    Lockstep m p p' (declarator t d) (declarator t d) := by
  intro a b q q' hx hy
  obtain ⟨_, -, hx⟩ := run_checked_bind_ok (run_get_bind_ok hx)
  obtain ⟨_, hfresh, hy⟩ := run_checked_bind_ok (run_get_bind_ok hy)
  have hname : m.code? d.name.value = none := h.mtypes ▸ code?_of_checkFresh hfresh
  obtain ⟨length, hlength, hx⟩ := run_checked_bind_ok hx
  obtain ⟨length', hlength', hy⟩ := run_checked_bind_ok hy
  rw [h.scope.optionalSize, hlength] at hlength'
  cases hlength'
  cases t with
  | record r => exact lockstep_recordVariable h hname a b q q' hx hy
  | scalar t =>
    cases t with
    | chan => exact lockstep_channel h.scope h hname a b q q' hx hy
    | _ => exact lockstep_scalar h.scope h hname a b q q' hx hy

theorem lockstep_define (h : Agrees m p p') (name : Located String) (body : Surface.Expr) :
    Lockstep m p p' (define name body) (define name body) := by
  intro a b q q' hx hy
  obtain ⟨-, e, he, rfl⟩ := define_ok hx
  obtain ⟨-, e', he', rfl⟩ := define_ok hy
  rw [Scope.stays_expr h.scope.keeps body e he] at he'
  cases he'
  have hdefinitions : p'.definitions ++ [⟨name, e⟩] = p.definitions ++ [⟨name, e⟩] := by
    rw [h.scope.definitions]
  exact ⟨rfl, ⟨h.scope.mtypes, h.scope.declared, hdefinitions, h.scope.fresh⟩, h.mtypes, h.initials⟩

theorem lockstep_item (i : Surface.Item) (p p' : Progress) (h : Agrees m p p') :
    Lockstep m p p' (item i) (item i) := by
  cases i with
  | mtypes _ | unread _ => exact .pure h ()
  | record name fields => exact lockstep_record h name fields
  | globals t ds => exact .forM (fun d _ _ hq => lockstep_declarator hq t.value d) h ds
  | define name body => exact lockstep_define h name body

end

end Resolving

/-- Everything that is settled comes first in what is settled later. -/
structure Progress.Begins (p q : Progress) : Prop where
  vars : p.declared.vars <+: q.declared.vars
  globals : p.declared.globals <+: q.declared.globals
  definitions : p.definitions <+: q.definitions
  initials : p.initials <+: q.initials

namespace Progress.Begins

variable {p q r : Progress}

theorem refl (p : Progress) : p.Begins p :=
  ⟨List.prefix_rfl, List.prefix_rfl, List.prefix_rfl, List.prefix_rfl⟩

theorem trans (h : p.Begins q) (h' : q.Begins r) : p.Begins r :=
  ⟨h.vars.trans h'.vars, h.globals.trans h'.globals, h.definitions.trans h'.definitions,
    h.initials.trans h'.initials⟩

theorem of_declares {name : String} (h : Resolving.Declares p name q) : p.Begins q := by
  cases h with
  | plain _ _ => exact ⟨List.prefix_append _ _, List.prefix_append _ _, List.prefix_rfl, List.prefix_rfl⟩
  | initialized _ _ _ =>
    exact ⟨List.prefix_append _ _, List.prefix_append _ _, List.prefix_rfl, List.prefix_append _ _⟩

theorem of_item {i : Surface.Item} (h : (Resolving.item i).run p = .ok () q) : p.Begins q := by
  cases i with
  | mtypes _ | unread _ =>
    cases h
    exact .refl _
  | record name fields =>
    obtain ⟨d, log, hgrows, -, rfl⟩ := Resolving.record_ok h
    obtain ⟨hvars, hglobals, -⟩ := hgrows.prefixes
    exact ⟨hvars, hglobals, List.prefix_rfl, List.prefix_rfl⟩
  | globals t ds =>
    have hdeclarator : ∀ (d : Surface.Declarator) (p q : Progress),
        (Resolving.declarator t.value d).run p = .ok () q → p.Begins q :=
      fun d p q hd => of_declares (Resolving.declarator_ok hd)
    exact Resolving.rel_of_forM refl trans hdeclarator h
  | define name body =>
    obtain ⟨-, e, -, rfl⟩ := Resolving.define_ok h
    exact ⟨List.prefix_rfl, List.prefix_rfl, List.prefix_append _ _, List.prefix_rfl⟩

theorem of_items {items : List Surface.Item} (h : (items.forM Resolving.item).run p = .ok () q) : p.Begins q :=
  Resolving.rel_of_forM refl trans (fun _ _ _ => of_item) h

end Progress.Begins

/-- Variables keep their names in a longer table. -/
theorem Declarations.accessText_eq {d d' : Declarations} {a : Access}
    (h : ∀ s ∈ a.selections, ∃ v, d.get? s.id = some v ∧ d'.get? s.id = some v) :
    d'.accessText a = d.accessText a := by
  have hnames : ∀ s ∈ a.selections, d'.nameOf s.id ++ s.slot.text = d.nameOf s.id ++ s.slot.text := by
    intro s hs
    obtain ⟨v, hv, hv'⟩ := h s hs
    simp only [nameOf, hv, hv']
  simp only [accessText, List.map_congr_left hnames]

/-- What an expression of a model reads can be looked up in the table of the model. -/
theorem Model.Scoped.get?_of_mem_reads {m : Model} {e : Expr} (he : m.Scoped e) {a : Access}
    (ha : a ∈ e.reads.toList) {s : Selection} (hs : s ∈ a.selections) :
    ∃ v, m.declared.get? s.id = some v := by
  have hread : a ∈ e.readList := AccessSet.mem_ofList.mp ha
  obtain ⟨p, hp, rfl⟩ := List.mem_map.mp (e.readList_sublist.subset hread)
  have hid : s.id ∈ p.vars.map Variable.id :=
    p.map_id_selections ▸ List.mem_map_of_mem hs
  obtain ⟨v, hv, hvs⟩ := List.mem_map.mp hid
  exact ⟨v, hvs ▸ he.vars p hp v hv⟩

/-- The second model has all that the first one has, in the same order, under the same codes and ids, and
reports the same of it: types, code and what is read. -/
structure Model.Begins (m m' : Model) : Prop where
  mtypes : m.mtypes.Begins m'.mtypes
  code? : ∀ name code, m.mtypes.code? name = some code → m'.mtypes.code? name = some code
  get? : ∀ id v, m.declared.get? id = some v → m'.declared.get? id = some v
  globals : m.declared.globals <+: m'.declared.globals
  definitions : m.definitions <+: m'.definitions
  initials : m.initials <+: m'.initials
  entries : ∀ e, (∃ d ∈ m.definitions, e = d.body) ∨ (∃ i ∈ m.initials, e = i.value) →
    ∀ kind name, Analysis.entry m'.declared kind name e = Analysis.entry m.declared kind name e

/-- Items appended to the items of a model change nothing in what the model has. -/
theorem Model.begins_of_append {base : Nat} {path : String} {items more : List Surface.Item} {m m' : Model}
    (h : (Reading.ofItems base path items).outcome = .ok m)
    (h' : (Reading.ofItems base path (items ++ more)).outcome = .ok m') : m.Begins m' := by
  obtain ⟨hnames, p, hrun, hdeclared, hdefinitions, hinitials⟩ := Reading.ofItems_ok h
  obtain ⟨hnames', q, hrun', hdeclared', hdefinitions', hinitials'⟩ := Reading.ofItems_ok h'
  have hmtypes : m.mtypes.Begins m'.mtypes := by
    rw [List.flatMap_append, Mtypes.declareAll, List.foldlM_append] at hnames'
    obtain ⟨m₁, hm₁, hmore⟩ := bind_ok hnames'
    cases hnames.symm.trans hm₁
    exact Mtypes.declareAll_begins hmore
  rw [List.forM_eq_forM, List.forM_append] at hrun'
  obtain ⟨_, r, hr, hmore⟩ := Resolving.run_bind_ok hrun'
  have hstart : Resolving.Agrees m'.mtypes (.start m.mtypes base) (.start m'.mtypes base) :=
    ⟨⟨hmtypes, rfl, rfl, by simp [Progress.start, EmptyCollection.emptyCollection, Declarations.empty]⟩,
      rfl, rfl⟩
  obtain ⟨-, hagrees⟩ := Resolving.Lockstep.forM Resolving.lockstep_item hstart items _ _ p r hrun hr
  have hbegins : r.Begins q := .of_items hmore
  have hvars : m.declared.vars <+: m'.declared.vars := by
    rw [hdeclared, hdeclared', ← hagrees.scope.declared]
    exact hbegins.vars
  have hget? : ∀ id v, m.declared.get? id = some v → m'.declared.get? id = some v :=
    fun _ _ hv => Declarations.get?_of_prefix hvars hv
  refine ⟨hmtypes, fun _ _ hcode => hmtypes.code? hcode, hget?, ?_, ?_, ?_, ?_⟩
  · rw [hdeclared, hdeclared', ← hagrees.scope.declared]
    exact hbegins.globals
  · rw [hdefinitions, hdefinitions', ← hagrees.scope.definitions]
    exact hbegins.definitions
  · rw [hinitials, hinitials', ← hagrees.initials]
    exact hbegins.initials
  · intro e he kind name
    obtain ⟨hextends, hsound⟩ := Progress.follows_of_items hrun
    have hp : p.Sound := hsound (Progress.start_sound m.mtypes base)
    have hcovers : p.Covers e.places e.mtypeCodes := by
      obtain ⟨d, hd, rfl⟩ | ⟨i, hi, rfl⟩ := he
      · exact hp.definitions d (hdefinitions ▸ hd)
      · exact (hp.initials i (hinitials ▸ hi)).2.1
    have hscoped : m.Scoped e := scoped_of_covers hp hdeclared hextends.mtypes.symm hcovers
    have hreads : e.reads.toList.map m'.declared.accessText = e.reads.toList.map m.declared.accessText := by
      refine List.map_congr_left fun a ha => Declarations.accessText_eq fun s hs => ?_
      obtain ⟨v, hv⟩ := hscoped.get?_of_mem_reads ha hs
      exact ⟨v, hv, hget? _ v hv⟩
    simp only [Analysis.entry, hreads]

/-- Items that declare a constant, and a macro and an initial value that mention it. -/
def constantItems (constant var definition : String) : List Surface.Item :=
  let s : Span := .point "m" .first
  let use (name : String) : Surface.Expr := .reference s (.leaf ⟨name, s⟩ none)
  [.mtypes [⟨constant, s⟩],
    .globals ⟨.scalar .mtype, s⟩ [⟨⟨var, s⟩, none, some (.value (use constant))⟩],
    .define ⟨definition, s⟩ (.binary s .eq (use var) (use constant))]

theorem Model.begins_of_append_constant :
    ∃ m m', (Reading.ofItems 1 "m" (constantItems "R" "x" "M")).outcome = .ok m ∧
      (Reading.ofItems 1 "m" (constantItems "R" "x" "M" ++ constantItems "B" "y" "N")).outcome = .ok m' ∧
      m.definitions.length = 1 ∧ m'.definitions.length = 2 ∧ m.Begins m' := by
  obtain ⟨m, hm, hsize⟩ : ∃ m, (Reading.ofItems 1 "m" (constantItems "R" "x" "M")).outcome = .ok m ∧
      m.definitions.length = 1 := ⟨_, rfl, rfl⟩
  obtain ⟨m', hm', hsize'⟩ :
      ∃ m', (Reading.ofItems 1 "m" (constantItems "R" "x" "M" ++ constantItems "B" "y" "N")).outcome = .ok m' ∧
        m'.definitions.length = 2 := ⟨_, rfl, rfl⟩
  exact ⟨m, m', hm, hm', hsize, hsize', begins_of_append hm hm'⟩

end Promela
