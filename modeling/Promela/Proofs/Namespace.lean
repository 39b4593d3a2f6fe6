import Promela.Analysis
import Promela.Proofs.Mtypes
import Promela.Proofs.Referents
import Promela.Proofs.Scoping

/-! Constants, global variables and macros share one namespace. A text that is accepted introduces each name
once, so that it does not matter in which order the classes of names are tried; a text that introduces a
name twice is rejected. -/
namespace Promela

namespace Surface

def Declarator.isInitialized (d : Declarator) : Bool :=
  match d.init with
  | some (.value _) => true
  | _ => false

namespace Item

/-- The names of the variables that an item declares with an initial value. -/
def initializedNames : Item → List String
  | globals _ ds => (ds.filter (·.isInitialized)).map (·.name.value)
  | _ => []

def macroNames : Item → List String
  | define name _ => [name.value]
  | _ => []

end Item

def constantNames (items : List Item) : List String := (items.flatMap (·.mtypeNames)).map (·.value)

/-- All names that the items introduce, class by class. -/
def introduced (items : List Item) : List String :=
  constantNames items ++ items.flatMap (·.variableNames) ++ items.flatMap (·.macroNames)

/-- The first items stand before some place among the others: between two items, or between two variables
of one declaration. -/
inductive Leads : List Item → List Item → Prop
  | items (before behind : List Item) : Leads before (before ++ behind)
  | declarators (before : List Item) (t : Located TypeName) (ds ds' : List Declarator) (behind : List Item) :
      Leads (before ++ [.globals t ds]) (before ++ .globals t (ds ++ ds') :: behind)

end Surface

/-- At most one element of a list without repetitions passes, and so the first one of any order does. -/
theorem findSome?_eq_of_perm {α β : Type} {f : α → Option β}
    (h : ∀ a b, (f a).isSome → (f b).isSome → a = b) {l l' : List α} (hperm : l.Perm l') :
    l.findSome? f = l'.findSome? f := by
  induction hperm with
  | nil => rfl
  | cons a _ ih => simp only [List.findSome?_cons, ih]
  | swap a b l =>
    by_cases hab : a = b
    · rw [hab]
    · cases ha : f a with
      | none => simp only [List.findSome?_cons, ha]
      | some x =>
        cases hb : f b with
        | none => simp only [List.findSome?_cons, ha, hb]
        | some y => exact absurd (h a b (by simp [ha]) (by simp [hb])) hab
  | trans _ _ ih ih' => exact ih.trans ih'

namespace Scope

variable {s : Scope}

/-- The names that stand for something. -/
def names (s : Scope) : List String :=
  s.mtypes.names ++ s.declared.globals.map Variable.name ++ s.definitions.map (·.name.value)

theorem isSome_code? {m : Mtypes} {name : String} : (m.code? name).isSome ↔ name ∈ m.names := by
  simp [Mtypes.code?, List.isSome_idxOf?]

theorem isSome_lookup? {d : Declarations} {name : String} :
    (d.lookup? name).isSome ↔ name ∈ d.globals.map Variable.name := by
  simp [Declarations.lookup?]

theorem isSome_definition? {name : String} :
    (s.definition? name).isSome ↔ name ∈ s.definitions.map (·.name.value) := by
  simp [definition?]

theorem knows_iff {name : String} : s.Knows name ↔ name ∈ s.names := by
  simp only [Knows, isSome_code?, isSome_lookup?, isSome_definition?, names, List.mem_append]
  exact or_comm

/-- A name that is introduced once stands for one thing. -/
theorem referentIn?_unique (hs : s.names.Nodup) {name : String} {a b : NameClass}
    (ha : (s.referentIn? name a).isSome) (hb : (s.referentIn? name b).isSome) : a = b := by
  obtain ⟨hboth, -, hdefinitions⟩ := List.nodup_append.mp hs
  obtain ⟨-, -, hglobals⟩ := List.nodup_append.mp hboth
  have hconstant : name ∈ s.mtypes.names → name ∈ s.declared.globals.map Variable.name → False :=
    fun h h' => hglobals _ h _ h' rfl
  have hdefinition : name ∈ s.mtypes.names ++ s.declared.globals.map Variable.name →
      name ∈ s.definitions.map (·.name.value) → False :=
    fun h h' => hdefinitions _ h _ h' rfl
  cases a <;> cases b <;>
    simp only [referentIn?, Option.isSome_map, isSome_code?, isSome_lookup?, isSome_definition?] at ha hb <;>
    first
    | rfl
    | exact (hconstant ha hb).elim
    | exact (hconstant hb ha).elim
    | exact (hdefinition (List.mem_append_left _ ha) hb).elim
    | exact (hdefinition (List.mem_append_left _ hb) ha).elim
    | exact (hdefinition (List.mem_append_right _ ha) hb).elim
    | exact (hdefinition (List.mem_append_right _ hb) ha).elim

theorem expr_reference_of_perm (hs : s.names.Nodup) {order : List NameClass} (horder : order.Perm nameOrder)
    (span : Span) (r : Surface.Reference) :
    s.expr (.reference span r) = s.referenceTo span r (s.referent? order r.name.value) := by
  have hreferent : s.referent? order r.name.value = s.referent? nameOrder r.name.value :=
    findSome?_eq_of_perm (fun _ _ => referentIn?_unique hs) horder
  rw [expr_reference, hreferent]

end Scope

theorem flatMap_ite_singleton {α β : Type} (p : α → Bool) (f : α → β) (xs : List α) :
    xs.flatMap (fun x => if p x then [f x] else []) = (xs.filter p).map f := by
  induction xs with
  | nil => rfl
  | cons x xs ih => cases hx : p x <;> simp [hx, ih]

/-- The constants are those declared, in order, and none is declared twice. -/
theorem Mtypes.declareAll_ok {names : List (Located String)} {m m' : Mtypes} (hm : m.names.Nodup)
    (h : m.declareAll names = .ok m') : m'.names = m.names ++ names.map (·.value) ∧ m'.names.Nodup := by
  induction names generalizing m with
  | nil =>
    cases h
    exact ⟨(List.append_nil _).symm, hm⟩
  | cons n names ih =>
    obtain ⟨m₁, hm₁, hrest⟩ := bind_ok h
    dsimp only at hm₁
    cases hdeclare : m.declare n.value n.span with
    | error f =>
      rw [hdeclare] at hm₁
      cases hm₁
    | ok p =>
      rw [hdeclare] at hm₁
      cases hm₁
      obtain ⟨⟨hfresh, -⟩, -, hwith⟩ := declare_ok hdeclare
      have hnames : p.2.names = m.names ++ [n.value] := by rw [hwith, withName]
      obtain ⟨hall, hnodup⟩ := ih (hnames ▸ nodup_append_singleton hm hfresh) hrest
      exact ⟨by simp [hall, hnames], hnodup⟩

namespace Progress

variable {p q r : Progress}

/-- No name is introduced twice. -/
structure Distinct (p : Progress) : Prop where
  names : p.names.Nodup
  initials : (p.initials.map (·.var.name)).Nodup
  initials_subset : p.initials.map (·.var.name) ⊆ p.declared.globals.map Variable.name

/-- The second state has these variables, macros and initial values more, and every name once if the first
one has. -/
structure Introduces (p q : Progress) (vs ds is : List String) : Prop where
  mtypes : q.mtypes = p.mtypes
  globals : q.declared.globals.map Variable.name = p.declared.globals.map Variable.name ++ vs
  definitions : q.definitions.map (·.name.value) = p.definitions.map (·.name.value) ++ ds
  initials : q.initials.map (·.var.name) = p.initials.map (·.var.name) ++ is
  distinct : p.Distinct → q.Distinct

theorem Introduces.refl (p : Progress) : p.Introduces p [] [] [] :=
  ⟨rfl, (List.append_nil _).symm, (List.append_nil _).symm, (List.append_nil _).symm, id⟩

theorem Introduces.trans {vs vs' ds ds' is is' : List String} (h : p.Introduces q vs ds is)
    (h' : q.Introduces r vs' ds' is') : p.Introduces r (vs ++ vs') (ds ++ ds') (is ++ is') where
  mtypes := h'.mtypes.trans h.mtypes
  globals := by rw [h'.globals, h.globals, List.append_assoc]
  definitions := by rw [h'.definitions, h.definitions, List.append_assoc]
  initials := by rw [h'.initials, h.initials, List.append_assoc]
  distinct := h'.distinct ∘ h.distinct

/-- A run introduces what its steps introduce. -/
theorem introduces_of_forM {α : Type} {f : α → Resolving Unit} {vs ds is : α → List String}
    (hf : ∀ x p q, (f x).run p = .ok () q → p.Introduces q (vs x) (ds x) (is x)) {xs : List α}
    (h : (xs.forM f).run p = .ok () q) : p.Introduces q (xs.flatMap vs) (xs.flatMap ds) (xs.flatMap is) := by
  induction xs generalizing p with
  | nil =>
    cases h
    exact .refl _
  | cons x xs ih =>
    obtain ⟨_, r, hr, hrest⟩ := Resolving.run_bind_ok h
    exact (hf x p r hr).trans (ih hrest)

end Progress

namespace Resolving

open Declarations

variable {p q : Progress}

/-- A declarator that is not initialized declares a variable and nothing else. -/
theorem initials_of_declare {op : Declarations → Checked (Variable × Declarations)} {name : String}
    (hop : Adds op name) (h : (do let _ ← declare op; pure () : Resolving Unit).run p = .ok () q) :
    q.initials = p.initials := by
  obtain ⟨v, log, -, -, hf⟩ := run_declare_bind_ok hop h
  cases hf
  rfl

/-- What a declarator adds to the initial values: what is written behind its name, if that is a value. -/
inductive Initializes (p : Progress) (d : Surface.Declarator) : List InitialValue → Prop
  | none : d.isInitialized = false → Initializes p d []
  | value {v : Variable} {raw : Surface.Expr} {e : Expr} : d.init = some (.value raw) → v.name = d.name.value →
      p.expr raw = .ok e → Initializes p d [⟨v, e⟩]

/-- Initial values are those of the declarators that are initialized. -/
theorem initials_of_declarator {t : Surface.TypeName} {d : Surface.Declarator}
    (h : (declarator t d).run p = .ok () q) : ∃ new, q.initials = p.initials ++ new ∧ Initializes p d new := by
  obtain ⟨_, -, h⟩ := run_checked_bind_ok (run_get_bind_ok h)
  obtain ⟨length, -, h⟩ := run_checked_bind_ok h
  have hnone : ∀ op : Declarations → Checked (Variable × Declarations), Adds op d.name.value →
      d.isInitialized = false → (do let _ ← declare op; pure () : Resolving Unit).run p = .ok () q →
      ∃ new, q.initials = p.initials ++ new ∧ Initializes p d new := fun op hop hinit hrun =>
    ⟨[], by rw [initials_of_declare hop hrun, List.append_nil], .none hinit⟩
  split at h
  · unfold channel at h
    dsimp only at h
    split at h
    next => cases h
    next capacity fields span hinit =>
      rw [map_eq_pure_bind, bind_assoc] at h
      obtain ⟨sig, hsig⟩ := (keeps_signature p.toScope capacity fields).run_bind_ok h
      exact hnone _ (fun _ _ _ => declareChannel_ok) (by simp [Surface.Declarator.isInitialized, hinit]) hsig
    next hinit => exact hnone _ (fun _ _ _ => declareChannel_ok) (by simp [Surface.Declarator.isInitialized, hinit]) h
  · unfold scalar at h
    dsimp only at h
    split at h
    next => cases h
    next hinit => exact hnone _ (fun _ _ _ => declareScalar_ok) (by simp [Surface.Declarator.isInitialized, hinit]) h
    next raw hinit =>
      obtain ⟨e, he, hadd⟩ := run_resolve_bind_ok h
      obtain ⟨v, log, -, hname, hcheck⟩ := run_declare_bind_ok (fun _ _ _ => declareScalar_ok) hadd
      obtain ⟨_, -, hmodify⟩ := run_checked_bind_ok hcheck
      cases hmodify
      exact ⟨[⟨v, e⟩], rfl, .value hinit hname he⟩
  · unfold recordVariable at h
    split at h
    next => cases h
    next => cases h
    next hinit =>
      exact hnone _ (fun _ _ _ => declareRecordVariable_ok) (by simp [Surface.Declarator.isInitialized, hinit]) h

/-- One variable more, with a new name, and possibly its initial value. -/
theorem introduces_of_declarator {t : Surface.TypeName} {d : Surface.Declarator}
    (h : (declarator t d).run p = .ok () q) :
    p.Introduces q [d.name.value] [] (if d.isInitialized then [d.name.value] else []) := by
  have hfresh : d.name.value ∉ p.names := fun hmem => not_knows_of_declarator h (Scope.knows_iff.mpr hmem)
  have hinitials : q.initials.map (·.var.name)
      = p.initials.map (·.var.name) ++ if d.isInitialized then [d.name.value] else [] := by
    obtain ⟨new, hnew, hvalue⟩ := initials_of_declarator h
    rw [hnew, List.map_append]
    cases hvalue with
    | none hinit => simp [hinit]
    | value hinit hname _ => simp [Surface.Declarator.isInitialized, hinit, hname]
  obtain ⟨v, hname, hmtypes, hglobals, hdefinitions⟩ : ∃ v : Variable, v.name = d.name.value ∧
      q.mtypes = p.mtypes ∧ q.declared.globals = p.declared.globals ++ [v] ∧ q.definitions = p.definitions := by
    cases declarator_ok h with
    | @plain v _ _ hname => exact ⟨v, hname, rfl, rfl, rfl⟩
    | @initialized v _ _ _ _ hname _ => exact ⟨v, hname, rfl, rfl, rfl⟩
  have hvariables : q.declared.globals.map Variable.name = p.declared.globals.map Variable.name ++ [d.name.value] := by
    rw [hglobals, List.map_append, List.map_singleton, hname]
  refine ⟨hmtypes, hvariables, by simp [hdefinitions], hinitials, fun hp => ?_⟩
  have hundeclared : d.name.value ∉ p.declared.globals.map Variable.name :=
    fun hmem => hfresh (List.mem_append_left _ (List.mem_append_right _ hmem))
  have hperm : q.names.Perm (p.names ++ [d.name.value]) := by
    simp only [Scope.names, hmtypes, hvariables, hdefinitions, ← List.append_assoc]
    rw [List.append_assoc _ [d.name.value], List.append_assoc _ _ [d.name.value]]
    exact List.perm_append_comm.append_left _
  refine ⟨hperm.nodup_iff.mpr (nodup_append_singleton hp.names hfresh), ?_, ?_⟩
  · rw [hinitials]
    split
    · exact nodup_append_singleton hp.initials fun hmem => hundeclared (hp.initials_subset hmem)
    · simpa using hp.initials
  · rw [hinitials, hvariables]
    split
    · exact List.append_subset.mpr ⟨fun _ hx => List.mem_append_left _ (hp.initials_subset hx),
        List.subset_append_right _ _⟩
    · rw [List.append_nil]
      exact fun _ hx => List.mem_append_left _ (hp.initials_subset hx)

/-- One macro more, with a new name. -/
theorem introduces_of_define {name : Located String} {body : Surface.Expr}
    (h : (define name body).run p = .ok () q) : p.Introduces q [] [name.value] [] := by
  obtain ⟨hfresh, e, -, rfl⟩ := define_ok h
  refine ⟨rfl, (List.append_nil _).symm, List.map_append, (List.append_nil _).symm, fun hp => ?_⟩
  have hnames : Scope.names { p.toScope with definitions := p.definitions ++ [⟨name, e⟩] }
      = p.names ++ [name.value] := by
    simp [Scope.names]
  refine ⟨?_, hp.initials, hp.initials_subset⟩
  rw [hnames]
  exact nodup_append_singleton hp.names fun hmem => hfresh (Scope.knows_iff.mpr hmem)

theorem introduces_of_item {i : Surface.Item} (h : (item i).run p = .ok () q) :
    p.Introduces q i.variableNames i.macroNames i.initializedNames := by
  cases i with
  | mtypes _ | unread _ =>
    cases h
    exact .refl _
  | record name fields =>
    obtain ⟨d, log, -, hglobals, rfl⟩ := record_ok h
    refine ⟨rfl, by simp [hglobals, Surface.Item.variableNames], (List.append_nil _).symm,
      (List.append_nil _).symm, fun hp => ?_⟩
    exact ⟨by simpa [Scope.names, hglobals] using hp.names, hp.initials,
      by simpa [hglobals] using hp.initials_subset⟩
  | globals t ds =>
    have hrun := Progress.introduces_of_forM (fun _ _ _ => introduces_of_declarator) h
    have hnone : ds.flatMap (fun _ => ([] : List String)) = [] := by simp
    rw [flatMap_ite_singleton, ← List.map_eq_flatMap, hnone] at hrun
    exact hrun
  | define name body => exact introduces_of_define h

theorem introduces_of_items {items : List Surface.Item} (h : (items.forM item).run p = .ok () q) :
    p.Introduces q (items.flatMap (·.variableNames)) (items.flatMap (·.macroNames))
      (items.flatMap (·.initializedNames)) :=
  Progress.introduces_of_forM (fun _ _ _ => introduces_of_item) h

/-- A run that succeeds passes every place among the items. -/
theorem exists_run_of_leads {before items : List Surface.Item} (h : Surface.Leads before items)
    (hrun : (items.forM item).run p = .ok () q) : ∃ r, (before.forM item).run p = .ok () r := by
  cases h with
  | items before behind =>
    rw [List.forM_eq_forM, List.forM_append] at hrun
    obtain ⟨_, r, hr, -⟩ := run_bind_ok hrun
    exact ⟨r, hr⟩
  | declarators before t ds ds' behind =>
    rw [List.forM_eq_forM, List.forM_append] at hrun
    obtain ⟨_, r, hr, hrest⟩ := run_bind_ok hrun
    obtain ⟨_, r', hitem, -⟩ := run_bind_ok hrest
    have hitem : ((ds ++ ds').forM (declarator t.value)).run r = .ok () r' := hitem
    rw [List.forM_eq_forM, List.forM_append] at hitem
    obtain ⟨_, r'', hr'', -⟩ := run_bind_ok hitem
    refine ⟨r'', ?_⟩
    rw [List.forM_eq_forM, List.forM_append]
    refine (run_bind_of_ok hr).trans ?_
    rw [List.forM_cons]
    exact run_bind_of_ok hr''

end Resolving

open Surface

/-- Every name of the model is introduced by one declaration, and each macro and each initialized variable
has one entry in the report. -/
structure Model.OneNamespace (m : Model) (items : List Item) : Prop where
  constants : m.mtypes.names = constantNames items
  globals : m.declared.globals.map Variable.name = items.flatMap (·.variableNames)
  definitions : m.definitions.map (·.name.value) = items.flatMap (·.macroNames)
  nodup : (m.mtypes.names ++ m.declared.globals.map Variable.name ++ m.definitions.map (·.name.value)).Nodup
  initials : m.initials.map (·.var.name) = items.flatMap (·.initializedNames)
  initials_nodup : (m.initials.map (·.var.id)).Nodup
  entries : (Analysis.ofModel m).entries.map (fun e => (e.kind, e.name))
    = (items.flatMap (·.macroNames)).map (EntryKind.define, ·)
      ++ (items.flatMap (·.initializedNames)).map (EntryKind.initializer, ·)
  entries_nodup : ((Analysis.ofModel m).entries.map (·.name)).Nodup

theorem Model.map_entries {β : Type} (m : Model) (f : EntryKind → String → β) :
    (Analysis.ofModel m).entries.map (fun e => f e.kind e.name)
      = (m.definitions.map (·.name.value)).map (f .define) ++ (m.initials.map (·.var.name)).map (f .initializer) := by
  simp only [Analysis.ofModel, Analysis.entry, List.map_append, List.map_map]
  rfl

/-- What is known before the first item has every constant once. -/
theorem Progress.start_distinct {m : Mtypes} (hm : m.names.Nodup) (base : Nat) : (start m base).Distinct :=
  ⟨by simpa [Scope.names, start, EmptyCollection.emptyCollection, Declarations.empty] using hm,
    List.nodup_nil, List.nil_subset _⟩

theorem Model.oneNamespace {base : Nat} {path : String} {items : List Item} {m : Model}
    (h : (Reading.ofItems base path items).outcome = .ok m) : m.OneNamespace items := by
  obtain ⟨hmtypes, p, hrun, hdeclared, hdefinitions, hinitials⟩ := Reading.ofItems_ok h
  obtain ⟨hnames, hnodup⟩ := Mtypes.declareAll_ok List.nodup_nil hmtypes
  have hintroduces := Resolving.introduces_of_items hrun
  have hdistinct := hintroduces.distinct (Progress.start_distinct hnodup base)
  have hsound := (Progress.follows_of_items hrun).2 (Progress.start_sound m.mtypes base)
  have hvariables : m.declared.globals.map Variable.name = items.flatMap (·.variableNames) := by
    rw [hdeclared, hintroduces.globals]
    rfl
  have hmacros : m.definitions.map (·.name.value) = items.flatMap (·.macroNames) := by
    rw [hdefinitions, hintroduces.definitions]
    rfl
  have hinitialized : m.initials.map (·.var.name) = items.flatMap (·.initializedNames) := by
    rw [hinitials, hintroduces.initials]
    rfl
  have hall : (m.mtypes.names ++ m.declared.globals.map Variable.name
      ++ m.definitions.map (·.name.value)).Nodup := by
    have hall := hdistinct.names
    rw [Scope.names, hintroduces.mtypes] at hall
    rw [hdeclared, hdefinitions]
    exact hall
  refine ⟨hnames, hvariables, hmacros, hall, hinitialized, ?_, ?_, ?_⟩
  · rw [hinitials]
    -- variables with one id are one variable
    have hvars : p.initials.Pairwise fun i j => i.var.name ≠ j.var.name := List.pairwise_map.mp hdistinct.initials
    refine List.pairwise_map.mpr (hvars.imp_of_mem fun {i j} hi hj hne heq => hne ?_)
    have hmem : ∀ k ∈ p.initials, k.var ∈ p.declared.vars :=
      fun k hk => hsound.coherent.globals_mem _ (hsound.initials k hk).1
    rw [hsound.coherent.eq_of_id_eq (hmem i hi) (hmem j hj) heq]
  · rw [m.map_entries Prod.mk, hmacros, hinitialized]
  · rw [m.map_entries fun _ name => name]
    simp only [List.map_id']
    obtain ⟨-, hdefs, hapart⟩ := List.nodup_append.mp hall
    refine List.nodup_append.mpr ⟨hdefs, hinitials ▸ hdistinct.initials, fun a ha b hb => ?_⟩
    rw [hinitials] at hb
    have hglobal : b ∈ m.declared.globals.map Variable.name := hdeclared ▸ hdistinct.initials_subset hb
    exact (hapart b (List.mem_append_right _ hglobal) a ha).symm

/-- Constants, global variables and macros share one namespace. Where a text is accepted, each name is
introduced by one of its declarations, and at every place in it the classes of names may be tried in any
order. Where two declarations introduce one name, the text is rejected. -/
theorem Model.one_namespace {base : Nat} {path source : String} {items : List Item}
    (hitems : (tokens source path).bind Surface.items = .ok items) :
    (∀ m, ofSource base path source = .ok m → m.OneNamespace items ∧
      ∀ before, Leads before items →
        ∃ p, (before.forM Resolving.item).run (.start m.mtypes base) = .ok () p ∧
          ∀ order : List NameClass, order.Perm [.definition, .constant, .global] → ∀ span r,
            p.expr (.reference span r) = p.referenceTo span r (p.referent? order r.name.value)) ∧
    (¬(introduced items).Nodup → ∃ r, ofSource base path source = .error r) := by
  have hsource : ofSource base path source = (Reading.ofItems base path items).outcome := by
    rw [ofSource, Reading.ofSource, hitems]
  refine ⟨fun m hm => ?_, fun hrepeated => ?_⟩
  · rw [hsource] at hm
    refine ⟨oneNamespace hm, fun before hbefore => ?_⟩
    obtain ⟨hmtypes, q, hrun, -⟩ := Reading.ofItems_ok hm
    obtain ⟨-, hnodup⟩ := Mtypes.declareAll_ok List.nodup_nil hmtypes
    obtain ⟨p, hp⟩ := Resolving.exists_run_of_leads hbefore hrun
    have hdistinct := (Resolving.introduces_of_items hp).distinct (Progress.start_distinct hnodup base)
    exact ⟨p, hp, fun order horder span r => Scope.expr_reference_of_perm hdistinct.names horder span r⟩
  · cases hm : ofSource base path source with
    | error r => exact ⟨r, rfl⟩
    | ok m =>
      rw [hsource] at hm
      have hone := oneNamespace hm
      have hnodup := hone.nodup
      rw [hone.constants, hone.globals, hone.definitions] at hnodup
      exact absurd hnodup hrepeated

theorem items_of_tokens {source path : String} (ts : List Token) {items : List Item}
    (htokens : (tokens source path).toOption = some ts) (hitems : Surface.items ts = .ok items) :
    (tokens source path).bind Surface.items = .ok items := by
  cases htext : tokens source path with
  | error r =>
    rw [htext] at htokens
    cases htokens
  | ok us =>
    rw [htext] at htokens
    cases htokens
    exact hitems

/-- A constant that is declared after its use, and a macro that takes the name of a variable. -/
theorem Model.one_namespace_of_late_mtype :
    (∃ m, ofSource 1 "m" "mtype c=r;mtype=\x7br\x7d" = .ok m ∧ m.mtypes.names = ["r"] ∧
      (Analysis.ofModel m).entries.map (fun e => (e.kind, e.name)) = [(.initializer, "c")]) ∧
    ∃ r, ofSource 1 "m" "byte x\n#define x 1" = .error r := by
  let span (line first last : Nat) : Span := ⟨"m", ⟨line, first⟩, ⟨line, last⟩⟩
  let late : List Item :=
    [.globals ⟨.scalar .mtype, span 1 1 5⟩
      [⟨⟨"c", span 1 7 7⟩, none, some (.value (.reference (span 1 9 9) (.leaf ⟨"r", span 1 9 9⟩ none)))⟩],
      .mtypes [⟨"r", span 1 18 18⟩]]
  have hlate : (tokens "mtype c=r;mtype=\x7br\x7d" "m").bind Surface.items = .ok late :=
    items_of_tokens
      [⟨.mtype, span 1 1 5⟩, ⟨.ident "c", span 1 7 7⟩, ⟨.assign, span 1 8 8⟩, ⟨.ident "r", span 1 9 9⟩,
        ⟨.semicolon, span 1 10 10⟩, ⟨.mtype, span 1 11 15⟩, ⟨.assign, span 1 16 16⟩, ⟨.openBrace, span 1 17 17⟩,
        ⟨.ident "r", span 1 18 18⟩, ⟨.closeBrace, span 1 19 19⟩, ⟨.eof, span 1 20 20⟩]
      (by decide +kernel) (by cbv)
  have htwice : (tokens "byte x\n#define x 1" "m").bind Surface.items = .ok
      [.globals ⟨.scalar .byte, span 1 1 4⟩ [⟨⟨"x", span 1 6 6⟩, none, none⟩],
        .define ⟨"x", span 2 9 9⟩ (.number (span 2 11 11) 1)] :=
    items_of_tokens
      [⟨.typeName .byte, span 1 1 4⟩, ⟨.ident "x", span 1 6 6⟩, ⟨.define, span 2 1 7⟩,
        ⟨.ident "x", span 2 9 9⟩, ⟨.number 1, span 2 11 11⟩, ⟨.eof, span 2 12 12⟩]
      (by decide +kernel) (by cbv)
  refine ⟨?_, (one_namespace htwice).2 (by decide)⟩
  obtain ⟨m, hm⟩ : ∃ m, (Reading.ofItems 1 "m" late).outcome = .ok m := ⟨_, rfl⟩
  have h : ofSource 1 "m" "mtype c=r;mtype=\x7br\x7d" = .ok m := by
    rw [ofSource, Reading.ofSource, hlate]
    exact hm
  obtain ⟨hone, -⟩ := (one_namespace hlate).1 m h
  exact ⟨m, h, hone.constants, hone.entries⟩

end Promela
