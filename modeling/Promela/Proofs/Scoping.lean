import Promela.Proofs.Mentions

/-! What a model that was read mentions: variables, fields and constants of its own tables, each of them
declared before it is mentioned. -/
namespace Promela

namespace Surface

/-- The names of the global variables that an item declares. -/
def Item.variableNames : Item → List String
  | .globals _ ds => ds.map (·.name.value)
  | _ => []

end Surface

namespace Resolving

variable {p q : Progress}

/-- What a run adds comes from one of its steps, which starts where the run over the steps before it
ends. -/
theorem origin_of_forM {α γ : Type} {f : α → Resolving Unit} (known : Progress → List γ)
    (From : Progress → α → γ → Prop)
    (hf : ∀ a p q, (f a).run p = .ok () q → ∀ c ∈ known q, c ∈ known p ∨ From p a c) {xs : List α}
    (h : (xs.forM f).run p = .ok () q) : ∀ c ∈ known q, c ∈ known p ∨
      ∃ pre a post r, xs = pre ++ a :: post ∧ (pre.forM f).run p = .ok () r ∧ From r a c := by
  induction xs generalizing p with
  | nil =>
    cases h
    exact fun c hc => .inl hc
  | cons x xs ih =>
    obtain ⟨u, r, hr, hrest⟩ := run_bind_ok h
    intro c hc
    rcases ih hrest c hc with hc | ⟨pre, a, post, r', rfl, hpre, hfrom⟩
    · rcases hf x p r hr c hc with hc | hfrom
      · exact .inl hc
      · exact .inr ⟨[], x, xs, p, rfl, rfl, hfrom⟩
    · refine .inr ⟨x :: pre, a, post, r', rfl, ?_, hfrom⟩
      exact (run_bind_of_ok hr).trans hpre

/-- The variables that a declarator adds have its name. -/
theorem declarator_globals {t : Surface.TypeName} {d : Surface.Declarator}
    (h : (declarator t d).run p = .ok () q) :
    (∀ v ∈ q.declared.globals, v ∈ p.declared.globals ∨ v.name = d.name.value) ∧
      q.definitions = p.definitions := by
  have hglobals : ∀ {v : Variable}, v.name = d.name.value →
      ∀ w ∈ (p.declared.withGlobal v).globals, w ∈ p.declared.globals ∨ w.name = d.name.value := by
    intro v hv w hw
    rcases List.mem_append.mp hw with hw | hw
    · exact .inl hw
    · cases List.mem_singleton.mp hw
      exact .inr hv
  cases declarator_ok h with
  | plain _ hname => exact ⟨hglobals hname, rfl⟩
  | initialized _ hname _ => exact ⟨hglobals hname, rfl⟩

theorem globals_of_item {i : Surface.Item} (h : (item i).run p = .ok () q) :
    ∀ v ∈ q.declared.globals, v ∈ p.declared.globals ∨ v.name ∈ i.variableNames := by
  cases i with
  | mtypes _ | unread _ =>
    cases h
    exact fun v hv => .inl hv
  | record name fields =>
    obtain ⟨d, log, -, hglobals, rfl⟩ := record_ok h
    exact fun v hv => .inl (hglobals ▸ hv)
  | globals t ds =>
    intro v hv
    have horigin := origin_of_forM (·.declared.globals) (fun _ d v => v.name = d.name.value)
      (fun d _ _ hd => (declarator_globals hd).1) h v hv
    obtain hv | ⟨pre, d, post, -, rfl, -, hname⟩ := horigin
    · exact .inl hv
    · exact .inr (List.mem_map.mpr ⟨d, by simp, hname.symm⟩)
  | define name body =>
    obtain ⟨-, e, -, rfl⟩ := define_ok h
    exact fun v hv => .inl hv

theorem definitions_of_item {i : Surface.Item} (h : (item i).run p = .ok () q) :
    ∀ d ∈ q.definitions, d ∈ p.definitions ∨
      ∃ body, i = .define d.name body ∧ p.expr body = .ok d.body := by
  cases i with
  | mtypes _ | unread _ =>
    cases h
    exact fun d hd => .inl hd
  | record name fields =>
    obtain ⟨d, log, -, -, rfl⟩ := record_ok h
    exact fun d hd => .inl hd
  | globals t ds =>
    intro x hx
    have horigin := origin_of_forM (·.definitions) (fun _ _ _ => False)
      (fun d p q hd x hx => .inl ((declarator_globals hd).2 ▸ hx)) h x hx
    obtain hx | ⟨_, _, _, _, -, -, hfalse⟩ := horigin
    · exact .inl hx
    · exact hfalse.elim
  | define name body =>
    obtain ⟨-, e, he, rfl⟩ := define_ok h
    intro x hx
    rcases List.mem_append.mp hx with hx | hx
    · exact .inl hx
    · cases List.mem_singleton.mp hx
      exact .inr ⟨body, rfl, he⟩

theorem global_origin {items : List Surface.Item} (h : (items.forM item).run p = .ok () q) :
    ∀ v ∈ q.declared.globals, v ∈ p.declared.globals ∨ ∃ pre i post r, items = pre ++ i :: post ∧
      (pre.forM item).run p = .ok () r ∧ v.name ∈ i.variableNames :=
  origin_of_forM (·.declared.globals) (fun _ i v => v.name ∈ i.variableNames)
    (fun _ _ _ => globals_of_item) h

theorem definition_origin {items : List Surface.Item} (h : (items.forM item).run p = .ok () q) :
    ∀ d ∈ q.definitions, d ∈ p.definitions ∨ ∃ pre i post r, items = pre ++ i :: post ∧
      (pre.forM item).run p = .ok () r ∧ ∃ body, i = .define d.name body ∧ r.expr body = .ok d.body :=
  origin_of_forM (·.definitions) (fun r i d => ∃ body, i = .define d.name body ∧ r.expr body = .ok d.body)
    (fun _ _ _ => definitions_of_item) h

end Resolving

/-- What is known after some of the items is still known after all of them. -/
theorem Progress.extends_of_append {pre post : List Surface.Item} {p q r : Progress}
    (h : ((pre ++ post).forM Resolving.item).run p = .ok () q)
    (hpre : (pre.forM Resolving.item).run p = .ok () r) : r.Extends q := by
  rw [List.forM_eq_forM, List.forM_append] at h
  obtain ⟨_, r', hr', hpost⟩ := Resolving.run_bind_ok h
  cases hpre.symm.trans hr'
  exact (follows_of_items hpost).1

/-- What an expression mentions is in the tables of the model. -/
structure Model.Scoped (m : Model) (e : Expr) : Prop where
  vars : ∀ p ∈ e.places, ∀ v ∈ p.vars, m.declared.get? v.id = some v
  roots : ∀ p ∈ e.places, m.declared.lookup? p.var.name = some p.var
  fields : ∀ p ∈ e.places, ∀ v ∈ p.vars.tail, ∃ r, p.var.record? = some r ∧ ∃ f ∈ r.fields, v = f.toVariable
  codes : ∀ c ∈ e.mtypeCodes, m.mtypes.contains c = true

/-- The model of what is known after the last item. -/
def Progress.model (p : Progress) (mtypes : Mtypes) (names : List (Located String)) (base : Nat) : Model :=
  ⟨mtypes, p.declared, p.definitions, p.initials,
    unusedMtypes names base (p.exprs.flatMap Expr.mtypeCodes)⟩

/-- The constants that were looked up on the way are those that the model mentions in the end. -/
theorem Progress.model_eq_used {mtypes : Mtypes} {base : Nat} {items : List Surface.Item} {p : Progress}
    (h : (items.forM Resolving.item).run (.start mtypes base) = .ok () p) (names : List (Located String)) :
    p.model mtypes names base =
      ⟨mtypes, p.declared, p.definitions, p.initials, unusedMtypes names base p.used⟩ := by
  rw [model, ← ((start_usesMentioned mtypes base).of_items h).unusedMtypes names base]

/-- A model is what is known after its last item. -/
theorem Reading.ofItems_ok_iff {base : Nat} {path : String} {items : List Surface.Item} {m : Model} :
    (ofItems base path items).outcome = .ok m ↔ items ≠ [] ∧ items.findSome? (·.unread?) = none ∧
      ∃ mtypes p, (Mtypes.withBase base).declareAll (items.flatMap (·.mtypeNames)) = .ok mtypes ∧
        (items.forM Resolving.item).run (.start mtypes base) = .ok () p ∧
        m = p.model mtypes (items.flatMap (·.mtypeNames)) base := by
  constructor
  · intro h
    unfold ofItems at h
    split at h
    · cases h
    · cases h
    · rename_i hne hread
      dsimp only at h
      split at h
      · cases h
      · rename_i mtypes hmtypes
        split at h
        · cases h
        · rename_i p hrun
          cases h
          exact ⟨hne, hread, mtypes, p, hmtypes, hrun, (Progress.model_eq_used hrun _).symm⟩
  · rintro ⟨hne, hread, mtypes, p, hmtypes, hrun, rfl⟩
    rw [Progress.model_eq_used hrun]
    unfold Progress.start at hrun
    unfold ofItems
    split
    · exact absurd rfl hne
    · rename_i hword
      rw [hread] at hword
      cases hword
    · simp only [hmtypes, hrun]

theorem Reading.ofItems_ok {base : Nat} {path : String} {items : List Surface.Item} {m : Model}
    (h : (ofItems base path items).outcome = .ok m) :
    (Mtypes.withBase base).declareAll (items.flatMap (·.mtypeNames)) = .ok m.mtypes ∧
    ∃ p, (items.forM Resolving.item).run (.start m.mtypes base) = .ok () p ∧
      m.declared = p.declared ∧ m.definitions = p.definitions ∧ m.initials = p.initials := by
  obtain ⟨-, -, mtypes, p, hmtypes, hrun, rfl⟩ := ofItems_ok_iff.mp h
  exact ⟨hmtypes, p, hrun, rfl, rfl, rfl⟩

theorem Model.ofSource_ok {base : Nat} {path source : String} {m : Model}
    (h : ofSource base path source = .ok m) : ∃ ts items p, tokens source path = .ok ts ∧
      Surface.items ts = .ok items ∧
      (items.forM Resolving.item).run (.start m.mtypes base) = .ok () p ∧
      m.declared = p.declared ∧ m.definitions = p.definitions ∧ m.initials = p.initials := by
  unfold ofSource Reading.ofSource at h
  split at h
  · cases h
  · rename_i items hitems
    obtain ⟨ts, hts, hitems⟩ := bind_ok hitems
    obtain ⟨-, p, hp⟩ := Reading.ofItems_ok h
    exact ⟨ts, items, p, hts, hitems, hp⟩

/-- What is known at some point is covered by the model that is read in the end. -/
theorem Model.scoped_of_covers {m : Model} {p : Progress} (hp : p.Sound) (hdeclared : m.declared = p.declared)
    (hmtypes : m.mtypes = p.mtypes) {e : Expr} (he : p.Covers e.places e.mtypeCodes) : m.Scoped e where
  vars x hx v hv := by
    rw [hdeclared]
    exact hp.coherent.get?_id ((he.places x hx).vars_mem hp.coherent v hv)
  roots x hx := by
    rw [hdeclared]
    exact hp.coherent.lookup?_name (he.places x hx).root
  fields x hx v hv := by
    cases (he.places x hx).regular with
    | leaf w i => cases hv
    | field i j hr hf =>
      cases List.mem_singleton.mp hv
      exact ⟨_, hr, _, hf, rfl⟩
  codes c hc := by
    rw [hmtypes]
    exact he.codes c hc

/-- The macro `d`, which the items of `pre` precede, mentions only variables that these items declare. All
macros whose names stand in its body are defined there too. -/
structure Model.Precede (m : Model) (base : Nat) (pre : List Surface.Item) (body : Surface.Expr)
    (d : Definition) : Prop where
  resolved : ∃ p, (pre.forM Resolving.item).run (.start m.mtypes base) = .ok () p ∧
    p.expr body = .ok d.body ∧ ∀ q ∈ d.body.places, ∀ v ∈ q.vars, v ∈ p.declared.vars
  roots : ∀ q ∈ d.body.places, q.var.name ∈ pre.flatMap Surface.Item.variableNames
  macros : ∀ x ∈ m.definitions, x.name.value ∈ body.names → ∃ body', .define x.name body' ∈ pre

theorem Model.precede_of_mem {m : Model} {base : Nat} {items : List Surface.Item} {p : Progress}
    (hrun : (items.forM Resolving.item).run (.start m.mtypes base) = .ok () p)
    (hdefinitions : m.definitions = p.definitions) {d : Definition} (hd : d ∈ m.definitions) :
    ∃ pre body post, items = pre ++ .define d.name body :: post ∧ m.Precede base pre body d := by
  obtain hd | ⟨pre, i, post, r, rfl, hpre, body, rfl, hbody⟩ :=
    Resolving.definition_origin hrun d (hdefinitions ▸ hd)
  · cases hd
  have hr : r.Sound := (Progress.follows_of_items hpre).2 (Progress.start_sound m.mtypes base)
  obtain ⟨hcovers, hknown⟩ := Scope.expr_ok hr.definitions hbody
  refine ⟨pre, body, post, rfl, ⟨r, hpre, hbody, fun q hq => ?_⟩, fun q hq => ?_, fun x hx hname => ?_⟩
  · exact (hcovers.places q hq).vars_mem hr.coherent
  · obtain hv | ⟨pre', i, post', _, rfl, -, hvar⟩ :=
      Resolving.global_origin hpre q.var (hcovers.places q hq).root
    · cases hv
    · exact List.mem_flatMap.mpr ⟨i, by simp, hvar⟩
  · -- a name that the body was resolved with is no name of a later macro
    obtain ⟨new, hnew, hfresh⟩ := (Progress.extends_of_append hrun hpre).definitions
    rw [hdefinitions, hnew] at hx
    rcases List.mem_append.mp hx with hx | hx
    · obtain hx | ⟨pre', i, post', _, rfl, -, body', rfl, -⟩ :=
        Resolving.definition_origin hpre x hx
      · cases hx
      · exact ⟨body', by simp⟩
    · exact absurd (hknown _ hname) (hfresh x hx)

/-- All that the expressions of a model mention is in its tables. An initial value mentions only variables
with smaller ids than its own variable, a macro only what precedes it in the source. -/
theorem Model.scope_sound {base : Nat} {path source : String} {m : Model}
    (h : ofSource base path source = .ok m) :
    (∀ d ∈ m.definitions, m.Scoped d.body) ∧
    (∀ i ∈ m.initials, m.Scoped i.value ∧ m.declared.get? i.var.id = some i.var ∧
      ∀ p ∈ i.value.places, ∀ v ∈ p.vars, v.id < i.var.id) ∧
    ∃ ts items, tokens source path = .ok ts ∧ Surface.items ts = .ok items ∧
      ∀ d ∈ m.definitions, ∃ pre body post, items = pre ++ .define d.name body :: post ∧
        m.Precede base pre body d := by
  obtain ⟨ts, items, p, hts, hitems, hrun, hdeclared, hdefinitions, hinitials⟩ := ofSource_ok h
  obtain ⟨hextends, hsound⟩ := Progress.follows_of_items hrun
  have hp : p.Sound := hsound (Progress.start_sound m.mtypes base)
  have hmtypes : m.mtypes = p.mtypes := hextends.mtypes.symm
  refine ⟨fun d hd => ?_, fun i hi => ?_, ts, items, hts, hitems, fun d hd => ?_⟩
  · exact scoped_of_covers hp hdeclared hmtypes (hp.definitions d (hdefinitions ▸ hd))
  · obtain ⟨hvar, hcovers, hids⟩ := hp.initials i (hinitials ▸ hi)
    refine ⟨scoped_of_covers hp hdeclared hmtypes hcovers, ?_, hids⟩
    rw [hdeclared]
    exact hp.coherent.get?_id (hp.coherent.globals_mem _ hvar)
  · exact precede_of_mem hrun hdefinitions hd

/-- The macro stands for the variable, and its name for the initial value of another one. -/
theorem Model.scope_sound_of_macro :
    ∃ m, ofSource 1 "m" "byte x\n#define A x\nint y=A" = .ok m ∧
      (m.definitions.length, m.initials.length) = (1, 1) ∧ (∀ d ∈ m.definitions, m.Scoped d.body) ∧
      ∀ i ∈ m.initials, m.Scoped i.value ∧ ∀ p ∈ i.value.places, ∀ v ∈ p.vars, v.id < i.var.id := by
  let span (line first last : Nat) : Span := ⟨"m", ⟨line, first⟩, ⟨line, last⟩⟩
  let ts : List Token :=
    [⟨.typeName .byte, span 1 1 4⟩, ⟨.ident "x", span 1 6 6⟩, ⟨.define, span 2 1 7⟩,
      ⟨.ident "A", span 2 9 9⟩, ⟨.ident "x", span 2 11 11⟩, ⟨.newline, span 2 12 12⟩,
      ⟨.typeName .int, span 3 1 3⟩, ⟨.ident "y", span 3 5 5⟩, ⟨.assign, span 3 6 6⟩,
      ⟨.ident "A", span 3 7 7⟩, ⟨.eof, span 3 8 8⟩]
  let items : List Surface.Item :=
    [.globals ⟨.scalar .byte, span 1 1 4⟩ [⟨⟨"x", span 1 6 6⟩, none, none⟩],
      .define ⟨"A", span 2 9 9⟩ (.reference (span 2 11 11) (.leaf ⟨"x", span 2 11 11⟩ none)),
      .globals ⟨.scalar .int, span 3 1 3⟩ [⟨⟨"y", span 3 5 5⟩, none,
        some (.value (.reference (span 3 7 7) (.leaf ⟨"A", span 3 7 7⟩ none)))⟩]]
  have htokens : (tokens "byte x\n#define A x\nint y=A" "m").toOption = some ts := by decide +kernel
  have hitems : Surface.items ts = .ok items := by cbv
  obtain ⟨m, hm, hsizes⟩ : ∃ m, (Reading.ofItems 1 "m" items).outcome = .ok m ∧
      (m.definitions.length, m.initials.length) = (1, 1) := ⟨_, rfl, rfl⟩
  have h : ofSource 1 "m" "byte x\n#define A x\nint y=A" = .ok m := by
    unfold ofSource Reading.ofSource
    cases htext : tokens "byte x\n#define A x\nint y=A" "m" with
    | error r =>
      rw [htext] at htokens
      cases htokens
    | ok us =>
      rw [htext] at htokens
      cases htokens
      rw [Except.bind, hitems]
      exact hm
  obtain ⟨hdefinitions, hinitials, -⟩ := scope_sound h
  exact ⟨m, h, hsizes, hdefinitions, fun i hi => ⟨(hinitials i hi).1, (hinitials i hi).2.2⟩⟩

end Promela
