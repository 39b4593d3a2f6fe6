import Promela.Proofs.Progress

/-! The constants that macros and initial values mention are those that were looked up. The body of a macro is
taken over as a whole, and what it mentions was looked up where the macro is defined. -/
namespace Promela

namespace Scope

/-- The constants that a name brings into an expression: itself, or those of the macro that it stands for. -/
def codesOf (s : Scope) (name : String) : List Nat :=
  match s.definition? name with
  | some d => d.body.mtypeCodes
  | none => (s.mtypes.code? name).toList

variable {s : Scope}

/-- A reference brings in what its name does, and what its indexes do. -/
theorem mtypeCodes_of_reference {span : Span} {r : Surface.Reference} {e : Expr}
    (h : s.expr (.reference span r) = .ok e)
    (hplace : ∀ {v p}, s.place v r = .ok p → p.mtypeCodes = r.indexNames.flatMap s.codesOf) :
    e.mtypeCodes = (r.name.value :: r.indexNames).flatMap s.codesOf := by
  rw [List.flatMap_cons, codesOf]
  simp only [expr] at h
  split at h
  next d hd =>
    obtain ⟨_, hplain, h⟩ := bind_ok h
    cases h
    simp [hd, indexNames_of_plainName? (require_ok hplain)]
  next code hnone hcode =>
    obtain ⟨_, hplain, h⟩ := bind_ok h
    cases h
    simp [hnone, hcode, indexNames_of_plainName? (require_ok hplain), Expr.buildMtype, Expr.mtypeCodes]
  next hnone hcode =>
    obtain ⟨v, -, h⟩ := bind_ok h
    obtain ⟨p, hp, h⟩ := bind_ok h
    obtain ⟨t, rfl⟩ := buildPlace_ok h
    simp [hnone, hcode, Expr.mtypeCodes, hplace hp]

mutual

/-- An expression mentions the constants that its names bring into it. -/
theorem mtypeCodes_of_expr : ∀ {raw : Surface.Expr} {e : Expr}, s.expr raw = .ok e →
    e.mtypeCodes = raw.names.flatMap s.codesOf
  | .number span n, e, h => by
    obtain ⟨t, -, rfl⟩ := literal_ok h
    rfl
  | .truth span b, e, h => by
    cases h
    rfl
  | .reference span r, e, h => mtypeCodes_of_reference h mtypeCodes_of_place
  | .unary span op raw, e, h => by
    obtain ⟨hnames, t, v, rfl⟩ | ⟨a, ha, h⟩ := unary_ok h
    · rw [Surface.Expr.names, hnames]
      rfl
    · obtain ⟨t, -, h⟩ := bind_ok h
      cases h
      have ih := mtypeCodes_of_expr ha
      exact ih
  | .binary span op l r, e, h => by
    obtain ⟨l', hl, h⟩ := bind_ok h
    obtain ⟨r', hr, h⟩ := bind_ok h
    obtain ⟨t, -, h⟩ := bind_ok h
    cases h
    rw [Expr.mtypeCodes, Surface.Expr.names, List.flatMap_append, mtypeCodes_of_expr hl, mtypeCodes_of_expr hr]
  | .ternary span c a b, e, h => by
    obtain ⟨c', hc, h⟩ := bind_ok h
    obtain ⟨a', ha, h⟩ := bind_ok h
    obtain ⟨b', hb, h⟩ := bind_ok h
    obtain ⟨t, -, h⟩ := bind_ok h
    cases h
    rw [Expr.mtypeCodes, Surface.Expr.names, List.flatMap_append, List.flatMap_append, mtypeCodes_of_expr hc,
      mtypeCodes_of_expr ha, mtypeCodes_of_expr hb]
  | .query span op c, e, h => by
    obtain ⟨c', hc, h⟩ := bind_ok h
    obtain ⟨t, -, h⟩ := bind_ok h
    cases h
    have ih := mtypeCodes_of_expr hc
    exact ih
  | .poll span c as, e, h => by
    obtain ⟨c', hc, h⟩ := bind_ok h
    obtain ⟨as', has, h⟩ := bind_ok h
    obtain ⟨_, -, h⟩ := bind_ok h
    cases h
    rw [Expr.mtypeCodes, Surface.Expr.names, List.flatMap_append, mtypeCodes_of_expr hc, mtypeCodes_of_args has]
  | .eval span raw, e, h => by
    obtain ⟨a, ha, h⟩ := bind_ok h
    obtain ⟨t, -, h⟩ := bind_ok h
    cases h
    have ih := mtypeCodes_of_expr ha
    exact ih

theorem mtypeCodes_of_place : ∀ {r : Surface.Reference} {v : Variable} {p : Place}, s.place v r = .ok p →
    p.mtypeCodes = r.indexNames.flatMap s.codesOf
  | .leaf name i, v, p, h => by
    obtain ⟨j, hj, h⟩ := bind_ok h
    obtain ⟨rfl, -⟩ := Place.build_ok h
    exact mtypeCodes_of_index hj
  | .field name i rest, v, p, h => by
    obtain ⟨j, hj, h⟩ := bind_ok h
    obtain ⟨q, hq, h⟩ := bind_ok h
    obtain ⟨rfl, -⟩ := Place.build_ok hq
    dsimp only at h
    split at h
    · cases h
    split at h
    · cases h
    obtain ⟨q, hq, h⟩ := bind_ok h
    have hp : p = .field v j q := by
      obtain ⟨_, _, _, hleaf, -, -, rfl⟩ | ⟨_, _, _, _, hfield, -⟩ := Place.select_ok h
      · cases hleaf
        rfl
      · cases hfield
    rw [hp, Place.mtypeCodes, Surface.Reference.indexNames, List.flatMap_append, mtypeCodes_of_index hj,
      mtypeCodes_of_place hq]

theorem mtypeCodes_of_index : ∀ {i : Option Surface.Expr} {j : Option Expr}, s.index i = .ok j →
    mtypeCodesOfIndex j = (Surface.namesOfIndex i).flatMap s.codesOf
  | none, j, h => by
    cases h
    rfl
  | some raw, j, h => by
    obtain ⟨e, he, h⟩ := bind_ok h
    cases h
    exact mtypeCodes_of_expr he

theorem mtypeCodes_of_args : ∀ {as : List Surface.Expr} {as' : List Expr}, s.args as = .ok as' →
    mtypeCodesOfArgs as' = (Surface.namesOfArgs as).flatMap s.codesOf
  | [], as', h => by
    cases h
    rfl
  | a :: as, as', h => by
    obtain ⟨a', ha, h⟩ := bind_ok h
    obtain ⟨bs, hbs, h⟩ := bind_ok h
    cases h
    rw [mtypeCodesOfArgs, Surface.namesOfArgs, List.flatMap_append, mtypeCodes_of_expr ha, mtypeCodes_of_args hbs]

end

/-- A constant that an expression mentions was looked up for it, or it comes with a macro. -/
theorem mem_mtypeCodes_iff {raw : Surface.Expr} {e : Expr} (h : s.expr raw = .ok e) {c : Nat} :
    c ∈ e.mtypeCodes ↔ c ∈ s.constants raw ∨
      ∃ name ∈ raw.names, ∃ d, s.definition? name = some d ∧ c ∈ d.body.mtypeCodes := by
  rw [mtypeCodes_of_expr h, List.mem_flatMap, constants, List.mem_filterMap, ← exists_or]
  refine exists_congr fun name => ?_
  rw [← and_or_left]
  refine and_congr_right fun _ => ?_
  cases hd : s.definition? name <;> simp [codesOf, hd]

end Scope

namespace Progress

/-- The bodies of the macros and the initial values. -/
def exprs (p : Progress) : List Expr := p.definitions.map (·.body) ++ p.initials.map (·.value)

/-- The constants that were looked up are those that are mentioned. -/
def UsesMentioned (p : Progress) : Prop := ∀ c, c ∈ p.used ↔ ∃ e ∈ p.exprs, c ∈ e.mtypeCodes

variable {p q : Progress}

theorem start_usesMentioned (mtypes : Mtypes) (base : Nat) : (start mtypes base).UsesMentioned :=
  fun c => by simp [start, exprs]

/-- One expression more, and its constants with it. -/
theorem UsesMentioned.add (hp : p.UsesMentioned) {raw : Surface.Expr} {e : Expr} (he : p.expr raw = .ok e)
    (hused : q.used = p.used ++ p.constants raw) (hexprs : ∀ x, x ∈ q.exprs ↔ x ∈ p.exprs ∨ x = e) :
    q.UsesMentioned := by
  intro c
  have hmention : (∃ name ∈ raw.names, ∃ d, p.definition? name = some d ∧ c ∈ d.body.mtypeCodes) →
      c ∈ p.used := by
    rintro ⟨name, -, d, hd, hc⟩
    have hbody : d.body ∈ p.exprs := List.mem_append_left _ (List.mem_map_of_mem (List.mem_of_find?_eq_some hd))
    exact (hp c).mpr ⟨d.body, hbody, hc⟩
  have hmentioned : (∃ x ∈ q.exprs, c ∈ x.mtypeCodes) ↔ c ∈ p.used ∨ c ∈ e.mtypeCodes := by
    simp only [hexprs, or_and_right, exists_or, exists_eq_left]
    rw [hp c]
  rw [hmentioned, hused, List.mem_append, Scope.mem_mtypeCodes_iff he, ← or_assoc]
  exact ⟨.inl, fun h => h.elim id fun h => .inl (hmention h)⟩

theorem UsesMentioned.of_declares {name : String} (h : Resolving.Declares p name q) (hp : p.UsesMentioned) :
    q.UsesMentioned := by
  cases h with
  | plain _ _ => exact hp
  | @initialized v raw e log _ _ he =>
    refine hp.add he rfl fun x => ?_
    simp [exprs, or_assoc]

theorem UsesMentioned.of_item {i : Surface.Item} (h : (Resolving.item i).run p = .ok () q)
    (hp : p.UsesMentioned) : q.UsesMentioned := by
  cases i with
  | mtypes _ | unread _ =>
    cases h
    exact hp
  | record name fields =>
    obtain ⟨d, log, -, -, rfl⟩ := Resolving.record_ok h
    exact hp
  | globals t ds =>
    exact Resolving.inv_of_forM (fun d _ _ _ hp hrun => of_declares (Resolving.declarator_ok hrun) hp) hp h
  | define name body =>
    obtain ⟨-, e, he, rfl⟩ := Resolving.define_ok h
    refine hp.add he rfl fun x => ?_
    simp [exprs, or_assoc, or_comm (a := x = e)]

theorem UsesMentioned.of_items {items : List Surface.Item} (h : (items.forM Resolving.item).run p = .ok () q)
    (hp : p.UsesMentioned) : q.UsesMentioned :=
  Resolving.inv_of_forM (fun _ _ _ _ hp hrun => of_item hrun hp) hp h

/-- The notices are about the constants that no expression mentions. -/
theorem UsesMentioned.unusedMtypes (hp : p.UsesMentioned) (names : List (Located String)) (base : Nat) :
    unusedMtypes names base p.used = Promela.unusedMtypes names base (p.exprs.flatMap Expr.mtypeCodes) := by
  have hcontains : ∀ c, p.used.contains c = (p.exprs.flatMap Expr.mtypeCodes).contains c := by
    intro c
    rw [Bool.eq_iff_iff, List.contains_iff_mem, List.contains_iff_mem, hp c, List.mem_flatMap]
  simp only [Promela.unusedMtypes, hcontains]

end Progress
end Promela
