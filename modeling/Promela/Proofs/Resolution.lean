import Promela.Model.Scope
import Promela.Proofs.Places

/-! What a scope makes of an expression: it mentions variables of the table and declared constants only,
and every name in it is known. -/
namespace Promela

/-- A variable, or a field of the typedef that the variable has. -/
inductive Place.Regular : Place → Prop
  | leaf (v : Variable) (i : Option Expr) : Place.Regular (.leaf v i)
  | field {v : Variable} {r : Record} {f : Field} (i j : Option Expr) : v.record? = some r →
      f ∈ r.fields → Place.Regular (.field v i (.leaf f.toVariable j))

/-- The place starts at a global variable of the table. -/
structure Place.Rooted (d : Declarations) (p : Place) : Prop where
  regular : p.Regular
  root : p.var ∈ d.globals

theorem Place.Rooted.vars_mem {d : Declarations} (hd : d.Coherent) {p : Place} (hp : p.Rooted d) :
    ∀ v ∈ p.vars, v ∈ d.vars := by
  obtain ⟨hregular, hroot⟩ := hp
  have hroot := hd.globals_mem _ hroot
  cases hregular with
  | leaf v i =>
    intro w hw
    cases List.mem_singleton.mp hw
    exact hroot
  | field i j hr hf =>
    have hfield := hd.fields_mem _ (hd.record_mem hroot hr) _ hf
    exact List.forall_mem_cons.mpr ⟨hroot, by simpa [vars] using hfield⟩

namespace Scope

/-- The places and the constants of the expression are ones of the scope. -/
structure Covers (s : Scope) (ps : List Place) (codes : List Nat) : Prop where
  places : ∀ p ∈ ps, p.Rooted s.declared
  codes : ∀ c ∈ codes, s.mtypes.contains c = true

/-- The name is one of a macro, of a constant or of a variable. -/
def Knows (s : Scope) (name : String) : Prop :=
  (s.definition? name).isSome ∨ (s.mtypes.code? name).isSome ∨ (s.declared.lookup? name).isSome

namespace Covers

variable {s : Scope} {ps qs : List Place} {cs ds : List Nat}

theorem nil : s.Covers [] [] := ⟨by simp, by simp⟩

theorem append (h : s.Covers ps cs) (h' : s.Covers qs ds) : s.Covers (ps ++ qs) (cs ++ ds) where
  places p hp := (List.mem_append.mp hp).elim (h.places p) (h'.places p)
  codes c hc := (List.mem_append.mp hc).elim (h.codes c) (h'.codes c)

end Covers

/-- Macros have bodies of the scope. -/
def Sound (s : Scope) : Prop := ∀ d ∈ s.definitions, s.Covers d.body.places d.body.mtypeCodes

variable {s : Scope}

theorem literal_ok {v : Int} {span : Span} {e : Expr} (h : literal v span = .ok e) :
    ∃ t, ValueType.ofLiteral? v = some t ∧ e = .int ⟨span, t⟩ v := by
  obtain ⟨_, -, h⟩ := bind_ok h
  unfold Expr.buildInt at h
  split at h
  next t ht =>
    cases h
    exact ⟨t, ht, rfl⟩
  next => cases h

theorem buildPlace_ok {p : Place} {span : Span} {e : Expr} (h : Expr.buildPlace span p = .ok e) :
    ∃ t, e = .place ⟨span, t⟩ p := by
  unfold Expr.buildPlace at h
  split at h
  · cases h
    exact ⟨_, rfl⟩
  · cases h

theorem contains_of_code? {m : Mtypes} {name : String} {code : Nat} (h : m.code? name = some code) :
    m.contains code = true := by
  obtain ⟨k, hk, rfl⟩ := Option.map_eq_some_iff.mp h
  have hlt : k < m.names.length :=
    (List.idxOf?_eq_some_iff.mp hk).1
  simp [Mtypes.contains, Mtypes.name?, hlt]

theorem lookup_ok {d : Declarations} {name : String} {span : Span} {v : Variable}
    (h : d.lookup name span = .ok v) : d.lookup? name = some v := by
  unfold Declarations.lookup at h
  split at h
  · cases h
    assumption
  · cases h

/-- A negated literal is one literal, and nothing else is resolved in a different way. -/
theorem expr_unary (op : UnaryOp) (e : Surface.Expr) :
    (∃ span n, op = .neg ∧ e = .number span n) ∨
      ∀ (s : Scope) span, s.expr (.unary span op e) = s.expr e >>= Expr.buildUnary span op := by
  cases op with
  | neg =>
    cases e with
    | number span n => exact .inl ⟨span, n, rfl, rfl⟩
    | _ => exact .inr fun s span => by simp only [expr]
  | _ => exact .inr fun s span => by simp only [expr]

theorem unary_ok {span : Span} {op : UnaryOp} {e : Surface.Expr} {e' : Expr}
    (h : s.expr (.unary span op e) = .ok e') :
    (e.names = [] ∧ ∃ t v, e' = .int ⟨span, t⟩ v) ∨ ∃ a, s.expr e = .ok a ∧ Expr.buildUnary span op a = .ok e' := by
  obtain ⟨sp, n, rfl, rfl⟩ | hgeneral := expr_unary op e
  · obtain ⟨t, -, rfl⟩ := literal_ok h
    exact .inl ⟨rfl, t, _, rfl⟩
  · rw [hgeneral] at h
    exact .inr (bind_ok h)

/-- A name stands for a macro's body, for a constant or for the place of a variable. -/
theorem reference_ok {span : Span} {r : Surface.Reference} {e : Expr} (h : s.expr (.reference span r) = .ok e) :
    (∃ d, s.definition? r.name.value = some d ∧ r.plainName?.isSome = true ∧ e = d.body) ∨
    (∃ code, s.mtypes.code? r.name.value = some code ∧ r.plainName?.isSome = true ∧ e = .buildMtype span code) ∨
    ∃ v p t, s.declared.lookup? r.name.value = some v ∧ s.place v r = .ok p ∧ e = .place ⟨span, t⟩ p := by
  simp only [expr] at h
  split at h
  next d hd =>
    obtain ⟨_, hplain, h⟩ := bind_ok h
    cases h
    exact .inl ⟨d, hd, require_ok hplain, rfl⟩
  next code _ hcode =>
    obtain ⟨_, hplain, h⟩ := bind_ok h
    cases h
    exact .inr (.inl ⟨code, hcode, require_ok hplain, rfl⟩)
  next =>
    obtain ⟨v, hv, h⟩ := bind_ok h
    obtain ⟨p, hp, h⟩ := bind_ok h
    obtain ⟨t, rfl⟩ := buildPlace_ok h
    exact .inr (.inr ⟨v, p, t, lookup_ok hv, hp, rfl⟩)

/-- A plain name has no index. -/
theorem indexNames_of_plainName? {r : Surface.Reference} (h : r.plainName?.isSome = true) :
    r.indexNames = [] := by
  cases r with
  | leaf name i =>
    cases i with
    | none => rfl
    | some e => simp [Surface.Reference.plainName?] at h
  | field name i rest => simp [Surface.Reference.plainName?] at h

mutual

theorem expr_ok (hs : s.Sound) : ∀ {e : Surface.Expr} {e' : Expr}, s.expr e = .ok e' →
    s.Covers e'.places e'.mtypeCodes ∧ ∀ n ∈ e.names, s.Knows n
  | .number span n, e', h => by
    obtain ⟨t, -, rfl⟩ := literal_ok h
    exact ⟨.nil, by simp [Surface.Expr.names]⟩
  | .truth span b, e', h => by
    cases h
    exact ⟨.nil, by simp [Surface.Expr.names]⟩
  | .reference span r, e', h => by
    obtain ⟨d, hd, hplain, rfl⟩ | ⟨code, hcode, hplain, rfl⟩ | ⟨v, p, t, hv, hp, rfl⟩ := reference_ok h
    · have hknown : s.Knows r.name.value := .inl (by simp [hd])
      refine ⟨hs d (List.mem_of_find?_eq_some hd), ?_⟩
      simpa [Surface.Expr.names, indexNames_of_plainName? hplain] using hknown
    · have hknown : s.Knows r.name.value := .inr (.inl (by simp [hcode]))
      refine ⟨⟨by simp [Expr.buildMtype, Expr.places], ?_⟩, ?_⟩
      · simpa [Expr.buildMtype, Expr.mtypeCodes] using contains_of_code? hcode
      · simpa [Surface.Expr.names, indexNames_of_plainName? hplain] using hknown
    · obtain ⟨⟨rfl, hregular, hbelow⟩, hnames⟩ := place_ok hs hp
      have hknown : s.Knows r.name.value := .inr (.inr (by simp [hv]))
      have hrooted : p.Rooted s.declared := ⟨hregular, List.mem_of_find?_eq_some hv⟩
      exact ⟨⟨List.forall_mem_cons.mpr ⟨hrooted, hbelow.places⟩, hbelow.codes⟩,
        List.forall_mem_cons.mpr ⟨hknown, hnames⟩⟩
  | .unary span op e, e', h => by
    obtain ⟨hnames, n, v, rfl⟩ | ⟨a, ha, h⟩ := unary_ok h
    · exact ⟨.nil, by simp [Surface.Expr.names, hnames]⟩
    · obtain ⟨t, -, h⟩ := bind_ok h
      cases h
      have iha := expr_ok hs ha
      exact iha
  | .binary span op l r, e', h => by
    obtain ⟨l', hl, h⟩ := bind_ok h
    obtain ⟨r', hr, h⟩ := bind_ok h
    obtain ⟨t, -, h⟩ := bind_ok h
    cases h
    obtain ⟨hl, hlnames⟩ := expr_ok hs hl
    obtain ⟨hr, hrnames⟩ := expr_ok hs hr
    exact ⟨hl.append hr, List.forall_mem_append.mpr ⟨hlnames, hrnames⟩⟩
  | .ternary span c a b, e', h => by
    obtain ⟨c', hc, h⟩ := bind_ok h
    obtain ⟨a', ha, h⟩ := bind_ok h
    obtain ⟨b', hb, h⟩ := bind_ok h
    obtain ⟨t, -, h⟩ := bind_ok h
    cases h
    obtain ⟨hc, hcnames⟩ := expr_ok hs hc
    obtain ⟨ha, hanames⟩ := expr_ok hs ha
    obtain ⟨hb, hbnames⟩ := expr_ok hs hb
    exact ⟨(hc.append ha).append hb, List.forall_mem_append.mpr
      ⟨List.forall_mem_append.mpr ⟨hcnames, hanames⟩, hbnames⟩⟩
  | .query span op c, e', h => by
    obtain ⟨c', hc, h⟩ := bind_ok h
    obtain ⟨t, -, h⟩ := bind_ok h
    cases h
    have ihc := expr_ok hs hc
    exact ihc
  | .poll span c as, e', h => by
    obtain ⟨c', hc, h⟩ := bind_ok h
    obtain ⟨as', has, h⟩ := bind_ok h
    obtain ⟨_, -, h⟩ := bind_ok h
    cases h
    obtain ⟨hc, hcnames⟩ := expr_ok hs hc
    obtain ⟨has, hasnames⟩ := args_ok hs has
    exact ⟨hc.append has, List.forall_mem_append.mpr ⟨hcnames, hasnames⟩⟩
  | .eval span e, e', h => by
    obtain ⟨a, ha, h⟩ := bind_ok h
    obtain ⟨t, -, h⟩ := bind_ok h
    cases h
    have iha := expr_ok hs ha
    exact iha

theorem place_ok (hs : s.Sound) : ∀ {r : Surface.Reference} {v : Variable} {p : Place},
    s.place v r = .ok p → (p.var = v ∧ p.Regular ∧ s.Covers p.placesBelow p.mtypeCodes) ∧
      ∀ n ∈ r.indexNames, s.Knows n
  | .leaf name i, v, p, h => by
    obtain ⟨j, hj, h⟩ := bind_ok h
    obtain ⟨rfl, -⟩ := Place.build_ok h
    obtain ⟨hj, hnames⟩ := index_ok hs hj
    exact ⟨⟨rfl, .leaf v j, hj⟩, hnames⟩
  | .field name i rest, v, p, h => by
    obtain ⟨j, hj, h⟩ := bind_ok h
    obtain ⟨q, hq, h⟩ := bind_ok h
    obtain ⟨rfl, -⟩ := Place.build_ok hq
    obtain ⟨hj, hnames⟩ := index_ok hs hj
    dsimp only at h
    split at h
    · cases h
    rename_i r hr
    split at h
    · cases h
    rename_i f hf
    obtain ⟨q, hq, h⟩ := bind_ok h
    obtain ⟨⟨hvar, hregular, hbelow⟩, hrest⟩ := place_ok hs hq
    have hp : p = .field v j q := by
      obtain ⟨_, _, _, hleaf, -, -, rfl⟩ | ⟨_, _, _, _, hfield, -⟩ := Place.select_ok h
      · cases hleaf
        rfl
      · cases hfield
    subst hp
    refine ⟨⟨rfl, ?_, hj.append hbelow⟩, List.forall_mem_append.mpr ⟨hnames, hrest⟩⟩
    cases hregular with
    | leaf w k =>
      obtain rfl : w = f.toVariable := hvar
      exact .field j k hr (List.mem_of_find?_eq_some hf)
    | field k l hr' hf' =>
      -- a field has no fields of its own
      obtain rfl : _ = f.toVariable := hvar
      cases hr'

theorem index_ok (hs : s.Sound) : ∀ {i : Option Surface.Expr} {j : Option Expr},
    s.index i = .ok j → s.Covers (placesOfIndex j) (mtypeCodesOfIndex j) ∧
      ∀ n ∈ Surface.namesOfIndex i, s.Knows n
  | none, j, h => by
    cases h
    exact ⟨.nil, by simp [Surface.namesOfIndex]⟩
  | some e, j, h => by
    obtain ⟨e', he, h⟩ := bind_ok h
    cases h
    exact expr_ok hs he

theorem args_ok (hs : s.Sound) : ∀ {as : List Surface.Expr} {as' : List Expr},
    s.args as = .ok as' → s.Covers (placesOfArgs as') (mtypeCodesOfArgs as') ∧
      ∀ n ∈ Surface.namesOfArgs as, s.Knows n
  | [], as', h => by
    cases h
    exact ⟨.nil, by simp [Surface.namesOfArgs]⟩
  | a :: as, as', h => by
    obtain ⟨a', ha, h⟩ := bind_ok h
    obtain ⟨bs, hbs, h⟩ := bind_ok h
    cases h
    obtain ⟨ha, hanames⟩ := expr_ok hs ha
    obtain ⟨hbs, hbsnames⟩ := args_ok hs hbs
    exact ⟨ha.append hbs, List.forall_mem_append.mpr ⟨hanames, hbsnames⟩⟩

end

end Scope
end Promela
