import Promela.Proofs.Semilattice

/-! Accesses as they are carried about, with the variables they touch. Equality, order and hashing look at the
ids of the variables, at the parts and at the fields alone: each is what it is of the access without its variables.
So the order is total and agrees with equality, and a set has one form, whatever its elements were inserted in. -/
namespace Promela

/-- An access with its variables, from the root inwards. -/
inductive VariableAccess
  | leaf (var : Variable) (slot : Slot)
  | field (var : Variable) (slot : Slot) (rest : VariableAccess)

/-- The storage that the place denotes, with the variables of the place. -/
def Place.variableAccess : Place → VariableAccess
  | .leaf v i => .leaf v (slotOf v i)
  | .field v i p => .field v (slotOf v i) p.variableAccess

/-- What a hasher is fed: numbers, and which variant of a type follows. -/
inductive HashItem
  | word (value : Nat)
  | variant (number : Nat)
deriving DecidableEq

def Slot.hashed : Slot → List HashItem
  | scalar => [.variant 0]
  | element n => [.variant 1, .word n]
  | anyElement => [.variant 2]

/-- What is fed for a part does not run into what is fed next. -/
theorem Slot.hashed_append_iff {s t : Slot} {xs ys : List HashItem} :
    s.hashed ++ xs = t.hashed ++ ys ↔ s = t ∧ xs = ys := by
  cases s <;> cases t <;> simp [hashed]

namespace VariableAccess

def key : VariableAccess → Selection
  | leaf v s | field v s _ => ⟨v.id, s⟩

/-- Equality of keys, and of the fields below. -/
def alike (a b : VariableAccess) : Bool :=
  a.key == b.key &&
    match a, b with
    | leaf .., leaf .. => true
    | field _ _ a, field _ _ b => a.alike b
    | _, _ => false

instance : BEq VariableAccess := ⟨alike⟩

/-- By key, then by field. An access without a field comes first. -/
def cmp (a b : VariableAccess) : Ordering :=
  (compare a.key b.key).then <|
    match a, b with
    | leaf .., leaf .. => .eq
    | leaf .., field .. => .lt
    | field .., leaf .. => .gt
    | field _ _ a, field _ _ b => a.cmp b

def hashed (a : VariableAccess) : List HashItem :=
  .word a.key.id :: a.key.slot.hashed ++
    match a with
    | leaf .. => [.variant 0]
    | field _ _ a => .variant 1 :: a.hashed

/-- The access without its variables. -/
def identity : VariableAccess → Access
  | leaf v s => ⟨⟨v.id, s⟩, []⟩
  | field v s a => .below ⟨v.id, s⟩ a.identity

end VariableAccess

@[simp] theorem Place.identity_variableAccess (p : Place) : p.variableAccess.identity = p.access := by
  induction p using Place.access.induct with
  | case1 v i => rfl
  | case2 v i p ih => rw [variableAccess, VariableAccess.identity, ih, access]

theorem Access.selections_inj {a b : Access} : a.selections = b.selections ↔ a = b := by
  cases a
  cases b
  simp [selections]

theorem Access.selections_ne_nil (a : Access) : a.selections ≠ [] := List.cons_ne_nil _ _

theorem Access.compare_nil_selections (a : Access) : compare [] a.selections = .lt := rfl

theorem Access.compare_selections_nil (a : Access) : compare a.selections [] = .gt := rfl

namespace VariableAccess

section

variable (v : Variable) (s : Slot) (a : VariableAccess)

theorem selections_leaf : (leaf v s).identity.selections = [⟨v.id, s⟩] := rfl

theorem selections_field : (field v s a).identity.selections = ⟨v.id, s⟩ :: a.identity.selections := rfl

theorem hashed_leaf : (leaf v s).hashed = .word v.id :: (s.hashed ++ [.variant 0]) := rfl

theorem hashed_field : (field v s a).hashed = .word v.id :: (s.hashed ++ .variant 1 :: a.hashed) := rfl

end

/-- Accesses are equal if they are the same access without their variables. -/
theorem beq_iff {a b : VariableAccess} : (a == b) = true ↔ a.identity = b.identity := by
  change a.alike b = true ↔ _
  rw [← Access.selections_inj]
  induction a generalizing b with
  | leaf v s =>
    cases b with
    | leaf w t => simp [alike, key, selections_leaf]
    | field w t b => simp [alike, selections_leaf, selections_field, Access.selections_ne_nil]
  | field v s a ih =>
    cases b with
    | leaf w t => simp [alike, selections_leaf, selections_field, Access.selections_ne_nil]
    | field w t b => simp [alike, key, selections_field, ih]

/-- Accesses are ordered as they are without their variables. -/
theorem cmp_eq_compare (a b : VariableAccess) : a.cmp b = compare a.identity b.identity := by
  change a.cmp b = compare a.identity.selections b.identity.selections
  induction a generalizing b with
  | leaf v s =>
    cases b with
    | leaf w t => simp [cmp, key, selections_leaf]
    | field w t b => simp [cmp, key, selections_leaf, selections_field, Access.compare_nil_selections]
  | field v s a ih =>
    cases b with
    | leaf w t => simp [cmp, key, selections_leaf, selections_field, Access.compare_selections_nil]
    | field w t b => simp [cmp, key, selections_field, ih]

/-- A hasher is fed the same for equal accesses and for no others. -/
theorem hashed_eq_iff {a b : VariableAccess} : a.hashed = b.hashed ↔ a.identity = b.identity := by
  rw [← Access.selections_inj]
  induction a generalizing b with
  | leaf v s =>
    cases b with
    | leaf w t =>
      simp only [hashed_leaf, selections_leaf, List.cons.injEq, HashItem.word.injEq, Selection.mk.injEq,
        Slot.hashed_append_iff, and_true]
    | field w t b =>
      simp [hashed_leaf, hashed_field, selections_leaf, selections_field, Slot.hashed_append_iff, Access.selections_ne_nil]
  | field v s a ih =>
    cases b with
    | leaf w t =>
      simp [hashed_leaf, hashed_field, selections_leaf, selections_field, Slot.hashed_append_iff, Access.selections_ne_nil]
    | field w t b => simp [hashed_field, selections_field, ih, Slot.hashed_append_iff, and_assoc]

instance : Std.TransCmp cmp := by
  have hcmp : cmp = compareOn identity := by
    funext a b
    exact cmp_eq_compare a b
  rw [hcmp]
  infer_instance

instance : Std.LawfulBEqCmp cmp where
  compare_eq_iff_beq {a b} := by rw [beq_iff, cmp_eq_compare, Std.LawfulEqOrd.compare_eq_iff_eq]

theorem lists_beq_iff {as bs : List VariableAccess} : (as == bs) = true ↔ as.map identity = bs.map identity := by
  induction as generalizing bs with
  | nil => cases bs <;> simp
  | cons a as ih =>
    cases bs with
    | nil => simp
    | cons b bs => rw [List.cons_beq_cons, Bool.and_eq_true, beq_iff, ih, List.map_cons, List.map_cons, List.cons.injEq]

theorem contains_iff {as : List VariableAccess} {a : VariableAccess} :
    as.contains a = true ↔ ∃ b ∈ as, b.identity = a.identity := by
  simp only [List.contains_iff_exists_mem_beq, beq_iff, @eq_comm _ a.identity]

theorem contains_eq_of_all {as bs : List VariableAccess} (has : ∀ a ∈ as, bs.contains a = true)
    (hbs : ∀ b ∈ bs, as.contains b = true) (a : VariableAccess) : as.contains a = bs.contains a := by
  rw [Bool.eq_iff_iff, contains_iff, contains_iff]
  constructor
  · rintro ⟨b, hb, hba⟩
    obtain ⟨c, hc, hcb⟩ := contains_iff.mp (has b hb)
    exact ⟨c, hc, hcb.trans hba⟩
  · rintro ⟨b, hb, hba⟩
    obtain ⟨c, hc, hcb⟩ := contains_iff.mp (hbs b hb)
    exact ⟨c, hc, hcb.trans hba⟩

end VariableAccess

/-- A set of accesses with their variables. Of accesses that compare as equal, it keeps the first one inserted. -/
abbrev VariableAccessSet := Std.TreeSet VariableAccess VariableAccess.cmp

namespace VariableAccessSet

open VariableAccess

variable {s t : VariableAccessSet}

/-- Sets are equal if their elements are, one by one in ascending order. -/
instance : BEq VariableAccessSet := ⟨fun s t => s.toList == t.toList⟩

theorem ascending_map_identity (s : VariableAccessSet) : Ascending (s.toList.map identity) := by
  rw [Ascending, List.pairwise_map]
  simpa only [cmp_eq_compare] using s.ordered_toList

/-- The set without the variables of its accesses. -/
def identities (s : VariableAccessSet) : AccessSet := ⟨s.toList.map identity, s.ascending_map_identity⟩

theorem mem_iff {a : VariableAccess} : a ∈ s ↔ a.identity ∈ s.identities := by
  rw [Std.TreeSet.mem_iff_contains, ← Std.TreeSet.contains_toList, contains_iff]
  exact List.mem_map.symm

theorem exists_of_mem_identities {x : Access} (h : x ∈ s.identities) : ∃ a ∈ s, a.identity = x := by
  obtain ⟨a, ha, rfl⟩ := List.mem_map.mp h
  exact ⟨a, Std.TreeSet.mem_of_mem_toList ha, rfl⟩

theorem identities_eq_iff : s.identities = t.identities ↔ ∀ a, a ∈ s ↔ a ∈ t := by
  constructor
  · intro h a
    rw [mem_iff, mem_iff, h]
  · intro h
    apply AccessSet.ext
    intro x
    constructor
    · intro hx
      obtain ⟨a, ha, rfl⟩ := exists_of_mem_identities hx
      exact mem_iff.mp ((h a).mp ha)
    · intro hx
      obtain ⟨a, ha, rfl⟩ := exists_of_mem_identities hx
      exact mem_iff.mp ((h a).mpr ha)

theorem beq_iff_identities : (s == t) = true ↔ s.identities = t.identities := by
  change (s.toList == t.toList) = true ↔ _
  rw [lists_beq_iff, identities, identities, AccessSet.mk.injEq]

/-- The set of the accesses, inserted one after another. -/
def ofList (as : List VariableAccess) : VariableAccessSet := Std.TreeSet.ofList as cmp

theorem mem_ofList {as : List VariableAccess} {a : VariableAccess} : a ∈ ofList as ↔ as.contains a = true :=
  Std.TreeSet.mem_ofList

theorem identities_ofList (as : List VariableAccess) :
    (ofList as).identities = AccessSet.ofList (as.map identity) := by
  apply AccessSet.ext
  intro x
  rw [AccessSet.mem_ofList, List.mem_map]
  constructor
  · intro hx
    obtain ⟨a, ha, rfl⟩ := exists_of_mem_identities hx
    exact contains_iff.mp (mem_ofList.mp ha)
  · rintro ⟨a, ha, rfl⟩
    exact mem_iff.mp (mem_ofList.mpr (contains_iff.mpr ⟨a, ha, rfl⟩))

end VariableAccessSet

/-- The footprint of an operation, with the variables of its accesses. -/
structure VariableFootprint where
  reads : VariableAccessSet
  writes : VariableAccessSet

namespace VariableFootprint

instance : BEq VariableFootprint := ⟨fun f g => f.reads == g.reads && f.writes == g.writes⟩

def footprint (f : VariableFootprint) : Footprint := ⟨f.reads.identities, f.writes.identities⟩

theorem beq_iff_footprint {f g : VariableFootprint} : (f == g) = true ↔ f.footprint = g.footprint := by
  change (f.reads == g.reads && f.writes == g.writes) = true ↔ _
  rw [Bool.and_eq_true, VariableAccessSet.beq_iff_identities, VariableAccessSet.beq_iff_identities, footprint,
    footprint, Footprint.mk.injEq]

theorem footprint_eq_iff {f g : VariableFootprint} :
    f.footprint = g.footprint ↔ (∀ a, a ∈ f.reads ↔ a ∈ g.reads) ∧ ∀ a, a ∈ f.writes ↔ a ∈ g.writes := by
  rw [footprint, footprint, Footprint.mk.injEq, VariableAccessSet.identities_eq_iff, VariableAccessSet.identities_eq_iff]

end VariableFootprint

/-- The order of accesses, which is that of the accesses without their variables, is total and agrees with
equality, and a hasher is fed the same for equal accesses and for no others. So sets are canonical: whatever the
order of its elements and however often they are inserted, a set is the same strictly ascending sequence, and
footprints are equal exactly if they have the same accesses. -/
theorem VariableAccess.canonical (a b c : VariableAccess) (as bs : List VariableAccess) (f g : VariableFootprint) :
    a.cmp b = compare a.identity b.identity ∧
      a.cmp b = (b.cmp a).swap ∧ ((a.cmp b).isLE = true ∨ (b.cmp a).isLE = true) ∧
      ((a.cmp b).isLE = true → (b.cmp a).isLE = true → (a == b) = true) ∧
      ((a.cmp b).isLE = true → (b.cmp c).isLE = true → (a.cmp c).isLE = true) ∧
      (a.cmp b = .eq ↔ (a == b) = true) ∧
      ((a == b) = true ↔ a.hashed = b.hashed) ∧
      ((∀ x, as.contains x = bs.contains x) →
        (VariableAccessSet.ofList as).toList.Pairwise (fun x y => x.cmp y = .lt) ∧
          ((VariableAccessSet.ofList as).toList == (VariableAccessSet.ofList bs).toList) = true) ∧
      (VariableAccessSet.ofList as).toList.map identity = (AccessSet.ofList (as.map identity)).toList ∧
      ((f == g) = true ↔ (∀ x, x ∈ f.reads ↔ x ∈ g.reads) ∧ ∀ x, x ∈ f.writes ↔ x ∈ g.writes) ∧
      ((f == g) = true ↔ f.footprint = g.footprint) := by
  have hswap : a.cmp b = (b.cmp a).swap := Std.OrientedCmp.eq_swap
  have heq : a.cmp b = .eq ↔ (a == b) = true := Std.LawfulBEqCmp.compare_eq_iff_beq
  refine ⟨cmp_eq_compare a b, hswap, ?_, ?_, Std.TransCmp.isLE_trans, heq, beq_iff.trans hashed_eq_iff.symm, ?_, ?_, ?_, ?_⟩
  · rw [hswap]
    cases b.cmp a <;> simp
  · intro hab hba
    exact heq.mp (Std.OrientedCmp.isLE_antisymm hab hba)
  · intro hsame
    refine ⟨Std.TreeSet.ordered_toList, ?_⟩
    have hmem : ∀ x, x ∈ VariableAccessSet.ofList as ↔ x ∈ VariableAccessSet.ofList bs := fun x => by
      rw [VariableAccessSet.mem_ofList, VariableAccessSet.mem_ofList, hsame]
    exact VariableAccessSet.beq_iff_identities.mpr (VariableAccessSet.identities_eq_iff.mpr hmem)
  · exact congrArg AccessSet.toList (VariableAccessSet.identities_ofList as)
  · exact VariableFootprint.beq_iff_footprint.trans VariableFootprint.footprint_eq_iff
  · exact VariableFootprint.beq_iff_footprint

/-- The access of `box[1].val[y]` stands between those of `box[1]` and `box[y]`, and another name of the variable
makes no other access of it. -/
theorem VariableAccess.canonical_of_field :
    let n : Note := ⟨.point "" .first, .byte⟩
    let y : Expr := .place n (.leaf ⟨0, "y", .scalar .byte, none, none⟩ none)
    let val : Variable := ⟨1, "val", .scalar .int, some 3, none⟩
    let box (name : String) : Variable := ⟨2, name, .record ⟨"crate", [⟨1, "val", .int, some 3⟩]⟩, some 2, none⟩
    let whole : Place := .leaf (box "box") (some (.int n 1))
    let field (name : String) : Place := .field (box name) (some (.int n 1)) (.leaf val (some y))
    let any : Place := .leaf (box "box") (some y)
    let as := [any, field "box", whole].map Place.variableAccess
    let bs := [field "bin", whole, field "box", whole, any].map Place.variableAccess
    let f : VariableFootprint := ⟨.ofList as, .ofList [any.variableAccess]⟩
    let g : VariableFootprint := ⟨.ofList bs, .ofList [any.variableAccess, any.variableAccess]⟩
    (whole.variableAccess.cmp any.variableAccess).isLE = true ∧
      ((field "box").variableAccess == (field "bin").variableAccess) = true ∧
      (VariableAccessSet.ofList as).toList.Pairwise (fun a b => a.cmp b = .lt) ∧
      ((VariableAccessSet.ofList as).toList == (VariableAccessSet.ofList bs).toList) = true ∧
      (VariableAccessSet.ofList bs).toList.map identity = [whole.access, (field "box").access, any.access] ∧
      (f == g) = true := by
  intro n y val box whole field any as bs f g
  obtain ⟨-, -, -, -, htrans, -⟩ :=
    canonical whole.variableAccess (field "box").variableAccess any.variableAccess as bs f g
  obtain ⟨-, -, -, hantisymm, -, -, -, hset, -, hequal, -⟩ :=
    canonical (field "box").variableAccess (field "bin").variableAccess any.variableAccess as bs f g
  obtain ⟨-, -, -, -, -, -, -, -, hidentities, -⟩ :=
    canonical any.variableAccess any.variableAccess any.variableAccess bs as f g
  have hsame : ∀ a, as.contains a = bs.contains a := contains_eq_of_all (by decide) (by decide)
  obtain ⟨hascending, hequalLists⟩ := hset hsame
  refine ⟨htrans (by decide) (by decide), hantisymm (by decide) (by decide), hascending, hequalLists, ?_, ?_⟩
  · rw [hidentities]
    simp only [bs, List.map_map, Function.comp_def, Place.identity_variableAccess]
    decide
  · refine hequal.mpr ⟨fun a => ?_, fun a => ?_⟩
    · rw [VariableAccessSet.mem_ofList, VariableAccessSet.mem_ofList, hsame]
    · simp [f, g, VariableAccessSet.mem_ofList]

end Promela
