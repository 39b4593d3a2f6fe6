import Mathlib.Data.List.Sort
import Promela.Proofs.Overlap

/-! Footprints form a semilattice: to put two together is associative, commutative and idempotent, and the
empty footprint is the unit. Independence respects it, since overlapping is symmetric and a set overlaps a
union exactly if it overlaps one of its parts. -/
namespace Promela

/-- The order of accesses is strict. -/
instance : Std.Irrefl fun a b : Access => compare a b = .lt where
  irrefl a h := by
    rw [Std.ReflOrd.compare_self] at h
    cases h

instance : Std.Antisymm fun a b : Access => compare a b = .lt where
  antisymm a b hab hba := by
    have hswap : compare a b = (compare b a).swap := Std.OrientedCmp.eq_swap
    rw [hswap, hba] at hab
    cases hab

namespace AccessSet

variable {s t u : AccessSet}

/-- A set has one form only. -/
theorem ext (h : ∀ a, a ∈ s ↔ a ∈ t) : s = t := by
  have hlists : s.toList = t.toList := s.ascending.eq_of_mem_iff t.ascending h
  cases s
  cases t
  cases hlists
  rfl

instance : HasSubset AccessSet := ⟨fun s t => ∀ a ∈ s, a ∈ t⟩

theorem subset_iff : s ⊆ t ↔ ∀ a ∈ s, a ∈ t := .rfl

theorem union_assoc (s t u : AccessSet) : s ∪ t ∪ u = s ∪ (t ∪ u) := ext fun a => by simp only [mem_union, or_assoc]

theorem union_comm (s t : AccessSet) : s ∪ t = t ∪ s := ext fun a => by simp only [mem_union, or_comm]

theorem union_self (s : AccessSet) : s ∪ s = s := ext fun a => by simp only [mem_union, or_self]

theorem union_empty (s : AccessSet) : s ∪ ∅ = s := ext fun a => by simp only [mem_union, not_mem_empty, or_false]

theorem union_eq_of_subset (h : s ⊆ t) : s ∪ t = t := by
  apply ext
  intro a
  rw [mem_union]
  exact ⟨fun ha => ha.elim (h a) id, .inr⟩

theorem overlaps_iff : s.overlaps t = true ↔ ∃ a ∈ s, ∃ b ∈ t, a.overlaps b = true := by
  simp only [overlaps, List.any_eq_true, mem_toList]

theorem overlaps_comm (s t : AccessSet) : s.overlaps t = t.overlaps s := by
  rw [Bool.eq_iff_iff, overlaps_iff, overlaps_iff]
  constructor
  · rintro ⟨a, ha, b, hb, hab⟩
    exact ⟨b, hb, a, ha, a.overlaps_comm b ▸ hab⟩
  · rintro ⟨b, hb, a, ha, hba⟩
    exact ⟨a, ha, b, hb, b.overlaps_comm a ▸ hba⟩

theorem overlaps_union (s t u : AccessSet) : s.overlaps (t ∪ u) = (s.overlaps t || s.overlaps u) := by
  rw [Bool.eq_iff_iff, Bool.or_eq_true, overlaps_iff, overlaps_iff, overlaps_iff]
  constructor
  · rintro ⟨a, ha, b, hb, hab⟩
    rcases mem_union.mp hb with hb | hb
    · exact .inl ⟨a, ha, b, hb, hab⟩
    · exact .inr ⟨a, ha, b, hb, hab⟩
  · rintro (⟨a, ha, b, hb, hab⟩ | ⟨a, ha, b, hb, hab⟩)
    · exact ⟨a, ha, b, mem_union.mpr (.inl hb), hab⟩
    · exact ⟨a, ha, b, mem_union.mpr (.inr hb), hab⟩

theorem union_overlaps (s t u : AccessSet) : (s ∪ t).overlaps u = (s.overlaps u || t.overlaps u) := by
  rw [overlaps_comm, overlaps_union, overlaps_comm u s, overlaps_comm u t]

end AccessSet

namespace Footprint

variable {f f' g g' : Footprint}

theorem reads_union (f g : Footprint) : (f ∪ g).reads = f.reads ∪ g.reads := rfl

theorem writes_union (f g : Footprint) : (f ∪ g).writes = f.writes ∪ g.writes := rfl

theorem ext (hreads : f.reads = g.reads) (hwrites : f.writes = g.writes) : f = g := by
  cases f
  cases g
  cases hreads
  cases hwrites
  rfl

/-- No reads and no writes but those of the other footprint. -/
instance : HasSubset Footprint := ⟨fun f g => f.reads ⊆ g.reads ∧ f.writes ⊆ g.writes⟩

theorem union_assoc (f g h : Footprint) : f ∪ g ∪ h = f ∪ (g ∪ h) :=
  ext (AccessSet.union_assoc _ _ _) (AccessSet.union_assoc _ _ _)

theorem union_comm (f g : Footprint) : f ∪ g = g ∪ f := ext (AccessSet.union_comm _ _) (AccessSet.union_comm _ _)

theorem union_self (f : Footprint) : f ∪ f = f := ext (AccessSet.union_self _) (AccessSet.union_self _)

theorem union_empty (f : Footprint) : f ∪ ∅ = f := ext (AccessSet.union_empty _) (AccessSet.union_empty _)

theorem empty_union (f : Footprint) : ∅ ∪ f = f := (union_comm ∅ f).trans (union_empty f)

theorem union_eq_of_subset (h : f ⊆ g) : f ∪ g = g :=
  ext (AccessSet.union_eq_of_subset h.1) (AccessSet.union_eq_of_subset h.2)

theorem independent_comm (f g : Footprint) : f.independent g = g.independent f := by
  unfold independent
  rw [AccessSet.overlaps_comm f.writes g.writes]
  cases f.writes.overlaps g.reads <;> cases g.writes.overlaps f.reads <;> simp

theorem independent_union (f g h : Footprint) :
    f.independent (g ∪ h) = (f.independent g && f.independent h) := by
  simp only [independent, reads_union, writes_union, AccessSet.overlaps_union, AccessSet.union_overlaps,
    Bool.not_or]
  ac_rfl

/-- What is independent of a footprint is independent of the smaller ones. -/
theorem independent_of_subset (hg : g' ⊆ g) (h : f.independent g = true) : f.independent g' = true := by
  rw [← union_eq_of_subset hg, independent_union, Bool.and_eq_true] at h
  exact h.1

/-- Footprints form a semilattice with the empty footprint as its unit. Independence is symmetric, a footprint
is independent of two together exactly if it is independent of both, and to take reads or writes away from
either side never makes independent operations dependent. -/
theorem semilattice (f g h : Footprint) :
    (f ∪ g ∪ h = f ∪ (g ∪ h) ∧ f ∪ g = g ∪ f ∧ f ∪ f = f ∧ f ∪ ∅ = f ∧ ∅ ∪ f = f) ∧
      f.independent g = g.independent f ∧
      (f.independent (g ∪ h) = true ↔ f.independent g = true ∧ f.independent h = true) ∧
      ∀ f' g' : Footprint, f' ⊆ f → g' ⊆ g → f.independent g = true → f'.independent g' = true := by
  refine ⟨⟨union_assoc f g h, union_comm f g, union_self f, union_empty f, empty_union f⟩, independent_comm f g, ?_, ?_⟩
  · rw [independent_union, Bool.and_eq_true]
  · intro f' g' hf hg hindependent
    have hright : f.independent g' = true := independent_of_subset hg hindependent
    rw [independent_comm] at hright ⊢
    exact independent_of_subset hf hright

/-- A write of `a[0]` is independent of reads of `a[1]` and `a[2]`, and so of the first one alone, but not of
these together with a read of `a[*]`. -/
theorem semilattice_of_elements :
    let a (s : Slot) : Access := ⟨⟨0, s⟩, []⟩
    let f : Footprint := ⟨∅, .ofList [a (.element 0)]⟩
    let g : Footprint := ⟨.ofList [a (.element 1), a (.element 2)], ∅⟩
    let g' : Footprint := ⟨.ofList [a (.element 1)], ∅⟩
    let h : Footprint := ⟨.ofList [a .anyElement], ∅⟩
    g' ⊆ g ∧ f.independent g = true ∧ f.independent g' = true ∧ f.independent (g ∪ h) = false := by
  intro a f g g' h
  obtain ⟨-, -, hunion, hsmaller⟩ := semilattice f g h
  have hreads : g'.reads ⊆ g.reads := by simp [AccessSet.subset_iff, g, g']
  have hsubset : g' ⊆ g := ⟨hreads, fun _ => id⟩
  have hg : f.independent g = true := by decide
  have hh : f.independent h = false := by decide
  have hfirst := hsmaller f g' ⟨fun _ => id, fun _ => id⟩ hsubset hg
  refine ⟨hsubset, hg, hfirst, ?_⟩
  rw [← Bool.not_eq_true, hunion, hh]
  simp

end Footprint
end Promela
