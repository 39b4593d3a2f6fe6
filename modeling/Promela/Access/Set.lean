import Promela.Access

/-! Sets of accesses as strictly ascending lists, so that a set has one form only. -/
namespace Promela

/-- `a` put in its place among ascending accesses, unless it is there already. -/
def insertAscending (a : Access) : List Access → List Access
  | [] => [a]
  | b :: bs =>
    match compare a b with
    | .lt => a :: b :: bs
    | .eq => b :: bs
    | .gt => b :: insertAscending a bs

abbrev Ascending (xs : List Access) : Prop := xs.Pairwise fun a b => compare a b = .lt

theorem mem_insertAscending {a x : Access} {xs : List Access} :
    x ∈ insertAscending a xs ↔ x = a ∨ x ∈ xs := by
  induction xs with
  | nil => simp [insertAscending]
  | cons b bs ih =>
    simp only [insertAscending]
    split
    · simp
    · rename_i h
      simp [Std.LawfulEqOrd.eq_of_compare h]
    · simp [ih, or_left_comm]

theorem Ascending.insert (a : Access) {xs : List Access} (h : Ascending xs) :
    Ascending (insertAscending a xs) := by
  induction xs with
  | nil => simp [insertAscending, Ascending]
  | cons b bs ih =>
    obtain ⟨hb, hbs⟩ := List.pairwise_cons.mp h
    simp only [insertAscending]
    split
    · rename_i hab
      refine List.pairwise_cons.mpr ⟨fun c hc => ?_, h⟩
      rcases List.mem_cons.mp hc with rfl | hc
      · exact hab
      · exact Std.TransCmp.lt_trans hab (hb c hc)
    · exact h
    · rename_i hab
      refine List.pairwise_cons.mpr ⟨fun c hc => ?_, ih hbs⟩
      rcases mem_insertAscending.mp hc with rfl | hc
      · exact Std.OrientedCmp.lt_of_gt hab
      · exact hb c hc

structure AccessSet where
  toList : List Access
  ascending : Ascending toList

namespace AccessSet

instance : DecidableEq AccessSet := fun s t =>
  decidable_of_iff (s.toList = t.toList) (by cases s; cases t; simp)

def empty : AccessSet := ⟨[], .nil⟩

instance : EmptyCollection AccessSet := ⟨empty⟩

instance : Membership Access AccessSet := ⟨fun s a => a ∈ s.toList⟩

def insert (s : AccessSet) (a : Access) : AccessSet := ⟨insertAscending a s.toList, s.ascending.insert a⟩

def insertAll (s : AccessSet) (as : List Access) : AccessSet := as.foldl insert s

def ofList (as : List Access) : AccessSet := insertAll ∅ as

def union (s t : AccessSet) : AccessSet := s.insertAll t.toList

instance : Union AccessSet := ⟨union⟩

def size (s : AccessSet) : Nat := s.toList.length

/-- Whether some access of `s` may touch what some access of `t` touches. -/
def overlaps (s t : AccessSet) : Bool := s.toList.any fun a => t.toList.any a.overlaps

@[simp] theorem mem_toList {s : AccessSet} {a : Access} : a ∈ s.toList ↔ a ∈ s := .rfl

@[simp] theorem mem_insert {s : AccessSet} {a b : Access} : b ∈ s.insert a ↔ b = a ∨ b ∈ s :=
  mem_insertAscending

@[simp] theorem not_mem_empty (a : Access) : a ∉ (∅ : AccessSet) := List.not_mem_nil

@[simp] theorem mem_insertAll {s : AccessSet} {as : List Access} {b : Access} :
    b ∈ s.insertAll as ↔ b ∈ as ∨ b ∈ s := by
  induction as generalizing s with
  | nil => simp [insertAll]
  | cons a as ih =>
    show b ∈ (s.insert a).insertAll as ↔ _
    simp [ih, or_assoc, or_left_comm]

@[simp] theorem mem_ofList {as : List Access} {b : Access} : b ∈ ofList as ↔ b ∈ as := by
  simp [ofList]

@[simp] theorem mem_union {s t : AccessSet} {b : Access} : b ∈ s ∪ t ↔ b ∈ s ∨ b ∈ t := by
  show b ∈ s.insertAll t.toList ↔ _
  simp [or_comm]

end AccessSet
end Promela
