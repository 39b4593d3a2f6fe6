import Promela.Declarations

/-! Accesses to storage: which variable, which of its elements, and which field below. Accesses are
plain identities, so two reads of `a[i]` and `a[j]` are the one access `a[*]`. -/
namespace Promela

/-- The part of a variable that is touched: a scalar, an element known beforehand, or an element
chosen at run time, which stands for all of them. -/
inductive Slot
  | scalar
  | element (index : Nat)
  | anyElement
deriving DecidableEq

namespace Slot

def rank : Slot → Nat
  | scalar => 0 | element _ => 1 | anyElement => 2

def index : Slot → Nat
  | element n => n
  | _ => 0

instance : Ord Slot := ⟨compareLex (compareOn rank) (compareOn index)⟩

instance : Std.TransOrd Slot :=
  inferInstanceAs (Std.TransCmp (compareLex (compareOn rank) (compareOn index)))

instance : Std.LawfulEqOrd Slot where
  eq_of_compare {s t} h := by
    have h : (compare s.rank t.rank).then (compare s.index t.index) = .eq := h
    rw [Ordering.then_eq_eq, Nat.compare_eq_eq, Nat.compare_eq_eq] at h
    cases s <;> cases t <;> simp_all [rank, index]

/-- Only two different known elements are apart. -/
def meets : Slot → Slot → Bool
  | element m, element n => m == n
  | _, _ => true

def text : Slot → String
  | scalar => ""
  | element n => s!"[{n}]"
  | anyElement => "[*]"

end Slot

/-- One step of an access: a variable and the part of it. -/
structure Selection where
  id : VarId
  slot : Slot
deriving DecidableEq

namespace Selection

instance : Ord Selection := ⟨compareLex (compareOn id) (compareOn slot)⟩

instance : Std.TransOrd Selection :=
  inferInstanceAs (Std.TransCmp (compareLex (compareOn id) (compareOn slot)))

instance : Std.LawfulEqOrd Selection where
  eq_of_compare {a b} h := by
    have h : (compare a.id b.id).then (compare a.slot b.slot) = .eq := h
    rw [Ordering.then_eq_eq, Nat.compare_eq_eq, Std.LawfulEqOrd.compare_eq_iff_eq] at h
    cases a; cases b; simp_all

end Selection

/-- A root selection and the selections of fields below it. -/
structure Access where
  root : Selection
  fields : List Selection
deriving DecidableEq

namespace Access

def selections (a : Access) : List Selection := a.root :: a.fields

/-- By variable, then part, then field; an access without the field comes first. -/
instance : Ord Access := ⟨compareOn selections⟩

instance : Std.TransOrd Access := inferInstanceAs (Std.TransCmp (compareOn selections))

instance : Std.LawfulEqOrd Access where
  eq_of_compare {a b} h := by
    have h : a.selections = b.selections := Std.LawfulEqOrd.eq_of_compare (h : compare _ _ = _)
    cases a; cases b; simp_all [selections]

/-- The field `b` of the storage that `a` accesses. -/
def below (a : Selection) (b : Access) : Access := ⟨a, b.selections⟩

def overlapping : List Selection → List Selection → Bool
  | a :: as, b :: bs => a.id == b.id && a.slot.meets b.slot && overlapping as bs
  | _, _ => true

/-- Whether both may touch the same cell. -/
def overlaps (a b : Access) : Bool := overlapping a.selections b.selections

end Access

namespace Declarations

/-- A variable the table does not hold is shown by its id. -/
def nameOf (d : Declarations) (id : VarId) : String :=
  match d.get? id with
  | some v => v.name
  | none => s!"#{id}"

def accessText (d : Declarations) (a : Access) : String :=
  ".".intercalate (a.selections.map fun s => d.nameOf s.id ++ s.slot.text)

end Declarations

end Promela
