import Promela.Expr.Reads
import Promela.Proofs.Building

/-! The places and the constants in an expression, at any depth, the variables that places are made of, and the
accesses that the expression reads through them. -/
namespace Promela

/-- The root and the fields below it. -/
def Place.vars : Place → List Variable
  | .leaf v _ => [v]
  | .field v _ p => v :: p.vars

theorem Place.var_mem_vars (p : Place) : p.var ∈ p.vars := by
  cases p <;> exact List.mem_cons_self

mutual

/-- All places in the expression, those within indexes included. -/
def Expr.places : Expr → List Place
  | .bool .. | .int .. | .mtype .. => []
  | .place _ p => p :: p.placesBelow
  | .unary _ _ e | .query _ _ e | .eval _ e => e.places
  | .binary _ _ l r => l.places ++ r.places
  | .ternary _ c a b => c.places ++ a.places ++ b.places
  | .poll _ c as => c.places ++ placesOfArgs as

/-- The places within the indexes. -/
def Place.placesBelow : Place → List Place
  | .leaf _ i => placesOfIndex i
  | .field _ i p => placesOfIndex i ++ p.placesBelow

def placesOfIndex : Option Expr → List Place
  | none => []
  | some e => e.places

def placesOfArgs : List Expr → List Place
  | [] => []
  | e :: es => e.places ++ placesOfArgs es

end

mutual

/-- The codes of all mtype constants in the expression, at any depth. -/
def Expr.mtypeCodes : Expr → List Nat
  | .bool .. | .int .. => []
  | .mtype _ code => [code]
  | .place _ p => p.mtypeCodes
  | .unary _ _ e | .query _ _ e | .eval _ e => e.mtypeCodes
  | .binary _ _ l r => l.mtypeCodes ++ r.mtypeCodes
  | .ternary _ c a b => c.mtypeCodes ++ a.mtypeCodes ++ b.mtypeCodes
  | .poll _ c as => c.mtypeCodes ++ mtypeCodesOfArgs as

def Place.mtypeCodes : Place → List Nat
  | .leaf _ i => mtypeCodesOfIndex i
  | .field _ i p => mtypeCodesOfIndex i ++ p.mtypeCodes

def mtypeCodesOfIndex : Option Expr → List Nat
  | none => []
  | some e => e.mtypeCodes

def mtypeCodesOfArgs : List Expr → List Nat
  | [] => []
  | e :: es => e.mtypeCodes ++ mtypeCodesOfArgs es

end

theorem Place.placesBelow_eq : ∀ p : Place, p.placesBelow = p.indexes.flatMap Expr.places
  | .leaf v i => by cases i <;> simp [placesBelow, placesOfIndex, indexes]
  | .field v i p => by
    have ih := placesBelow_eq p
    cases i <;> simp [placesBelow, placesOfIndex, indexes, ih]

theorem placesOfArgs_eq (as : List Expr) : placesOfArgs as = as.flatMap Expr.places := by
  induction as with
  | nil => rfl
  | cons a as ih => simp [placesOfArgs, ih]

/-- An access names the variables of its place from the root inwards. -/
theorem Place.map_id_selections : ∀ p : Place, p.access.selections.map Selection.id = p.vars.map Variable.id
  | .leaf v i => rfl
  | .field v i p => by
    have ih := map_id_selections p
    simp only [access, Access.below, Access.selections, vars, List.map_cons] at ih ⊢
    rw [ih]

theorem pollReadList_sublist (e : Expr) (es : List Expr) :
    (pollReadList (e :: es)).Sublist (e.readList ++ pollReadList es) := by
  cases e with
  | place n p => exact (List.sublist_cons_self p.access p.indexReadList).append (List.Sublist.refl _)
  | _ => exact List.Sublist.refl _

mutual

/-- All that an expression reads are accesses of its places. -/
theorem Expr.readList_sublist : ∀ e : Expr, e.readList.Sublist (e.places.map Place.access)
  | .bool .. | .int .. | .mtype .. => List.nil_sublist _
  | .place _ p => p.indexReadList_sublist.cons_cons p.access
  | .unary _ _ e => e.readList_sublist
  | .query _ _ e => e.readList_sublist
  | .eval _ e => e.readList_sublist
  | .binary _ _ l r => by
    rw [Expr.readList, Expr.places, List.map_append]
    exact l.readList_sublist.append r.readList_sublist
  | .ternary _ c a b => by
    rw [Expr.readList, Expr.places, List.map_append, List.map_append]
    exact (c.readList_sublist.append a.readList_sublist).append b.readList_sublist
  | .poll _ c as => by
    rw [Expr.readList, Expr.places, List.map_append]
    exact c.readList_sublist.append (pollReadList_sublist_args as)

theorem Place.indexReadList_sublist (p : Place) :
    p.indexReadList.Sublist (p.placesBelow.map Place.access) := by
  cases p with
  | leaf _ i => exact subscriptReadList_sublist i
  | field _ i p =>
    rw [Place.indexReadList, Place.placesBelow, List.map_append]
    exact (subscriptReadList_sublist i).append p.indexReadList_sublist

theorem subscriptReadList_sublist : ∀ i : Option Expr,
    (subscriptReadList i).Sublist ((placesOfIndex i).map Place.access)
  | none => List.nil_sublist _
  | some e => e.readList_sublist

theorem pollReadList_sublist_args : ∀ as : List Expr,
    (pollReadList as).Sublist ((placesOfArgs as).map Place.access)
  | [] => List.nil_sublist _
  | e :: es => by
    rw [placesOfArgs, List.map_append]
    exact (pollReadList_sublist e es).trans (e.readList_sublist.append (pollReadList_sublist_args es))

end

end Promela
