import Promela.Proofs.Places
import Promela.Proofs.ReadSet

/-! Channels by handle: a channel cell holds a handle, and what is asked of the channel is answered by the
queue behind it. Apart from the store, an expression depends on the queues behind its channel operands only. -/
namespace Promela

/-- Queries and polls look at the queue behind the handle that they are given. -/
def Meaning.behind {V : Type} (M : Meaning V) (queues : V → V) : Meaning V :=
  { M with
    query := fun op h => M.query op (queues h)
    poll := fun h as => M.poll (queues h) as }

theorem Meaning.Folds.behind {V : Type} {M : Meaning V} (h : M.Folds) (queues : V → V) :
    (M.behind queues).Folds where
  unary := h.unary
  binary := h.binary
  ternary := h.ternary
  eval := h.eval
  element := h.element

mutual

/-- The operands of all queries and polls in the expression, at any depth. -/
def Expr.channels : Expr → List Expr
  | .bool .. | .int .. | .mtype .. => []
  | .place _ p => p.channels
  | .unary _ _ e | .eval _ e => e.channels
  | .binary _ _ l r => l.channels ++ r.channels
  | .ternary _ c a b => c.channels ++ a.channels ++ b.channels
  | .query _ _ c => c :: c.channels
  | .poll _ c as => c :: c.channels ++ channelsOfArgs as

/-- The channel operands within the indexes. -/
def Place.channels : Place → List Expr
  | .leaf _ i => channelsOfIndex i
  | .field _ i p => channelsOfIndex i ++ p.channels

def channelsOfIndex : Option Expr → List Expr
  | none => []
  | some e => e.channels

def channelsOfArgs : List Expr → List Expr
  | [] => []
  | e :: es => e.channels ++ channelsOfArgs es

end

theorem Place.channels_eq : ∀ p : Place, p.channels = p.indexes.flatMap Expr.channels
  | .leaf v i => by cases i <;> simp [channels, channelsOfIndex, indexes]
  | .field v i p => by
    have ih := channels_eq p
    cases i <;> simp [channels, channelsOfIndex, indexes, ih]

theorem channelsOfArgs_eq (as : List Expr) : channelsOfArgs as = as.flatMap Expr.channels := by
  induction as with
  | nil => rfl
  | cons a as ih => simp [channelsOfArgs, ih]

/-- As an argument, an expression is read no more than on its own. -/
theorem pollReadList_subset (e : Expr) : pollReadList [e] ⊆ e.readList := by
  cases ha : e.place? with
  | none => simp [pollReadList_cons ha, pollReadList]
  | some p =>
    obtain ⟨n, rfl⟩ := Expr.eq_place ha
    simp [pollReadList, Expr.readList]

variable {V : Type} {d : Declarations} {M : Meaning V} {σ : Store V} {queues queues' : V → V}

/-- What a channel operand reads is read by the expression, even where a place itself is not read. -/
theorem Expr.Built.channels_reads (hd : d.Coherent) {e : Expr} (he : e.Built d) :
    ∀ c ∈ e.channels, c.readList ⊆ pollReadList [e] := by
  have hbelow : ∀ {a : Expr} {rs : List Access}, (∀ c ∈ a.channels, c.readList ⊆ pollReadList [a]) →
      a.readList ⊆ rs → ∀ c ∈ a.channels, c.readList ⊆ rs := fun ih hsub c hc _ hr =>
    hsub (pollReadList_subset _ (ih c hc hr))
  refine he.nodes hd (P := fun e => ∀ c ∈ e.channels, c.readList ⊆ pollReadList [e])
    ?bool ?int ?mtype ?place ?unary ?binary ?ternary ?query ?poll ?eval
  case bool => exact fun _ _ _ hc => absurd hc List.not_mem_nil
  case int => exact fun _ _ _ _ hc => absurd hc List.not_mem_nil
  case mtype => exact fun _ _ _ hc => absurd hc List.not_mem_nil
  case place =>
    intro n p _ _ hindexes c hc
    obtain ⟨i, hi, hc⟩ : ∃ i ∈ p.indexes, c ∈ i.channels := by
      simpa only [channels, Place.channels_eq, List.mem_flatMap] using hc
    have hi' : i.readList ⊆ pollReadList [.place n p] := fun r hr => by
      rw [pollReadList, pollReadList, List.append_nil, Place.indexReadList_eq]
      exact List.mem_flatMap.mpr ⟨i, hi, hr⟩
    exact hbelow (hindexes i hi).2 hi' c hc
  case unary =>
    intro n op a _ _ ih
    exact hbelow (a := a) ih (by simp [pollReadList, readList])
  case binary =>
    intro n op l r _ _ _ ihl ihr
    refine List.forall_mem_append.mpr ⟨hbelow ihl ?_, hbelow ihr ?_⟩ <;> simp [pollReadList, readList]
  case ternary =>
    intro n c a b _ _ _ _ ihc iha ihb
    refine List.forall_mem_append.mpr ⟨List.forall_mem_append.mpr ⟨hbelow ihc ?_, hbelow iha ?_⟩,
      hbelow ihb ?_⟩ <;> simp [pollReadList, readList]
  case query =>
    intro n op c _ _ ih
    have hc : c.readList ⊆ pollReadList [.query n op c] := by simp [pollReadList, readList]
    exact List.forall_mem_cons.mpr ⟨hc, hbelow ih hc⟩
  case poll =>
    intro n c as _ _ ihc ihas
    have hc : c.readList ⊆ pollReadList [.poll n c as] := by simp [pollReadList, readList]
    refine List.forall_mem_cons.mpr ⟨hc, List.forall_mem_append.mpr ⟨hbelow ihc hc, fun b hb => ?_⟩⟩
    rw [channelsOfArgs_eq] at hb
    obtain ⟨a, ha, hb⟩ := List.mem_flatMap.mp hb
    refine List.Subset.trans ((ihas a ha).2 b hb) fun r hr => ?_
    have hargs : r ∈ pollReadList as := by
      rw [pollReadList_eq]
      exact List.mem_flatMap.mpr ⟨a, ha, hr⟩
    simp [pollReadList, readList, hargs]
  case eval =>
    intro n a _ _ ih
    exact hbelow (a := a) ih (by simp [pollReadList, readList])

/-- The queues behind other handles than those of the channel operands do not matter. -/
theorem Expr.Built.value_behind (hd : d.Coherent) {e : Expr} (he : e.Built d) :
    (∀ c ∈ e.channels, queues' (c.value (M.behind queues) σ) = queues (c.value (M.behind queues) σ)) →
      e.value (M.behind queues') σ = e.value (M.behind queues) σ := by
  refine he.nodes hd (P := fun e =>
    (∀ c ∈ e.channels, queues' (c.value (M.behind queues) σ) = queues (c.value (M.behind queues) σ)) →
      e.value (M.behind queues') σ = e.value (M.behind queues) σ)
    ?bool ?int ?mtype ?place ?unary ?binary ?ternary ?query ?poll ?eval
  case bool => exact fun _ _ _ => rfl
  case int => exact fun _ _ _ _ => rfl
  case mtype => exact fun _ _ _ => rfl
  case place =>
    intro n p _ _ hindexes h
    have hcell : p.cell? (M.behind queues') σ = p.cell? (M.behind queues) σ := by
      refine Place.cell?_congr (M := M.behind queues') (N := M.behind queues) rfl fun i hi =>
        (hindexes i hi).2 fun c hc => h c ?_
      rw [channels, Place.channels_eq]
      exact List.mem_flatMap.mpr ⟨i, hi, hc⟩
    rw [value, value, hcell]
    rfl
  case unary =>
    intro n op a _ _ ih h
    rw [value, value, ih h]
    rfl
  case binary =>
    intro n op l r _ _ _ ihl ihr h
    obtain ⟨hl, hr⟩ := List.forall_mem_append.mp h
    rw [value, value, ihl hl, ihr hr]
    rfl
  case ternary =>
    intro n c a b _ _ _ _ ihc iha ihb h
    obtain ⟨hca, hb⟩ := List.forall_mem_append.mp h
    obtain ⟨hc, ha⟩ := List.forall_mem_append.mp hca
    rw [value, value, ihc hc, iha ha, ihb hb]
    rfl
  case query =>
    intro n op c _ _ ih h
    obtain ⟨hqueue, hc⟩ := List.forall_mem_cons.mp h
    rw [value, value, ih hc]
    exact congrArg (M.query op) hqueue
  case poll =>
    intro n c as _ _ ihc ihas h
    obtain ⟨hqueue, h⟩ := List.forall_mem_cons.mp h
    obtain ⟨hc, has⟩ := List.forall_mem_append.mp h
    have has : comparedValues (M.behind queues') σ as = comparedValues (M.behind queues) σ as := by
      refine comparedValues_congr fun a ha _ => (ihas a ha).2 fun b hb => has b ?_
      rw [channelsOfArgs_eq]
      exact List.mem_flatMap.mpr ⟨a, ha, hb⟩
    rw [value, value, ihc hc, has]
    exact congrArg (M.poll · _) hqueue
  case eval =>
    intro n a _ _ ih h
    rw [value, value, ih h]
    rfl

theorem Expr.Built.cell?_behind (hd : d.Coherent) {n : Note} {p : Place} (he : (Expr.place n p).Built d)
    (h : ∀ c ∈ (Expr.place n p).channels,
      queues' (c.value (M.behind queues) σ) = queues (c.value (M.behind queues) σ)) :
    p.cell? (M.behind queues') σ = p.cell? (M.behind queues) σ := by
  obtain ⟨-, -, hindexes⟩ := he.place_fits hd
  refine Place.cell?_congr (M := M.behind queues') (N := M.behind queues) rfl fun i hi =>
    (hindexes i hi).value_behind hd fun c hc => h c ?_
  rw [channels, Place.channels_eq]
  exact List.mem_flatMap.mpr ⟨i, hi, hc⟩

end Promela
