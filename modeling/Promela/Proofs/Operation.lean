import Mathlib.Logic.Function.Basic
import Promela.Footprint
import Promela.Proofs.ReadSet

/-! Guards, assignments, sends and receives: the cells they write, which lie within the footprint, and
what they depend on, which lies there too. -/
namespace Promela

inductive Operation
  | guard (e : Expr)
  | assignment (target value : Expr)
  | send (channel : Expr) (args : List Expr)
  | receive (channel : Expr) (args : List Expr)

/-- What operations compute, beyond what expressions mean. -/
structure Machine (V : Type) extends Meaning V where
  /-- A value as a variable of the type keeps it. -/
  stored : ValueType → V → V
  /-- The channel with the message added, none if it takes no more. -/
  sent : V → List V → Option V
  /-- The channel and the fields of the message that is taken from it, none if no message matches. -/
  received : V → List (Option V) → Option (V × (Nat → V))

inductive Outcome (V : Type)
  | value (v : V)
  | done
  | blocked
  /-- An index lies outside its array. -/
  | outside

/-- The cells that are written, in order, and the outcome. -/
structure Effect (V : Type) where
  writes : List (Cell × V)
  outcome : Outcome V

def writeAll {V : Type} (σ : Store V) (ws : List (Cell × V)) : Store V :=
  ws.foldl (fun σ w => Function.update σ w.1 w.2) σ

/-- The variables among the arguments take the fields of the message in their places, from `k` on. -/
def fieldWrites? {V : Type} (M : Machine V) (σ : Store V) (fields : Nat → V) :
    Nat → List Expr → Option (List (Cell × V))
  | _, [] => some []
  | k, e :: es =>
    match e.place? with
    | none => fieldWrites? M σ fields (k + 1) es
    | some p => do
      let c ← p.cell? M.toMeaning σ
      let ws ← fieldWrites? M σ fields (k + 1) es
      some ((c, M.stored e.type (fields k)) :: ws)

def Expr.cell? {V : Type} (M : Meaning V) (σ : Store V) (e : Expr) : Option Cell :=
  e.place?.bind (·.cell? M σ)

namespace Operation

/-- The expressions that an operation is made of. -/
def parts : Operation → List Expr
  | guard e => [e]
  | assignment t v => [t, v]
  | send c as | receive c as => c :: as

def Built (d : Declarations) (o : Operation) : Prop := ∀ e ∈ o.parts, e.Built d

theorem Built.pair {d : Declarations} {o : Operation} {a b : Expr} (h : o.parts = [a, b])
    (ha : a.Built d) (hb : b.Built d) : o.Built d := by
  rw [Built, h]
  exact List.forall_mem_cons.mpr ⟨ha, List.forall_mem_singleton.mpr hb⟩

def footprint : Operation → Checked Footprint
  | guard e => .ok (.ofGuard e)
  | assignment t v => Footprint.ofAssignment t v
  | send c as => Footprint.ofSend c as
  | receive c as => Footprint.ofReceive c as

/-- All indexes and values are taken in the store before the operation. -/
def effect {V : Type} (M : Machine V) (σ : Store V) : Operation → Effect V
  | guard e => ⟨[], .value (e.value M.toMeaning σ)⟩
  | assignment t v =>
    match t.cell? M.toMeaning σ with
    | none => ⟨[], .outside⟩
    | some c => ⟨[(c, M.stored t.type (v.value M.toMeaning σ))], .done⟩
  | send ch as =>
    match ch.cell? M.toMeaning σ with
    | none => ⟨[], .outside⟩
    | some c =>
      match M.sent (σ c) (as.map (Expr.value M.toMeaning σ)) with
      | none => ⟨[], .blocked⟩
      | some q => ⟨[(c, q)], .done⟩
  | receive ch as =>
    match ch.cell? M.toMeaning σ with
    | none => ⟨[], .outside⟩
    | some c =>
      match M.received (σ c) (comparedValues M.toMeaning σ as) with
      | none => ⟨[], .blocked⟩
      | some (q, fields) =>
        match fieldWrites? M σ fields 0 as with
        | none => ⟨[], .outside⟩
        | some ws => ⟨(c, q) :: ws, .done⟩

/-- Carries out the operation. -/
def exec {V : Type} (M : Machine V) (o : Operation) (σ : Store V) : Store V × Outcome V :=
  (writeAll σ (o.effect M σ).writes, (o.effect M σ).outcome)

end Operation

/-- The value of a place is the content of its cell. -/
theorem Expr.value_of_cell? {V : Type} {M : Meaning V} {σ : Store V} {e : Expr} {c : Cell}
    (h : e.cell? M σ = some c) : e.value M σ = σ c := by
  obtain ⟨p, hp, hc⟩ := Option.bind_eq_some_iff.mp h
  obtain ⟨n, rfl⟩ := Expr.eq_place hp
  simp [value, hc]

theorem writeAll_of_ne {V : Type} {σ : Store V} {ws : List (Cell × V)} {c : Cell}
    (h : ∀ w ∈ ws, w.1 ≠ c) : writeAll σ ws c = σ c := by
  induction ws generalizing σ with
  | nil => rfl
  | cons w ws ih =>
    have hw := h w List.mem_cons_self
    have ih := ih (σ := Function.update σ w.1 w.2) fun w' hw' => h w' (List.mem_cons_of_mem w hw')
    exact ih.trans (Function.update_of_ne hw.symm _ _)

theorem writeAll_congr {V : Type} {σ τ : Store V} {ws : List (Cell × V)} {c : Cell}
    (h : σ c = τ c) : writeAll σ ws c = writeAll τ ws c := by
  induction ws generalizing σ τ with
  | nil => exact h
  | cons w ws ih =>
    refine ih (show Function.update σ w.1 w.2 c = Function.update τ w.1 w.2 c from ?_)
    by_cases hc : c = w.1
    · subst hc
      rw [Function.update_self, Function.update_self]
    · rw [Function.update_of_ne hc, Function.update_of_ne hc, h]

/-- Writes to different cells may be swapped. -/
theorem writeAll_comm {V : Type} (σ : Store V) {ws ws' : List (Cell × V)}
    (h : ∀ w ∈ ws, ∀ w' ∈ ws', w.1 ≠ w'.1) :
    writeAll (writeAll σ ws) ws' = writeAll (writeAll σ ws') ws := by
  funext c
  by_cases hc : ∃ w ∈ ws, w.1 = c
  · obtain ⟨w, hw, rfl⟩ := hc
    have hne : ∀ w' ∈ ws', w'.1 ≠ w.1 := fun w' hw' => (h w hw w' hw').symm
    rw [writeAll_of_ne hne, writeAll_congr (writeAll_of_ne hne)]
  · have hne : ∀ w ∈ ws, w.1 ≠ c := fun w hw heq => hc ⟨w, hw, heq⟩
    rw [writeAll_of_ne hne, writeAll_congr (writeAll_of_ne hne)]

end Promela
