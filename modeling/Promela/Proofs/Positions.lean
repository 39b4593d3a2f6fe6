import Promela.Analysis
import Promela.Proofs.Rejections

/-! Lines and columns count from 1 in all that a model keeps of its text. -/
namespace Promela

def Position.Counted (p : Position) : Prop := 1 ≤ p.line ∧ 1 ≤ p.column

structure Span.Counted (s : Span) : Prop where
  start : s.start.Counted
  stop : s.stop.Counted

namespace Position.Counted

variable {p : Position}

theorem next (h : p.Counted) (c : Char) : (p.next c).Counted := by
  unfold Position.next
  split
  · exact ⟨Nat.le_succ_of_le h.1, Nat.le_refl 1⟩
  · exact ⟨h.1, Nat.le_succ_of_le h.2⟩

theorem advance (h : p.Counted) (text : List Char) : (p.advance text).Counted := by
  induction text generalizing p with
  | nil => exact h
  | cons c text ih => exact ih (h.next c)

end Position.Counted

/-- What an analysis reports of a model stands where the model says. -/
theorem Model.Spanned.entries {P : Span → Prop} {m : Model} (h : m.Spanned P) :
    ∀ e ∈ (Analysis.ofModel m).entries, P e.span := by
  intro e he
  rcases List.mem_append.mp he with he | he
  · obtain ⟨d, hd, rfl⟩ := List.mem_map.mp he
    exact (h.exprs d.body (List.mem_append_left _ (List.mem_map_of_mem hd))).root
  · obtain ⟨i, hi, rfl⟩ := List.mem_map.mp he
    exact (h.exprs i.value (List.mem_append_right _ (List.mem_map_of_mem hi))).root

end Promela
