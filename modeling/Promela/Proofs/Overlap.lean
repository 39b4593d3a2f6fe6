import Mathlib.Data.Set.Basic
import Promela.Proofs.Bounds

/-! Two accesses overlap exactly if some cell belongs to both. That no shared cell is missed holds of all
accesses. That there is one wherever they overlap holds of the accesses of one table, where all accesses of a
variable fit that variable, and no array and no typedef is empty. -/
namespace Promela

/-- The cells of the table that an access may touch. -/
def Declarations.cells (d : Declarations) (a : Access) : Set Cell := {c | d.HasCell c ∧ a.covers c}

/-- A variable of the table is accessed, or a field below it where it is of a typedef. Unlike an access that
is well formed, this one may leave open which field is meant. -/
inductive Access.Fits (d : Declarations) : Access → Prop
  | whole {v : Variable} {s : Slot} : v ∈ d.vars → s.Fits v → Access.Fits d ⟨⟨v.id, s⟩, []⟩
  | field {v : Variable} {s t : Slot} {r : Record} {f : Field} : v ∈ d.vars → s.Fits v →
      v.record? = some r → f ∈ r.fields → t.Fits f.toVariable → Access.Fits d ⟨⟨v.id, s⟩, [⟨f.id, t⟩]⟩

theorem Slot.meets_comm (s t : Slot) : s.meets t = t.meets s := by
  cases s <;> cases t <;> simp only [meets, Bool.beq_comm]

namespace Access

theorem overlapping_comm (as bs : List Selection) : overlapping as bs = overlapping bs as := by
  induction as generalizing bs with
  | nil => cases bs <;> rfl
  | cons a as ih =>
    cases bs with
    | nil => rfl
    | cons b bs => simp only [overlapping, ih bs, Slot.meets_comm a.slot b.slot, Bool.beq_comm (a := a.id)]

theorem overlaps_comm (a b : Access) : a.overlaps b = b.overlaps a :=
  overlapping_comm a.selections b.selections

end Access

theorem Variable.length_pos {v : Variable} (hlength : v.length ≠ some 0) : 0 < v.length.getD 1 := by
  cases hv : v.length with
  | none => exact Nat.one_pos
  | some n => exact Nat.pos_of_ne_zero fun hn : n = 0 => hlength (hn ▸ hv)

namespace Slot

variable {s t : Slot} {v : Variable}

theorem Fits.exists_covers (hlength : v.length ≠ some 0) (h : s.Fits v) : ∃ n < v.length.getD 1, s.covers n := by
  have hpos := Variable.length_pos hlength
  unfold Fits at h
  cases hv : v.length with
  | none =>
    rw [hv] at h
    exact ⟨0, Nat.one_pos, h ▸ rfl⟩
  | some n =>
    rw [hv] at h hpos
    rcases h with rfl | ⟨k, hk, rfl⟩
    · exact ⟨0, hpos, trivial⟩
    · exact ⟨k, hk, rfl⟩

/-- Parts of one variable that meet have an element in common. -/
theorem Fits.exists_covers_both (hlength : v.length ≠ some 0) (hs : s.Fits v) (ht : t.Fits v)
    (h : s.meets t = true) : ∃ n < v.length.getD 1, s.covers n ∧ t.covers n := by
  obtain ⟨m, hm, hsm⟩ := hs.exists_covers hlength
  obtain ⟨n, hn, htn⟩ := ht.exists_covers hlength
  cases s with
  | anyElement => exact ⟨n, hn, trivial, htn⟩
  | scalar =>
    cases t with
    | anyElement => exact ⟨m, hm, hsm, trivial⟩
    | scalar => exact ⟨m, hm, hsm, hsm⟩
    | element k =>
      -- a variable is an array for both or for none
      unfold Fits at hs ht
      cases hv : v.length <;> simp_all
  | element k =>
    cases t with
    | anyElement => exact ⟨m, hm, hsm, trivial⟩
    | scalar =>
      unfold Fits at hs ht
      cases hv : v.length <;> simp_all
    | element l =>
      obtain rfl : k = l := by simpa [meets] using h
      exact ⟨m, hm, hsm, hsm⟩

end Slot

namespace Declarations.HasCell

variable {d : Declarations} {v : Variable} {n : Nat}

theorem leaf (hv : v ∈ d.vars) (hn : n < v.length.getD 1) (hr : v.record? = none) :
    d.HasCell ⟨⟨v.id, n⟩, []⟩ := by
  refine ⟨v, hv, ⟨rfl, hn⟩, ?_⟩
  rw [hr]

theorem field (hv : v ∈ d.vars) (hn : n < v.length.getD 1) {r : Record} (hr : v.record? = some r) {f : Field}
    (hf : f ∈ r.fields) {k : Nat} (hk : k < f.length.getD 1) : d.HasCell ⟨⟨v.id, n⟩, [⟨f.id, k⟩]⟩ := by
  refine ⟨v, hv, ⟨rfl, hn⟩, ?_⟩
  rw [hr]
  exact ⟨f, hf, ⟨f.id, k⟩, ⟨rfl, hk⟩, rfl⟩

end Declarations.HasCell

namespace Access.Fits

variable {d : Declarations} {a b : Access}

theorem root (h : a.Fits d) : ∃ v ∈ d.vars, a.root.id = v.id ∧ a.root.slot.Fits v := by
  cases h with
  | whole hv hs => exact ⟨_, hv, rfl, hs⟩
  | field hv hs _ _ _ => exact ⟨_, hv, rfl, hs⟩

/-- Below each element of its variable that the access covers there is a cell that it covers. -/
theorem exists_cell (hd : d.Coherent) (h : a.Fits d) {v : Variable} (hv : v ∈ d.vars) (hid : a.root.id = v.id)
    {n : Nat} (hn : n < v.length.getD 1) (hcover : a.root.slot.covers n) :
    ∃ c ∈ d.cells a, c.root = ⟨v.id, n⟩ := by
  cases h with
  | @whole w s hw _ =>
    obtain rfl : w = v := hd.eq_of_id_eq hw hv hid
    cases hr : w.record? with
    | none => exact ⟨_, ⟨.leaf hw hn hr, ⟨rfl, hcover⟩, trivial⟩, rfl⟩
    | some r =>
      have hmem := hd.record_mem hw hr
      obtain ⟨f, hf⟩ := List.exists_mem_of_ne_nil _ (hd.fields_ne r hmem)
      have hpos := Variable.length_pos (hd.length_ne _ (hd.fields_mem r hmem f hf))
      exact ⟨_, ⟨.field hw hn hr hf hpos, ⟨rfl, hcover⟩, trivial⟩, rfl⟩
  | @field w s t r f hw _ hr hf ht =>
    obtain rfl : w = v := hd.eq_of_id_eq hw hv hid
    obtain ⟨k, hk, hfield⟩ := ht.exists_covers (hd.length_ne _ (hd.fields_mem r (hd.record_mem hw hr) f hf))
    exact ⟨_, ⟨.field hw hn hr hf hk, ⟨rfl, hcover⟩, ⟨rfl, hfield⟩, trivial⟩, rfl⟩

/-- Accesses that overlap are of one variable, in parts that have an element in common. -/
theorem exists_root (hd : d.Coherent) (ha : a.Fits d) (hb : b.Fits d) (h : a.overlaps b = true) :
    ∃ v ∈ d.vars, a.root.id = v.id ∧ b.root.id = v.id ∧
      ∃ n < v.length.getD 1, a.root.slot.covers n ∧ b.root.slot.covers n := by
  obtain ⟨v, hv, hav, has⟩ := ha.root
  obtain ⟨w, hw, hbw, hbs⟩ := hb.root
  simp only [overlaps, selections, overlapping, Bool.and_eq_true, beq_iff_eq] at h
  obtain ⟨⟨hid, hmeets⟩, -⟩ := h
  obtain rfl : v = w := hd.eq_of_id_eq hv hw (by rw [← hav, hid, hbw])
  exact ⟨v, hv, hav, hbw, has.exists_covers_both (hd.length_ne v hv) hbs hmeets⟩

/-- An access without a field covers whatever is below an element that it covers. -/
theorem shares_of_whole (hd : d.Coherent) (ha : a.Fits d) (hb : b.Fits d) (hwhole : a.fields = [])
    (h : a.overlaps b = true) : (d.cells a ∩ d.cells b).Nonempty := by
  obtain ⟨v, hv, hav, hbv, n, hn, han, hbn⟩ := ha.exists_root hd hb h
  obtain ⟨c, hc, hroot⟩ := hb.exists_cell hd hv hbv hn hbn
  have hselections : a.selections = [a.root] := by rw [selections, hwhole]
  refine ⟨c, ⟨hc.1, ?_⟩, hc⟩
  unfold covers
  rw [hselections]
  exact ⟨⟨by rw [hroot, hav], by rwa [hroot]⟩, trivial⟩

theorem shares_of_overlaps (hd : d.Coherent) (ha : a.Fits d) (hb : b.Fits d) (h : a.overlaps b = true) :
    (d.cells a ∩ d.cells b).Nonempty := by
  obtain ⟨v, hv, hav, hbv, n, hn, han, hbn⟩ := ha.exists_root hd hb h
  cases ha with
  | whole hw hs => exact shares_of_whole hd (.whole hw hs) hb rfl h
  | @field w s t r f hw hs hr hf ht =>
    cases hb with
    | whole hw' hs' =>
      rw [Set.inter_comm]
      rw [overlaps_comm] at h
      exact shares_of_whole hd (.whole hw' hs') (.field hw hs hr hf ht) rfl h
    | @field w' s' t' r' f' hw' hs' hr' hf' ht' =>
      obtain rfl : w = v := hd.eq_of_id_eq hw hv hav
      obtain rfl : w' = w := hd.eq_of_id_eq hw' hv hbv
      obtain rfl : r = r' := Option.some.inj (hr.symm.trans hr')
      simp only [overlaps, selections, overlapping, Bool.and_eq_true, beq_iff_eq] at h
      obtain ⟨-, ⟨hid, hmeets⟩, -⟩ := h
      have hmem := fun g hg => hd.fields_mem r (hd.record_mem hw hr) g hg
      have hvar : f.toVariable = f'.toVariable := hd.eq_of_id_eq (hmem f hf) (hmem f' hf') hid
      rw [← hvar] at ht'
      obtain ⟨k, hk, hfk, hfk'⟩ := ht.exists_covers_both (hd.length_ne _ (hmem f hf)) ht' hmeets
      exact ⟨⟨⟨w'.id, n⟩, [⟨f.id, k⟩]⟩, ⟨.field hw hn hr hf hk, ⟨rfl, han⟩, ⟨rfl, hfk⟩, trivial⟩,
        .field hw hn hr hf hk, ⟨rfl, hbn⟩, ⟨hid.symm, hfk'⟩, trivial⟩

theorem overlaps_iff (hd : d.Coherent) (ha : a.Fits d) (hb : b.Fits d) :
    a.overlaps b = true ↔ (d.cells a ∩ d.cells b).Nonempty :=
  ⟨shares_of_overlaps hd ha hb, fun ⟨_, hac, hbc⟩ => overlaps_of_covers hac.2 hbc.2⟩

/-- An access is never void, so it shares a cell with itself. -/
theorem overlaps_self (hd : d.Coherent) (ha : a.Fits d) : a.overlaps a = true := by
  obtain ⟨v, hv, hid, hs⟩ := ha.root
  obtain ⟨n, hn, hcover⟩ := hs.exists_covers (hd.length_ne v hv)
  obtain ⟨c, hc, -⟩ := ha.exists_cell hd hv hid hn hcover
  exact (ha.overlaps_iff hd ha).mpr ⟨c, hc, hc⟩

end Access.Fits

theorem Place.Fits.access_fits {d : Declarations} (hd : d.Coherent) {p : Place} (hp : p.Fits d) :
    p.access.Fits d := by
  cases hp with
  | leaf hv hi => exact .whole hv (slotOf_fits (hd.length_ne _ hv) hi)
  | field hv hi hr hf hj =>
    have hmem := hd.fields_mem _ (hd.record_mem hv hr) _ hf
    exact .field hv (slotOf_fits (hd.length_ne _ hv) hi) hr hf (slotOf_fits (hd.length_ne _ hmem) hj)

/-- The accesses of two places over one table overlap exactly if there is a cell that both may touch. The
places may stand for whole typedef values. -/
theorem Declarations.Reachable.overlaps_exact {d : Declarations} (hd : d.Reachable) {p q : Place}
    (hp : p.Built d) (hq : q.Built d) :
    (p.access.overlaps q.access = true ↔ (d.cells p.access ∩ d.cells q.access).Nonempty) ∧
      p.access.overlaps q.access = q.access.overlaps p.access ∧ p.access.overlaps p.access = true := by
  have ha : p.access.Fits d := (hp.fits hd.coherent).access_fits hd.coherent
  have hb : q.access.Fits d := (hq.fits hd.coherent).access_fits hd.coherent
  exact ⟨ha.overlaps_iff hd.coherent hb, Access.overlaps_comm _ _, ha.overlaps_self hd.coherent⟩

/-- The crate `box[y]` as a whole shares cells with the field `box[1].val[2]`, which shares none with
`box[1].val[0]`. -/
theorem Declarations.overlaps_exact_of_whole_record :
    let s := Span.point "" .first
    let d := Declarations.after [.scalar "y" .byte none s,
      .record "crate" [⟨"kind", .mtype, none⟩, ⟨"val", .int, some 3⟩] s,
      .recordVariable "box" "crate" (some 2) s]
    let val : Field := ⟨2, "val", .int, some 3⟩
    let box : Variable := ⟨3, "box", .record ⟨"crate", [⟨1, "kind", .mtype, none⟩, val]⟩, some 2, none⟩
    let y := Expr.place ⟨s, .byte⟩ (.leaf ⟨0, "y", .scalar .byte, none, none⟩ none)
    let literal (n : Int) := Expr.int ⟨s, .byte⟩ n
    let whole := Place.leaf box (some y)
    let element (n : Int) := Place.field box (some (literal 1)) (.leaf val.toVariable (some (literal n)))
    d.Reachable ∧ whole.Built d ∧ (element 2).Built d ∧ (element 0).Built d ∧
      (d.cells whole.access ∩ d.cells (element 2).access).Nonempty ∧
      ¬ (d.cells (element 2).access ∩ d.cells (element 0).access).Nonempty := by
  intro s d val box y literal whole element
  have hd : d.Reachable := ⟨_, rfl⟩
  have hy : y.Built d := .place s (.build _ none s (.head _) (by simp) rfl) rfl
  have hbox : box ∈ d.vars := .tail _ (.tail _ (.tail _ (.head _)))
  have hval : val.toVariable ∈ d.vars := .tail _ (.tail _ (.head _))
  have hwhole : whole.Built d := .build box (some y) s hbox (by simpa using hy) rfl
  have hone : (Place.leaf box (some (literal 1))).Built d :=
    .build box (some (literal 1)) s hbox (by simpa using Expr.Built.int s 1 rfl) rfl
  have htwo : (element 2).Built d :=
    .select s hone (.build val.toVariable (some (literal 2)) s hval (by simpa using Expr.Built.int s 2 rfl) rfl) rfl
  have hzero : (element 0).Built d :=
    .select s hone (.build val.toVariable (some (literal 0)) s hval (by simpa using Expr.Built.int s 0 rfl) rfl) rfl
  refine ⟨hd, hwhole, htwo, hzero, ?_, ?_⟩
  · exact (Declarations.Reachable.overlaps_exact hd hwhole htwo).1.mp rfl
  · exact fun hshared => nomatch (Declarations.Reachable.overlaps_exact hd htwo hzero).1.mpr hshared

end Promela
