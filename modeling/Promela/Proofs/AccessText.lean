import Promela.Access
import Promela.Proofs.Resolution
import Promela.Proofs.Target.Lexemes

/-! The texts of accesses. Where the names of variables are words, a text is read back in one way only; and the
names of globals, and those of the fields of one typedef, differ. So the texts of accesses that start at
globals differ. -/
namespace Promela

open Lexeme (scan scan_nil scan_word scan_number scan_sign scan_lone Parted IsWord)

namespace Slot

/-- What the text of the slot is read as. -/
def lexemes : Slot → List Lexeme
  | scalar => []
  | element n => [.sign "[", .number n, .sign "]"]
  | anyElement => [.sign "[", .sign "*", .sign "]"]

theorem toList_text_element (n : Nat) : (element n).text.toList = '[' :: ((toString n).toList ++ [']']) := by
  have htext : (element n).text = "[" ++ toString n ++ "]" := rfl
  simp [htext]

theorem scan_text (s : Slot) (rest : List Char) :
    scan (s.text.toList ++ rest) = (scan rest).map (s.lexemes ++ ·) := by
  cases s with
  | scalar => simp [text, lexemes]
  | element n =>
    rw [toList_text_element, List.cons_append, List.append_assoc, List.singleton_append, scan_lone "[" rfl (by decide),
      scan_number n (.cons rfl), scan_lone "]" rfl (by decide)]
    simp [lexemes, Function.comp_def]
  | anyElement =>
    have htext : anyElement.text.toList ++ rest = '[' :: '*' :: ']' :: rest := by simp [text]
    rw [htext, scan_lone "[" rfl (by decide), scan_sign "*" rfl (by decide) (by simp [Lexeme.pairs]),
      scan_lone "]" rfl (by decide)]
    simp [lexemes, Function.comp_def]

theorem parted_text (s : Slot) {rest : List Char} (h : Parted rest) : Parted (s.text.toList ++ rest) := by
  cases s with
  | scalar => simpa [text] using h
  | element n =>
    rw [toList_text_element]
    exact .cons rfl
  | anyElement => exact .cons rfl

/-- A point comes next or nothing, so it is known where a slot ends. -/
theorem lexemes_append_inj {s t : Slot} {us vs : List Lexeme} (hus : ∀ x ∈ us.head?, x = .sign ".")
    (hvs : ∀ x ∈ vs.head?, x = .sign ".") (h : s.lexemes ++ us = t.lexemes ++ vs) : s = t ∧ us = vs := by
  have hopen : ∀ {ws ws' : List Lexeme}, (∀ x ∈ ws.head?, x = .sign ".") → ws ≠ .sign "[" :: ws' := by
    rintro ws ws' hws rfl
    simpa using hws (.sign "[") rfl
  cases s with
  | scalar =>
    cases t with
    | scalar => exact ⟨rfl, h⟩
    | element | anyElement => exact absurd h (hopen hus)
  | element m =>
    cases t with
    | scalar => exact absurd h.symm (hopen hvs)
    | element n => simpa [lexemes] using h
    | anyElement => simp [lexemes] at h
  | anyElement =>
    cases t with
    | scalar => exact absurd h.symm (hopen hvs)
    | element n => simp [lexemes] at h
    | anyElement => simpa [lexemes] using h

end Slot

namespace Access

/-- Names with their slots, each with a point before it. -/
def pointed (xs : List (String × Slot)) : List Char :=
  xs.flatMap fun x => '.' :: (x.1.toList ++ x.2.text.toList)

def pointedLexemes (xs : List (String × Slot)) : List Lexeme :=
  xs.flatMap fun x => .sign "." :: .word x.1 :: x.2.lexemes

theorem parted_pointed (xs : List (String × Slot)) : Parted (pointed xs) := by
  cases xs with
  | nil => exact fun _ hc => by cases hc
  | cons x xs => exact .cons rfl

theorem scan_pointed {xs : List (String × Slot)} (h : ∀ x ∈ xs, IsWord x.1) :
    scan (pointed xs) = some (pointedLexemes xs) := by
  induction xs with
  | nil => exact scan_nil
  | cons x xs ih =>
    obtain ⟨hx, hxs⟩ := List.forall_mem_cons.mp h
    have hpointed : pointed (x :: xs) = '.' :: (x.1.toList ++ (x.2.text.toList ++ pointed xs)) := by
      simp [pointed]
    rw [hpointed, scan_lone "." rfl (by decide), scan_word hx (x.2.parted_text (parted_pointed xs)),
      x.2.scan_text, ih hxs]
    simp [pointedLexemes]

theorem head?_pointedLexemes (xs : List (String × Slot)) :
    ∀ x ∈ (pointedLexemes xs).head?, x = .sign "." := by
  cases xs with
  | nil => exact fun _ hx => by cases hx
  | cons x xs => exact fun _ hx => by cases hx; rfl

theorem pointedLexemes_inj : ∀ {xs ys : List (String × Slot)}, pointedLexemes xs = pointedLexemes ys → xs = ys
  | [], [], _ => rfl
  | [], _ :: _, h | _ :: _, [], h => by cases h
  | (name, s) :: xs, (name', t) :: ys, h => by
    obtain ⟨rfl, hrest⟩ : name = name' ∧ s.lexemes ++ pointedLexemes xs = t.lexemes ++ pointedLexemes ys := by
      simpa [pointedLexemes] using h
    obtain ⟨rfl, htail⟩ := Slot.lexemes_append_inj (head?_pointedLexemes xs) (head?_pointedLexemes ys) hrest
    rw [pointedLexemes_inj htail]

end Access

namespace Declarations

variable {d : Declarations}

/-- The names of the variables of an access, each with its slot. -/
def path (d : Declarations) (a : Access) : List (String × Slot) :=
  a.selections.map fun s => (d.nameOf s.id, s.slot)

theorem toList_intercalate (x : String) (xs : List String) :
    '.' :: (".".intercalate (x :: xs)).toList = (x :: xs).flatMap fun y => '.' :: y.toList := by
  induction xs generalizing x with
  | nil => simp
  | cons y ys ih =>
    rw [List.flatMap_cons, ← ih y, String.intercalate_cons_cons]
    simp

theorem toList_accessText (d : Declarations) (a : Access) :
    '.' :: (d.accessText a).toList = Access.pointed (d.path a) := by
  rw [accessText, Access.selections, List.map_cons, toList_intercalate]
  simp [Access.pointed, path, Access.selections, List.flatMap_map]

theorem path_eq_of_accessText_eq {a b : Access} (ha : ∀ x ∈ d.path a, IsWord x.1)
    (hb : ∀ x ∈ d.path b, IsWord x.1) (h : d.accessText a = d.accessText b) : d.path a = d.path b := by
  have hpointed : Access.pointed (d.path a) = Access.pointed (d.path b) := by
    rw [← toList_accessText, h, toList_accessText]
  have hscan : some (Access.pointedLexemes (d.path a)) = some (Access.pointedLexemes (d.path b)) := by
    rw [← Access.scan_pointed ha, hpointed, Access.scan_pointed hb]
  exact Access.pointedLexemes_inj (Option.some.inj hscan)

theorem Coherent.nameOf_id (hd : d.Coherent) {v : Variable} (hv : v ∈ d.vars) : d.nameOf v.id = v.name := by
  rw [nameOf, hd.get?_id hv]

theorem Coherent.global_eq_of_name_eq (hd : d.Coherent) {v w : Variable} (hv : v ∈ d.globals)
    (hw : w ∈ d.globals) (h : v.name = w.name) : v = w :=
  Option.some.inj ((hd.lookup?_name hv).symm.trans (h ▸ hd.lookup?_name hw))

theorem Coherent.field_eq_of_name_eq (hd : d.Coherent) {r : Record} (hr : r ∈ d.records) {f g : Field}
    (hf : f ∈ r.fields) (hg : g ∈ r.fields) (h : f.name = g.name) : f = g :=
  Option.some.inj ((hd.field?_name hr hf).symm.trans (h ▸ hd.field?_name hr hg))

theorem Coherent.path_whole (hd : d.Coherent) {v : Variable} (hv : v ∈ d.globals) (s : Slot) :
    d.path ⟨⟨v.id, s⟩, []⟩ = [(v.name, s)] := by
  rw [path, Access.selections, List.map_singleton, hd.nameOf_id (hd.globals_mem _ hv)]

theorem Coherent.path_field (hd : d.Coherent) {v : Variable} (hv : v ∈ d.globals) {r : Record}
    (hr : v.record? = some r) {f : Field} (hf : f ∈ r.fields) (s t : Slot) :
    d.path ⟨⟨v.id, s⟩, [⟨f.id, t⟩]⟩ = [(v.name, s), (f.name, t)] := by
  have hv := hd.globals_mem _ hv
  have hfield : d.nameOf f.id = f.name := hd.nameOf_id (hd.fields_mem _ (hd.record_mem hv hr) _ hf)
  rw [path, Access.selections, List.map_cons, List.map_singleton, hd.nameOf_id hv, hfield]

end Declarations

/-- The access starts at a global variable, and names at most a field of its typedef. -/
inductive Access.Rooted (d : Declarations) : Access → Prop
  | whole {v : Variable} (s : Slot) : v ∈ d.globals → Access.Rooted d ⟨⟨v.id, s⟩, []⟩
  | field {v : Variable} {r : Record} {f : Field} (s t : Slot) : v ∈ d.globals → v.record? = some r →
      f ∈ r.fields → Access.Rooted d ⟨⟨v.id, s⟩, [⟨f.id, t⟩]⟩

variable {d : Declarations}

theorem Place.Rooted.access {p : Place} (hp : p.Rooted d) : p.access.Rooted d := by
  obtain ⟨hregular, hroot⟩ := hp
  cases hregular with
  | leaf v i => exact .whole _ hroot
  | field i j hr hf => exact .field _ _ hroot hr hf

namespace Access.Rooted

variable {a b : Access}

theorem path_mem (hd : d.Coherent) (ha : a.Rooted d) : ∀ x ∈ d.path a, ∃ v ∈ d.vars, x.1 = v.name := by
  cases ha with
  | whole s hv =>
    rw [hd.path_whole hv]
    exact List.forall_mem_singleton.mpr ⟨_, hd.globals_mem _ hv, rfl⟩
  | field s t hv hr hf =>
    have hroot := hd.globals_mem _ hv
    rw [hd.path_field hv hr hf]
    exact List.forall_mem_cons.mpr ⟨⟨_, hroot, rfl⟩,
      List.forall_mem_singleton.mpr ⟨_, hd.fields_mem _ (hd.record_mem hroot hr) _ hf, rfl⟩⟩

/-- Globals differ in their names, and so do the fields of one typedef. -/
theorem eq_of_path_eq (hd : d.Coherent) (ha : a.Rooted d) (hb : b.Rooted d) (h : d.path a = d.path b) :
    a = b := by
  cases ha with
  | whole s hv =>
    cases hb with
    | whole t hw =>
      rw [hd.path_whole hv, hd.path_whole hw] at h
      simp only [List.cons.injEq, Prod.mk.injEq, and_true] at h
      rw [hd.global_eq_of_name_eq hv hw h.1, h.2]
    | field s' t' hw hr hf =>
      rw [hd.path_whole hv, hd.path_field hw hr hf] at h
      simp at h
  | field s t hv hr hf =>
    cases hb with
    | whole s' hw =>
      rw [hd.path_field hv hr hf, hd.path_whole hw] at h
      simp at h
    | field s' t' hw hr' hg =>
      rw [hd.path_field hv hr hf, hd.path_field hw hr' hg] at h
      simp only [List.cons.injEq, Prod.mk.injEq, and_true] at h
      obtain ⟨⟨hroot, rfl⟩, hfield, rfl⟩ := h
      obtain rfl := hd.global_eq_of_name_eq hv hw hroot
      obtain rfl := Option.some.inj (hr.symm.trans hr')
      rw [hd.field_eq_of_name_eq (hd.record_mem (hd.globals_mem _ hv) hr) hf hg hfield]

/-- Where all names are words, a text stands for one access. -/
theorem eq_of_accessText_eq (hd : d.Coherent) (hnames : ∀ v ∈ d.vars, IsWord v.name) (ha : a.Rooted d)
    (hb : b.Rooted d) (h : d.accessText a = d.accessText b) : a = b := by
  have hword : ∀ {c : Access}, c.Rooted d → ∀ x ∈ d.path c, IsWord x.1 := by
    intro c hc x hx
    obtain ⟨v, hv, hname⟩ := hc.path_mem hd x hx
    exact hname ▸ hnames v hv
  exact ha.eq_of_path_eq hd hb (Declarations.path_eq_of_accessText_eq (hword ha) (hword hb) h)

end Access.Rooted

end Promela
