import Promela.Mtype

/-! Enumerated constants under runs of calls, refused ones among them. The names that were granted a code are
kept in order, the codes follow one another from the base and stay within a byte, and names and codes lead to
each other. -/
namespace Promela

theorem nodup_append_singleton {names : List String} {name : String} (h : names.Nodup) (hname : name ∉ names) :
    (names ++ [name]).Nodup := by
  refine List.nodup_append.mpr ⟨h, by simp, ?_⟩
  rintro a ha b hb rfl
  exact hname (List.mem_singleton.mp hb ▸ ha)

namespace Mtypes

/-- The name may be declared next: it is new, there is room for it, and its code fits a byte. -/
def Admits (m : Mtypes) (name : String) : Prop :=
  name ∉ m.names ∧ m.size < limit ∧ m.base + m.size ≤ 255

def withName (m : Mtypes) (name : String) : Mtypes := { m with names := m.names ++ [name] }

variable {m m' : Mtypes} {name : String} {code : Nat}

theorem declare_of_admits (h : m.Admits name) (span : Span) :
    m.declare name span = .ok (m.base + m.size, m.withName name) := by
  obtain ⟨hname, hroom, hbyte⟩ := h
  have hbyte : ¬ ValueType.mtype.maxValue < (m.base + m.size : Nat) := by
    simp only [ValueType.maxValue]
    omega
  rw [declare, if_neg hname, if_neg (Nat.not_le_of_lt hroom), if_neg hbyte, withName]

theorem declare_of_not_admits (h : ¬ m.Admits name) (span : Span) :
    ∃ e, m.declare name span = .error e := by
  unfold declare
  split
  · exact ⟨_, rfl⟩
  rename_i hname
  split
  · exact ⟨_, rfl⟩
  rename_i hroom
  split
  · exact ⟨_, rfl⟩
  rename_i hbyte
  simp only [ValueType.maxValue] at hbyte
  exact absurd ⟨hname, Nat.lt_of_not_le hroom, by omega⟩ h

theorem declare_ok {span : Span} (h : m.declare name span = .ok (code, m')) :
    m.Admits name ∧ code = m.base + m.size ∧ m' = m.withName name := by
  by_cases hm : m.Admits name
  · rw [declare_of_admits hm] at h
    cases h
    exact ⟨hm, rfl, rfl⟩
  · obtain ⟨e, he⟩ := declare_of_not_admits hm span
    rw [he] at h
    cases h

theorem declare_refused_iff {span : Span} : (∃ e, m.declare name span = .error e) ↔ ¬ m.Admits name := by
  constructor
  · rintro ⟨e, he⟩ hm
    rw [declare_of_admits hm] at he
    cases he
  · exact fun h => declare_of_not_admits h span

theorem name?_eq_some_iff : m.name? code = some name ↔ ∃ k, code = m.base + k ∧ m.names[k]? = some name := by
  rw [name?, Option.ite_none_right_eq_some]
  constructor
  · rintro ⟨hbase, hname⟩
    exact ⟨code - m.base, by omega, hname⟩
  · rintro ⟨k, rfl, hname⟩
    refine ⟨Nat.le_add_right _ _, ?_⟩
    rwa [Nat.add_sub_cancel_left]

/-- Where names are distinct, a name is found at the only place it stands at. -/
theorem code?_eq_some_iff (h : m.names.Nodup) :
    m.code? name = some code ↔ ∃ k, code = m.base + k ∧ m.names[k]? = some name := by
  rw [code?, Option.map_eq_some_iff]
  constructor
  · rintro ⟨k, hk, rfl⟩
    obtain ⟨hlt, hname, -⟩ := List.idxOf?_eq_some_iff.mp hk
    exact ⟨k, rfl, List.getElem?_eq_some_iff.mpr ⟨hlt, hname⟩⟩
  · rintro ⟨k, rfl, hname⟩
    obtain ⟨hlt, hk⟩ := List.getElem?_eq_some_iff.mp hname
    refine ⟨k, List.idxOf?_eq_some_iff.mpr ⟨hlt, hk, fun j hj heq => ?_⟩, rfl⟩
    have hjk : m.names[j]? = m.names[k]? := by
      rw [hname, List.getElem?_eq_some_iff]
      exact ⟨Nat.lt_trans hj hlt, heq⟩
    exact absurd ((List.getElem?_inj (Nat.lt_trans hj hlt) h).mp hjk) (Nat.ne_of_lt hj)

theorem entries_getElem? {k : Nat} :
    m.entries[k]? = some (name, code) ↔ code = m.base + k ∧ m.names[k]? = some name := by
  rw [entries, List.getElem?_zipIdx, Option.map_eq_some_iff]
  constructor
  · rintro ⟨_, hk, heq⟩
    cases heq
    exact ⟨rfl, hk⟩
  · rintro ⟨rfl, hk⟩
    exact ⟨name, hk, rfl⟩

theorem contains_iff : m.contains code ↔ m.base ≤ code ∧ code < m.base + m.size := by
  have hsome : m.contains code ↔ ∃ k, code = m.base + k ∧ k < m.size := by
    simp only [contains, Option.isSome_iff_exists, name?_eq_some_iff, size, List.getElem?_eq_some_iff]
    constructor
    · rintro ⟨_, k, rfl, hk, -⟩
      exact ⟨k, rfl, hk⟩
    · rintro ⟨k, rfl, hk⟩
      exact ⟨_, k, rfl, hk, rfl⟩
  rw [hsome]
  constructor
  · rintro ⟨k, rfl, hk⟩
    omega
  · rintro ⟨hbase, hlt⟩
    exact ⟨code - m.base, by omega, by omega⟩

/-- The names after a call. A refused call changes nothing. -/
def settled (m : Mtypes) : Checked (Nat × Mtypes) → Mtypes
  | .ok p => p.2
  | .error _ => m

def attempt (m : Mtypes) (n : Located String) : Mtypes := m.settled (m.declare n.value n.span)

theorem attempt_of_admits {n : Located String} (h : m.Admits n.value) :
    m.attempt n = m.withName n.value := by
  rw [attempt, declare_of_admits h, settled]

theorem attempt_of_not_admits {n : Located String} (h : ¬ m.Admits n.value) : m.attempt n = m := by
  obtain ⟨e, he⟩ := declare_of_not_admits h n.span
  rw [attempt, he, settled]

/-- The constants that a run of calls leaves. -/
def after (base : Nat) (calls : List (Located String)) : Mtypes := calls.foldl attempt (withBase base)

/-- The name with the code that a call returned for it. -/
def newEntries (name : String) : Checked (Nat × Mtypes) → List (String × Nat)
  | .ok p => [(name, p.1)]
  | .error _ => []

/-- The names that a run of calls declares, in order, each with the code that was returned for it. -/
def granted (m : Mtypes) : List (Located String) → List (String × Nat)
  | [] => []
  | n :: ns => newEntries n.value (m.declare n.value n.span) ++ (m.attempt n).granted ns

theorem entries_attempt (m : Mtypes) (n : Located String) :
    (m.attempt n).entries = m.entries ++ newEntries n.value (m.declare n.value n.span) := by
  by_cases h : m.Admits n.value
  · rw [attempt_of_admits h, declare_of_admits h]
    simp [newEntries, entries, withName, List.zipIdx_append, size]
  · obtain ⟨e, he⟩ := declare_of_not_admits h n.span
    rw [attempt_of_not_admits h, he, newEntries, List.append_nil]

theorem entries_foldl_attempt (calls : List (Located String)) (m : Mtypes) :
    (calls.foldl attempt m).entries = m.entries ++ m.granted calls := by
  induction calls generalizing m with
  | nil => exact (List.append_nil _).symm
  | cons n calls ih => rw [List.foldl_cons, ih, entries_attempt, List.append_assoc, granted]

/-- What every run of calls keeps up. -/
structure Dense (m : Mtypes) : Prop where
  names_nodup : m.names.Nodup
  size_le : m.size ≤ limit
  code_le : ∀ k < m.size, m.base + k ≤ 255

theorem Dense.withBase (base : Nat) : (withBase base).Dense where
  names_nodup := .nil
  size_le := Nat.zero_le _
  code_le _ hk := absurd hk (Nat.not_lt_zero _)

theorem Dense.withName (hm : m.Dense) (h : m.Admits name) : (m.withName name).Dense := by
  obtain ⟨hname, hroom, hbyte⟩ := h
  have hsize : (m.withName name).size = m.size + 1 := by simp [size, Mtypes.withName]
  refine ⟨nodup_append_singleton hm.names_nodup hname, hsize ▸ hroom, fun k hk => ?_⟩
  rw [hsize] at hk
  show m.base + k ≤ 255
  omega

theorem Dense.attempt (hm : m.Dense) (n : Located String) : (m.attempt n).Dense := by
  by_cases h : m.Admits n.value
  · rw [attempt_of_admits h]
    exact hm.withName h
  · rwa [attempt_of_not_admits h]

theorem Dense.foldl_attempt (calls : List (Located String)) (hm : m.Dense) :
    (calls.foldl Mtypes.attempt m).Dense := by
  induction calls generalizing m with
  | nil => exact hm
  | cons n calls ih => exact ih (hm.attempt n)

theorem base_attempt (m : Mtypes) (n : Located String) : (m.attempt n).base = m.base := by
  by_cases h : m.Admits n.value
  · rw [attempt_of_admits h, withName]
  · rw [attempt_of_not_admits h]

theorem base_foldl_attempt (calls : List (Located String)) (m : Mtypes) :
    (calls.foldl attempt m).base = m.base := by
  induction calls generalizing m with
  | nil => rfl
  | cons n calls ih => rw [List.foldl_cons, ih, base_attempt]

/-- What holds of the constants when `cs` have been granted, from a base of 32 bits on. -/
structure Numbers (m : Mtypes) (base : UInt32) (cs : List (String × Nat)) : Prop where
  names_eq : m.names = cs.map Prod.fst
  names_nodup : m.names.Nodup
  entries_eq : m.entries = cs
  code?_eq : ∀ name code, (name, code) ∈ cs → m.code? name = some code
  /-- The sum is the same in 32 bits. -/
  code_eq : ∀ k name code, cs[k]? = some (name, code) →
    code = base.toNat + k ∧ code = (base + k.toUInt32).toNat ∧ code ≤ 255
  code?_iff : ∀ name code, m.code? name = some code ↔ m.name? code = some name
  contains_iff : ∀ code, m.contains code ↔ base.toNat ≤ code ∧ code < base.toNat + cs.length
  refused_iff : ∀ name span, (∃ e, m.declare name span = .error e) ↔
    name ∈ m.names ∨ m.size = 255 ∨ 255 < base.toNat + m.size

theorem Dense.numbers (hm : m.Dense) {base : UInt32} {cs : List (String × Nat)}
    (hbase : m.base = base.toNat) (hentries : m.entries = cs) : m.Numbers base cs where
  names_eq := by rw [← hentries, entries, List.zipIdx_map_fst]
  names_nodup := hm.names_nodup
  entries_eq := hentries
  code?_eq name code h := by
    rw [← hentries] at h
    obtain ⟨k, hk⟩ := List.mem_iff_getElem?.mp h
    exact (code?_eq_some_iff hm.names_nodup).mpr ⟨k, entries_getElem?.mp hk⟩
  code_eq k name code h := by
    rw [← hentries, entries_getElem?, hbase] at h
    obtain ⟨rfl, hk⟩ := h
    have hcode : base.toNat + k ≤ 255 := hbase ▸ hm.code_le k (List.getElem?_eq_some_iff.mp hk).1
    have hsum : (base + k.toUInt32).toNat = (base.toNat + k) % 4294967296 := by simp
    exact ⟨rfl, by omega, hcode⟩
  code?_iff name code := by rw [code?_eq_some_iff hm.names_nodup, name?_eq_some_iff]
  contains_iff code := by
    have hlength : cs.length = m.size := by rw [← hentries, entries, List.length_zipIdx, size]
    rw [Mtypes.contains_iff, hbase, hlength]
  refused_iff name span := by
    have hsize : m.size ≤ 255 := hm.size_le
    rw [declare_refused_iff, Admits, hbase, limit]
    by_cases hname : name ∈ m.names
    · simp [hname]
    · simp only [hname, not_false_eq_true, true_and, false_or]
      omega

/-- After every run of calls, refused ones among them, the constants are those that were declared, in order
and under the codes that the calls returned, which follow one another from the base; and a call that is
refused is as if it had not been made. -/
theorem after_numbers (base : UInt32) (calls : List (Located String)) :
    (after base.toNat calls).Numbers base (granted (withBase base.toNat) calls) ∧
      ∀ n more, (∃ p, (after base.toNat calls).declare n.value n.span = .ok p) ∨
        after base.toNat (calls ++ n :: more) = after base.toNat (calls ++ more) := by
  constructor
  · have hdense := (Dense.withBase base.toNat).foldl_attempt calls
    refine hdense.numbers (base_foldl_attempt calls _) ?_
    exact (entries_foldl_attempt calls _).trans (List.nil_append _)
  · intro n more
    by_cases h : (after base.toNat calls).Admits n.value
    · exact .inl ⟨_, declare_of_admits h n.span⟩
    · right
      rw [after, after, List.foldl_append, List.foldl_append, List.foldl_cons]
      exact congrArg (more.foldl attempt) (attempt_of_not_admits h)

end Mtypes
end Promela
