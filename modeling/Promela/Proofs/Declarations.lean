import Promela.Declarations

/-! The tables that declarations build, and what holds of all of them: ids tell variables apart, names
tell globals and the fields of one typedef apart, and no array is empty. -/
namespace Promela

/-- A call that adds to the table of declarations, or is refused. -/
inductive Declaration
  | scalar (name : String) (type : ValueType) (length : Option Nat) (span : Span)
  | channel (name : String) (signature : Option Signature) (length : Option Nat) (span : Span)
  | recordVariable (name record : String) (length : Option Nat) (span : Span)
  | record (name : String) (fields : List FieldDecl) (span : Span)

namespace Declarations

/-- The table after a call for a global variable. -/
def settled (d : Declarations) : Checked (Variable × Declarations) → Declarations
  | .ok p => p.2
  | .error _ => d

def perform (d : Declarations) : Declaration → Declarations
  | .scalar n t l s => d.settled (d.declareScalar n t l s)
  | .channel n g l s => d.settled (d.declareChannel n g l s)
  | .recordVariable n r l s => d.settled (d.declareRecordVariable n r l s)
  | .record n fs s => (d.defineRecord n fs s).2

/-- The table that a run of calls leaves. -/
def after (calls : List Declaration) : Declarations := calls.foldl perform ∅

/-- Some run of calls, refused ones among them, leaves this table. -/
def Reachable (d : Declarations) : Prop := ∃ calls, d = after calls

/-- The variable may be added as the next global. -/
structure Admits (d : Declarations) (v : Variable) : Prop where
  id_eq : v.id = d.nextId
  fresh : d.lookup? v.name = none
  length_ne : v.length ≠ some 0
  layout_mem : ∀ r, v.layout = .record r → r ∈ d.records
  signature_chan : ∀ s, v.signature = some s → v.layout = .scalar .chan ∧ s.fields ≠ []

def withGlobal (d : Declarations) (v : Variable) : Declarations :=
  { d with vars := d.vars ++ [v], globals := d.globals ++ [v] }

/-- The fields have the next ids in turn. -/
structure Numbers (d : Declarations) (fs : List Field) : Prop where
  ids : fs.map Field.id = List.range' d.nextId fs.length
  length_ne : ∀ f ∈ fs, f.length ≠ some 0

def withFields (d : Declarations) (fs : List Field) : Declarations :=
  { d with vars := d.vars ++ fs.map Field.toVariable }

@[simp] theorem withFields_nil (d : Declarations) : d.withFields [] = d := by
  simp [withFields]

/-- What one call does to the table. A refused typedef may have used up ids; any other refused call
changes nothing. -/
inductive Grows (d : Declarations) : Declarations → Prop
  | global {v : Variable} : d.Admits v → Grows d (d.withGlobal v)
  | fields {fs : List Field} : d.Numbers fs → Grows d (d.withFields fs)
  | record {name : String} {fs : List Field} : d.record? name = none → d.Numbers fs → fs ≠ [] →
      (fs.map Field.name).Nodup → Grows d { d.withFields fs with records := d.records ++ [⟨name, fs⟩] }

theorem Numbers.nil (d : Declarations) : d.Numbers [] := ⟨by simp, by simp⟩

theorem Grows.refl (d : Declarations) : Grows d d := by
  simpa only [withFields_nil] using Grows.fields (Numbers.nil d)

theorem addGlobal_ok {d d' : Declarations} {name : String} {layout : Layout} {length : Option Nat}
    {signature : Option Signature} {span : Span} {v : Variable}
    (hlayout : ∀ r, layout = .record r → r ∈ d.records)
    (hsignature : ∀ s, signature = some s → layout = .scalar .chan ∧ s.fields ≠ [])
    (h : d.addGlobal name layout length signature span = .ok (v, d')) :
    d.Admits v ∧ d' = d.withGlobal v ∧ v.name = name := by
  unfold addGlobal at h
  split at h
  · cases h
  · rename_i hfresh
    split at h
    · cases h
    · rename_i hlength
      split at h
      · cases h
      · cases h
        exact ⟨⟨rfl, by simpa using hfresh, hlength, hlayout, hsignature⟩, rfl, rfl⟩

/-- A call for a global variable that succeeds. -/
theorem declareScalar_ok {d d' : Declarations} {name : String} {type : ValueType}
    {length : Option Nat} {span : Span} {v : Variable}
    (h : d.declareScalar name type length span = .ok (v, d')) :
    d.Admits v ∧ d' = d.withGlobal v ∧ v.name = name :=
  addGlobal_ok (by simp) (by simp) h

theorem declareChannel_ok {d d' : Declarations} {name : String} {signature : Option Signature}
    {length : Option Nat} {span : Span} {v : Variable}
    (h : d.declareChannel name signature length span = .ok (v, d')) :
    d.Admits v ∧ d' = d.withGlobal v ∧ v.name = name := by
  unfold declareChannel at h
  split at h
  · cases h
  · rename_i hfields
    exact addGlobal_ok (by simp) (fun s hs => ⟨rfl, by simpa [hs] using hfields⟩) h

theorem mem_of_record? {d : Declarations} {name : String} {r : Record}
    (h : d.record? name = some r) : r ∈ d.records :=
  List.mem_of_find?_eq_some h

theorem declareRecordVariable_ok {d d' : Declarations} {name record : String} {length : Option Nat}
    {span : Span} {v : Variable}
    (h : d.declareRecordVariable name record length span = .ok (v, d')) :
    d.Admits v ∧ d' = d.withGlobal v ∧ v.name = name := by
  unfold declareRecordVariable at h
  split at h
  · cases h
  · rename_i r hr
    exact addGlobal_ok (fun _ hlayout => by cases hlayout; exact mem_of_record? hr) (by simp) h

theorem grows_settled {d : Declarations} {c : Checked (Variable × Declarations)}
    (h : ∀ v d', c = .ok (v, d') → d.Admits v ∧ d' = d.withGlobal v) : Grows d (d.settled c) := by
  cases c with
  | error e => exact .refl d
  | ok p =>
    obtain ⟨hadmits, hd'⟩ := h p.1 p.2 rfl
    have hsettled : d.settled (.ok p) = d.withGlobal p.1 := hd'
    exact hsettled ▸ .global hadmits

/-- The fields under the ids from `id` on. -/
def numbered (id : VarId) : List FieldDecl → List Field
  | [] => []
  | f :: fs => ⟨id, f.name, f.type, f.length⟩ :: numbered (id + 1) fs

/-- The fields up to the first one that is refused, where `names` are taken already and `id` comes next. -/
def accepted (id : VarId) (names : List String) : List FieldDecl → List FieldDecl
  | [] => []
  | f :: fs =>
    if f.name ∈ names ∨ f.length = some 0 ∨ limit ≤ id then []
    else f :: accepted (id + 1) (names ++ [f.name]) fs

@[simp] theorem map_name_numbered (id : VarId) (fs : List FieldDecl) :
    (numbered id fs).map Field.name = fs.map FieldDecl.name := by
  induction fs generalizing id with
  | nil => rfl
  | cons f fs ih => simp [numbered, ih]

@[simp] theorem length_numbered (id : VarId) (fs : List FieldDecl) :
    (numbered id fs).length = fs.length := by
  induction fs generalizing id with
  | nil => rfl
  | cons f fs ih => simp [numbered, ih]

theorem length_mem_numbered {id : VarId} {fs : List FieldDecl} {g : Field} (h : g ∈ numbered id fs) :
    ∃ f ∈ fs, g.length = f.length := by
  induction fs generalizing id with
  | nil => cases h
  | cons f fs ih =>
    rcases List.mem_cons.mp h with rfl | h
    · exact ⟨f, List.mem_cons_self, rfl⟩
    · obtain ⟨f', hf', hlength⟩ := ih h
      exact ⟨f', List.mem_cons_of_mem f hf', hlength⟩

theorem map_id_numbered (id : VarId) (fs : List FieldDecl) :
    (numbered id fs).map Field.id = List.range' id fs.length := by
  induction fs generalizing id with
  | nil => rfl
  | cons f fs ih => simp [numbered, ih, List.range'_succ]

theorem accepted_ok (fs : List FieldDecl) (id : VarId) {names : List String} (hnames : names.Nodup) :
    (names ++ (accepted id names fs).map FieldDecl.name).Nodup ∧
      ∀ f ∈ accepted id names fs, f.length ≠ some 0 := by
  induction fs generalizing id names with
  | nil => simpa [accepted] using hnames
  | cons f fs ih =>
    simp only [accepted]
    split
    · simpa using hnames
    · rename_i h
      simp only [not_or] at h
      obtain ⟨hname, hlength, -⟩ := h
      have hnames' : (names ++ [f.name]).Nodup := by
        refine List.nodup_append.mpr ⟨hnames, by simp, fun a ha b hb hab => hname ?_⟩
        rwa [← List.mem_singleton.mp hb, ← hab]
      obtain ⟨hnodup, hlengths⟩ := ih (id + 1) hnames'
      exact ⟨by simpa using hnodup, List.forall_mem_cons.mpr ⟨hlength, hlengths⟩⟩

theorem numbers_accepted (d : Declarations) (fs : List FieldDecl) :
    d.Numbers (numbered d.nextId (accepted d.nextId [] fs)) where
  ids := by rw [map_id_numbered, length_numbered]
  length_ne g hg := by
    obtain ⟨f, hf, hlength⟩ := length_mem_numbered hg
    rw [hlength]
    exact (accepted_ok fs d.nextId List.nodup_nil).2 f hf

/-- Fields take the next ids in turn up to the first one that is refused. The typedef goes through
if none is. -/
theorem addFields_eq (record : String) (span : Span) (fs : List FieldDecl) (done : List Field)
    (d : Declarations) :
    (addFields record span fs done d).2 =
        d.withFields (numbered d.nextId (accepted d.nextId (done.map Field.name) fs)) ∧
      ∀ fields, (addFields record span fs done d).1 = .ok fields →
        accepted d.nextId (done.map Field.name) fs = fs ∧ fields = done ++ numbered d.nextId fs := by
  induction fs generalizing done d with
  | nil => simp [addFields, accepted, numbered, withFields]
  | cons f fs ih =>
    have hmem : done.any (·.name = f.name) = true ↔ f.name ∈ done.map Field.name := by simp
    simp only [addFields, accepted]
    split
    · rename_i hname
      simp [hmem.mp hname, numbered, withFields]
    · rename_i hname
      split
      · rename_i hlength
        simp [hlength, numbered, withFields]
      · rename_i hlength
        split
        · rename_i hfull
          simp [hfull, numbered, withFields]
        · rename_i hfull
          let field : Field := ⟨d.nextId, f.name, f.type, f.length⟩
          obtain ⟨hd, hok⟩ := ih (done ++ [field]) (d.withFields [field])
          have hnext : (d.withFields [field]).nextId = d.nextId + 1 := by simp [nextId, withFields]
          have hfree : ¬(f.name ∈ done.map Field.name ∨ f.length = some 0 ∨ limit ≤ d.nextId) :=
            not_or.mpr ⟨fun h => hname (hmem.mpr h), not_or.mpr ⟨hlength, hfull⟩⟩
          rw [hnext, List.map_append] at hd hok
          rw [if_neg hfree]
          refine ⟨hd.trans (by simp [withFields, numbered, field]), fun fields hfields => ?_⟩
          obtain ⟨haccepted, rfl⟩ := hok fields hfields
          exact ⟨congrArg (f :: ·) haccepted, by simp [numbered, field]⟩

/-- A typedef goes through as a whole, or is refused and leaves behind the fields before the refused one. -/
theorem defineRecord_cases (d : Declarations) (name : String) (fs : List FieldDecl) (span : Span) :
    (∃ e, d.defineRecord name fs span = (.error e, d.withFields
      (if (d.record? name).isSome then [] else numbered d.nextId (accepted d.nextId [] fs)))) ∨
    d.record? name = none ∧ fs ≠ [] ∧ accepted d.nextId [] fs = fs ∧
      d.defineRecord name fs span = (.ok ⟨name, numbered d.nextId fs⟩,
        { d.withFields (numbered d.nextId fs) with
          records := d.records ++ [⟨name, numbered d.nextId fs⟩] }) := by
  unfold defineRecord
  split
  · exact .inl ⟨_, by rw [withFields_nil]⟩
  rename_i hfresh
  split
  · rename_i hempty
    cases List.isEmpty_iff.mp hempty
    exact .inl ⟨_, by rw [accepted, numbered, withFields_nil]⟩
  rename_i hne
  obtain ⟨hd, hok⟩ := addFields_eq name span fs [] d
  split
  · rename_i heq
    rw [heq] at hd
    exact .inl ⟨_, congrArg (Prod.mk _) hd⟩
  · rename_i heq
    rw [heq] at hd hok
    obtain ⟨haccepted, rfl⟩ := hok _ rfl
    simp only [List.map_nil] at hd haccepted
    rw [haccepted] at hd
    subst hd
    exact .inr ⟨by simpa using hfresh, by simpa using hne, haccepted, rfl⟩

theorem grows_defineRecord (d : Declarations) (name : String) (fs : List FieldDecl) (span : Span) :
    Grows d (d.defineRecord name fs span).2 := by
  have hnumbers := numbers_accepted d fs
  obtain ⟨e, heq⟩ | ⟨hfresh, hne, haccepted, heq⟩ := defineRecord_cases d name fs span
  · rw [heq]
    split
    · exact .fields (.nil d)
    · exact .fields hnumbers
  · have hnodup := (accepted_ok fs d.nextId List.nodup_nil).1
    rw [haccepted] at hnumbers hnodup
    rw [heq]
    refine .record hfresh hnumbers (fun h => hne ?_) (by simpa using hnodup)
    exact List.eq_nil_of_length_eq_zero (by simpa [h] using (length_numbered d.nextId fs).symm)

theorem globals_defineRecord (d : Declarations) (name : String) (fs : List FieldDecl) (span : Span) :
    (d.defineRecord name fs span).2.globals = d.globals := by
  obtain ⟨e, heq⟩ | ⟨-, -, -, heq⟩ := defineRecord_cases d name fs span
  all_goals
    rw [heq]
    rfl

theorem grows_perform (d : Declarations) (c : Declaration) : Grows d (d.perform c) := by
  cases c with
  | scalar n t l s =>
    exact grows_settled fun _ _ h => ⟨(declareScalar_ok h).1, (declareScalar_ok h).2.1⟩
  | channel n g l s =>
    exact grows_settled fun _ _ h => ⟨(declareChannel_ok h).1, (declareChannel_ok h).2.1⟩
  | recordVariable n r l s =>
    exact grows_settled fun _ _ h =>
      ⟨(declareRecordVariable_ok h).1, (declareRecordVariable_ok h).2.1⟩
  | record n fs s => exact grows_defineRecord d n fs s

/-- The ids of the globals and of the fields of typedefs. -/
def owned (d : Declarations) : List VarId :=
  d.globals.map Variable.id ++ d.records.flatMap (·.fields.map Field.id)

/-- What the table keeps up through all calls. -/
structure Coherent (d : Declarations) : Prop where
  ids : d.vars.map Variable.id = List.range' 0 d.vars.length
  globals_mem : ∀ v ∈ d.globals, v ∈ d.vars
  globals_nodup : (d.globals.map Variable.name).Nodup
  length_ne : ∀ v ∈ d.vars, v.length ≠ some 0
  layout_mem : ∀ v ∈ d.vars, ∀ r, v.layout = .record r → r ∈ d.records
  signature_chan : ∀ v ∈ d.vars, ∀ s, v.signature = some s →
    v ∈ d.globals ∧ v.layout = .scalar .chan ∧ s.fields ≠ []
  records_nodup : (d.records.map Record.name).Nodup
  fields_mem : ∀ r ∈ d.records, ∀ f ∈ r.fields, f.toVariable ∈ d.vars
  fields_ne : ∀ r ∈ d.records, r.fields ≠ []
  fields_nodup : ∀ r ∈ d.records, (r.fields.map Field.name).Nodup
  owned_nodup : d.owned.Nodup

theorem Coherent.empty : Coherent ∅ := by
  constructor <;> simp [EmptyCollection.emptyCollection, Declarations.empty, owned]

theorem Coherent.id_getElem {d : Declarations} (h : d.Coherent) {k : Nat} (hk : k < d.vars.length) :
    d.vars[k].id = k := by
  have hid : (d.vars.map Variable.id)[k]? = some k := by
    rw [h.ids, List.getElem?_range' hk, Nat.zero_add, Nat.one_mul]
  simpa [List.getElem?_map, hk] using hid

theorem Coherent.get?_id {d : Declarations} (h : d.Coherent) {v : Variable} (hv : v ∈ d.vars) :
    d.get? v.id = some v := by
  obtain ⟨k, hk, rfl⟩ := List.mem_iff_getElem.mp hv
  rw [h.id_getElem hk]
  exact List.getElem?_eq_getElem hk

theorem Coherent.id_lt {d : Declarations} (h : d.Coherent) {v : Variable} (hv : v ∈ d.vars) :
    v.id < d.nextId :=
  (List.getElem?_eq_some_iff.mp (h.get?_id hv)).1

theorem Coherent.owned_lt {d : Declarations} (h : d.Coherent) : ∀ id ∈ d.owned, id < d.nextId := by
  intro id hid
  rcases List.mem_append.mp hid with hid | hid
  · obtain ⟨v, hv, rfl⟩ := List.mem_map.mp hid
    exact h.id_lt (h.globals_mem v hv)
  · obtain ⟨r, hr, hid⟩ := List.mem_flatMap.mp hid
    obtain ⟨f, hf, rfl⟩ := List.mem_map.mp hid
    exact h.id_lt (h.fields_mem r hr f hf)

/-- New ids are owned by nobody yet. -/
theorem Coherent.owned_append_nodup {d : Declarations} (h : d.Coherent) (n : Nat) :
    (d.owned ++ List.range' d.nextId n).Nodup := by
  refine List.nodup_append.mpr ⟨h.owned_nodup, List.nodup_range', fun id hid new hnew => ?_⟩
  exact Nat.ne_of_lt (Nat.lt_of_lt_of_le (h.owned_lt id hid) (List.mem_range'_1.mp hnew).1)

theorem Coherent.withGlobal {d : Declarations} (h : d.Coherent) {v : Variable} (hv : d.Admits v) :
    (d.withGlobal v).Coherent where
  ids := by simp [Declarations.withGlobal, h.ids, hv.id_eq, nextId, List.range'_concat]
  globals_mem w hw := by
    rcases List.mem_append.mp hw with hw | hw
    · exact List.mem_append_left _ (h.globals_mem w hw)
    · exact List.mem_append_right _ hw
  globals_nodup := by
    have hfresh : v.name ∉ d.globals.map Variable.name := by
      simpa [lookup?] using hv.fresh
    simpa [Declarations.withGlobal, List.nodup_append, h.globals_nodup] using
      fun w hw heq => hfresh (List.mem_map.mpr ⟨w, hw, heq⟩)
  length_ne w hw := by
    rcases List.mem_append.mp hw with hw | hw
    · exact h.length_ne w hw
    · cases List.mem_singleton.mp hw; exact hv.length_ne
  layout_mem w hw := by
    rcases List.mem_append.mp hw with hw | hw
    · exact h.layout_mem w hw
    · cases List.mem_singleton.mp hw; exact hv.layout_mem
  signature_chan w hw s hs := by
    rcases List.mem_append.mp hw with hw | hw
    · obtain ⟨hglobal, hchan⟩ := h.signature_chan w hw s hs
      exact ⟨List.mem_append_left _ hglobal, hchan⟩
    · cases List.mem_singleton.mp hw
      exact ⟨List.mem_append_right _ hw, hv.signature_chan s hs⟩
  records_nodup := h.records_nodup
  fields_mem r hr f hf := List.mem_append_left _ (h.fields_mem r hr f hf)
  fields_ne := h.fields_ne
  fields_nodup := h.fields_nodup
  owned_nodup := by
    have hperm : (d.withGlobal v).owned.Perm (d.owned ++ [v.id]) := by
      simp only [owned, Declarations.withGlobal, List.map_append, List.map_cons, List.map_nil,
        List.append_assoc]
      exact List.perm_append_comm.append_left _
    have hid : [v.id] = List.range' d.nextId 1 := by rw [hv.id_eq]; rfl
    rw [hperm.nodup_iff, hid]
    exact h.owned_append_nodup 1

theorem Coherent.withFields {d : Declarations} (h : d.Coherent) {fs : List Field}
    (hfs : d.Numbers fs) : (d.withFields fs).Coherent where
  ids := by
    have hids : (fs.map Field.toVariable).map Variable.id = List.range' d.vars.length fs.length := by
      rw [List.map_map]
      exact hfs.ids
    have hrange : List.range' 0 d.vars.length ++ List.range' (0 + d.vars.length) fs.length =
        List.range' 0 (d.vars.length + fs.length) := List.range'_append_1
    simpa only [Declarations.withFields, List.map_append, hids, h.ids, List.length_append,
      List.length_map, Nat.zero_add] using hrange
  globals_mem v hv := List.mem_append_left _ (h.globals_mem v hv)
  globals_nodup := h.globals_nodup
  length_ne v hv := by
    rcases List.mem_append.mp hv with hv | hv
    · exact h.length_ne v hv
    · obtain ⟨f, hf, rfl⟩ := List.mem_map.mp hv
      exact hfs.length_ne f hf
  layout_mem v hv r hr := by
    rcases List.mem_append.mp hv with hv | hv
    · exact h.layout_mem v hv r hr
    · obtain ⟨f, -, rfl⟩ := List.mem_map.mp hv
      cases hr
  signature_chan v hv s hs := by
    rcases List.mem_append.mp hv with hv | hv
    · exact h.signature_chan v hv s hs
    · obtain ⟨f, -, rfl⟩ := List.mem_map.mp hv
      cases hs
  records_nodup := h.records_nodup
  fields_mem r hr f hf := List.mem_append_left _ (h.fields_mem r hr f hf)
  fields_ne := h.fields_ne
  fields_nodup := h.fields_nodup
  owned_nodup := h.owned_nodup

/-- The invariant outlives every call. -/
theorem Coherent.grows {d d' : Declarations} (h : d.Coherent) (hd : Grows d d') : d'.Coherent := by
  cases hd with
  | global hv => exact h.withGlobal hv
  | fields hfs => exact h.withFields hfs
  | @record name fs hfresh hfs hne hnodup =>
    have h' := h.withFields hfs
    refine { h' with
      layout_mem := fun v hv r hr => ?_, records_nodup := ?_, fields_mem := ?_, fields_ne := ?_,
      fields_nodup := ?_, owned_nodup := ?_ }
    · exact List.mem_append_left _ (h'.layout_mem v hv r hr)
    · have hfresh : name ∉ d.records.map Record.name := by
        simpa [record?] using hfresh
      simpa [List.nodup_append, h.records_nodup] using
        fun r hr heq => hfresh (List.mem_map.mpr ⟨r, hr, heq⟩)
    · intro r hr f hf
      rcases List.mem_append.mp hr with hr | hr
      · exact h'.fields_mem r hr f hf
      · cases List.mem_singleton.mp hr
        exact List.mem_append_right _ (List.mem_map_of_mem hf)
    · intro r hr
      rcases List.mem_append.mp hr with hr | hr
      · exact h'.fields_ne r hr
      · cases List.mem_singleton.mp hr; exact hne
    · intro r hr
      rcases List.mem_append.mp hr with hr | hr
      · exact h'.fields_nodup r hr
      · cases List.mem_singleton.mp hr; exact hnodup
    · have howned : Declarations.owned { d.withFields fs with records := d.records ++ [⟨name, fs⟩] } =
          d.owned ++ List.range' d.nextId fs.length := by
        simp [owned, Declarations.withFields, hfs.ids]
      rw [howned]
      exact h.owned_append_nodup fs.length

theorem Coherent.after (calls : List Declaration) {d : Declarations} (h : d.Coherent) :
    (calls.foldl perform d).Coherent := by
  induction calls generalizing d with
  | nil => exact h
  | cons c calls ih => exact ih (h.grows (grows_perform d c))

theorem Reachable.coherent {d : Declarations} (h : d.Reachable) : d.Coherent := by
  obtain ⟨calls, rfl⟩ := h
  exact Coherent.empty.after calls

/-- A search by a key that tells all elements apart finds the element it is after. -/
theorem find?_key {α : Type} {key : α → String} {xs : List α} (h : (xs.map key).Nodup) {x : α}
    (hx : x ∈ xs) : xs.find? (key · = key x) = some x := by
  induction xs with
  | nil => cases hx
  | cons y ys ih =>
    rw [List.map_cons, List.nodup_cons] at h
    rcases List.mem_cons.mp hx with rfl | hx
    · simp
    · have hne : key y ≠ key x := fun heq => h.1 (heq ▸ List.mem_map_of_mem hx)
      simpa [hne] using ih h.2 hx

section Coherent

variable {d : Declarations} (h : d.Coherent)

include h

/-- Ids tell the variables of a table apart. -/
theorem Coherent.eq_of_id_eq {v w : Variable} (hv : v ∈ d.vars) (hw : w ∈ d.vars)
    (hid : v.id = w.id) : v = w :=
  Option.some.inj ((h.get?_id hv).symm.trans (hid ▸ h.get?_id hw))

theorem Coherent.lookup?_name {v : Variable} (hv : v ∈ d.globals) : d.lookup? v.name = some v :=
  find?_key h.globals_nodup hv

theorem Coherent.record_mem {v : Variable} {r : Record} (hv : v ∈ d.vars)
    (hr : v.record? = some r) : r ∈ d.records := by
  refine h.layout_mem v hv r ?_
  cases hlayout : v.layout with
  | scalar t => simp [Variable.record?, hlayout] at hr
  | record s => simpa [Variable.record?, hlayout] using hr

/-- A variable of the table that passes for a field by its id is that field. -/
theorem Coherent.field_of_hasField {r : Record} {w : Variable} (hr : r ∈ d.records)
    (hw : w ∈ d.vars) (hid : r.hasField w.id = true) : ∃ f ∈ r.fields, w = f.toVariable := by
  obtain ⟨f, hf, hid⟩ : ∃ f ∈ r.fields, f.id = w.id := by simpa [Record.hasField] using hid
  exact ⟨f, hf, h.eq_of_id_eq hw (h.fields_mem r hr f hf) hid.symm⟩

theorem Coherent.field?_name {r : Record} {f : Field} (hr : r ∈ d.records) (hf : f ∈ r.fields) :
    r.field? f.name = some f :=
  find?_key (h.fields_nodup r hr) hf

end Coherent

end Declarations
end Promela
