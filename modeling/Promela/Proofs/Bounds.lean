import Promela.Proofs.Independence
import Promela.Proofs.Occurrences

/-! Every access of an expression or a footprint over one table fits that table: an array is accessed in an
element that it has, and a typedef in one of its fields. -/
namespace Promela

/-- A variable that is no array is accessed as a whole, an array in one of its elements. -/
def Slot.Fits (s : Slot) (v : Variable) : Prop :=
  match v.length with
  | none => s = .scalar
  | some length => s = .anyElement ∨ ∃ n < length, s = .element n

/-- A variable of the table is accessed, and below it a field where it is of a typedef, but nothing
below that. -/
def Access.WellFormed (d : Declarations) (a : Access) : Prop :=
  ∃ v, d.get? a.root.id = some v ∧ a.root.slot.Fits v ∧
    match v.record? with
    | none => a.fields = []
    | some r => ∃ f ∈ r.fields, ∃ s : Slot, s.Fits f.toVariable ∧ a.fields = [⟨f.id, s⟩]

/-- All accesses of the footprint, reads and writes, are well formed. -/
def Footprint.WellFormed (d : Declarations) (f : Footprint) : Prop :=
  (∀ a ∈ f.reads, a.WellFormed d) ∧ ∀ a ∈ f.writes, a.WellFormed d

/-- The footprint of an operation, or of any number of them together. -/
inductive Footprint.Built (d : Declarations) : Footprint → Prop
  | empty : Footprint.Built d ∅
  | operation {o : Operation} {f : Footprint} : o.Built d → o.footprint = .ok f → Footprint.Built d f
  | union {f g : Footprint} : Footprint.Built d f → Footprint.Built d g → Footprint.Built d (f ∪ g)

variable {d : Declarations}

/-- A constant index was compared with the length when the place was built. -/
theorem slotOf_fits {v : Variable} {i : Option Expr} (hlength : v.length ≠ some 0)
    (hi : v.FitsIndex i) : (slotOf v i).Fits v := by
  cases hv : v.length with
  | none => simp [Slot.Fits, slotOf, Variable.isArray, hv]
  | some n =>
    have hn : 0 < n := Nat.pos_of_ne_zero fun hn => hlength (by rw [hv, hn])
    cases i with
    | none => simp [Slot.Fits, slotOf, Variable.isArray, hv, hn]
    | some e =>
      cases hk : e.constant? with
      | none => simp [Slot.Fits, slotOf, Variable.isArray, hv, hk]
      | some k =>
        obtain ⟨-, m, hm, hbounds⟩ := hi e rfl
        obtain rfl : n = m := Option.some.inj (hv.symm.trans hm)
        obtain ⟨hk₀, hkn⟩ := hbounds k hk
        have hlt : k.toNat < n := by omega
        simp [Slot.Fits, slotOf, Variable.isArray, hv, hk, hlt]

theorem Place.Fits.access_wellFormed (hd : d.Coherent) {p : Place} (hp : p.Fits d) {t : ValueType}
    (ht : p.target.type? = some t) : p.access.WellFormed d := by
  cases hp with
  | @leaf v i hv hi =>
    refine ⟨v, hd.get?_id hv, slotOf_fits (hd.length_ne v hv) hi, ?_⟩
    have hr : v.record? = none := Variable.record?_of_type? ht
    rw [hr]
    rfl
  | @field v i j r f hv hi hr hf hj =>
    refine ⟨v, hd.get?_id hv, slotOf_fits (hd.length_ne v hv) hi, ?_⟩
    have hmem := hd.fields_mem r (hd.record_mem hv hr) f hf
    rw [hr]
    exact ⟨f, hf, _, slotOf_fits (hd.length_ne _ hmem) hj, rfl⟩

theorem Expr.Built.of_mem_children (hd : d.Coherent) {e : Expr} (he : e.Built d) :
    ∀ c ∈ e.children, c.Built d := by
  refine he.nodes hd (P := fun e => ∀ c ∈ e.children, c.Built d)
    ?bool ?int ?mtype ?place ?unary ?binary ?ternary ?query ?poll ?eval
  case bool | int | mtype => simp [children]
  case place => exact fun n p _ _ hindexes i hi => (hindexes i hi).1
  case unary | query | eval => simp +contextual [children]
  case binary | ternary => simp +contextual [children]
  case poll =>
    intro n c as _ hc _ has
    exact List.forall_mem_cons.mpr ⟨hc, fun a ha => (has a ha).1⟩

theorem Expr.Built.of_reaches (hd : d.Coherent) {o o' : Occurrence} (ho : o.node.Built d)
    (h : Relation.ReflTransGen Occurrence.Below o o') : o'.node.Built d := by
  induction h with
  | refl => exact ho
  | tail _ hbelow ih =>
    obtain ⟨k, hk, -⟩ := hbelow
    exact ih.of_mem_children hd _ (List.mem_of_getElem? hk)

/-- What is read anywhere in an expression are accesses of places in it. -/
theorem Occurrence.wellFormed_of_mem_readList (hd : d.Coherent) {o : Occurrence} (ho : o.node.Built d) :
    ∀ a ∈ o.readList, a.WellFormed d := by
  intro a ha
  obtain ⟨n, p, hreach, rfl⟩ := mem_readList_iff_reaches.mp ha
  obtain ⟨hfits, htype, -⟩ := (ho.of_reaches hd hreach).place_fits hd
  exact hfits.access_wellFormed hd htype

namespace Expr.Built

theorem reads_wellFormed (hd : d.Coherent) {e : Expr} (he : e.Built d) :
    ∀ a ∈ e.reads, a.WellFormed d :=
  fun a ha => Occurrence.wellFormed_of_mem_readList hd (o := ⟨e, false⟩) he a (AccessSet.mem_ofList.mp ha)

theorem access_wellFormed (hd : d.Coherent) {n : Note} {p : Place} (he : (Expr.place n p).Built d) :
    p.access.WellFormed d := by
  obtain ⟨hfits, htype, -⟩ := he.place_fits hd
  exact hfits.access_wellFormed hd htype

theorem pollReadList_wellFormed (hd : d.Coherent) {as : List Expr} (has : ∀ e ∈ as, e.Built d) :
    ∀ a ∈ pollReadList as, a.WellFormed d := by
  intro a ha
  rw [pollReadList_eq] at ha
  obtain ⟨e, he, ha⟩ := List.mem_flatMap.mp ha
  exact Occurrence.wellFormed_of_mem_readList hd (o := ⟨e, true⟩) (has e he) a ha

theorem indexReads_wellFormed (hd : d.Coherent) {n : Note} {p : Place} (he : (Expr.place n p).Built d) :
    ∀ a ∈ p.indexReads, a.WellFormed d := by
  intro a ha
  refine pollReadList_wellFormed hd (List.forall_mem_singleton.mpr he) a ?_
  simpa [pollReadList] using AccessSet.mem_ofList.mp ha

end Expr.Built

theorem Operation.Built.footprint_wellFormed (hd : d.Coherent) {o : Operation} (ho : o.Built d)
    {f : Footprint} (hf : o.footprint = .ok f) : f.WellFormed d := by
  cases o with
  | guard e =>
    cases hf
    exact ⟨(ho e (by simp [parts])).reads_wellFormed hd, by simp [Footprint.ofGuard]⟩
  | assignment t v =>
    obtain ⟨n, p, rfl, rfl⟩ := Footprint.ofAssignment_ok hf
    have ht := ho (.place n p) (by simp [parts])
    have hv := ho v (by simp [parts])
    refine ⟨fun a ha => ?_, by simpa using ht.access_wellFormed hd⟩
    rcases AccessSet.mem_union.mp ha with ha | ha
    · exact hv.reads_wellFormed hd a ha
    · exact ht.indexReads_wellFormed hd a ha
  | send c as =>
    obtain ⟨n, p, rfl, rfl⟩ := Footprint.ofSend_ok hf
    obtain ⟨hc, has⟩ := List.forall_mem_cons.mp ho
    refine ⟨fun a ha => ?_, by simpa using hc.access_wellFormed hd⟩
    rcases Footprint.mem_foldl_reads.mp ha with ha | ⟨e, he, ha⟩
    · exact hc.indexReads_wellFormed hd a ha
    · exact (has e he).reads_wellFormed hd a ha
  | receive c as =>
    obtain ⟨n, p, rfl, rfl⟩ := Footprint.ofReceive_ok hf
    obtain ⟨hc, has⟩ := List.forall_mem_cons.mp ho
    refine ⟨fun a ha => ?_, fun a ha => ?_⟩
    · rcases Footprint.mem_reads_foldl_receiveArg.mp ha with ha | ha
      · exact hc.indexReads_wellFormed hd a ha
      · exact Expr.Built.pollReadList_wellFormed hd has a ha
    · rcases Footprint.mem_writes_foldl_receiveArg.mp ha with ha | ⟨e, he, q, hq, rfl⟩
      · obtain rfl : a = p.access := by simpa using ha
        exact hc.access_wellFormed hd
      · obtain ⟨m, rfl⟩ := Expr.eq_place hq
        exact (has _ he).access_wellFormed hd

theorem Footprint.Built.wellFormed (hd : d.Coherent) {f : Footprint} (hf : f.Built d) :
    f.WellFormed d := by
  induction hf with
  | empty =>
    have hempty : ∀ a ∈ (∅ : AccessSet), a.WellFormed d :=
      fun a ha => (AccessSet.not_mem_empty a ha).elim
    exact ⟨hempty, hempty⟩
  | operation ho hf => exact ho.footprint_wellFormed hd hf
  | union _ _ ihf ihg =>
    refine ⟨fun a ha => ?_, fun a ha => ?_⟩
    · exact (AccessSet.mem_union.mp ha).elim (ihf.1 a) (ihg.1 a)
    · exact (AccessSet.mem_union.mp ha).elim (ihf.2 a) (ihg.2 a)

theorem Place.Built.fits (hd : d.Coherent) : ∀ {p : Place}, p.Built d → p.Fits d
  | _, .build _ _ _ hv _ hp => by
    obtain ⟨rfl, hfits⟩ := build_ok hp
    exact .leaf hv hfits
  | _, .select _ hp hf hq => (fits hd hp).select hd (fits hd hf) hq

theorem Place.Fits.index_nonneg {p : Place} (hp : p.Fits d) :
    ∀ i ∈ p.indexes, ∀ k, i.constant? = some k → 0 ≤ k := by
  have hindex : ∀ {v : Variable} {j : Option Expr}, v.FitsIndex j → ∀ i ∈ j, ∀ k,
      i.constant? = some k → 0 ≤ k := by
    intro v j hj i hi k hk
    obtain ⟨-, n, -, hbounds⟩ := hj i hi
    exact (hbounds k hk).1
  intro i hi
  cases hp with
  | leaf _ hj => exact hindex hj i (by simpa [indexes] using hi)
  | field _ hj _ _ hj' =>
    rcases List.mem_append.mp hi with hi | hi
    · exact hindex hj i (by simpa using hi)
    · exact hindex hj' i (by simpa [indexes] using hi)

/-- No bits are lost where a number that lies in the range of `int` and is not negative is kept in a word. -/
theorem toNat_ofInt_of_asInt? {k : Int} (hk : asInt? k = some k) (h : 0 ≤ k) :
    ((UInt32.ofInt k).toNat : Int) = k := by
  have hmax : k ≤ 2147483647 := by
    unfold asInt? at hk
    split at hk
    · rename_i hcontains
      exact (ValueType.contains_iff.mp hcontains).2
    · cases hk
  simp only [UInt32.ofInt, UInt32.toNat_ofNat']
  omega

/-- The accesses of all expressions and footprints over a table that declarations build fit it, and every
constant index of a place fits a 32-bit word. -/
theorem Declarations.Reachable.accesses_wellFormed {d : Declarations} (hd : d.Reachable) :
    (∀ e : Expr, e.Built d → ∀ a ∈ e.reads, a.WellFormed d) ∧
      (∀ f : Footprint, f.Built d → f.WellFormed d) ∧
      ∀ p : Place, p.Built d → ∀ i ∈ p.indexes, ∀ k, i.constant? = some k →
        ((UInt32.ofInt k).toNat : Int) = k := by
  refine ⟨fun e he => he.reads_wellFormed hd.coherent, fun f hf => hf.wellFormed hd.coherent, ?_⟩
  intro p hp i hi k hk
  exact toNat_ofInt_of_asInt? (Expr.asInt?_constant? hk) ((hp.fits hd.coherent).index_nonneg i hi k hk)

/-- The receive `c?box[y].val[1]` together with the guard `box[y].val[1]`. -/
theorem Declarations.accesses_wellFormed_of_receive :
    let s := Span.point "" .first
    let d := Declarations.after [.channel "c" none none s, .scalar "y" .byte none s,
      .record "crate" [⟨"kind", .mtype, none⟩, ⟨"val", .int, some 3⟩] s,
      .recordVariable "box" "crate" (some 2) s]
    let kind : Field := ⟨2, "kind", .mtype, none⟩
    let val : Field := ⟨3, "val", .int, some 3⟩
    let box : Variable := ⟨4, "box", .record ⟨"crate", [kind, val]⟩, some 2, none⟩
    let c := Expr.place ⟨s, .chan⟩ (.leaf ⟨0, "c", .scalar .chan, none, none⟩ none)
    let y := Expr.place ⟨s, .byte⟩ (.leaf ⟨1, "y", .scalar .byte, none, none⟩ none)
    let one := Expr.int ⟨s, .byte⟩ 1
    let p := Place.field box (some y) (.leaf val.toVariable (some one))
    let e := Expr.place ⟨s, .int⟩ p
    ∃ f, Footprint.ofReceive c [e] = .ok f ∧
      (d.Reachable ∧ e.Built d ∧ (f ∪ .ofGuard e).Built d ∧ p.Built d ∧ one.constant? = some 1) ∧
      (∀ a ∈ e.reads, a.WellFormed d) ∧ (f ∪ .ofGuard e).WellFormed d ∧
      ((UInt32.ofInt 1).toNat : Int) = 1 := by
  intro s d kind val box c y one p e
  have hd : d.Reachable := ⟨_, rfl⟩
  have hc : c.Built d := .place s (.build _ none s (.head _) (by simp) rfl) rfl
  have hy : y.Built d := .place s (.build _ none s (.tail _ (.head _)) (by simp) rfl) rfl
  have hone : one.Built d := .int s 1 rfl
  have hbox : (Place.leaf box (some y)).Built d :=
    .build box (some y) s (.tail _ (.tail _ (.tail _ (.tail _ (.head _))))) (by simpa using hy) rfl
  have hval : (Place.leaf val.toVariable (some one)).Built d :=
    .build val.toVariable (some one) s (.tail _ (.tail _ (.tail _ (.head _)))) (by simpa using hone) rfl
  have hp : p.Built d := .select s hbox hval rfl
  have he : e.Built d := .place s hp rfl
  obtain ⟨f, hf⟩ : ∃ f, Footprint.ofReceive c [e] = .ok f := ⟨_, rfl⟩
  have hreceive : (Operation.receive c [e]).Built d := .pair rfl hc he
  have hguard : (Operation.guard e).Built d := List.forall_mem_singleton.mpr he
  have hunion : (f ∪ .ofGuard e).Built d := .union (.operation hreceive hf) (.operation hguard rfl)
  obtain ⟨hreads, hfootprint, hindexes⟩ := Declarations.Reachable.accesses_wellFormed hd
  exact ⟨f, hf, ⟨hd, he, hunion, hp, rfl⟩, hreads e he, hfootprint _ hunion,
    hindexes p hp one (by simp [p, Place.indexes]) 1 rfl⟩

end Promela
