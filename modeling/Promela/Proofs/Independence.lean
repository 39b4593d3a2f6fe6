import Promela.Proofs.Operation

/-! Independent operations commute. An operation depends only on what its footprint reads or writes and
changes only what it writes, and two accesses that share a cell overlap. -/
namespace Promela

theorem Slot.meets_of_covers {s t : Slot} {n : Nat} (hs : s.covers n) (ht : t.covers n) :
    s.meets t = true := by
  cases s <;> cases t <;> simp_all [covers, meets]

theorem overlapping_of_covers {as bs : List Selection} {ss : List Spot} (ha : coversSpots as ss)
    (hb : coversSpots bs ss) : Access.overlapping as bs = true := by
  induction as generalizing bs ss with
  | nil => rfl
  | cons a as ih =>
    cases bs with
    | nil => rfl
    | cons b bs =>
      cases ss with
      | nil => exact ha.elim
      | cons s ss =>
        obtain ⟨⟨hid, hslot⟩, has⟩ := ha
        obtain ⟨⟨hid', hslot'⟩, hbs⟩ := hb
        simp [Access.overlapping, hid, hid', Slot.meets_of_covers hslot hslot', ih has hbs]

/-- Accesses that may touch one cell overlap. -/
theorem Access.overlaps_of_covers {a b : Access} {c : Cell} (ha : a.covers c) (hb : b.covers c) :
    a.overlaps b = true :=
  overlapping_of_covers ha hb

namespace AccessSet

/-- No cell is covered on both sides. -/
def Apart (s t : AccessSet) : Prop := ∀ a ∈ s, ∀ b ∈ t, ∀ c, a.covers c → ¬b.covers c

theorem Apart.symm {s t : AccessSet} (h : s.Apart t) : t.Apart s :=
  fun b hb a ha c hbc hac => h a ha b hb c hac hbc

theorem apart_of_overlaps {s t : AccessSet} (h : s.overlaps t = false) : s.Apart t := by
  intro a ha b hb c hac hbc
  have hoverlaps : s.overlaps t = true :=
    List.any_eq_true.mpr ⟨a, ha, List.any_eq_true.mpr ⟨b, hb, Access.overlaps_of_covers hac hbc⟩⟩
  rw [h] at hoverlaps
  cases hoverlaps

end AccessSet

namespace Footprint

theorem apart_of_independent {f g : Footprint} (h : f.independent g = true) :
    f.writes.Apart g.reads ∧ f.writes.Apart g.writes ∧ g.writes.Apart f.reads := by
  simp only [independent, Bool.and_eq_true, Bool.not_eq_true'] at h
  obtain ⟨⟨hfg, hwrites⟩, hgf⟩ := h
  exact ⟨AccessSet.apart_of_overlaps hfg, AccessSet.apart_of_overlaps hwrites,
    AccessSet.apart_of_overlaps hgf⟩

theorem writable_ok {e : Expr} {p : Place} (h : writable e = .ok p) : ∃ n, e = .place n p := by
  unfold writable at h
  split at h
  · rename_i q hq
    cases h
    exact Expr.eq_place hq
  · cases h

theorem ofAssignment_ok {t v : Expr} {f : Footprint} (h : ofAssignment t v = .ok f) :
    ∃ n p, t = .place n p ∧ f = ⟨v.reads ∪ p.indexReads, .ofList [p.access]⟩ := by
  obtain ⟨p, hp, h⟩ := bind_ok h
  obtain ⟨_, _, h⟩ := bind_ok h
  cases h
  obtain ⟨n, rfl⟩ := writable_ok hp
  exact ⟨n, p, rfl, rfl⟩

theorem ofSend_ok {c : Expr} {as : List Expr} {f : Footprint} (h : ofSend c as = .ok f) :
    ∃ n p, c = .place n p ∧
      f = ⟨as.foldl (fun s e => s ∪ e.reads) p.indexReads, .ofList [p.access]⟩ := by
  obtain ⟨p, hp, h⟩ := bind_ok h
  obtain ⟨_, _, h⟩ := bind_ok h
  cases h
  obtain ⟨n, rfl⟩ := writable_ok hp
  exact ⟨n, p, rfl, rfl⟩

theorem ofReceive_ok {c : Expr} {as : List Expr} {f : Footprint} (h : ofReceive c as = .ok f) :
    ∃ n p, c = .place n p ∧ f = as.foldl receiveArg ⟨p.indexReads, .ofList [p.access]⟩ := by
  obtain ⟨p, hp, h⟩ := bind_ok h
  obtain ⟨_, _, h⟩ := bind_ok h
  cases h
  obtain ⟨n, rfl⟩ := writable_ok hp
  exact ⟨n, p, rfl, rfl⟩

theorem mem_foldl_reads {as : List Expr} {s : AccessSet} {a : Access} :
    a ∈ as.foldl (fun s e => s ∪ e.reads) s ↔ a ∈ s ∨ ∃ e ∈ as, a ∈ e.reads := by
  induction as generalizing s with
  | nil => simp
  | cons e as ih => simp [ih, or_assoc]

theorem mem_reads_foldl_receiveArg {as : List Expr} {f : Footprint} {a : Access} :
    a ∈ (as.foldl receiveArg f).reads ↔ a ∈ f.reads ∨ a ∈ pollReadList as := by
  induction as generalizing f with
  | nil => simp [pollReadList]
  | cons e as ih =>
    rw [List.foldl_cons, ih]
    cases he : e.place? with
    | none => simp [receiveArg, he, pollReadList_cons he, Expr.reads, or_assoc]
    | some p =>
      obtain ⟨n, rfl⟩ := Expr.eq_place he
      simp [receiveArg, he, pollReadList, Place.indexReads, or_assoc]

theorem mem_writes_foldl_receiveArg {as : List Expr} {f : Footprint} {a : Access} :
    a ∈ (as.foldl receiveArg f).writes ↔
      a ∈ f.writes ∨ ∃ e ∈ as, ∃ p, e.place? = some p ∧ a = p.access := by
  induction as generalizing f with
  | nil => simp
  | cons e as ih =>
    rw [List.foldl_cons, ih]
    cases he : e.place? <;> simp [receiveArg, he, or_assoc, or_left_comm]

end Footprint

variable {V : Type} {d : Declarations} {M : Machine V} {σ τ : Store V}

theorem Expr.Built.cell?_congr (hd : d.Coherent) (hM : M.Folds) {n : Note} {p : Place}
    (he : (Expr.place n p).Built d) (h : AgreeOn d p.indexReadList σ τ) :
    p.cell? M.toMeaning σ = p.cell? M.toMeaning τ := by
  obtain ⟨-, -, hindexes⟩ := he.place_fits hd
  refine Place.cell?_congr rfl fun i hi => (hindexes i hi).value_congr hd hM (h.subset ?_)
  rw [Place.indexReadList_eq]
  exact fun a ha => List.mem_flatMap.mpr ⟨i, hi, ha⟩

theorem Expr.Built.cell_covered (hd : d.Coherent) (hM : M.Folds) {n : Note} {p : Place} {c : Cell}
    (he : (Expr.place n p).Built d) (h : p.cell? M.toMeaning σ = some c) :
    d.HasCell c ∧ p.access.covers c := by
  obtain ⟨hfits, htype, -⟩ := he.place_fits hd
  exact Promela.cell_covered hd hM hfits htype h

/-- What the variables receive depends on the message and on where they lead. -/
theorem fieldWrites?_congr {N : Machine V} (hstored : M.stored = N.stored) {as : List Expr}
    (h : ∀ n p, .place n p ∈ as → p.cell? M.toMeaning σ = p.cell? N.toMeaning τ) (fields : Nat → V)
    (k : Nat) : fieldWrites? M σ fields k as = fieldWrites? N τ fields k as := by
  induction as generalizing k with
  | nil => rfl
  | cons a as ih =>
    have ih := ih (fun n p hp => h n p (List.mem_cons_of_mem a hp)) (k + 1)
    cases ha : a.place? with
    | none => simp only [fieldWrites?, ha, ih]
    | some p =>
      obtain ⟨n, rfl⟩ := Expr.eq_place ha
      simp only [fieldWrites?, Expr.place?, h n p List.mem_cons_self, ih, hstored]

/-- The variables that receive a field are among the arguments, and so are the indexes that lead there. -/
theorem fieldWrites?_of_agree (hd : d.Coherent) (hM : M.Folds) (fields : Nat → V) {as : List Expr}
    (has : ∀ a ∈ as, a.Built d) (h : AgreeOn d (pollReadList as) σ τ) (k : Nat) :
    fieldWrites? M σ fields k as = fieldWrites? M τ fields k as := by
  refine fieldWrites?_congr rfl (fun n p hp => ?_) fields k
  refine (has _ hp).cell?_congr hd hM (h.subset fun r hr => ?_)
  rw [pollReadList_eq]
  exact List.mem_flatMap.mpr ⟨_, hp, by simpa [pollReadList] using hr⟩

theorem fieldWrites?_covered (hd : d.Coherent) (hM : M.Folds) {fields : Nat → V} {as : List Expr}
    (has : ∀ a ∈ as, a.Built d) {k : Nat} {ws : List (Cell × V)}
    (h : fieldWrites? M σ fields k as = some ws) :
    ∀ w ∈ ws, d.HasCell w.1 ∧ ∃ e ∈ as, ∃ p, e.place? = some p ∧ p.access.covers w.1 := by
  induction as generalizing k ws with
  | nil =>
    cases h
    simp
  | cons a as ih =>
    have has' : ∀ b ∈ as, b.Built d := fun b hb => has b (List.mem_cons_of_mem a hb)
    have hlater : ∀ {ws : List (Cell × V)}, fieldWrites? M σ fields (k + 1) as = some ws →
        ∀ w ∈ ws, d.HasCell w.1 ∧ ∃ e ∈ a :: as, ∃ p, e.place? = some p ∧ p.access.covers w.1 := by
      intro ws hws w hw
      obtain ⟨hcell, e, he, hp⟩ := ih has' hws w hw
      exact ⟨hcell, e, List.mem_cons_of_mem a he, hp⟩
    cases ha : a.place? with
    | none =>
      simp only [fieldWrites?, ha] at h
      exact hlater h
    | some p =>
      obtain ⟨n, rfl⟩ := Expr.eq_place ha
      simp only [fieldWrites?, ha] at h
      obtain ⟨c, hc, h⟩ := Option.bind_eq_some_iff.mp h
      obtain ⟨ws', hws', h⟩ := Option.bind_eq_some_iff.mp h
      cases h
      intro w hw
      rcases List.mem_cons.mp hw with rfl | hw
      · obtain ⟨hcell, hcover⟩ := (has _ List.mem_cons_self).cell_covered hd hM hc
        exact ⟨hcell, _, List.mem_cons_self, p, rfl, hcover⟩
      · exact hlater hws' w hw

namespace Operation

/-- What an operation does depends only on what it reads and on what it writes. -/
theorem effect_congr (hd : d.Coherent) (hM : M.Folds) {o : Operation} (ho : o.Built d) {f : Footprint}
    (hf : o.footprint = .ok f) (h : AgreeOn d (f.reads.toList ++ f.writes.toList) σ τ) :
    o.effect M σ = o.effect M τ := by
  have hvalue : ∀ e ∈ o.parts, e.readList ⊆ f.reads.toList →
      e.value M.toMeaning σ = e.value M.toMeaning τ := fun e he hsub =>
    (ho e he).value_congr hd hM (h.subset fun a ha => List.mem_append_left _ (hsub ha))
  have hplace : ∀ n p, Expr.place n p ∈ o.parts → p.indexReadList ⊆ f.reads.toList →
      p.cell? M.toMeaning σ = p.cell? M.toMeaning τ := fun n p hp hsub =>
    (ho _ hp).cell?_congr hd hM (h.subset fun a ha => List.mem_append_left _ (hsub ha))
  have hcontent : ∀ n p c, Expr.place n p ∈ o.parts → p.access ∈ f.writes →
      p.cell? M.toMeaning τ = some c → σ c = τ c := fun n p c hp hw hc => by
    obtain ⟨hcell, hcover⟩ := (ho _ hp).cell_covered hd hM hc
    exact h p.access (List.mem_append_right _ hw) c hcell hcover
  cases o with
  | guard e =>
    cases hf
    have hreads : e.readList ⊆ e.reads.toList := fun a ha => AccessSet.mem_ofList.mpr ha
    simp only [effect, hvalue e (by simp [parts]) hreads]
  | assignment t v =>
    obtain ⟨n, p, rfl, rfl⟩ := Footprint.ofAssignment_ok hf
    have hv := hvalue v (by simp [parts]) fun a ha => by simpa [Expr.reads] using .inl ha
    have hp := hplace n p (by simp [parts]) fun a ha => by simpa [Place.indexReads] using .inr ha
    simp only [effect, Expr.cell?, Expr.place?, Option.bind_some, hv, hp]
  | send ch as =>
    obtain ⟨n, p, rfl, rfl⟩ := Footprint.ofSend_ok hf
    have has : as.map (Expr.value M.toMeaning σ) = as.map (Expr.value M.toMeaning τ) := by
      refine List.map_congr_left fun e he => hvalue e (List.mem_cons_of_mem _ he) fun a ha => ?_
      exact Footprint.mem_foldl_reads.mpr (.inr ⟨e, he, AccessSet.mem_ofList.mpr ha⟩)
    have hp := hplace n p (by simp [parts]) fun a ha =>
      Footprint.mem_foldl_reads.mpr (.inl (AccessSet.mem_ofList.mpr ha))
    simp only [effect, Expr.cell?, Expr.place?, Option.bind_some, has, hp]
    cases hc : p.cell? M.toMeaning τ with
    | none => rfl
    | some c => simp only [hcontent n p c (by simp [parts]) (by simp) hc]
  | receive ch as =>
    obtain ⟨n, p, rfl, rfl⟩ := Footprint.ofReceive_ok hf
    have has : AgreeOn d (pollReadList as) σ τ := h.subset fun a ha =>
      List.mem_append_left _ (Footprint.mem_reads_foldl_receiveArg.mpr (.inr ha))
    have hbuilt : ∀ a ∈ as, a.Built d := fun a ha => ho a (List.mem_cons_of_mem _ ha)
    have hp := hplace n p (by simp [parts]) fun a ha =>
      Footprint.mem_reads_foldl_receiveArg.mpr (.inl (AccessSet.mem_ofList.mpr ha))
    have hcompared : comparedValues M.toMeaning σ as = comparedValues M.toMeaning τ as :=
      comparedValues_of_agree (fun a ha hagree => (hbuilt a ha).value_congr hd hM hagree) has
    simp only [effect, Expr.cell?, Expr.place?, Option.bind_some, hcompared, hp,
      fieldWrites?_of_agree hd hM _ hbuilt has 0]
    cases hc : p.cell? M.toMeaning τ with
    | none => rfl
    | some c =>
      have hw : p.access ∈ (as.foldl Footprint.receiveArg ⟨p.indexReads, .ofList [p.access]⟩).writes :=
        Footprint.mem_writes_foldl_receiveArg.mpr (.inl (by simp))
      simp only [hcontent n p c (by simp [parts]) hw hc]

/-- Every cell that an operation changes is covered by its write set. -/
theorem effect_covered (hd : d.Coherent) (hM : M.Folds) {o : Operation} (ho : o.Built d)
    {f : Footprint} (hf : o.footprint = .ok f) :
    ∀ w ∈ (o.effect M σ).writes, d.HasCell w.1 ∧ ∃ a ∈ f.writes, a.covers w.1 := by
  have hplace : ∀ n p c, Expr.place n p ∈ o.parts → p.access ∈ f.writes →
      p.cell? M.toMeaning σ = some c → d.HasCell c ∧ ∃ a ∈ f.writes, a.covers c :=
    fun n p c hp hw hc => by
      obtain ⟨hcell, hcover⟩ := (ho _ hp).cell_covered hd hM hc
      exact ⟨hcell, p.access, hw, hcover⟩
  cases o with
  | guard e => simp [effect]
  | assignment t v =>
    obtain ⟨n, p, rfl, rfl⟩ := Footprint.ofAssignment_ok hf
    simp only [effect, Expr.cell?, Expr.place?, Option.bind_some]
    cases hc : p.cell? M.toMeaning σ with
    | none => simp
    | some c => simpa using hplace n p c (by simp [parts]) (by simp) hc
  | send ch as =>
    obtain ⟨n, p, rfl, rfl⟩ := Footprint.ofSend_ok hf
    simp only [effect, Expr.cell?, Expr.place?, Option.bind_some]
    cases hc : p.cell? M.toMeaning σ with
    | none => simp
    | some c =>
      dsimp only
      split
      · simp
      · simpa using hplace n p c (by simp [parts]) (by simp) hc
  | receive ch as =>
    obtain ⟨n, p, rfl, rfl⟩ := Footprint.ofReceive_ok hf
    simp only [effect, Expr.cell?, Expr.place?, Option.bind_some]
    cases hc : p.cell? M.toMeaning σ with
    | none => simp
    | some c =>
      dsimp only
      split
      · simp
      split
      · simp
      rename_i ws hws
      intro w hw
      rcases List.mem_cons.mp hw with rfl | hw
      · exact hplace n p c (by simp [parts])
          (Footprint.mem_writes_foldl_receiveArg.mpr (.inl (by simp))) hc
      · obtain ⟨hcell, e, he, q, hq, hcover⟩ := fieldWrites?_covered hd hM
          (fun a ha => ho a (List.mem_cons_of_mem _ ha)) hws w hw
        exact ⟨hcell, q.access,
          Footprint.mem_writes_foldl_receiveArg.mpr (.inr ⟨e, he, q, hq, rfl⟩), hcover⟩

/-- An operation does the same after one that writes nothing that it reads or writes. -/
theorem effect_after (hd : d.Coherent) (hM : M.Folds) {o o' : Operation} {f f' : Footprint}
    (ho : o.Built d) (ho' : o'.Built d) (hf : o.footprint = .ok f) (hf' : o'.footprint = .ok f')
    (hreads : f'.writes.Apart f.reads) (hwrites : f'.writes.Apart f.writes) :
    o.effect M (o'.exec M σ).1 = o.effect M σ := by
  refine effect_congr hd hM ho hf fun a ha c _ hcover => writeAll_of_ne fun w hw hwc => ?_
  obtain ⟨-, b, hb, hcover'⟩ := effect_covered hd hM ho' hf' w hw
  rw [hwc] at hcover'
  rcases List.mem_append.mp ha with ha | ha
  · exact hreads b hb a ha c hcover' hcover
  · exact hwrites b hb a ha c hcover' hcover

/-- Independent operations may change places: the final store is the same, and each has the same outcome
first and second. -/
theorem exec_comm_of_independent {V : Type} {d : Declarations} (hd : d.Reachable) (M : Machine V)
    (hM : M.Folds) {o o' : Operation} (ho : o.Built d) (ho' : o'.Built d) {f f' : Footprint}
    (hf : o.footprint = .ok f) (hf' : o'.footprint = .ok f') (h : f.independent f' = true)
    (σ : Store V) :
    (o'.exec M (o.exec M σ).1).1 = (o.exec M (o'.exec M σ).1).1 ∧
      (o.exec M (o'.exec M σ).1).2 = (o.exec M σ).2 ∧
      (o'.exec M (o.exec M σ).1).2 = (o'.exec M σ).2 := by
  obtain ⟨hread', hwrites, hread⟩ := Footprint.apart_of_independent h
  have heffect : o.effect M (o'.exec M σ).1 = o.effect M σ :=
    effect_after hd.coherent hM ho ho' hf hf' hread hwrites.symm
  have heffect' : o'.effect M (o.exec M σ).1 = o'.effect M σ :=
    effect_after hd.coherent hM ho' ho hf' hf hread' hwrites
  refine ⟨?_, congrArg Effect.outcome heffect, congrArg Effect.outcome heffect'⟩
  have hdisjoint : ∀ w ∈ (o.effect M σ).writes, ∀ w' ∈ (o'.effect M σ).writes, w.1 ≠ w'.1 := by
    intro w hw w' hw' heq
    obtain ⟨-, a, ha, hcover⟩ := effect_covered hd.coherent hM ho hf w hw
    obtain ⟨-, b, hb, hcover'⟩ := effect_covered hd.coherent hM ho' hf' w' hw'
    exact hwrites a ha b hb w.1 hcover (heq ▸ hcover')
  calc (o'.exec M (o.exec M σ).1).1
      = writeAll (writeAll σ (o.effect M σ).writes) (o'.effect M σ).writes := by
        rw [← heffect']; rfl
    _ = writeAll (writeAll σ (o'.effect M σ).writes) (o.effect M σ).writes := writeAll_comm σ hdisjoint
    _ = (o.exec M (o'.exec M σ).1).1 := by rw [← heffect]; rfl

/-- The assignment `a[0] = x` and the receive `c?a[1], eval(x)`. -/
theorem exec_comm_of_assignment_and_receive :
    let s := Span.point "" .first
    let d := Declarations.after [.channel "c" none none s, .scalar "a" .int (some 4) s,
      .scalar "x" .int none s]
    let M : Machine Int := { Meaning.exact with
      stored := fun _ v => v
      sent := fun q as => some (q + as.length)
      received := fun q _ => if q = 0 then none else some (0, fun _ => q) }
    let c := Expr.place ⟨s, .chan⟩ (.leaf ⟨0, "c", .scalar .chan, none, none⟩ none)
    let a (k : Int) := Expr.place ⟨s, .int⟩
      (.leaf ⟨1, "a", .scalar .int, some 4, none⟩ (some (.int ⟨s, .byte⟩ k)))
    let x := Expr.place ⟨s, .int⟩ (.leaf ⟨2, "x", .scalar .int, none, none⟩ none)
    let o := Operation.assignment (a 0) x
    let o' := Operation.receive c [a 1, .eval ⟨s, .int⟩ x]
    let σ : Store Int := fun cell => if cell = ⟨⟨0, 0⟩, []⟩ then 5 else 3
    (o.Built d ∧ o'.Built d ∧ ∃ f f', o.footprint = .ok f ∧ o'.footprint = .ok f' ∧
      f.independent f' = true) ∧
    (o'.exec M (o.exec M σ).1).1 = (o.exec M (o'.exec M σ).1).1 ∧
      (o.exec M (o'.exec M σ).1).2 = (o.exec M σ).2 ∧
      (o'.exec M (o.exec M σ).1).2 = (o'.exec M σ).2 := by
  intro s d M c a x o o' σ
  have hc : c.Built d := .place s (.build _ none s (.head _) (by simp) rfl) rfl
  have ha : ∀ k : Int, (Expr.int ⟨s, .byte⟩ k).Built d →
      Place.build ⟨1, "a", .scalar .int, some 4, none⟩ (some (.int ⟨s, .byte⟩ k)) s =
        .ok (.leaf ⟨1, "a", .scalar .int, some 4, none⟩ (some (.int ⟨s, .byte⟩ k))) →
      (a k).Built d := fun k hk hbuild =>
    .place s (.build _ (some (.int ⟨s, .byte⟩ k)) s (.tail _ (.head _)) (by simpa using hk) hbuild) rfl
  have ha₀ : (a 0).Built d := ha 0 (.int s 0 rfl) rfl
  have ha₁ : (a 1).Built d := ha 1 (.int s 1 rfl) rfl
  have hx : x.Built d := .place s (.build _ none s (.tail _ (.tail _ (.head _))) (by simp) rfl) rfl
  have ho : o.Built d := by
    intro e (he : e ∈ [a 0, x])
    simp only [List.mem_cons, List.not_mem_nil, or_false] at he
    obtain rfl | rfl := he
    · exact ha₀
    · exact hx
  have ho' : o'.Built d := by
    intro e (he : e ∈ [c, a 1, .eval ⟨s, .int⟩ x])
    simp only [List.mem_cons, List.not_mem_nil, or_false] at he
    obtain rfl | rfl | rfl := he
    · exact hc
    · exact ha₁
    · exact .eval s hx rfl
  obtain ⟨f, hf, f', hf', h⟩ : ∃ f, o.footprint = .ok f ∧ ∃ f', o'.footprint = .ok f' ∧
      f.independent f' = true := ⟨_, rfl, _, rfl, rfl⟩
  have hM : M.Folds := Meaning.exact_folds
  exact ⟨⟨ho, ho', f, f', hf, hf', h⟩, exec_comm_of_independent ⟨_, rfl⟩ M hM ho ho' hf hf' h σ⟩

end Operation
end Promela
