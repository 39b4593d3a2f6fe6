import Promela.Proofs.Handles
import Promela.Proofs.Independence

/-! Operations where channel cells hold handles to queues. Copying a handle makes two cells share a queue,
and footprints, which speak of cells, do not see that: operations that use one queue by way of different
cells need not commute. All other independent operations do. -/
namespace Promela

/-- The cells, and the queue behind each handle. -/
@[ext]
structure SharedStore (V : Type) where
  cells : Store V
  queues : V → V

/-- Sends and receives, too, act on the queue behind the handle that they are given. -/
def Machine.behind {V : Type} (M : Machine V) (queues : V → V) : Machine V :=
  { M with
    toMeaning := M.toMeaning.behind queues
    sent := fun h as => M.sent (queues h) as
    received := fun h as => M.received (queues h) as }

/-- The cells that are written, in order, and the queue that is changed, by the cell of its handle. -/
structure SharedEffect (V : Type) where
  writes : List (Cell × V)
  change : Option (Cell × V)
  outcome : Outcome V

namespace Operation

/-- A send or receive changes the queue and leaves the cell of its channel alone. -/
def sharedEffect {V : Type} (M : Machine V) (s : SharedStore V) : Operation → SharedEffect V
  | guard e => ⟨[], none, .value (e.value (M.behind s.queues).toMeaning s.cells)⟩
  | assignment t v =>
    match t.cell? (M.behind s.queues).toMeaning s.cells with
    | none => ⟨[], none, .outside⟩
    | some c => ⟨[(c, M.stored t.type (v.value (M.behind s.queues).toMeaning s.cells))], none, .done⟩
  | send ch as =>
    match ch.cell? (M.behind s.queues).toMeaning s.cells with
    | none => ⟨[], none, .outside⟩
    | some c =>
      match M.sent (s.queues (s.cells c))
          (as.map (Expr.value (M.behind s.queues).toMeaning s.cells)) with
      | none => ⟨[], none, .blocked⟩
      | some q => ⟨[], some (c, q), .done⟩
  | receive ch as =>
    match ch.cell? (M.behind s.queues).toMeaning s.cells with
    | none => ⟨[], none, .outside⟩
    | some c =>
      match M.received (s.queues (s.cells c))
          (comparedValues (M.behind s.queues).toMeaning s.cells as) with
      | none => ⟨[], none, .blocked⟩
      | some (q, fields) =>
        match fieldWrites? (M.behind s.queues) s.cells fields 0 as with
        | none => ⟨[], none, .outside⟩
        | some ws => ⟨ws, some (c, q), .done⟩

/-- The channel that an operation may change. -/
def channel? : Operation → Option Expr
  | send ch _ | receive ch _ => some ch
  | _ => none

/-- The operands whose queues the operation looks at or changes. -/
def channels (o : Operation) : List Expr := o.channel?.toList ++ o.parts.flatMap Expr.channels

variable {V : Type} {d : Declarations} {M : Machine V} {s : SharedStore V}

/-- The queue that `o` changes is used by `o'`, if at all, by way of the cell that `o` uses. -/
def Separate (M : Machine V) (s : SharedStore V) (o o' : Operation) : Prop :=
  ∀ c q, (o.sharedEffect M s).change = some (c, q) → ∀ e ∈ o'.channels,
    e.value (M.behind s.queues).toMeaning s.cells = s.cells c → ∃ a ∈ e.reads, a.covers c

/-- The effect with its first write told apart, where that is the one to the channel. -/
def parted (e : Effect V) : Operation → SharedEffect V
  | guard _ | assignment _ _ => ⟨e.writes, none, e.outcome⟩
  | send _ _ | receive _ _ => ⟨e.writes.tail, e.writes.head?, e.outcome⟩

/-- Operations on handles differ from operations on the channels themselves in one thing: what would be
written to the cell of the channel goes to the queue behind its handle. -/
theorem sharedEffect_eq_parted (M : Machine V) (s : SharedStore V) (o : Operation) :
    o.sharedEffect M s = o.parted (o.effect (M.behind s.queues) s.cells) := by
  cases o with
  | guard e => rfl
  | assignment t v =>
    simp only [sharedEffect, effect]
    cases t.cell? (M.behind s.queues).toMeaning s.cells <;> rfl
  | send ch as =>
    simp only [sharedEffect, effect]
    cases ch.cell? (M.behind s.queues).toMeaning s.cells with
    | none => rfl
    | some c =>
      simp only [Machine.behind]
      cases M.sent (s.queues (s.cells c)) _ <;> rfl
  | receive ch as =>
    simp only [sharedEffect, effect]
    cases ch.cell? (M.behind s.queues).toMeaning s.cells with
    | none => rfl
    | some c =>
      simp only [Machine.behind]
      cases M.received (s.queues (s.cells c)) _ with
      | none => rfl
      | some m =>
        dsimp only
        cases fieldWrites? _ s.cells m.2 0 as <;> rfl

theorem mem_effect_of_mem_writes {o : Operation} {w : Cell × V}
    (h : w ∈ (o.sharedEffect M s).writes) : w ∈ (o.effect (M.behind s.queues) s.cells).writes := by
  rw [sharedEffect_eq_parted] at h
  cases o with
  | guard _ | assignment _ _ => exact h
  | send _ _ | receive _ _ => exact List.mem_of_mem_tail h

theorem mem_effect_of_change {o : Operation} {w : Cell × V}
    (h : (o.sharedEffect M s).change = some w) :
    w ∈ (o.effect (M.behind s.queues) s.cells).writes := by
  rw [sharedEffect_eq_parted] at h
  cases o with
  | guard _ | assignment _ _ => cases h
  | send _ _ | receive _ _ => exact List.mem_of_mem_head? h

/-- The queue that is changed is one of those that the operation uses. -/
theorem handle_of_change {o : Operation} {c : Cell} {q : V}
    (h : (o.sharedEffect M s).change = some (c, q)) :
    ∃ e ∈ o.channels, e.value (M.behind s.queues).toMeaning s.cells = s.cells c := by
  cases o with
  | guard e => cases h
  | assignment t v =>
    simp only [sharedEffect] at h
    split at h <;> cases h
  | send ch as =>
    simp only [sharedEffect] at h
    split at h
    · cases h
    rename_i hcell
    split at h <;> cases h
    exact ⟨ch, List.mem_append_left _ List.mem_cons_self, Expr.value_of_cell? hcell⟩
  | receive ch as =>
    simp only [sharedEffect] at h
    split at h
    · cases h
    rename_i hcell
    split at h
    · cases h
    split at h <;> cases h
    exact ⟨ch, List.mem_append_left _ List.mem_cons_self, Expr.value_of_cell? hcell⟩

/-- What the parts of an operation are read for, places that are only written apart. -/
theorem parts_reads {o : Operation} {f : Footprint} (hf : o.footprint = .ok f) :
    ∀ e ∈ o.parts, ∀ a ∈ pollReadList [e], a ∈ f.reads := by
  have hplace : ∀ {n : Note} {p : Place} {a : Access}, a ∈ pollReadList [.place n p] →
      a ∈ p.indexReads := by
    simp [pollReadList, Place.indexReads]
  have hvalue : ∀ {e : Expr} {a : Access}, a ∈ pollReadList [e] → a ∈ e.reads := fun ha =>
    AccessSet.mem_ofList.mpr (pollReadList_subset _ ha)
  intro e he a ha
  cases o with
  | guard e' =>
    cases hf
    cases List.mem_singleton.mp he
    exact hvalue ha
  | assignment t v =>
    obtain ⟨n, p, rfl, rfl⟩ := Footprint.ofAssignment_ok hf
    obtain rfl | rfl : e = .place n p ∨ e = v := by simpa [parts] using he
    · exact AccessSet.mem_union.mpr (.inr (hplace ha))
    · exact AccessSet.mem_union.mpr (.inl (hvalue ha))
  | send ch as =>
    obtain ⟨n, p, rfl, rfl⟩ := Footprint.ofSend_ok hf
    rcases List.mem_cons.mp he with rfl | he
    · exact Footprint.mem_foldl_reads.mpr (.inl (hplace ha))
    · exact Footprint.mem_foldl_reads.mpr (.inr ⟨e, he, hvalue ha⟩)
  | receive ch as =>
    obtain ⟨n, p, rfl, rfl⟩ := Footprint.ofReceive_ok hf
    rcases List.mem_cons.mp he with rfl | he
    · exact Footprint.mem_reads_foldl_receiveArg.mpr (.inl (hplace ha))
    · refine Footprint.mem_reads_foldl_receiveArg.mpr (.inr ?_)
      rw [pollReadList_eq]
      exact List.mem_flatMap.mpr ⟨e, he, ha⟩

/-- An operation reads or writes the cells through which it reaches queues. -/
theorem channels_reads (hd : d.Coherent) {o : Operation} (ho : o.Built d) {f : Footprint}
    (hf : o.footprint = .ok f) :
    ∀ e ∈ o.channels, ∀ a ∈ e.reads, a ∈ f.reads ∨ a ∈ f.writes := by
  have hchannel : ∀ {n : Note} {p : Place} {a : Access}, .place n p ∈ o.parts → p.access ∈ f.writes →
      a ∈ (Expr.place n p).reads → a ∈ f.reads ∨ a ∈ f.writes := by
    intro n p a hp hw ha
    rcases List.mem_cons.mp (AccessSet.mem_ofList.mp ha) with rfl | ha
    · exact .inr hw
    · exact .inl (parts_reads hf _ hp a (by simpa [pollReadList] using ha))
  intro e he a ha
  rcases List.mem_append.mp he with he | he
  · cases o with
    | guard _ | assignment _ _ => cases he
    | send ch as =>
      cases List.mem_singleton.mp he
      obtain ⟨n, p, rfl, rfl⟩ := Footprint.ofSend_ok hf
      exact hchannel List.mem_cons_self (by simp) ha
    | receive ch as =>
      cases List.mem_singleton.mp he
      obtain ⟨n, p, rfl, rfl⟩ := Footprint.ofReceive_ok hf
      exact hchannel List.mem_cons_self (Footprint.mem_writes_foldl_receiveArg.mpr (.inl (by simp))) ha
  · obtain ⟨part, hpart, he⟩ := List.mem_flatMap.mp he
    have ha : a ∈ pollReadList [part] := (ho part hpart).channels_reads hd e he (AccessSet.mem_ofList.mp ha)
    exact .inl (parts_reads hf part hpart a ha)

/-- What an operation does depends only on the queues that it uses. -/
theorem effect_behind_congr (hd : d.Coherent) {o : Operation} (ho : o.Built d) {σ : Store V}
    {queues queues' : V → V} (h : ∀ e ∈ o.channels,
      queues' (e.value (M.behind queues).toMeaning σ) = queues (e.value (M.behind queues).toMeaning σ)) :
    o.effect (M.behind queues') σ = o.effect (M.behind queues) σ := by
  have hparts : ∀ e ∈ o.parts, ∀ c ∈ e.channels,
      queues' (c.value (M.behind queues).toMeaning σ) = queues (c.value (M.behind queues).toMeaning σ) :=
    fun e he c hc => h c (List.mem_append_right _ (List.mem_flatMap.mpr ⟨e, he, hc⟩))
  have hvalue : ∀ e ∈ o.parts,
      e.value (M.behind queues').toMeaning σ = e.value (M.behind queues).toMeaning σ :=
    fun e he => (ho e he).value_behind hd (hparts e he)
  have hplace : ∀ n p, .place n p ∈ o.parts →
      p.cell? (M.behind queues').toMeaning σ = p.cell? (M.behind queues).toMeaning σ :=
    fun n p hp => (ho _ hp).cell?_behind hd (hparts _ hp)
  have hcell : ∀ e ∈ o.parts,
      e.cell? (M.behind queues').toMeaning σ = e.cell? (M.behind queues).toMeaning σ := by
    intro e he
    cases hp : e.place? with
    | none => simp only [Expr.cell?, hp, Option.bind_none]
    | some p =>
      obtain ⟨n, rfl⟩ := Expr.eq_place hp
      exact hplace n p he
  have hqueue : ∀ {ch : Expr} {c : Cell}, o.channel? = some ch →
      ch.cell? (M.behind queues).toMeaning σ = some c → queues' (σ c) = queues (σ c) := by
    intro ch c hch hc
    have hch := h ch (List.mem_append_left _ (by simp [hch]))
    rwa [Expr.value_of_cell? hc] at hch
  cases o with
  | guard e => simp only [effect, hvalue e List.mem_cons_self]
  | assignment t v =>
    simp only [effect, hcell t (by simp [parts]), hvalue v (by simp [parts])]
    rfl
  | send ch as =>
    have has : as.map (Expr.value (M.behind queues').toMeaning σ) =
        as.map (Expr.value (M.behind queues).toMeaning σ) :=
      List.map_congr_left fun e he => hvalue e (List.mem_cons_of_mem _ he)
    simp only [effect, hcell ch List.mem_cons_self, has]
    cases hc : ch.cell? (M.behind queues).toMeaning σ with
    | none => rfl
    | some c => simp only [Machine.behind, hqueue rfl hc]
  | receive ch as =>
    have hcompared : comparedValues (M.behind queues').toMeaning σ as =
        comparedValues (M.behind queues).toMeaning σ as :=
      comparedValues_congr fun e he _ => hvalue e (List.mem_cons_of_mem _ he)
    have hwrites : ∀ fields, fieldWrites? (M.behind queues') σ fields 0 as =
        fieldWrites? (M.behind queues) σ fields 0 as := fun fields =>
      fieldWrites?_congr (M := M.behind queues') (N := M.behind queues) rfl
        (fun n p hp => hplace n p (List.mem_cons_of_mem _ hp)) fields 0
    simp only [effect, hcell ch List.mem_cons_self, hcompared, hwrites]
    cases hc : ch.cell? (M.behind queues).toMeaning σ with
    | none => rfl
    | some c =>
      have hreceived : (M.behind queues').received (σ c) = (M.behind queues).received (σ c) := by
        simp only [Machine.behind, hqueue rfl hc]
      simp only [hreceived]

/-- An operation uses no queue that another one changes which is independent and separate of it. -/
theorem handle_ne {o o' : Operation} {f f' : Footprint} (hd : d.Coherent) (hM : M.Folds)
    (ho : o.Built d) (ho' : o'.Built d) (hf : o.footprint = .ok f) (hf' : o'.footprint = .ok f')
    (hreads : f.writes.Apart f'.reads) (hwrites : f.writes.Apart f'.writes) (hsep : Separate M s o o')
    {c : Cell} {q : V} (hchange : (o.sharedEffect M s).change = some (c, q)) :
    ∀ e ∈ o'.channels, e.value (M.behind s.queues).toMeaning s.cells ≠ s.cells c := by
  intro e he hvalue
  obtain ⟨a, ha, hcover⟩ := hsep c q hchange e he hvalue
  obtain ⟨-, b, hb, hcover'⟩ := effect_covered hd (hM.behind s.queues) ho hf _
    (mem_effect_of_change hchange)
  rcases channels_reads hd ho' hf' e he a ha with ha | ha
  · exact hreads b hb a ha c hcover' hcover
  · exact hwrites b hb a ha c hcover' hcover

end Operation

section Execution

variable [DecidableEq V]

namespace SharedStore

/-- The store after the effect. -/
def after (s : SharedStore V) (e : SharedEffect V) : SharedStore V where
  cells := writeAll s.cells e.writes
  queues :=
    match e.change with
    | none => s.queues
    | some (c, q) => Function.update s.queues (s.cells c) q

/-- Effects on different cells and different queues may change places. -/
theorem after_comm (s : SharedStore V) {e e' : SharedEffect V}
    (hwrites : ∀ w ∈ e.writes, ∀ w' ∈ e'.writes, w.1 ≠ w'.1)
    (hchange : ∀ w ∈ e.change, ∀ w' ∈ e'.writes, w'.1 ≠ w.1)
    (hchange' : ∀ w' ∈ e'.change, ∀ w ∈ e.writes, w.1 ≠ w'.1)
    (hhandles : ∀ w ∈ e.change, ∀ w' ∈ e'.change, s.cells w.1 ≠ s.cells w'.1) :
    (s.after e).after e' = (s.after e').after e := by
  refine SharedStore.ext (writeAll_comm s.cells hwrites) ?_
  have hhandle : ∀ w ∈ e.change, writeAll s.cells e'.writes w.1 = s.cells w.1 :=
    fun w hw => writeAll_of_ne (hchange w hw)
  have hhandle' : ∀ w' ∈ e'.change, writeAll s.cells e.writes w'.1 = s.cells w'.1 :=
    fun w' hw' => writeAll_of_ne (hchange' w' hw')
  cases hc : e.change with
  | none =>
    cases hc' : e'.change with
    | none => simp only [after, hc, hc']
    | some w' => simp only [after, hc, hc', hhandle' w' hc']
  | some w =>
    cases hc' : e'.change with
    | none => simp only [after, hc, hc', hhandle w hc]
    | some w' =>
      simp only [after, hc, hc', hhandle w hc, hhandle' w' hc']
      exact Function.update_comm (hhandles w hc w' hc') _ _ _

end SharedStore

def Operation.sharedExec (M : Machine V) (o : Operation) (s : SharedStore V) :
    SharedStore V × Outcome V :=
  (s.after (o.sharedEffect M s), (o.sharedEffect M s).outcome)

namespace Operation

/-- An operation does the same after one that writes no cell that it reads or writes and changes no queue
that it uses. -/
theorem sharedEffect_after {o o' : Operation} {f f' : Footprint} (hd : d.Coherent) (hM : M.Folds)
    (ho : o.Built d) (ho' : o'.Built d) (hf : o.footprint = .ok f) (hf' : o'.footprint = .ok f')
    (hreads : f'.writes.Apart f.reads) (hwrites : f'.writes.Apart f.writes)
    (hsep : Separate M s o' o) :
    o.sharedEffect M (s.after (o'.sharedEffect M s) : SharedStore V) = o.sharedEffect M s := by
  let s' := s.after (o'.sharedEffect M s)
  have hcells : o.effect (M.behind s'.queues) s'.cells = o.effect (M.behind s'.queues) s.cells := by
    refine effect_congr hd (hM.behind s'.queues) ho hf fun a ha c _ hcover => ?_
    refine writeAll_of_ne fun w hw hwc => ?_
    obtain ⟨-, b, hb, hcover'⟩ := effect_covered hd (hM.behind s.queues) ho' hf' w
      (mem_effect_of_mem_writes hw)
    rw [hwc] at hcover'
    rcases List.mem_append.mp ha with ha | ha
    · exact hreads b hb a ha c hcover' hcover
    · exact hwrites b hb a ha c hcover' hcover
  have hqueues : o.effect (M.behind s'.queues) s.cells = o.effect (M.behind s.queues) s.cells := by
    refine effect_behind_congr hd ho fun e he => ?_
    cases hchange : (o'.sharedEffect M s).change with
    | none => simp only [s', SharedStore.after, hchange]
    | some w =>
      have hne := handle_ne hd hM ho' ho hf' hf hreads hwrites hsep hchange e he
      simp only [s', SharedStore.after, hchange]
      exact Function.update_of_ne hne _ _
  calc o.sharedEffect M s'
      = o.parted (o.effect (M.behind s'.queues) s'.cells) := sharedEffect_eq_parted M s' o
    _ = o.parted (o.effect (M.behind s.queues) s.cells) := by rw [hcells, hqueues]
    _ = o.sharedEffect M s := (sharedEffect_eq_parted M s o).symm

/-- Independent operations may change places, unless one changes a queue that the other uses by way of
another cell: the final cells and queues are the same, and each has the same outcome first and second. -/
theorem sharedExec_comm_of_independent {V : Type} [DecidableEq V] {d : Declarations}
    (hd : d.Reachable) (M : Machine V) (hM : M.Folds) {o o' : Operation} (ho : o.Built d)
    (ho' : o'.Built d) {f f' : Footprint} (hf : o.footprint = .ok f) (hf' : o'.footprint = .ok f')
    (h : f.independent f' = true) (s : SharedStore V) (hsep : Separate M s o o')
    (hsep' : Separate M s o' o) :
    (o'.sharedExec M (o.sharedExec M s).1).1 = (o.sharedExec M (o'.sharedExec M s).1).1 ∧
      (o.sharedExec M (o'.sharedExec M s).1).2 = (o.sharedExec M s).2 ∧
      (o'.sharedExec M (o.sharedExec M s).1).2 = (o'.sharedExec M s).2 := by
  obtain ⟨hread', hwrites, hread⟩ := Footprint.apart_of_independent h
  have heffect : o.sharedEffect M (s.after (o'.sharedEffect M s)) = o.sharedEffect M s :=
    sharedEffect_after hd.coherent hM ho ho' hf hf' hread hwrites.symm hsep'
  have heffect' : o'.sharedEffect M (s.after (o.sharedEffect M s)) = o'.sharedEffect M s :=
    sharedEffect_after hd.coherent hM ho' ho hf' hf hread' hwrites hsep
  refine ⟨?_, congrArg SharedEffect.outcome heffect, congrArg SharedEffect.outcome heffect'⟩
  have hdisjoint : ∀ w ∈ (o.effect (M.behind s.queues) s.cells).writes,
      ∀ w' ∈ (o'.effect (M.behind s.queues) s.cells).writes, w.1 ≠ w'.1 := by
    intro w hw w' hw' heq
    obtain ⟨-, a, ha, hcover⟩ := effect_covered hd.coherent (hM.behind s.queues) ho hf w hw
    obtain ⟨-, b, hb, hcover'⟩ := effect_covered hd.coherent (hM.behind s.queues) ho' hf' w' hw'
    exact hwrites a ha b hb w.1 hcover (heq ▸ hcover')
  have hhandles : ∀ w ∈ (o.sharedEffect M s).change, ∀ w' ∈ (o'.sharedEffect M s).change,
      s.cells w.1 ≠ s.cells w'.1 := by
    intro w hw w' hw' heq
    obtain ⟨e, he, hvalue⟩ := handle_of_change hw'
    exact handle_ne hd.coherent hM ho ho' hf hf' hread' hwrites hsep hw e he (hvalue.trans heq.symm)
  calc (o'.sharedExec M (o.sharedExec M s).1).1
      = (s.after (o.sharedEffect M s)).after (o'.sharedEffect M s) := by rw [← heffect']; rfl
    _ = (s.after (o'.sharedEffect M s)).after (o.sharedEffect M s) :=
        s.after_comm
          (fun w hw w' hw' => hdisjoint w (mem_effect_of_mem_writes hw) w' (mem_effect_of_mem_writes hw'))
          (fun w hw w' hw' => (hdisjoint w (mem_effect_of_change hw) w' (mem_effect_of_mem_writes hw')).symm)
          (fun w' hw' w hw => hdisjoint w (mem_effect_of_mem_writes hw) w' (mem_effect_of_change hw'))
          hhandles
    _ = (o.sharedExec M (o'.sharedExec M s).1).1 := by rw [← heffect]; rfl

/-- While `c` and `e` share a queue, the send `c!1` and the receive `d?x` stay apart. -/
theorem sharedExec_comm_of_send_and_receive :
    let t := Span.point "" .first
    let d := Declarations.after [.channel "c" none none t, .channel "d" none none t,
      .channel "e" none none t, .scalar "x" .int none t]
    let M : Machine Int := { Meaning.exact with
      stored := fun _ v => v
      sent := fun q as => some (q + as.length)
      received := fun q _ => if q = 0 then none else some (q - 1, fun _ => q) }
    let channel (n : Nat) (name : String) := Expr.place ⟨t, .chan⟩
      (.leaf ⟨n, name, .scalar .chan, none, none⟩ none)
    let x := Expr.place ⟨t, .int⟩ (.leaf ⟨3, "x", .scalar .int, none, none⟩ none)
    let o := Operation.send (channel 0 "c") [.int ⟨t, .byte⟩ 1]
    let o' := Operation.receive (channel 1 "d") [x]
    let s : SharedStore Int := ⟨fun cell => if cell.root.id = 1 then 1 else 0, fun _ => 5⟩
    (o.Built d ∧ o'.Built d ∧ (∃ f f', o.footprint = .ok f ∧ o'.footprint = .ok f' ∧
      f.independent f' = true) ∧ Separate M s o o' ∧ Separate M s o' o) ∧
    (o'.sharedExec M (o.sharedExec M s).1).1 = (o.sharedExec M (o'.sharedExec M s).1).1 ∧
      (o.sharedExec M (o'.sharedExec M s).1).2 = (o.sharedExec M s).2 ∧
      (o'.sharedExec M (o.sharedExec M s).1).2 = (o'.sharedExec M s).2 := by
  intro t d M channel x o o' s
  have hc : (channel 0 "c").Built d := .place t (.build _ none t (.head _) (by simp) rfl) rfl
  have hd : (channel 1 "d").Built d := .place t (.build _ none t (.tail _ (.head _)) (by simp) rfl) rfl
  have hx : x.Built d :=
    .place t (.build _ none t (.tail _ (.tail _ (.tail _ (.head _)))) (by simp) rfl) rfl
  have ho : o.Built d := .pair rfl hc (.int t 1 rfl)
  have ho' : o'.Built d := .pair rfl hd hx
  obtain ⟨f, hf, f', hf', h⟩ : ∃ f, o.footprint = .ok f ∧ ∃ f', o'.footprint = .ok f' ∧
      f.independent f' = true := ⟨_, rfl, _, rfl, rfl⟩
  have hsep : Separate M s o o' := by
    intro c q hchange e (he : e ∈ [channel 1 "d"]) hvalue
    cases hchange
    cases List.mem_singleton.mp he
    exact absurd hvalue (by decide)
  have hsep' : Separate M s o' o := by
    intro c q hchange e (he : e ∈ [channel 0 "c"]) hvalue
    cases hchange
    cases List.mem_singleton.mp he
    exact absurd hvalue (by decide)
  have hM : M.Folds := Meaning.exact_folds
  exact ⟨⟨ho, ho', ⟨f, f', hf, hf', h⟩, hsep, hsep'⟩,
    sharedExec_comm_of_independent ⟨_, rfl⟩ M hM ho ho' hf hf' h s hsep hsep'⟩

end Operation

/-- The cell belongs to a variable or a field of channel type. -/
def Declarations.HasChannel (d : Declarations) (c : Cell) : Prop :=
  d.HasCell c ∧ ∃ v ∈ d.vars, v.id = (c.fields.getLastD c.root).id ∧ v.type? = some .chan

/-- At first every channel has a queue of its own. -/
inductive SharedStore.Reachable (d : Declarations) (M : Machine V) : SharedStore V → Prop
  | start {s : SharedStore V} : (∀ c c', d.HasChannel c → d.HasChannel c' →
      s.cells c = s.cells c' → c = c') → SharedStore.Reachable d M s
  | exec {s : SharedStore V} {o : Operation} {f : Footprint} : SharedStore.Reachable d M s →
      o.Built d → o.footprint = .ok f → SharedStore.Reachable d M (o.sharedExec M s).1

/-- After `d = c`, the send `c!1` and the guard `len(d)` count as independent, yet the guard sees the
message only if it comes second. -/
theorem Operation.not_sharedExec_comm_of_independent :
    ¬∀ (V : Type) [DecidableEq V] (d : Declarations) (M : Machine V) (o o' : Operation)
      (f f' : Footprint) (s : SharedStore V), d.Reachable → M.Folds → (∀ v, M.stored .chan v = v) →
      s.Reachable d M → o.Built d → o'.Built d → o.footprint = .ok f → o'.footprint = .ok f' →
      f.independent f' = true →
      (o'.sharedExec M (o.sharedExec M s).1).1 = (o.sharedExec M (o'.sharedExec M s).1).1 ∧
        (o.sharedExec M (o'.sharedExec M s).1).2 = (o.sharedExec M s).2 ∧
        (o'.sharedExec M (o.sharedExec M s).1).2 = (o'.sharedExec M s).2 := by
  intro hcomm
  let t := Span.point "" .first
  let d := Declarations.after [.channel "c" none none t, .channel "d" none none t]
  let M : Machine Int := { Meaning.exact with
    stored := fun _ v => v
    sent := fun q as => some (q + as.length)
    received := fun q _ => if q = 0 then none else some (q - 1, fun _ => q) }
  let c := Expr.place ⟨t, .chan⟩ (.leaf ⟨0, "c", .scalar .chan, none, none⟩ none)
  let e := Expr.place ⟨t, .chan⟩ (.leaf ⟨1, "d", .scalar .chan, none, none⟩ none)
  let copy := Operation.assignment e c
  let send := Operation.send c [.int ⟨t, .byte⟩ 1]
  let guard := Operation.guard (.query ⟨t, .byte⟩ .len e)
  let s : SharedStore Int := ⟨fun cell => cell.root.id, fun _ => 0⟩
  have hc : c.Built d := .place t (.build _ none t (.head _) (by simp) rfl) rfl
  have he : e.Built d := .place t (.build _ none t (.tail _ (.head _)) (by simp) rfl) rfl
  have hcopy : copy.Built d := .pair rfl he hc
  have hsend : send.Built d := .pair rfl hc (.int t 1 rfl)
  have hguard : guard.Built d := List.forall_mem_singleton.mpr (.query t .len he rfl)
  have hcell : ∀ a, d.HasCell a → a = ⟨⟨a.root.id, 0⟩, []⟩ := by
    rintro ⟨⟨id, index⟩, fields⟩ ⟨v, hv, ⟨-, hindex⟩, hfields⟩
    have hv : v ∈ [⟨0, "c", .scalar .chan, none, none⟩, ⟨1, "d", .scalar .chan, none, none⟩] := hv
    simp only [List.mem_cons, List.not_mem_nil, or_false] at hv
    obtain rfl | rfl := hv <;> simp_all [Variable.record?]
  have hstart : s.Reachable d M := by
    refine .start fun a b ha hb heq => ?_
    have hid : a.root.id = b.root.id := Int.ofNat.inj heq
    rw [hcell a ha.1, hcell b hb.1, hid]
  have hM : M.Folds := Meaning.exact_folds
  obtain ⟨f, hf, f', hf', h⟩ : ∃ f, send.footprint = .ok f ∧ ∃ f', guard.footprint = .ok f' ∧
      f.independent f' = true := ⟨_, rfl, _, rfl, rfl⟩
  obtain ⟨-, -, hguarded⟩ := hcomm Int d M send guard f f' (copy.sharedExec M s).1 ⟨_, rfl⟩ hM
    (fun _ => rfl) (.exec hstart hcopy rfl) hsend hguard hf hf' h
  have hone : (guard.sharedExec M (send.sharedExec M (copy.sharedExec M s).1).1).2 = .value 1 := rfl
  have hzero : (guard.sharedExec M (copy.sharedExec M s).1).2 = .value 0 := rfl
  rw [hone, hzero] at hguarded
  exact absurd (Outcome.value.inj hguarded) (by decide)

end Execution
end Promela
