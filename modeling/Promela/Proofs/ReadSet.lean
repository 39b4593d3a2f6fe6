import Promela.Proofs.Evaluation

/-! An expression reads nothing but what its read set covers: in two stores that agree there it has the
same value. -/
namespace Promela

/-- The stores agree on every cell of the table that one of the accesses may touch. -/
def AgreeOn {V : Type} (d : Declarations) (as : List Access) (σ τ : Store V) : Prop :=
  ∀ a ∈ as, ∀ c, d.HasCell c → a.covers c → σ c = τ c

theorem AgreeOn.subset {V : Type} {d : Declarations} {as bs : List Access} {σ τ : Store V}
    (h : AgreeOn d bs σ τ) (hsub : as ⊆ bs) : AgreeOn d as σ τ :=
  fun a ha => h a (hsub ha)

variable {V : Type} {d : Declarations} {M : Meaning V} {σ τ : Store V}

/-- The element that is meant exists, and the selection covers it. -/
theorem spot_covered (hM : M.Folds) {v : Variable} {i : Option Expr} {s : Spot}
    (hlength : v.length ≠ some 0) (hi : v.FitsIndex i) (h : spot? M σ v i = some s) :
    v.HasSpot s ∧ (⟨v.id, slotOf v i⟩ : Selection).covers s := by
  cases i with
  | none =>
    cases h
    cases hv : v.length with
    | none => simp [Variable.HasSpot, Selection.covers, slotOf, Variable.isArray, hv, Slot.covers]
    | some n =>
      have hn : 0 < n := by
        rw [hv] at hlength
        exact Nat.pos_of_ne_zero fun hn => hlength (by rw [hn])
      simp [Variable.HasSpot, Selection.covers, slotOf, Variable.isArray, hv, Slot.covers, hn]
  | some e =>
    obtain ⟨-, n, hv, hbounds⟩ := hi e rfl
    simp only [spot?, hv] at h
    obtain ⟨k, hk, rfl⟩ := Option.map_eq_some_iff.mp h
    refine ⟨⟨rfl, by simp [hv]⟩, rfl, ?_⟩
    cases hc : e.constant? with
    | none => simp [slotOf, Variable.isArray, hv, hc, Slot.covers]
    | some c =>
      obtain ⟨hc₀, hcn⟩ := hbounds c hc
      obtain ⟨m, rfl⟩ := Int.eq_ofNat_of_zero_le hc₀
      have hm : m < n := Int.ofNat_lt.mp hcn
      have helement : M.element n (M.number m) = some ⟨m, hm⟩ :=
        hM.element ⟨m, hm⟩ (Expr.asInt?_constant? hc)
      rw [Expr.value_of_constant? hM σ hc, helement] at hk
      cases hk
      simp [slotOf, Variable.isArray, hv, hc, Slot.covers]

theorem Variable.record?_of_type? {v : Variable} {t : ValueType} (h : v.type? = some t) :
    v.record? = none := by
  unfold type? at h
  unfold record?
  split at h
  · rfl
  · cases h

/-- The cell that a place denotes exists, and the access of the place covers it. -/
theorem cell_covered (hd : d.Coherent) (hM : M.Folds) {p : Place} {t : ValueType} {c : Cell}
    (hp : p.Fits d) (ht : p.target.type? = some t) (h : p.cell? M σ = some c) :
    d.HasCell c ∧ p.access.covers c := by
  cases hp with
  | @leaf v i hv hi =>
    obtain ⟨s, hs, rfl⟩ := Option.map_eq_some_iff.mp h
    obtain ⟨hvs, hcover⟩ := spot_covered hM (hd.length_ne v hv) hi hs
    refine ⟨⟨v, hv, hvs, ?_⟩, hcover, trivial⟩
    have hr : v.record? = none := Variable.record?_of_type? ht
    rw [hr]
  | @field v i j r f hv hi hr hf hj =>
    obtain ⟨s, hs, h⟩ := Option.bind_eq_some_iff.mp h
    obtain ⟨c', hc', rfl⟩ := Option.map_eq_some_iff.mp h
    obtain ⟨s', hs', rfl⟩ := Option.map_eq_some_iff.mp hc'
    have hmem := hd.fields_mem r (hd.record_mem hv hr) f hf
    obtain ⟨hvs, hcover⟩ := spot_covered hM (hd.length_ne v hv) hi hs
    obtain ⟨hfs, hcover'⟩ := spot_covered hM (hd.length_ne _ hmem) hj hs'
    refine ⟨⟨v, hv, hvs, ?_⟩, hcover, hcover', trivial⟩
    rw [hr]
    exact ⟨f, hf, s', hfs, rfl⟩

theorem Place.indexReadList_eq : ∀ p : Place, p.indexReadList = p.indexes.flatMap Expr.readList
  | .leaf v i => by cases i <;> simp [indexReadList, subscriptReadList, indexes]
  | .field v i p => by
    have ih := indexReadList_eq p
    cases i <;> simp [indexReadList, subscriptReadList, indexes, ih]

theorem spot?_congr {N : Meaning V} (helement : M.element = N.element) (v : Variable)
    {i : Option Expr} (h : ∀ e ∈ i, e.value M σ = e.value N τ) : spot? M σ v i = spot? N τ v i := by
  cases i with
  | none => rfl
  | some e => simp only [spot?, h e rfl, helement]

/-- Where a place leads depends on its indexes only. -/
theorem Place.cell?_congr {N : Meaning V} (helement : M.element = N.element) : ∀ {p : Place},
    (∀ i ∈ p.indexes, i.value M σ = i.value N τ) → p.cell? M σ = p.cell? N τ
  | .leaf v i, h => by
    have hspot : spot? M σ v i = spot? N τ v i :=
      spot?_congr helement v fun e he => h e (by simpa [indexes] using he)
    simp only [cell?, hspot]
  | .field v i p, h => by
    have hspot : spot? M σ v i = spot? N τ v i :=
      spot?_congr helement v fun e he => h e (by simpa [indexes] using .inl he)
    have hcell : p.cell? M σ = p.cell? N τ :=
      cell?_congr helement fun e he => h e (by simpa [indexes] using .inr he)
    simp only [cell?, hspot, hcell]

theorem pollReadList_cons {a : Expr} (h : a.place? = none) (as : List Expr) :
    pollReadList (a :: as) = a.readList ++ pollReadList as := by
  cases a with
  | place n p => cases h
  | _ => rfl

theorem pollReadList_eq (as : List Expr) : pollReadList as = as.flatMap fun a => pollReadList [a] := by
  induction as with
  | nil => rfl
  | cons a as ih =>
    cases ha : a.place? with
    | none => simp [pollReadList_cons ha, ih, pollReadList]
    | some p =>
      obtain ⟨n, rfl⟩ := Expr.eq_place ha
      simp [pollReadList, ih]

/-- A plain variable among the arguments of a poll is not looked at. -/
theorem comparedValues_congr {N : Meaning V} {as : List Expr}
    (h : ∀ a ∈ as, a.place? = none → a.value M σ = a.value N τ) :
    comparedValues M σ as = comparedValues N τ as := by
  induction as with
  | nil => rfl
  | cons a as ih =>
    have ih := ih fun b hb => h b (List.mem_cons_of_mem a hb)
    cases ha : a.place? with
    | some p =>
      obtain ⟨n, rfl⟩ := Expr.eq_place ha
      simp only [comparedValues, ih]
    | none =>
      rw [comparedValues_cons ha, comparedValues_cons ha, h a List.mem_cons_self ha, ih]

theorem comparedValues_of_agree {as : List Expr} (h : ∀ a ∈ as, AgreeOn d a.readList σ τ →
    a.value M σ = a.value M τ) (hagree : AgreeOn d (pollReadList as) σ τ) :
    comparedValues M σ as = comparedValues M τ as := by
  refine comparedValues_congr fun a ha hplace => h a ha (hagree.subset fun r hr => ?_)
  rw [pollReadList_eq]
  exact List.mem_flatMap.mpr ⟨a, ha, by simpa [pollReadList_cons hplace, pollReadList] using hr⟩

theorem Expr.Built.value_congr (hd : d.Coherent) (hM : M.Folds) {e : Expr} (he : e.Built d) :
    AgreeOn d e.readList σ τ → e.value M σ = e.value M τ := by
  refine he.nodes hd (P := fun e => AgreeOn d e.readList σ τ → e.value M σ = e.value M τ)
    ?bool ?int ?mtype ?place ?unary ?binary ?ternary ?query ?poll ?eval
  case bool => exact fun _ _ _ => rfl
  case int => exact fun _ _ _ _ => rfl
  case mtype => exact fun _ _ _ => rfl
  case place =>
    intro n p hp ht hindexes h
    have hcell : p.cell? M σ = p.cell? M τ := by
      refine Place.cell?_congr rfl fun i hi => (hindexes i hi).2 (h.subset ?_)
      rw [readList, Place.indexReadList_eq]
      exact fun a ha => List.mem_cons_of_mem _ (List.mem_flatMap.mpr ⟨i, hi, ha⟩)
    cases hc : p.cell? M τ with
    | none => simp [value, hcell, hc]
    | some c =>
      obtain ⟨hcell', hcover⟩ := cell_covered hd hM hp ht hc
      have hcontent : σ c = τ c := h p.access (by simp [readList]) c hcell' hcover
      simp [value, hcell, hc, hcontent]
  case unary =>
    intro n op a _ _ iha h
    rw [value, value, iha h]
  case binary =>
    intro n op l r _ _ _ ihl ihr h
    rw [value, value, ihl (h.subset (List.subset_append_left _ _)),
      ihr (h.subset (List.subset_append_right _ _))]
  case ternary =>
    intro n c a b _ _ _ _ ihc iha ihb h
    have hca : c.readList ++ a.readList ⊆ c.readList ++ a.readList ++ b.readList :=
      List.subset_append_left _ _
    rw [value, value, ihc (h.subset fun _ hx => hca (List.mem_append_left _ hx)),
      iha (h.subset fun _ hx => hca (List.mem_append_right _ hx)),
      ihb (h.subset (List.subset_append_right _ _))]
  case query =>
    intro n op c _ _ ihc h
    rw [value, value, ihc h]
  case poll =>
    intro n c as _ _ ihc ihas h
    rw [value, value, ihc (h.subset (List.subset_append_left _ _)),
      comparedValues_of_agree (fun a ha => (ihas a ha).2) (h.subset (List.subset_append_right _ _))]
  case eval =>
    intro n a _ _ iha h
    rw [value, value, iha h]

/-- Stores that agree on all that an expression reads give it the same value. -/
theorem Expr.value_eq_of_agree_on_reads {V : Type} {d : Declarations} (hd : d.Reachable)
    (M : Meaning V) (hM : M.Folds) {e : Expr} (he : e.Built d) (σ τ : Store V)
    (h : ∀ a ∈ e.reads, ∀ c, d.HasCell c → a.covers c → σ c = τ c) :
    e.value M σ = e.value M τ := by
  refine he.value_congr hd.coherent hM fun a ha => h a ?_
  exact AccessSet.mem_ofList.mpr ha

/-- The poll `c?[x, eval(a[i])]` takes any `x`: stores that differ there only give it the same value. -/
theorem Expr.value_of_poll_ignores_plain_variable :
    let s := Span.point "" .first
    let d := Declarations.after [.channel "c" none none s, .scalar "i" .byte none s,
      .scalar "a" .int (some 4) s, .scalar "x" .int none s]
    let c := Expr.place ⟨s, .chan⟩ (.leaf ⟨0, "c", .scalar .chan, none, none⟩ none)
    let i := Expr.place ⟨s, .byte⟩ (.leaf ⟨1, "i", .scalar .byte, none, none⟩ none)
    let a := Expr.place ⟨s, .int⟩ (.leaf ⟨2, "a", .scalar .int, some 4, none⟩ (some i))
    let x := Expr.place ⟨s, .int⟩ (.leaf ⟨3, "x", .scalar .int, none, none⟩ none)
    let e := Expr.poll ⟨s, .bool⟩ c [x, .eval ⟨s, .int⟩ a]
    let σ : Store Int := fun _ => 0
    let τ : Store Int := fun cell => if cell = ⟨⟨3, 0⟩, []⟩ then 7 else 0
    (e.Built d ∧ ∀ r ∈ e.reads, ∀ cell, d.HasCell cell → r.covers cell → σ cell = τ cell) ∧
      e.value .exact σ = e.value .exact τ := by
  intro s d c i a x e σ τ
  have hc : c.Built d := .place s (.build _ none s (.head _) (by simp) rfl) rfl
  have hi : i.Built d := .place s (.build _ none s (.tail _ (.head _)) (by simp) rfl) rfl
  have ha : a.Built d :=
    .place s (.build _ (some i) s (.tail _ (.tail _ (.head _))) (by simpa using hi) rfl) rfl
  have hx : x.Built d :=
    .place s (.build _ none s (.tail _ (.tail _ (.tail _ (.head _)))) (by simp) rfl) rfl
  have he : e.Built d := by
    refine .poll s hc (fun y (hy : y ∈ [x, .eval ⟨s, .int⟩ a]) => ?_) rfl
    simp only [List.mem_cons, List.not_mem_nil, or_false] at hy
    obtain rfl | rfl := hy
    · exact hx
    · exact .eval s ha rfl
  have hagree : ∀ r ∈ e.reads, ∀ cell, d.HasCell cell → r.covers cell → σ cell = τ cell := by
    intro r hr cell _ hcover
    have hne : cell ≠ ⟨⟨3, 0⟩, []⟩ := by
      rintro rfl
      have hid : r.root.id = 3 := hcover.1.1
      have hr : r ∈ e.readList := AccessSet.mem_ofList.mp hr
      have hids : ∀ r ∈ e.readList, r.root.id ≠ 3 := by decide
      exact hids r hr hid
    simp [σ, τ, hne]
  exact ⟨⟨he, hagree⟩, Expr.value_eq_of_agree_on_reads ⟨_, rfl⟩ _ Meaning.exact_folds he σ τ hagree⟩

end Promela
