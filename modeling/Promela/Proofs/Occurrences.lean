import Mathlib.Logic.Relation
import Promela.Proofs.ReadSet

/-! The nodes of an expression as the steps from node to child reach them. An expression reads the accesses
of exactly those places among its nodes that are not matched by a poll. -/
namespace Promela

def Expr.isPoll : Expr → Bool
  | .poll .. => true
  | _ => false

/-- A node at some place in an expression. The direct arguments of a poll are matched with a message. -/
structure Occurrence where
  node : Expr
  matched : Bool

namespace Occurrence

/-- From a node to one of its children. The first child of a poll is its channel, the others are its
arguments. -/
def Below (o o' : Occurrence) : Prop :=
  ∃ k, o.node.children[k]? = some o'.node ∧ o'.matched = (o.node.isPoll && k != 0)

/-- What is read there: a place that is matched is not read itself. -/
def readList (o : Occurrence) : List Access :=
  if o.matched then pollReadList [o.node] else o.node.readList

end Occurrence

/-- The occurrence is reached from the expression by taking children again and again. -/
def Expr.Reaches (e : Expr) (o : Occurrence) : Prop :=
  Relation.ReflTransGen Occurrence.Below ⟨e, false⟩ o

theorem Place.sizeOf_lt_of_mem_indexes {i : Expr} :
    ∀ {p : Place}, i ∈ p.indexes → sizeOf i < sizeOf p
  | .leaf v j, h => by
    obtain rfl : j = some i := by simpa [indexes] using h
    simp only [Place.leaf.sizeOf_spec, Option.some.sizeOf_spec]
    omega
  | .field v j p, h => by
    rcases List.mem_append.mp h with h | h
    · obtain rfl : j = some i := by simpa using h
      simp only [Place.field.sizeOf_spec, Option.some.sizeOf_spec]
      omega
    · have ih := sizeOf_lt_of_mem_indexes h
      simp only [Place.field.sizeOf_spec]
      omega

theorem Expr.sizeOf_lt_of_mem_children {e c : Expr} (h : c ∈ e.children) : sizeOf c < sizeOf e := by
  cases e with
  | bool | int | mtype => cases h
  | place n p =>
    have hp := Place.sizeOf_lt_of_mem_indexes h
    simp only [Expr.place.sizeOf_spec]
    omega
  | unary | query | eval =>
    cases List.mem_singleton.mp h
    simp only [Expr.unary.sizeOf_spec, Expr.query.sizeOf_spec, Expr.eval.sizeOf_spec]
    omega
  | binary | ternary =>
    simp only [children, List.mem_cons, List.not_mem_nil, or_false] at h
    simp only [Expr.binary.sizeOf_spec, Expr.ternary.sizeOf_spec]
    rcases h with rfl | rfl | rfl <;> omega
  | poll n d as =>
    simp only [Expr.poll.sizeOf_spec]
    rcases List.mem_cons.mp h with rfl | h
    · omega
    · have has := List.sizeOf_lt_of_mem h
      omega

namespace Occurrence

variable {o : Occurrence} {a : Access}

/-- Being matched makes a difference to a place only. -/
theorem readList_eq (h : ¬ (o.matched = true ∧ o.node.place?.isSome)) : o.readList = o.node.readList := by
  obtain ⟨e, matched⟩ := o
  cases matched with
  | false => rfl
  | true =>
    have hplace : e.place? = none := by simpa using h
    simp [readList, pollReadList_cons hplace, pollReadList]

/-- Nothing but a place that is not matched is read beside what is read below. -/
theorem mem_readList_iff : a ∈ o.readList ↔
    (o.matched = false ∧ ∃ n p, o.node = .place n p ∧ a = p.access) ∨ a ∈ pollReadList [o.node] := by
  obtain ⟨e, matched⟩ := o
  cases matched with
  | true => simp [readList]
  | false =>
    cases h : e.place? with
    | none =>
      have hne : ∀ n p, e ≠ .place n p := by
        rintro n p rfl
        cases h
      simp [readList, pollReadList_cons h, pollReadList, hne]
    | some p =>
      obtain ⟨n, rfl⟩ := Expr.eq_place h
      have hplace : (∃ n' p', Expr.place n p = .place n' p' ∧ a = p'.access) ↔ a = p.access := by
        constructor
        · rintro ⟨_, _, heq, ha⟩
          cases heq
          exact ha
        · exact fun ha => ⟨n, p, rfl, ha⟩
      simp only [readList, Bool.false_eq_true, if_false, Expr.readList, pollReadList, List.append_nil,
        List.mem_cons, true_and, hplace]

/-- Below a node that is no poll, no child is matched. -/
theorem exists_below_iff (h : o.node.isPoll = false) :
    (∃ o', o.Below o' ∧ a ∈ o'.readList) ↔ ∃ c ∈ o.node.children, a ∈ c.readList := by
  constructor
  · rintro ⟨⟨c, matched⟩, ⟨k, hk, rfl⟩, ha⟩
    rw [h, Bool.false_and] at ha
    exact ⟨c, List.mem_of_getElem? hk, ha⟩
  · rintro ⟨c, hc, ha⟩
    obtain ⟨k, hk⟩ := List.mem_iff_getElem?.mp hc
    exact ⟨⟨c, false⟩, ⟨k, hk, by rw [h, Bool.false_and]⟩, ha⟩

theorem exists_below_poll_iff {n : Note} {c : Expr} {as : List Expr} {matched : Bool} :
    (∃ o', Below ⟨.poll n c as, matched⟩ o' ∧ a ∈ o'.readList) ↔
      a ∈ c.readList ∨ ∃ b ∈ as, a ∈ pollReadList [b] := by
  constructor
  · rintro ⟨⟨b, matched⟩, ⟨k, hk, rfl⟩, ha⟩
    cases k with
    | zero =>
      obtain rfl : c = b := Option.some.inj hk
      exact .inl ha
    | succ k => exact .inr ⟨b, List.mem_of_getElem? hk, ha⟩
  · rintro (ha | ⟨b, hb, ha⟩)
    · exact ⟨⟨c, false⟩, ⟨0, rfl, rfl⟩, ha⟩
    · obtain ⟨k, hk⟩ := List.mem_iff_getElem?.mp hb
      exact ⟨⟨b, true⟩, ⟨k + 1, hk, rfl⟩, ha⟩

/-- What is read below an occurrence is what its children read. -/
theorem mem_pollReadList_iff : a ∈ pollReadList [o.node] ↔ ∃ o', o.Below o' ∧ a ∈ o'.readList := by
  obtain ⟨e, matched⟩ := o
  cases e with
  | poll n c as =>
    rw [exists_below_poll_iff]
    simp only [pollReadList, Expr.readList, List.append_nil, List.mem_append]
    rw [pollReadList_eq, List.mem_flatMap]
  | place n p =>
    rw [exists_below_iff rfl]
    simp only [pollReadList, List.append_nil, Place.indexReadList_eq, List.mem_flatMap, Expr.children]
  | _ =>
    rw [exists_below_iff rfl]
    simp [pollReadList, Expr.readList, Expr.children]

/-- An occurrence reads exactly the places that are reached from it and not matched. -/
theorem mem_readList_iff_reaches : a ∈ o.readList ↔
    ∃ n p, Relation.ReflTransGen Below o ⟨.place n p, false⟩ ∧ a = p.access := by
  constructor
  · intro ha
    induction hsize : sizeOf o.node using Nat.strongRecOn generalizing o with
    | ind size ih =>
      subst hsize
      rcases mem_readList_iff.mp ha with ⟨hmatched, n, p, hnode, rfl⟩ | ha
      · obtain ⟨e, matched⟩ := o
        subst hmatched hnode
        exact ⟨n, p, .refl, rfl⟩
      · obtain ⟨o', hbelow, ha⟩ := mem_pollReadList_iff.mp ha
        have hlt : sizeOf o'.node < sizeOf o.node := by
          obtain ⟨k, hk, -⟩ := hbelow
          exact Expr.sizeOf_lt_of_mem_children (List.mem_of_getElem? hk)
        obtain ⟨n, p, hreach, rfl⟩ := ih _ hlt ha rfl
        exact ⟨n, p, .head hbelow hreach, rfl⟩
  · rintro ⟨n, p, hreach, rfl⟩
    induction hreach using Relation.ReflTransGen.head_induction_on with
    | refl => exact mem_readList_iff.mpr (.inl ⟨rfl, n, p, rfl, rfl⟩)
    | head hbelow _ ih => exact mem_readList_iff.mpr (.inr (mem_pollReadList_iff.mpr ⟨_, hbelow, ih⟩))

end Occurrence

/-- An expression reads the accesses of exactly those places among the nodes reached from it that are no
direct arguments of a poll; so all that is read at a node is read by the whole, but for a place that is such
an argument. -/
theorem Expr.reads_exact (e : Expr) :
    (∀ a, a ∈ e.reads ↔ ∃ n p, e.Reaches ⟨.place n p, false⟩ ∧ a = p.access) ∧
      ∀ o, e.Reaches o → ¬ (o.matched = true ∧ o.node.place?.isSome) → ∀ a ∈ o.node.reads, a ∈ e.reads := by
  have hreads : ∀ a, a ∈ e.reads ↔ ∃ n p, e.Reaches ⟨.place n p, false⟩ ∧ a = p.access := by
    intro a
    exact AccessSet.mem_ofList.trans (Occurrence.mem_readList_iff_reaches (o := ⟨e, false⟩))
  refine ⟨hreads, fun o ho hplain a ha => ?_⟩
  have hread : a ∈ o.readList := by
    rw [Occurrence.readList_eq hplain]
    exact AccessSet.mem_ofList.mp ha
  obtain ⟨n, p, hreach, rfl⟩ := Occurrence.mem_readList_iff_reaches.mp hread
  exact (hreads _).mpr ⟨n, p, ho.trans hreach, rfl⟩

/-- The poll `c?[a[c?[x]]]` reads what the poll in its index reads, which is the channel; the array is
matched, and so is `x`. -/
theorem Expr.reads_exact_of_nested_poll :
    let s := Span.point "" .first
    let c := Expr.place ⟨s, .chan⟩ (.leaf ⟨0, "c", .scalar .chan, none, none⟩ none)
    let x := Expr.place ⟨s, .bool⟩ (.leaf ⟨1, "x", .scalar .bool, none, none⟩ none)
    let inner := Expr.poll ⟨s, .bool⟩ c [x]
    let a := Expr.place ⟨s, .int⟩ (.leaf ⟨2, "a", .scalar .int, some 4, none⟩ (some inner))
    let e := Expr.poll ⟨s, .bool⟩ c [a]
    e.reads.toList = [⟨⟨0, .scalar⟩, []⟩] ∧ e.Reaches ⟨inner, false⟩ ∧ ∀ r ∈ inner.reads, r ∈ e.reads := by
  intro s c x inner a e
  have hmatched : Occurrence.Below ⟨e, false⟩ ⟨a, true⟩ := ⟨1, rfl, rfl⟩
  have hindex : Occurrence.Below ⟨a, true⟩ ⟨inner, false⟩ := ⟨0, rfl, rfl⟩
  have hreach : e.Reaches ⟨inner, false⟩ := .head hmatched (.single hindex)
  exact ⟨rfl, hreach, (Expr.reads_exact e).2 ⟨inner, false⟩ hreach (by decide)⟩

end Promela
