import Promela.Proofs.Locations
import Promela.Proofs.Namespace
import Promela.Proofs.Occurrences
import Promela.Proofs.Weakening

/-! Notices are exact: what was never looked up while a text was read is what no tree of the model has a node
for. -/
namespace Promela

/-! ### Constants among the nodes -/

/-- The code stands at some node of the expression, at any depth. -/
def Expr.Mentions (e : Expr) (code : Nat) : Prop := ∃ n matched, e.Reaches ⟨.mtype n code, matched⟩

/-- Some macro or some initial value mentions the code. -/
def Model.Mentions (m : Model) (code : Nat) : Prop := ∃ e ∈ m.exprs, e.Mentions code

theorem Place.mtypeCodes_eq : ∀ p : Place, p.mtypeCodes = p.indexes.flatMap Expr.mtypeCodes
  | .leaf v i => by cases i <;> simp [mtypeCodes, mtypeCodesOfIndex, indexes]
  | .field v i p => by
    have ih := mtypeCodes_eq p
    cases i <;> simp [mtypeCodes, mtypeCodesOfIndex, indexes, ih]

theorem mtypeCodesOfArgs_eq (as : List Expr) : mtypeCodesOfArgs as = as.flatMap Expr.mtypeCodes := by
  induction as with
  | nil => rfl
  | cons a as ih => simp [mtypeCodesOfArgs, ih]

namespace Occurrence

variable {o : Occurrence} {code : Nat}

/-- Every child is below, as the argument of a poll or not. -/
theorem exists_below {c : Expr} (hc : c ∈ o.node.children) : ∃ matched, o.Below ⟨c, matched⟩ := by
  obtain ⟨k, hk⟩ := List.mem_iff_getElem?.mp hc
  exact ⟨_, k, hk, rfl⟩

theorem Below.mem_children {o' : Occurrence} (h : o.Below o') : o'.node ∈ o.node.children := by
  obtain ⟨k, hk, -⟩ := h
  exact List.mem_of_getElem? hk

/-- The code stands at the node itself or below it. -/
theorem mem_mtypeCodes_iff {e : Expr} :
    code ∈ e.mtypeCodes ↔ (∃ n, e = .mtype n code) ∨ ∃ c ∈ e.children, code ∈ c.mtypeCodes := by
  cases e with
  | mtype n c => simp [Expr.mtypeCodes, Expr.children, eq_comm]
  | place n p => simp [Expr.mtypeCodes, Expr.children, Place.mtypeCodes_eq, List.mem_flatMap]
  | poll n c as => simp [Expr.mtypeCodes, Expr.children, mtypeCodesOfArgs_eq, List.mem_flatMap]
  | _ => simp [Expr.mtypeCodes, Expr.children]

theorem mem_mtypeCodes_iff_reaches : code ∈ o.node.mtypeCodes ↔
    ∃ n matched, Relation.ReflTransGen Below o ⟨.mtype n code, matched⟩ := by
  constructor
  · intro hcode
    induction hsize : sizeOf o.node using Nat.strongRecOn generalizing o with
    | ind size ih =>
      subst hsize
      rcases mem_mtypeCodes_iff.mp hcode with ⟨n, hnode⟩ | ⟨c, hc, hcode⟩
      · obtain ⟨e, matched⟩ := o
        subst hnode
        exact ⟨n, matched, .refl⟩
      · obtain ⟨matched, hbelow⟩ := exists_below hc
        obtain ⟨n, matched', hreach⟩ := ih _ (Expr.sizeOf_lt_of_mem_children hc) (o := ⟨c, matched⟩) hcode rfl
        exact ⟨n, matched', .head hbelow hreach⟩
  · rintro ⟨n, matched, hreach⟩
    induction hreach using Relation.ReflTransGen.head_induction_on with
    | refl => exact List.mem_singleton.mpr rfl
    | head hbelow _ ih => exact mem_mtypeCodes_iff.mpr (.inr ⟨_, hbelow.mem_children, ih⟩)

end Occurrence

theorem Expr.mem_mtypeCodes_iff_mentions {e : Expr} {code : Nat} : code ∈ e.mtypeCodes ↔ e.Mentions code :=
  Occurrence.mem_mtypeCodes_iff_reaches (o := ⟨e, false⟩)

/-! ### What is noticed -/

theorem mem_of_unusedMtypes {names : List (Located String)} {base : Nat} {used : List Nat} {n : Notice}
    (h : n ∈ unusedMtypes names base used) : ∃ c ∈ names, n = .unusedMtype c := by
  obtain ⟨⟨c, code⟩, hc, rfl⟩ := List.mem_map.mp h
  exact ⟨c, List.fst_mem_of_mem_zipIdx (List.mem_filter.mp hc).1, rfl⟩

/-- Notices come in the order of the codes. -/
theorem unusedMtypes_ascending (names : List (Located String)) (base : Nat) (used : List Nat) :
    ((names.zipIdx base).filter (!used.contains ·.2)).Pairwise (·.2 < ·.2) := by
  have hcodes : ((names.zipIdx base).map Prod.snd).Pairwise (· < ·) := by
    rw [List.zipIdx_map_snd]
    exact List.pairwise_lt_range' 1
  exact (List.pairwise_map.mp hcodes).filter _

/-- The constants that were declared have the codes that follow one another from the base. -/
theorem Mtypes.mem_zipIdx_iff_of_declareAll {base : Nat} {names : List (Located String)} {m : Mtypes}
    (h : (withBase base).declareAll names = .ok m) {c : Located String} {code : Nat} :
    (c, code) ∈ names.zipIdx base ↔ c ∈ names ∧ m.code? c.value = some code := by
  obtain ⟨hnames, hnodup⟩ := declareAll_ok List.nodup_nil h
  have hnames : m.names = names.map (·.value) := hnames
  have hbase : m.base = base := (declareAll_begins h).base
  rw [code?_eq_some_iff hnodup, hbase, List.mk_mem_zipIdx_iff_le_and_getElem?_sub]
  constructor
  · rintro ⟨hle, hget⟩
    refine ⟨List.mem_of_getElem? hget, code - base, by omega, ?_⟩
    rw [hnames, List.getElem?_map, hget]
    rfl
  · rintro ⟨hc, k, rfl, hget⟩
    refine ⟨Nat.le_add_right _ _, ?_⟩
    rw [Nat.add_sub_cancel_left]
    -- The name stands at one place only, so what stands at this place is the declaration itself.
    obtain ⟨j, hj⟩ := List.mem_iff_getElem?.mp hc
    have hname : m.names[j]? = some c.value := by
      rw [hnames, List.getElem?_map, hj]
      rfl
    have hlt : j < m.names.length := (List.getElem?_eq_some_iff.mp hname).1
    rw [← (List.getElem?_inj hlt hnodup).mp (hname.trans hget.symm)]
    exact hj

/-- What is noticed of a model are the declarations of those constants that it does not mention. -/
theorem Reading.notices_of_ofItems {base : Nat} {path : String} {items : List Surface.Item} {m : Model}
    (h : (ofItems base path items).outcome = .ok m) :
    ∃ unused : List (Located String × Nat), m.notices = unused.map (.unusedMtype ·.1) ∧
      unused.Pairwise (·.2 < ·.2) ∧ ∀ c code, (c, code) ∈ unused ↔
        c ∈ items.flatMap (·.mtypeNames) ∧ m.mtypes.code? c.value = some code ∧ ¬ m.Mentions code := by
  obtain ⟨-, -, mtypes, p, hmtypes, -, rfl⟩ := ofItems_ok_iff.mp h
  refine ⟨_, rfl, unusedMtypes_ascending _ _ _, fun c code => ?_⟩
  have hmentions : (p.exprs.flatMap Expr.mtypeCodes).contains code = true ↔
      (p.model mtypes (items.flatMap (·.mtypeNames)) base).Mentions code := by
    rw [List.contains_iff_mem, List.mem_flatMap]
    exact exists_congr fun e => and_congr_right fun _ => Expr.mem_mtypeCodes_iff_mentions
  rw [List.mem_filter, Mtypes.mem_zipIdx_iff_of_declareAll hmtypes, and_assoc, ← hmentions, Bool.not_eq_true']
  simp only [Bool.not_eq_true, Progress.model]

/-- The notices of a model are about exactly those of its constants that no macro and no initial value
mentions at any depth, one for each and in the order of the codes, and each of them stands at the declaration
of its constant in the source text. -/
theorem Model.notices_exact {base : Nat} {path source : String} {m : Model} (h : ofSource base path source = .ok m) :
    ∃ ts items, tokens source path = .ok ts ∧ Surface.items ts = .ok items ∧
      m.mtypes.names = (items.flatMap (·.mtypeNames)).map (·.value) ∧
      (∀ c ∈ items.flatMap (·.mtypeNames), ⟨.ident c.value, c.span⟩ ∈ ts) ∧
      ∃ unused : List (Located String × Nat), m.notices = unused.map (.unusedMtype ·.1) ∧
        unused.Pairwise (·.2 < ·.2) ∧ ∀ c code, (c, code) ∈ unused ↔
          c ∈ items.flatMap (·.mtypeNames) ∧ m.mtypes.code? c.value = some code ∧ ¬ m.Mentions code := by
  unfold ofSource Reading.ofSource at h
  split at h
  next r hr => cases h
  next items hitems =>
    obtain ⟨ts, hts, hitems⟩ := bind_ok hitems
    obtain ⟨hmtypes, -⟩ := Reading.ofItems_ok h
    obtain ⟨hnames, -⟩ := Mtypes.declareAll_ok List.nodup_nil hmtypes
    refine ⟨ts, items, hts, hitems, hnames, fun c hc => ?_, Reading.notices_of_ofItems h⟩
    obtain ⟨i, hi, hc⟩ := List.mem_flatMap.mp hc
    exact (Surface.from_of_items hitems i hi).names c hc

/-- The variable has the last constant for its initial value, by way of a macro. -/
theorem Model.notices_exact_of_macro :
    ∃ m, ofSource 7 "m" "mtype={A,B,C}\n#define D C\nmtype x=D" = .ok m ∧
      m.notices.map (fun n => (n.message, n.span.start)) =
        [("mtype constant A is never used", ⟨1, 8⟩), ("mtype constant B is never used", ⟨1, 10⟩)] ∧
      ∃ unused : List (Located String × Nat), m.notices = unused.map (.unusedMtype ·.1) ∧
        ∀ x ∈ unused, m.mtypes.code? x.1.value = some x.2 ∧ ¬ m.Mentions x.2 := by
  let span (line first last : Nat) : Span := ⟨"m", ⟨line, first⟩, ⟨line, last⟩⟩
  let ts : List Token :=
    [⟨.mtype, span 1 1 5⟩, ⟨.assign, span 1 6 6⟩, ⟨.openBrace, span 1 7 7⟩, ⟨.ident "A", span 1 8 8⟩,
      ⟨.comma, span 1 9 9⟩, ⟨.ident "B", span 1 10 10⟩, ⟨.comma, span 1 11 11⟩, ⟨.ident "C", span 1 12 12⟩,
      ⟨.closeBrace, span 1 13 13⟩, ⟨.define, span 2 1 7⟩, ⟨.ident "D", span 2 9 9⟩, ⟨.ident "C", span 2 11 11⟩,
      ⟨.newline, span 2 12 12⟩, ⟨.mtype, span 3 1 5⟩, ⟨.ident "x", span 3 7 7⟩, ⟨.assign, span 3 8 8⟩,
      ⟨.ident "D", span 3 9 9⟩, ⟨.eof, span 3 10 10⟩]
  let items : List Surface.Item :=
    [.mtypes [⟨"A", span 1 8 8⟩, ⟨"B", span 1 10 10⟩, ⟨"C", span 1 12 12⟩],
      .define ⟨"D", span 2 9 9⟩ (.reference (span 2 11 11) (.leaf ⟨"C", span 2 11 11⟩ none)),
      .globals ⟨.scalar .mtype, span 3 1 5⟩ [⟨⟨"x", span 3 7 7⟩, none,
        some (.value (.reference (span 3 9 9) (.leaf ⟨"D", span 3 9 9⟩ none)))⟩]]
  have htokens : tokens "mtype={A,B,C}\n#define D C\nmtype x=D" "m" = .ok ts := by decide +kernel
  have hitems : Surface.items ts = .ok items := by cbv
  obtain ⟨m, hm, hnotices⟩ : ∃ m, (Reading.ofItems 7 "m" items).outcome = .ok m ∧
      m.notices = [.unusedMtype ⟨"A", span 1 8 8⟩, .unusedMtype ⟨"B", span 1 10 10⟩] := ⟨_, rfl, rfl⟩
  have h : ofSource 7 "m" "mtype={A,B,C}\n#define D C\nmtype x=D" = .ok m := by
    rw [ofSource, Reading.ofSource, htokens, Except.bind, hitems]
    exact hm
  obtain ⟨_, _, -, -, -, -, unused, hunused, -, hexact⟩ := notices_exact h
  exact ⟨m, h, by rw [hnotices]; rfl, unused, hunused, fun x hx => ((hexact x.1 x.2).mp hx).2⟩

end Promela
