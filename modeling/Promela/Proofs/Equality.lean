import Promela.Proofs.Unspanned

/-! Equality of form, on expressions over one table: it says no less than equality of the trees, their spans
apart. So it is an equivalence, nothing that is computed from an expression tells equal ones apart, and
constructors take equal arguments to equal results. -/
namespace Promela

variable {d : Declarations}

/-- The type at the top of a tree that was built follows from the rest of the tree. -/
theorem Expr.Built.unspanned_eq_iff {e e' : Expr} (he : e.Built d) (he' : e'.Built d) :
    e.unspanned = e'.unspanned ↔ e.unspanned.retype .int = e'.unspanned.retype .int := by
  constructor
  · exact congrArg _
  · intro h
    have htype : Agree Eq (Typing.infer e) (Typing.infer e') := agree_infer h
    rw [he.infer_eq, he'.infer_eq] at htype
    have htype : e.type = e'.type := htype
    calc e.unspanned = (e.unspanned.retype .int).retype e.type := by
          rw [retype_retype, ← unspanned_retype, retype_type]
      _ = (e'.unspanned.retype .int).retype e'.type := by rw [h, htype]
      _ = e'.unspanned := by rw [retype_retype, ← unspanned_retype, retype_type]

theorem Place.Fits.rest (hd : d.Coherent) {v : Variable} {i : Option Expr} {p : Place}
    (h : (Place.field v i p).Fits d) : p.Fits d := by
  cases h with
  | field hv _ hr hf hj => exact .leaf (hd.fields_mem _ (hd.record_mem hv hr) _ hf) hj

theorem Place.Built.indexes : ∀ {p : Place}, p.Built d → ∀ i ∈ p.indexes, i.Built d
  | _, .build _ _ _ _ hi hp => by
    obtain ⟨rfl, -⟩ := build_ok hp
    exact fun e he => hi e (Option.mem_toList.mp he)
  | _, .select _ hp hf hq => by
    rw [indexes_select hq]
    exact List.forall_mem_append.mpr ⟨indexes hp, indexes hf⟩

/-- Equality of the two says that they differ in spans only. -/
def Expr.AlikeIff (e e' : Expr) : Prop := e.alike e' = true ↔ e.unspanned = e'.unspanned

theorem alikeIndex_iff : ∀ {i j : Option Expr}, (∀ e ∈ i.toList, ∀ e' ∈ j.toList, e.AlikeIff e') →
    (alikeIndex i j = true ↔ unspannedIndex i = unspannedIndex j)
  | none, none, _ | none, some _, _ | some _, none, _ => by simp [alikeIndex, unspannedIndex]
  | some e, some e', h => by
    have h : e.alike e' = true ↔ e.unspanned = e'.unspanned := h e (by simp) e' (by simp)
    simp [alikeIndex, unspannedIndex, h]

theorem alikeArgs_iff : ∀ {as bs : List Expr}, (∀ a ∈ as, ∀ b ∈ bs, a.AlikeIff b) →
    (alikeArgs as bs = true ↔ unspannedArgs as = unspannedArgs bs)
  | [], [], _ | [], _ :: _, _ | _ :: _, [], _ => by simp [alikeArgs, unspannedArgs]
  | a :: as, b :: bs, h => by
    have hhead : a.alike b = true ↔ a.unspanned = b.unspanned := h a (by simp) b (by simp)
    have htail : alikeArgs as bs = true ↔ unspannedArgs as = unspannedArgs bs :=
      alikeArgs_iff fun a ha b hb => h a (by simp [ha]) b (by simp [hb])
    simp [alikeArgs, unspannedArgs, hhead, htail]

theorem forall₂_of_alikeArgs : ∀ {as bs : List Expr}, alikeArgs as bs = true →
    List.Forall₂ (fun a b => (a == b) = true) as bs
  | [], [], _ => .nil
  | [], _ :: _, h | _ :: _, [], h => by cases h
  | a :: as, b :: bs, h => by
    obtain ⟨hab, h⟩ := Bool.and_eq_true_iff.mp h
    exact .cons hab (forall₂_of_alikeArgs h)

/-- Ids tell the variables of a table apart. -/
theorem Place.Fits.alike_iff (hd : d.Coherent) : ∀ {p q : Place}, p.Fits d → q.Fits d →
    (∀ i ∈ p.indexes, ∀ j ∈ q.indexes, i.AlikeIff j) → (p.alike q = true ↔ p.unspanned = q.unspanned)
  | .leaf _ _, .field _ _ _, _, _, _ | .field _ _ _, .leaf _ _, _, _, _ => by simp [alike, unspanned]
  | .leaf v i, .leaf w j, hp, hq, h => by
    have hvar : v.id = w.id ↔ v = w := ⟨hd.eq_of_id_eq hp.var_mem hq.var_mem, congrArg _⟩
    simp [alike, unspanned, hvar, alikeIndex_iff h]
  | .field v i p, .field w j q, hp, hq, h => by
    have hvar : v.id = w.id ↔ v = w := ⟨hd.eq_of_id_eq hp.var_mem hq.var_mem, congrArg _⟩
    have hindex : alikeIndex i j = true ↔ unspannedIndex i = unspannedIndex j :=
      alikeIndex_iff fun e he e' he' => h e (List.mem_append_left _ he) e' (List.mem_append_left _ he')
    have hrest : p.alike q = true ↔ p.unspanned = q.unspanned :=
      alike_iff hd (hp.rest hd) (hq.rest hd) fun e he e' he' =>
        h e (List.mem_append_right _ he) e' (List.mem_append_right _ he')
    simp [alike, unspanned, hvar, hindex, hrest, and_assoc]

/-- Two nodes are equal if they have the same form and equal children, whatever types are noted there. -/
theorem Expr.alike_iff_of_children {e e' : Expr}
    (hplace : ∀ p ∈ e.place?, ∀ q ∈ e'.place?, (p.alike q = true ↔ p.unspanned = q.unspanned))
    (h : ∀ a ∈ e.children, ∀ a' ∈ e'.children, a.AlikeIff a') :
    e.alike e' = true ↔ e.unspanned.retype .int = e'.unspanned.retype .int := by
  cases e with
  | bool | int | mtype => cases e' <;> simp [alike, unspanned, retype, Note.unspanned]
  | place n p =>
    cases e' with
    | place n' q => simp [alike, unspanned, retype, Note.unspanned, hplace p rfl q rfl]
    | _ => simp [alike, unspanned, retype]
  | unary n op a =>
    cases e' with
    | unary n' op' a' =>
      have ha : a.alike a' = true ↔ a.unspanned = a'.unspanned := h a (.head _) a' (.head _)
      simp [alike, unspanned, retype, Note.unspanned, ha]
    | _ => simp [alike, unspanned, retype]
  | binary n op l r =>
    cases e' with
    | binary n' op' l' r' =>
      have hl : l.alike l' = true ↔ l.unspanned = l'.unspanned := h l (.head _) l' (.head _)
      have hr : r.alike r' = true ↔ r.unspanned = r'.unspanned := h r (.tail _ (.head _)) r' (.tail _ (.head _))
      simp [alike, unspanned, retype, Note.unspanned, hl, hr, and_assoc]
    | _ => simp [alike, unspanned, retype]
  | ternary n c a b =>
    cases e' with
    | ternary n' c' a' b' =>
      have hc : c.alike c' = true ↔ c.unspanned = c'.unspanned := h c (.head _) c' (.head _)
      have ha : a.alike a' = true ↔ a.unspanned = a'.unspanned := h a (.tail _ (.head _)) a' (.tail _ (.head _))
      have hb : b.alike b' = true ↔ b.unspanned = b'.unspanned :=
        h b (.tail _ (.tail _ (.head _))) b' (.tail _ (.tail _ (.head _)))
      simp [alike, unspanned, retype, Note.unspanned, hc, ha, hb, and_assoc]
    | _ => simp [alike, unspanned, retype]
  | query n op c =>
    cases e' with
    | query n' op' c' =>
      have hc : c.alike c' = true ↔ c.unspanned = c'.unspanned := h c (.head _) c' (.head _)
      simp [alike, unspanned, retype, Note.unspanned, hc]
    | _ => simp [alike, unspanned, retype]
  | poll n c as =>
    cases e' with
    | poll n' c' as' =>
      have hc : c.alike c' = true ↔ c.unspanned = c'.unspanned := h c (.head _) c' (.head _)
      have hargs : alikeArgs as as' = true ↔ unspannedArgs as = unspannedArgs as' :=
        alikeArgs_iff fun a ha a' ha' => h a (.tail _ ha) a' (.tail _ ha')
      simp [alike, unspanned, retype, Note.unspanned, hc, hargs]
    | _ => simp [alike, unspanned, retype]
  | eval n a =>
    cases e' with
    | eval n' a' =>
      have ha : a.alike a' = true ↔ a.unspanned = a'.unspanned := h a (.head _) a' (.head _)
      simp [alike, unspanned, retype, Note.unspanned, ha]
    | _ => simp [alike, unspanned, retype]

/-- Equal expressions are the same but for their spans: ids tell variables apart, and the rules give the
types. -/
theorem Expr.Built.alike_iff (hd : d.Coherent) {e e' : Expr} (he : e.Built d) (he' : e'.Built d) :
    e.alike e' = true ↔ e.unspanned = e'.unspanned := by
  induction hsize : sizeOf e using Nat.strongRecOn generalizing e e' with
  | ind size ih =>
    subst hsize
    have hchildren : ∀ a ∈ e.children, ∀ a' ∈ e'.children, a.AlikeIff a' := fun a ha a' ha' =>
      ih _ (sizeOf_lt_of_mem_children ha) (he.of_mem_children hd a ha) (he'.of_mem_children hd a' ha') rfl
    rw [he.unspanned_eq_iff he']
    refine alike_iff_of_children (fun p hp q hq => ?_) hchildren
    obtain ⟨n, rfl⟩ := eq_place hp
    obtain ⟨n', rfl⟩ := eq_place hq
    exact (he.place_fits hd).1.alike_iff hd (he'.place_fits hd).1 hchildren

/-! ### Constructors -/

namespace Place

theorem Built.alike_iff (hd : d.Coherent) {p q : Place} (hp : p.Built d) (hq : q.Built d) :
    p.alike q = true ↔ p.unspanned = q.unspanned :=
  (hp.fits hd).alike_iff hd (hq.fits hd) fun i hi j hj => (hp.indexes i hi).alike_iff hd (hq.indexes j hj)

theorem agree_build (v : Variable) {i j : Option Expr} (span span' : Span)
    (h : unspannedIndex i = unspannedIndex j) :
    Agree (fun p q => p.unspanned = q.unspanned) (build v i span) (build v j span') := by
  cases i with
  | none =>
    cases j with
    | none => rfl
    | some => cases h
  | some e =>
    cases j with
    | none => cases h
    | some e' =>
      have h : e.unspanned = e'.unspanned := Option.some.inj h
      have htype : e.type = e'.type := by rw [← e.type_unspanned, h, e'.type_unspanned]
      have hconstant : e.constant? = e'.constant? := by
        rw [← e.constant?_unspanned, h, e'.constant?_unspanned]
      have hleaf : (leaf v (some e)).unspanned = (leaf v (some e')).unspanned := by
        rw [unspanned, unspanned, unspannedIndex, unspannedIndex, h]
      cases hlength : v.length with
      | none => simp only [build, hlength]; rfl
      | some n =>
        simp only [build, hlength, htype, hconstant]
        refine Agree.require _ _ _ fun _ => ?_
        cases e'.constant? with
        | none => exact hleaf
        | some k => exact Agree.require _ _ _ fun _ => hleaf

theorem agree_select {f g : Place} (span span' : Span) (hfg : f.unspanned = g.unspanned) : ∀ {p q : Place},
    p.unspanned = q.unspanned →
      Agree (fun r r' => r.unspanned = r'.unspanned) (p.select f span) (q.select g span')
  | leaf v i, leaf w j, h => by
    have hvar : f.var = g.var := by rw [← f.var_unspanned, hfg, g.var_unspanned]
    obtain ⟨rfl, hindex⟩ : v = w ∧ unspannedIndex i = unspannedIndex j := by simpa [unspanned] using h
    have hfield : (field v i f).unspanned = (field v j g).unspanned := by
      rw [unspanned, unspanned, hindex, hfg]
    simp only [select, hvar]
    cases v.record? with
    | none => rfl
    | some r => exact Agree.require _ _ _ fun _ => hfield
  | field v i p, field w j q, h => by
    obtain ⟨rfl, hindex, hrest⟩ : v = w ∧ unspannedIndex i = unspannedIndex j ∧ p.unspanned = q.unspanned := by
      simpa [unspanned] using h
    refine (agree_select span span' hfg hrest).bind fun r r' hr => ?_
    show (field v i r).unspanned = (field v j r').unspanned
    rw [unspanned, unspanned, hindex, hr]
  | leaf _ _, field _ _ _, h | field _ _ _, leaf _ _, h => by simp [unspanned] at h

end Place

/-- Constructors that check nodes which are the same but for spans have equal results. -/
theorem Expr.agree_of_check (hd : d.Coherent) {e e' : Expr} {x y : Checked Expr} (hx : x = e.check)
    (hy : y = e'.check) (hbuilt : ∀ r, x = .ok r → r.Built d) (hbuilt' : ∀ r, y = .ok r → r.Built d)
    (h : e.unspanned = e'.unspanned) : Agree (fun r r' => (r == r') = true) x y := by
  have hagree : Agree (fun r r' => r.unspanned = r'.unspanned) x y := by
    rw [hx, hy]
    exact agree_check h
  exact hagree.mono fun r r' hr hr' h => ((hbuilt r hr).alike_iff hd (hbuilt' r' hr')).mpr h

/-- Given equal arguments, each constructor succeeds with equal results or is refused for the same cause,
whatever the spans. -/
structure Congruent (d : Declarations) : Prop where
  bool (s s' : Span) (b : Bool) : (Expr.buildBool s b == Expr.buildBool s' b) = true
  int (s s' : Span) (v : Int) :
    Agree (fun r r' => (r == r') = true) (Expr.buildInt s v) (Expr.buildInt s' v)
  mtype (s s' : Span) (code : Nat) : (Expr.buildMtype s code == Expr.buildMtype s' code) = true
  place (s s' : Span) {p q : Place} : p.Built d → q.Built d → p.alike q = true →
    Agree (fun r r' => (r == r') = true) (Expr.buildPlace s p) (Expr.buildPlace s' q)
  unary (s s' : Span) (op : UnaryOp) {a a' : Expr} : a.Built d → a'.Built d → (a == a') = true →
    Agree (fun r r' => (r == r') = true) (Expr.buildUnary s op a) (Expr.buildUnary s' op a')
  binary (s s' : Span) (op : BinaryOp) {l l' r r' : Expr} : l.Built d → l'.Built d → r.Built d →
    r'.Built d → (l == l') = true → (r == r') = true →
    Agree (fun r r' => (r == r') = true) (Expr.buildBinary s op l r) (Expr.buildBinary s' op l' r')
  ternary (s s' : Span) {c c' a a' b b' : Expr} : c.Built d → c'.Built d → a.Built d → a'.Built d →
    b.Built d → b'.Built d → (c == c') = true → (a == a') = true → (b == b') = true →
    Agree (fun r r' => (r == r') = true) (Expr.buildTernary s c a b) (Expr.buildTernary s' c' a' b')
  query (s s' : Span) (op : ChannelOp) {c c' : Expr} : c.Built d → c'.Built d → (c == c') = true →
    Agree (fun r r' => (r == r') = true) (Expr.buildQuery s op c) (Expr.buildQuery s' op c')
  poll (s s' : Span) {c c' : Expr} {as as' : List Expr} : c.Built d → c'.Built d → (∀ a ∈ as, a.Built d) →
    (∀ a ∈ as', a.Built d) → (c == c') = true → alikeArgs as as' = true →
    Agree (fun r r' => (r == r') = true) (Expr.buildPoll s c as) (Expr.buildPoll s' c' as')
  eval (s s' : Span) {a a' : Expr} : a.Built d → a'.Built d → (a == a') = true →
    Agree (fun r r' => (r == r') = true) (Expr.buildEval s a) (Expr.buildEval s' a')
  /-- A variable is equal to the one with its id. -/
  leaf (s s' : Span) {v w : Variable} {i j : Option Expr} : v ∈ d.vars → w ∈ d.vars →
    (∀ e ∈ i, e.Built d) → (∀ e ∈ j, e.Built d) → v.id = w.id → alikeIndex i j = true →
    Agree (fun p q => p.alike q = true) (Place.build v i s) (Place.build w j s')
  select (s s' : Span) {p q f g : Place} : p.Built d → q.Built d → f.Built d → g.Built d →
    p.alike q = true → f.alike g = true →
    Agree (fun r r' => r.alike r' = true) (p.select f s) (q.select g s')

theorem Declarations.Coherent.congruent (hd : d.Coherent) : Congruent d where
  bool s s' b := by simp [BEq.beq, Expr.buildBool, Expr.alike]
  int s s' v := Expr.agree_of_check hd (Expr.buildInt_eq_check s .int v) (Expr.buildInt_eq_check s' .int v)
    (fun _ => .int s v) (fun _ => .int s' v) rfl
  mtype s s' code := by simp [BEq.beq, Expr.buildMtype, Expr.alike]
  place s s' p q hp hq h := by
    have h := (hp.alike_iff hd hq).mp h
    exact Expr.agree_of_check hd (Expr.buildPlace_eq_check s .int p) (Expr.buildPlace_eq_check s' .int q)
      (fun _ => .place s hp) (fun _ => .place s' hq) (by simp [Expr.unspanned, Note.unspanned, h])
  unary s s' op a a' ha ha' h := by
    have h := (ha.alike_iff hd ha').mp h
    exact Expr.agree_of_check hd (Expr.buildUnary_eq_check s .int op a) (Expr.buildUnary_eq_check s' .int op a')
      (fun _ => .unary s op ha) (fun _ => .unary s' op ha') (by simp [Expr.unspanned, Note.unspanned, h])
  binary s s' op l l' r r' hl hl' hr hr' hll' hrr' := by
    have hll' := (hl.alike_iff hd hl').mp hll'
    have hrr' := (hr.alike_iff hd hr').mp hrr'
    exact Expr.agree_of_check hd (Expr.buildBinary_eq_check s .int op l r)
      (Expr.buildBinary_eq_check s' .int op l' r') (fun _ => .binary s op hl hr)
      (fun _ => .binary s' op hl' hr') (by simp [Expr.unspanned, Note.unspanned, hll', hrr'])
  ternary s s' c c' a a' b b' hc hc' ha ha' hb hb' hcc' haa' hbb' := by
    have hcc' := (hc.alike_iff hd hc').mp hcc'
    have haa' := (ha.alike_iff hd ha').mp haa'
    have hbb' := (hb.alike_iff hd hb').mp hbb'
    exact Expr.agree_of_check hd (Expr.buildTernary_eq_check s .int c a b)
      (Expr.buildTernary_eq_check s' .int c' a' b') (fun _ => .ternary s hc ha hb)
      (fun _ => .ternary s' hc' ha' hb') (by simp [Expr.unspanned, Note.unspanned, hcc', haa', hbb'])
  query s s' op c c' hc hc' h := by
    have h := (hc.alike_iff hd hc').mp h
    exact Expr.agree_of_check hd (Expr.buildQuery_eq_check s .int op c) (Expr.buildQuery_eq_check s' .int op c')
      (fun _ => .query s op hc) (fun _ => .query s' op hc') (by simp [Expr.unspanned, Note.unspanned, h])
  poll s s' c c' as as' hc hc' has has' h hargs := by
    have h := (hc.alike_iff hd hc').mp h
    have hargs : unspannedArgs as = unspannedArgs as' :=
      (alikeArgs_iff fun a ha a' ha' => (has a ha).alike_iff hd (has' a' ha')).mp hargs
    exact Expr.agree_of_check hd (Expr.buildPoll_eq_check s .int c as) (Expr.buildPoll_eq_check s' .int c' as')
      (fun _ => .poll s hc has) (fun _ => .poll s' hc' has')
      (by simp [Expr.unspanned, Note.unspanned, h, hargs])
  eval s s' a a' ha ha' h := by
    have h := (ha.alike_iff hd ha').mp h
    exact Expr.agree_of_check hd (Expr.buildEval_eq_check s .int a) (Expr.buildEval_eq_check s' .int a')
      (fun _ => .eval s ha) (fun _ => .eval s' ha') (by simp [Expr.unspanned, Note.unspanned, h])
  leaf s s' v w i j hv hw hi hj hid h := by
    obtain rfl : v = w := hd.eq_of_id_eq hv hw hid
    have h : unspannedIndex i = unspannedIndex j :=
      (alikeIndex_iff fun e he e' he' => (hi e (by simpa using he)).alike_iff hd (hj e' (by simpa using he'))).mp h
    exact (Place.agree_build v s s' h).mono fun p q hp hq h =>
      (Place.Built.alike_iff hd (.build v i s hv hi hp) (.build v j s' hv hj hq)).mpr h
  select s s' p q f g hp hq hf hg hpq hfg := by
    have hpq := (hp.alike_iff hd hq).mp hpq
    have hfg := (hf.alike_iff hd hg).mp hfg
    exact (Place.agree_select s s' hfg hpq).mono fun r r' hr hr' h =>
      (Place.Built.alike_iff hd (.select s hp hf hr) (.select s' hq hg hr')).mpr h

/-- Everything that is asked of an expression has the same answer for both. -/
structure Expr.SameAnswers (e e' : Expr) : Prop where
  type : e.type = e'.type
  constant? : e.constant? = e'.constant?
  intCode : e.intCode = e'.intCode
  boolCode : e.boolCode = e'.boolCode
  reads : e.reads = e'.reads
  children : List.Forall₂ (fun c c' => (c == c') = true) e.children e'.children

theorem Expr.Built.sameAnswers (hd : d.Coherent) {e e' : Expr} (he : e.Built d) (he' : e'.Built d)
    (h : (e == e') = true) : e.SameAnswers e' := by
  have h : e.unspanned = e'.unspanned := (he.alike_iff hd he').mp h
  have htarget : ∀ want, e.toTarget want = e'.toTarget want := fun want => by
    rw [← toTarget_unspanned want e, h, toTarget_unspanned]
  have hreads : e.readList = e'.readList := by rw [← e.readList_unspanned, h, e'.readList_unspanned]
  have hchildren : unspannedArgs e.children = unspannedArgs e'.children := by
    rw [unspannedArgs_eq, unspannedArgs_eq, ← e.children_unspanned, h, e'.children_unspanned]
  refine ⟨?_, ?_, ?_, ?_, ?_, ?_⟩
  · rw [← e.type_unspanned, h, e'.type_unspanned]
  · rw [← e.constant?_unspanned, h, e'.constant?_unspanned]
  · rw [intCode, htarget, intCode]
  · rw [boolCode, htarget, boolCode]
  · rw [Expr.reads, hreads, Expr.reads]
  · have hiff : ∀ c ∈ e.children, ∀ c' ∈ e'.children, c.AlikeIff c' := fun c hc c' hc' =>
      (he.of_mem_children hd c hc).alike_iff hd (he'.of_mem_children hd c' hc')
    exact forall₂_of_alikeArgs ((alikeArgs_iff hiff).mpr hchildren)

/-- Over a table that declarations build, equality of form is an equivalence; equal expressions have the
same type, constant, target texts and reads, and their children are equal in turn; and constructors take
equal arguments to equal results, or are refused for the same cause. -/
theorem Declarations.Reachable.equality_of_form (hd : d.Reachable) :
    Equivalence (fun e e' : {e : Expr // e.Built d} => (e.val == e'.val) = true) ∧
      (∀ e e' : Expr, e.Built d → e'.Built d → (e == e') = true → e.SameAnswers e') ∧
      Congruent d := by
  have hiff : ∀ e e' : {e : Expr // e.Built d},
      (e.val == e'.val) = true ↔ e.val.unspanned = e'.val.unspanned :=
    fun e e' => e.property.alike_iff hd.coherent e'.property
  refine ⟨⟨fun e => (hiff e e).mpr rfl, fun h => ?_, fun h h' => ?_⟩,
    fun e e' he he' => he.sameAnswers hd.coherent he', hd.coherent.congruent⟩
  · exact (hiff _ _).mpr ((hiff _ _).mp h).symm
  · exact (hiff _ _).mpr (((hiff _ _).mp h).trans ((hiff _ _).mp h'))

/-- Two readings of `-a[1]`, from different places in the source. -/
theorem Declarations.equality_of_form_of_spans :
    let s := Span.point "" .first
    let s' : Span := ⟨"m.pml", ⟨7, 1⟩, ⟨7, 5⟩⟩
    let d := Declarations.after [.scalar "a" .byte (some 4) s]
    let a : Variable := ⟨0, "a", .scalar .byte, some 4, none⟩
    let e := fun s : Span => Expr.unary ⟨s, .short⟩ .neg
      (.place ⟨s, .byte⟩ (.leaf a (some (.int ⟨s, .byte⟩ 1))))
    (d.Reachable ∧ (e s).Built d ∧ (e s').Built d ∧ e s ≠ e s' ∧ (e s == e s') = true) ∧
      (e s' == e s) = true ∧ (e s).SameAnswers (e s') ∧
      Agree (fun r r' => (r == r') = true) (Expr.buildEval s (e s)) (Expr.buildEval s (e s')) := by
  intro s s' d a e
  have hd : d.Reachable := ⟨_, rfl⟩
  have he : ∀ t : Span, (e t).Built d := by
    intro t
    have hone : (Expr.int ⟨t, .byte⟩ 1).Built d := .int t 1 rfl
    have hplace : (Place.leaf a (some (.int ⟨t, .byte⟩ 1))).Built d :=
      .build a (some (.int ⟨t, .byte⟩ 1)) t (.head _) (by simpa using hone) rfl
    exact .unary t .neg (.place t hplace rfl) rfl
  have hequal : (e s == e s') = true := rfl
  have hne : e s ≠ e s' := by simp [e, s, s', Span.point]
  obtain ⟨hequivalence, hanswers, hcongruent⟩ := Declarations.Reachable.equality_of_form hd
  exact ⟨⟨hd, he s, he s', hne, hequal⟩,
    hequivalence.symm (x := ⟨e s, he s⟩) (y := ⟨e s', he s'⟩) hequal, hanswers _ _ (he s) (he s') hequal,
    hcongruent.eval s s (he s) (he s') hequal⟩

end Promela
