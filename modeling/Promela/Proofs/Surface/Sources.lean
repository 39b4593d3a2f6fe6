import Promela.Model.Reading
import Promela.Proofs.Surface.Soundness

/-! Where in a token list the items stand that are read from it: every reader leaves a suffix of its tokens,
the names of constants, variables and fields are tokens, and the expressions of an item stand on runs of
tokens. -/
namespace Promela
namespace Surface

def Initializer.exprs : Initializer → List Expr
  | value e => [e]
  | channel .. => []

def Declarator.exprs (d : Declarator) : List Expr := d.init.toList.flatMap Initializer.exprs

/-- The expressions that stand in an item themselves: initial values and bodies of macros. -/
def Item.exprs : Item → List Expr
  | globals _ ds => ds.flatMap Declarator.exprs
  | define _ body => [body]
  | _ => []

/-- The names of the variables or fields that an item declares. -/
def Item.declaredNames : Item → List (Located String)
  | record _ fields => fields.map (·.name)
  | globals _ ds => ds.map (·.name)
  | _ => []

/-- Whatever the reading yields, it leaves a suffix of the tokens. -/
def Consumes {α : Type} {bound : Nat} (r : Except Rejection (Parsed α bound)) (ts : List Token) : Prop :=
  ∀ v rest, Yields r v rest → rest <:+ ts

namespace Consumes

variable {α β : Type} {b c : Nat} {ts us : List Token}

theorem bind {x : Except Rejection (Parsed α b)} {f : Parsed α b → Except Rejection (Parsed β c)}
    (hx : Consumes x ts) (hf : ∀ a us h, Consumes (f ⟨a, us, h⟩) us) : Consumes (x >>= f) ts := by
  intro v rest h
  obtain ⟨a, us, hlt, ha, hrest⟩ := yields_bind.mp h
  exact (hf a us hlt v rest hrest).trans (hx a us ha)

theorem pure {a : α} {h : ts.length < b} : Consumes (pure ⟨a, ts, h⟩ : Except Rejection (Parsed α b)) ts := by
  intro v rest hrest
  obtain ⟨-, rfl⟩ := yields_pure.mp hrest
  exact List.suffix_rfl

theorem error (r : Rejection) : Consumes (.error r : Except Rejection (Parsed α b)) ts := by
  intro v rest h
  exact absurd h not_yields_error

theorem within {x : Except Rejection (Parsed α b)} (hx : Consumes x us) (h : us <:+ ts) : Consumes x ts :=
  fun v rest hrest => (hx v rest hrest).trans h

theorem cons {x : Except Rejection (Parsed α b)} (hx : Consumes x us) (t : Token) : Consumes x (t :: us) :=
  hx.within (List.suffix_cons t us)

end Consumes

section
variable {ts : List Token}

theorem consumes_expect (kind : TokenKind) (what : String) (ts : List Token) : Consumes (expect kind what ts) ts := by
  intro s rest h
  obtain rfl := yields_expect.mp h
  exact List.suffix_cons _ _

theorem consumes_ident (what : String) (ts : List Token) : Consumes (ident what ts) ts := by
  intro n rest h
  obtain rfl := yields_ident.mp h
  exact List.suffix_cons _ _

theorem consumes_binary (n : Nat) (ts : List Token) : Consumes (binary n ts) ts := by
  intro e rest h
  obtain ⟨us, rfl, -⟩ := reads_of_binary h
  exact List.suffix_append us rest

theorem skip_suffix (kind : TokenKind) (ts : List Token) : skip kind ts <:+ ts := by
  cases ts with
  | nil => exact List.suffix_rfl
  | cons t ts =>
    simp only [skip]
    split
    · exact List.suffix_cons t ts
    · exact List.suffix_rfl

theorem skipLine_suffix (ts : List Token) : skipLine ts <:+ ts := by
  induction ts with
  | nil => exact List.suffix_rfl
  | cons t ts ih =>
    simp only [skipLine]
    split
    · exact List.suffix_rfl
    · exact ih.trans (List.suffix_cons t ts)

theorem skipBlock_suffix (depth : Nat) (ts : List Token) : skipBlock depth ts <:+ ts := by
  induction ts generalizing depth with
  | nil => exact List.suffix_rfl
  | cons t ts ih =>
    have hrest : ∀ d, skipBlock d ts <:+ t :: ts := fun d => (ih d).trans (List.suffix_cons t ts)
    simp only [skipBlock]
    split
    · exact List.suffix_rfl
    · exact hrest _
    · split
      · exact List.suffix_cons t ts
      · exact hrest _
    · exact hrest _

theorem consumes_names (what : String) (ts : List Token) : Consumes (names what ts) ts := by
  rw [names]
  refine .bind (consumes_ident what ts) fun n us h => ?_
  dsimp only
  split
  next vs _ =>
    have hlt : vs.length < ts.length := Nat.lt_of_succ_lt h
    refine .cons ?_ _
    exact .bind (consumes_names what vs) fun _ _ _ => .pure
  next => exact .pure
termination_by ts.length

theorem consumes_typeName (ts : List Token) : Consumes (typeName ts) ts := by
  unfold typeName
  split
  case h_5 => exact .error _
  all_goals exact .cons .pure _

theorem consumes_typeNames (ts : List Token) : Consumes (typeNames ts) ts := by
  rw [typeNames]
  refine .bind (consumes_typeName ts) fun n us h => ?_
  dsimp only
  split
  next vs _ =>
    have hlt : vs.length < ts.length := Nat.lt_of_succ_lt h
    refine .cons ?_ _
    exact .bind (consumes_typeNames vs) fun _ _ _ => .pure
  next => exact .pure
termination_by ts.length

theorem consumes_size (ts : List Token) : Consumes (size ts) ts := by
  have hvalue : Consumes (sizeValue ts) ts := by
    unfold sizeValue
    split
    case h_3 => exact .error _
    all_goals exact .cons .pure _
  exact .bind hvalue fun _ us _ => .bind (consumes_expect _ _ us) fun _ _ _ => .pure

theorem consumes_arraySize (ts : List Token) : Consumes (arraySize ts) ts := by
  unfold arraySize
  split
  · refine .cons ?_ _
    exact .bind (consumes_size _) fun _ _ _ => .pure
  · exact .pure

theorem consumes_fields (type : Located TypeName) (ts : List Token) : Consumes (fields type ts) ts := by
  rw [fields]
  refine .bind (consumes_ident _ ts) fun n us hus => .bind (consumes_arraySize us) fun size vs hvs => ?_
  dsimp only
  split
  next ws _ =>
    have hlt : ws.length < ts.length := by
      simp only [List.length_cons] at hvs
      omega
    refine .cons ?_ _
    exact .bind (consumes_fields type ws) fun _ _ _ => .pure
  next => exact .pure
termination_by ts.length

theorem consumes_fieldGroups (ts : List Token) : Consumes (fieldGroups ts) ts := by
  rw [fieldGroups.eq_def]
  split
  · exact .pure
  · refine .bind (consumes_typeName ts) fun type us hus => .bind (consumes_fields type us) fun fs vs hvs => ?_
    dsimp only
    split
    next ws _ =>
      have hlt : ws.length < ts.length := by
        simp only [List.length_cons] at hvs
        omega
      refine .cons ?_ _
      exact .bind (consumes_fieldGroups ws) fun _ _ _ => .pure
    next => exact .pure
    next => exact .error _
termination_by ts.length

theorem consumes_initializer (ts : List Token) : Consumes (initializer ts) ts := by
  unfold initializer
  split
  · exact .error _
  · refine .cons ?_ _
    refine .bind (consumes_size _) fun _ us _ => .bind (consumes_expect _ _ us) fun _ us _ => ?_
    refine .bind (consumes_expect _ _ us) fun _ us _ => .bind (consumes_typeNames us) fun _ us _ => ?_
    exact .bind (consumes_expect _ _ us) fun _ _ _ => .pure
  · exact .bind (consumes_binary levels _) fun _ _ _ => .pure

theorem consumes_optionalInitializer (ts : List Token) : Consumes (optionalInitializer ts) ts := by
  unfold optionalInitializer
  split
  · refine .cons ?_ _
    exact .bind (consumes_initializer _) fun _ _ _ => .pure
  · exact .pure

theorem consumes_declarators (ts : List Token) : Consumes (declarators ts) ts := by
  rw [declarators]
  refine .bind (consumes_ident _ ts) fun n us hus => .bind (consumes_arraySize us) fun size vs hvs => ?_
  refine .bind (consumes_optionalInitializer vs) fun init ws hws => ?_
  dsimp only
  split
  next xs _ =>
    have hlt : xs.length < ts.length := by
      simp only [List.length_cons] at hws
      omega
    refine .cons ?_ _
    exact .bind (consumes_declarators xs) fun _ _ _ => .pure
  next => exact .pure
termination_by ts.length

end

theorem Grounded.suffix {us ts : List Token} {es : List Expr} (h : Grounded us es) (hs : us <:+ ts) :
    Grounded ts es := by
  obtain ⟨pre, rfl⟩ := hs
  simpa using h.amid pre []

/-- The expressions of an item and all below them stand on runs of the tokens, and its constants, variables
and fields are among the tokens. -/
structure Item.From (ts : List Token) (i : Item) : Prop where
  exprs : Grounded ts (i.exprs.flatMap Expr.nodes)
  names : ∀ n ∈ i.mtypeNames, ⟨.ident n.value, n.span⟩ ∈ ts
  declared : ∀ n ∈ i.declaredNames, ⟨.ident n.value, n.span⟩ ∈ ts

theorem Item.From.suffix {us ts : List Token} {i : Item} (h : i.From us) (hs : us <:+ ts) : i.From ts :=
  ⟨h.exprs.suffix hs, fun n hn => hs.subset (h.names n hn), fun n hn => hs.subset (h.declared n hn)⟩

section

variable {ts rest : List Token}

theorem grounded_binary {n : Nat} {e : Expr} (h : Yields (binary n ts) e rest) : Grounded ts e.nodes := by
  obtain ⟨us, rfl, hus⟩ := reads_of_binary h
  simpa using hus.nodes.amid [] rest

theorem grounded_initializer {i : Initializer} (h : Yields (initializer ts) i rest) :
    Grounded ts (i.exprs.flatMap Expr.nodes) := by
  unfold initializer at h
  split at h
  · exact absurd h not_yields_error
  · simp only [yields_bind, yields_pure] at h
    obtain ⟨_, _, _, _, _, _, _, _, _, _, _, _, _, _, _, _, _, _, _, _, rfl, -⟩ := h
    exact .nil _
  · simp only [yields_bind, yields_pure] at h
    obtain ⟨e, us, h₁, he, rfl, -⟩ := h
    simpa [Initializer.exprs] using grounded_binary he

theorem grounded_optionalInitializer {i : Option Initializer} (h : Yields (optionalInitializer ts) i rest) :
    Grounded ts (i.toList.flatMap fun i => i.exprs.flatMap Expr.nodes) := by
  unfold optionalInitializer at h
  split at h
  · simp only [yields_bind, yields_pure] at h
    obtain ⟨i, us, h₁, hi, rfl, -⟩ := h
    simpa using (grounded_initializer hi).suffix (List.suffix_cons _ _)
  · obtain ⟨rfl, -⟩ := yields_pure.mp h
    exact .nil _

theorem grounded_declarators {ts rest : List Token} {ds : List Declarator} (h : Yields (declarators ts) ds rest) :
    Grounded ts ((ds.flatMap Declarator.exprs).flatMap Expr.nodes) := by
  rw [declarators] at h
  simp only [yields_bind] at h
  obtain ⟨n, us, hus, hn, size, vs, hvs, hsize, init, ws, hws, hinit, h⟩ := h
  have hsuffix : vs <:+ ts := (consumes_arraySize us size vs hsize).trans (consumes_ident _ ts n us hn)
  have hfirst := (grounded_optionalInitializer hinit).suffix hsuffix
  have hwsuffix : ws <:+ ts := (consumes_optionalInitializer vs init ws hinit).trans hsuffix
  split at h
  next xs _ =>
    simp only [yields_bind, yields_pure] at h
    obtain ⟨ds, ys, hys, hds, rfl, -⟩ := h
    have hlt : xs.length < ts.length := by
      have hle := hwsuffix.length_le
      simp only [List.length_cons] at hle
      omega
    have hrest := (grounded_declarators hds).suffix ((List.suffix_cons _ xs).trans hwsuffix)
    simpa [Declarator.exprs, List.flatMap_assoc] using hfirst.append hrest
  next =>
    obtain ⟨rfl, -⟩ := yields_pure.mp h
    simpa [Declarator.exprs, List.flatMap_assoc] using hfirst
termination_by ts.length

theorem mem_of_names {ts rest : List Token} {what : String} {ns : List (Located String)}
    (h : Yields (names what ts) ns rest) :
    ∀ n ∈ ns, ⟨.ident n.value, n.span⟩ ∈ ts := by
  rw [names] at h
  simp only [yields_bind, yields_ident] at h
  obtain ⟨n, us, hus, rfl, h⟩ := h
  split at h
  next s vs _ _ =>
    simp only [yields_bind, yields_pure] at h
    obtain ⟨ns, ws, hws, hns, rfl, -⟩ := h
    have hrest := mem_of_names hns
    refine List.forall_mem_cons.mpr ⟨List.mem_cons_self, fun m hm => ?_⟩
    exact List.mem_cons_of_mem _ (List.mem_cons_of_mem _ (hrest m hm))
  next =>
    obtain ⟨rfl, -⟩ := yields_pure.mp h
    exact fun m hm => List.mem_singleton.mp hm ▸ List.mem_cons_self
termination_by ts.length

theorem mem_of_declarators {ts rest : List Token} {ds : List Declarator} (h : Yields (declarators ts) ds rest) :
    ∀ d ∈ ds, ⟨.ident d.name.value, d.name.span⟩ ∈ ts := by
  rw [declarators] at h
  simp only [yields_bind, yields_ident] at h
  obtain ⟨n, us, hus, rfl, size, vs, hvs, hsize, init, ws, hws, hinit, h⟩ := h
  have hsuffix : ws <:+ us :=
    (consumes_optionalInitializer vs init ws hinit).trans (consumes_arraySize us size vs hsize)
  split at h
  next xs _ =>
    simp only [yields_bind, yields_pure] at h
    obtain ⟨ds, ys, hys, hds, rfl, -⟩ := h
    have hlt : xs.length < us.length := hsuffix.length_le
    have hrest := mem_of_declarators hds
    refine List.forall_mem_cons.mpr ⟨List.mem_cons_self, fun d hd => ?_⟩
    exact List.mem_cons_of_mem _ (hsuffix.subset (List.mem_cons_of_mem _ (hrest d hd)))
  next =>
    obtain ⟨rfl, -⟩ := yields_pure.mp h
    exact List.forall_mem_singleton.mpr List.mem_cons_self
termination_by ts.length

theorem mem_of_fields {type : Located TypeName} {ts rest : List Token} {fs : List FieldDecl}
    (h : Yields (fields type ts) fs rest) : ∀ f ∈ fs, ⟨.ident f.name.value, f.name.span⟩ ∈ ts := by
  rw [fields] at h
  simp only [yields_bind, yields_ident] at h
  obtain ⟨n, us, hus, rfl, size, vs, hvs, hsize, h⟩ := h
  have hsuffix : vs <:+ us := consumes_arraySize us size vs hsize
  split at h
  next ws _ =>
    simp only [yields_bind, yields_pure] at h
    obtain ⟨fs, xs, hxs, hfs, rfl, -⟩ := h
    have hlt : ws.length < us.length := hsuffix.length_le
    have hrest := mem_of_fields hfs
    refine List.forall_mem_cons.mpr ⟨List.mem_cons_self, fun f hf => ?_⟩
    exact List.mem_cons_of_mem _ (hsuffix.subset (List.mem_cons_of_mem _ (hrest f hf)))
  next =>
    obtain ⟨rfl, -⟩ := yields_pure.mp h
    exact List.forall_mem_singleton.mpr List.mem_cons_self
termination_by ts.length

theorem mem_of_fieldGroups {ts rest : List Token} {fs : List FieldDecl} (h : Yields (fieldGroups ts) fs rest) :
    ∀ f ∈ fs, ⟨.ident f.name.value, f.name.span⟩ ∈ ts := by
  rw [fieldGroups.eq_def] at h
  split at h
  · obtain ⟨rfl, -⟩ := yields_pure.mp h
    exact fun _ hf => absurd hf List.not_mem_nil
  · simp only [yields_bind] at h
    obtain ⟨type, us, hus, htype, fs, vs, hvs, hfs, h⟩ := h
    have htypeSuffix := consumes_typeName ts type us htype
    have hsuffix : vs <:+ ts := (consumes_fields type us fs vs hfs).trans htypeSuffix
    have hfields : ∀ f ∈ fs, ⟨.ident f.name.value, f.name.span⟩ ∈ ts :=
      fun f hf => htypeSuffix.subset (mem_of_fields hfs f hf)
    split at h
    next ws _ =>
      simp only [yields_bind, yields_pure] at h
      obtain ⟨gs, xs, hxs, hgs, rfl, -⟩ := h
      have hlt : ws.length < ts.length := hsuffix.length_le
      have hrest := mem_of_fieldGroups hgs
      refine List.forall_mem_append.mpr ⟨hfields, fun f hf => ?_⟩
      exact hsuffix.subset (List.mem_cons_of_mem _ (hrest f hf))
    next =>
      obtain ⟨rfl, -⟩ := yields_pure.mp h
      exact hfields
    next => exact absurd h not_yields_error
termination_by ts.length

theorem from_of_globals {i : Item} (h : Yields (globals ts) i rest) : rest <:+ ts ∧ i.From ts := by
  unfold globals at h
  simp only [yields_bind, yields_pure] at h
  obtain ⟨type, us, hus, htype, ds, vs, hvs, hds, rfl, rfl⟩ := h
  have hsuffix := consumes_typeName ts type us htype
  have hleft := (skip_suffix .semicolon vs).trans ((consumes_declarators us ds vs hds).trans hsuffix)
  refine ⟨hleft, (grounded_declarators hds).suffix hsuffix, fun _ hn => absurd hn List.not_mem_nil, ?_⟩
  exact List.forall_mem_map.mpr fun d hd => hsuffix.subset (mem_of_declarators hds d hd)

theorem from_of_mtypes {i : Item} (h : Yields (mtypes ts) i rest) : rest <:+ ts ∧ i.From ts := by
  unfold mtypes at h
  simp only [yields_bind, yields_pure] at h
  obtain ⟨_, us, hus, hopen, ns, vs, hvs, hns, _, ws, hws, hclose, rfl, rfl⟩ := h
  have hsuffix := (consumes_expect _ _ _ _ us hopen).trans (skip_suffix .assign ts)
  have hleft := (consumes_expect _ _ vs _ ws hclose).trans ((consumes_names _ us ns vs hns).trans hsuffix)
  exact ⟨(skip_suffix .semicolon ws).trans hleft, .nil _, fun n hn => hsuffix.subset (mem_of_names hns n hn),
    fun _ hn => absurd hn List.not_mem_nil⟩

theorem from_of_record {i : Item} (h : Yields (record ts) i rest) : rest <:+ ts ∧ i.From ts := by
  unfold record at h
  simp only [yields_bind, yields_pure] at h
  obtain ⟨n, us, hus, hn, _, vs, hvs, hopen, fs, ws, hws, hfs, _, xs, hxs, hclose, rfl, rfl⟩ := h
  have hopen := (consumes_expect _ _ us _ vs hopen).trans (consumes_ident _ ts n us hn)
  have hclose := (consumes_expect _ _ ws _ xs hclose).trans ((consumes_fieldGroups vs fs ws hfs).trans hopen)
  refine ⟨(skip_suffix .semicolon xs).trans hclose, .nil _, fun _ hn => absurd hn List.not_mem_nil, ?_⟩
  exact List.forall_mem_map.mpr fun f hf => hopen.subset (mem_of_fieldGroups hfs f hf)

theorem consumes_lineEnd (ts : List Token) : Consumes (lineEnd ts) ts := by
  unfold lineEnd
  split
  · exact .cons .pure _
  · exact .pure
  · exact .error _

theorem from_of_define {i : Item} (h : Yields (define ts) i rest) : rest <:+ ts ∧ i.From ts := by
  unfold define at h
  obtain ⟨n, us, hus, hn, hlt, h⟩ := yields_bind.mp h
  -- whether a parameter list follows the name takes no token
  obtain ⟨_, -, h⟩ := bind_ok h
  obtain ⟨e, vs, hvs, he, h⟩ := yields_bind.mp ⟨hlt, h⟩
  obtain ⟨_, ws, hws, hend, h⟩ := yields_bind.mp h
  obtain ⟨rfl, rfl⟩ := yields_pure.mp h
  have hsuffix := consumes_ident _ ts n us hn
  have hleft := (consumes_lineEnd vs _ rest hend).trans ((consumes_binary levels us e vs he).trans hsuffix)
  refine ⟨hleft, ?_, fun _ hn => absurd hn List.not_mem_nil, fun _ hn => absurd hn List.not_mem_nil⟩
  simpa [Item.exprs] using (grounded_binary he).suffix hsuffix

/-- The keyword in front belongs to the item. -/
theorem from_of_keyword {b : Nat} {t : Token} {i : Item} {r : Except Rejection (Parsed Item b)}
    {hle : b ≤ (t :: ts).length} (hr : ∀ rest, Yields r i rest → rest <:+ ts ∧ i.From ts)
    (h : Yields (r.map (·.within hle)) i rest) : rest <:+ t :: ts ∧ i.From (t :: ts) := by
  obtain ⟨hlt, hmap⟩ := h
  cases r with
  | error e => cases hmap
  | ok p =>
    cases hmap
    obtain ⟨hsuffix, hfrom⟩ := hr _ ⟨p.shorter, rfl⟩
    exact ⟨hsuffix.trans (List.suffix_cons t ts), hfrom.suffix (List.suffix_cons t ts)⟩

theorem from_of_unread {t : Token} {word : Located String} (h : rest <:+ ts) :
    rest <:+ t :: ts ∧ (Item.unread word).From (t :: ts) :=
  ⟨h.trans (List.suffix_cons t ts), .nil _, fun _ hn => absurd hn List.not_mem_nil,
    fun _ hn => absurd hn List.not_mem_nil⟩

theorem from_of_item {i : Item} (h : Yields (item ts) i rest) : rest <:+ ts ∧ i.From ts := by
  unfold item at h
  split at h
  · split at h
    · exact from_of_keyword (fun _ => from_of_mtypes) h
    · exact from_of_globals h
  · exact from_of_keyword (fun _ => from_of_record) h
  · exact from_of_keyword (fun _ => from_of_define) h
  · obtain ⟨rfl, rfl⟩ := yields_pure.mp h
    exact from_of_unread (skipLine_suffix _)
  · obtain ⟨rfl, rfl⟩ := yields_pure.mp h
    exact from_of_unread (skipBlock_suffix 0 _)
  · exact from_of_globals h
  · exact from_of_globals h
  · exact from_of_globals h
  · exact absurd h not_yields_error

end

/-- All items are read from the tokens. -/
theorem from_of_items {ts : List Token} {is : List Item} (h : items ts = .ok is) : ∀ i ∈ is, i.From ts := by
  rw [items.eq_def] at h
  split at h
  · cases h
    exact fun _ hi => absurd hi List.not_mem_nil
  · cases h
    exact fun _ hi => absurd hi List.not_mem_nil
  · exact fun i hi => (from_of_items h i hi).suffix (List.suffix_cons _ _)
  · exact fun i hi => (from_of_items h i hi).suffix (List.suffix_cons _ _)
  · obtain ⟨⟨i, us, hlt⟩, hitem, h⟩ := bind_ok h
    obtain ⟨is, his, h⟩ := bind_ok h
    cases h
    obtain ⟨hsuffix, hfrom⟩ := from_of_item ⟨hlt, hitem⟩
    exact List.forall_mem_cons.mpr ⟨hfrom, fun j hj => (from_of_items his j hj).suffix hsuffix⟩
termination_by ts.length

end Surface
end Promela
