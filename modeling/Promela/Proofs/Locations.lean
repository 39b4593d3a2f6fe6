import Mathlib.Data.Finset.Card
import Promela.Analysis
import Promela.Proofs.AccessText
import Promela.Proofs.Independence
import Promela.Proofs.Scoping
import Promela.Proofs.Surface.Sources
import Promela.Proofs.Token.Accounting

/-! The locations that a model reads. Names in a source are words, and all that a model reads starts at a
global, so an analysis that lists and counts texts lists and counts accesses. -/
namespace Promela

/-! ### Where the names of variables come from -/

namespace Declarations

theorem vars_defineRecord {d d' : Declarations} {name : String} {fs : List FieldDecl} {span : Span} {r : Record}
    (h : d.defineRecord name fs span = (.ok r, d')) :
    ∀ v ∈ d'.vars, v ∈ d.vars ∨ v.name ∈ fs.map FieldDecl.name := by
  obtain ⟨e, heq⟩ | ⟨-, -, -, heq⟩ := defineRecord_cases d name fs span
  · cases h.symm.trans heq
  · cases h.symm.trans heq
    intro v hv
    refine (List.mem_append.mp hv).imp id fun hv => ?_
    obtain ⟨f, hf, rfl⟩ := List.mem_map.mp hv
    rw [← map_name_numbered d.nextId]
    exact List.mem_map_of_mem hf

end Declarations

namespace Resolving

variable {p q : Progress}

theorem recordField_name {s : Scope} {record : String} {f : Surface.FieldDecl} {g : FieldDecl}
    (h : (recordField s record f).run p = .ok g q) : g.name = f.name.value := by
  unfold recordField at h
  split at h
  · cases h
  · obtain ⟨length, -, h⟩ := run_checked_bind_ok h
    cases h
    rfl

theorem mapM_recordField_names {s : Scope} {record : String} {fields : List Surface.FieldDecl}
    {decls : List FieldDecl} (h : (fields.mapM (recordField s record)).run p = .ok decls q) :
    decls.map FieldDecl.name = fields.map (·.name.value) := by
  induction fields generalizing p decls with
  | nil =>
    rw [List.mapM_nil] at h
    cases h
    rfl
  | cons f fields ih =>
    rw [List.mapM_cons] at h
    obtain ⟨g, r, hg, h⟩ := run_bind_ok h
    obtain ⟨decls, s, hdecls, h⟩ := run_bind_ok h
    cases h
    rw [List.map_cons, List.map_cons, recordField_name hg, ih hdecls]

theorem record_vars {name : Located String} {fields : List Surface.FieldDecl}
    (h : (record name fields).run p = .ok () q) :
    ∀ v ∈ q.declared.vars, v ∈ p.declared.vars ∨ v.name ∈ fields.map (·.name.value) := by
  obtain ⟨decls, r, hdecls, h⟩ := run_bind_ok (run_get_bind_ok h)
  split at h
  · rename_i hdefine
    cases h
    rw [← mapM_recordField_names hdecls]
    exact Declarations.vars_defineRecord hdefine
  · cases h

theorem declarator_vars {t : Surface.TypeName} {d : Surface.Declarator}
    (h : (declarator t d).run p = .ok () q) :
    ∀ v ∈ q.declared.vars, v ∈ p.declared.vars ∨ v.name = d.name.value := by
  have hvars : ∀ {v : Variable}, v.name = d.name.value →
      ∀ w ∈ (p.declared.withGlobal v).vars, w ∈ p.declared.vars ∨ w.name = d.name.value := by
    intro v hv w hw
    refine (List.mem_append.mp hw).imp id fun hw => ?_
    rwa [List.mem_singleton.mp hw]
  cases declarator_ok h with
  | plain _ hname => exact hvars hname
  | initialized _ hname _ => exact hvars hname

/-- The variables that an item adds, fields included, have names that stand in it. -/
theorem vars_of_item {i : Surface.Item} (h : (item i).run p = .ok () q) :
    ∀ v ∈ q.declared.vars, v ∈ p.declared.vars ∨ v.name ∈ i.declaredNames.map (·.value) := by
  cases i with
  | mtypes _ | unread _ =>
    cases h
    exact fun v hv => .inl hv
  | record name fields =>
    rw [Surface.Item.declaredNames, List.map_map]
    exact record_vars h
  | globals t ds =>
    intro v hv
    have horigin := origin_of_forM (·.declared.vars) (fun _ d v => v.name = d.name.value)
      (fun d _ _ hd => declarator_vars hd) h v hv
    obtain hv | ⟨pre, d, post, -, rfl, -, hname⟩ := horigin
    · exact .inl hv
    · exact .inr (List.mem_map.mpr ⟨d.name, by simp [Surface.Item.declaredNames], hname.symm⟩)
  | define name body =>
    obtain ⟨-, e, -, rfl⟩ := define_ok h
    exact fun v hv => .inl hv

end Resolving

/-- All variables of a model that was read, fields included, have words for names. -/
theorem Model.isWord_name {base : Nat} {path source : String} {m : Model}
    (h : ofSource base path source = .ok m) : ∀ v ∈ m.declared.vars, Lexeme.IsWord v.name := by
  obtain ⟨ts, items, p, hts, hitems, hrun, hdeclared, -, -⟩ := ofSource_ok h
  intro v hv
  rw [hdeclared] at hv
  have horigin := Resolving.origin_of_forM (·.declared.vars) (fun _ i v => v.name ∈ i.declaredNames.map (·.value))
    (fun _ _ _ => Resolving.vars_of_item) hrun v hv
  obtain hv | ⟨pre, i, post, -, rfl, -, hname⟩ := horigin
  · cases hv
  · obtain ⟨n, hn, hname⟩ := List.mem_map.mp hname
    rw [← hname]
    exact Lexer.isWord_of_mem_tokens hts ((Surface.from_of_items hitems i (by simp)).declared n hn)

/-! ### The locations of a model -/

theorem Ascending.nodup {as : List Access} (h : Ascending as) : as.Nodup := by
  refine h.imp fun {a b} hab heq => ?_
  rw [heq, Std.ReflOrd.compare_self] at hab
  cases hab

namespace Model

/-- The expressions that an analysis reports on, in the order of its entries. -/
def exprs (m : Model) : List Expr := m.definitions.map (·.body) ++ m.initials.map (·.value)

/-- Some macro or some initial value reads the access. -/
def Reads (m : Model) (a : Access) : Prop := ∃ e ∈ m.exprs, a ∈ e.reads

theorem rooted_of_reads {base : Nat} {path source : String} {m : Model} (h : ofSource base path source = .ok m) :
    m.declared.Coherent ∧ ∀ a, m.Reads a → a.Rooted m.declared := by
  obtain ⟨ts, items, p, -, -, hrun, hdeclared, hdefinitions, hinitials⟩ := ofSource_ok h
  have hp : p.Sound := (Progress.follows_of_items hrun).2 (Progress.start_sound m.mtypes base)
  have hcovers : ∀ e ∈ m.exprs, p.Covers e.places e.mtypeCodes := by
    intro e he
    rcases List.mem_append.mp he with he | he
    · obtain ⟨x, hx, rfl⟩ := List.mem_map.mp he
      exact hp.definitions x (hdefinitions ▸ hx)
    · obtain ⟨i, hi, rfl⟩ := List.mem_map.mp he
      exact (hp.initials i (hinitials ▸ hi)).2.1
  rw [hdeclared]
  refine ⟨hp.coherent, ?_⟩
  rintro a ⟨e, he, ha⟩
  obtain ⟨x, hx, rfl⟩ := List.mem_map.mp (e.readList_sublist.subset (AccessSet.mem_ofList.mp ha))
  exact ((hcovers e he).places x hx).access

end Model

/-- The entry lists the accesses of the expression, each by its text, in ascending order and none twice. -/
def Entry.Lists (d : Declarations) (e : Expr) (x : Entry) : Prop :=
  ∃ as : List Access, Ascending as ∧ (∀ a, a ∈ as ↔ a ∈ e.reads) ∧ x.reads = as.map d.accessText ∧ x.reads.Nodup

namespace Model

variable {m : Model}

/-- No two of the accesses that the model reads have the same text. -/
def TextsDiffer (m : Model) : Prop :=
  ∀ a b, m.Reads a → m.Reads b → m.declared.accessText a = m.declared.accessText b → a = b

theorem TextsDiffer.nodup (h : m.TextsDiffer) {as : List Access} (has : Ascending as)
    (hreads : ∀ a ∈ as, m.Reads a) : (as.map m.declared.accessText).Nodup :=
  has.nodup.map_on fun a ha b hb => h a b (hreads a ha) (hreads b hb)

theorem TextsDiffer.lists (h : m.TextsDiffer) {e : Expr} (he : e ∈ m.exprs) (kind : EntryKind) (name : String) :
    Entry.Lists m.declared e (Analysis.entry m.declared kind name e) :=
  ⟨e.reads.toList, e.reads.ascending, fun _ => .rfl, rfl, h.nodup e.reads.ascending fun _ ha => ⟨e, he, ha⟩⟩

theorem TextsDiffer.entries (h : m.TextsDiffer) :
    List.Forall₂ (Entry.Lists m.declared) m.exprs (Analysis.ofModel m).entries := by
  refine List.rel_append ?_ ?_
  · rw [List.forall₂_map_left_iff, List.forall₂_map_right_iff, List.forall₂_same]
    exact fun x hx => h.lists (List.mem_append_left _ (List.mem_map_of_mem hx)) _ _
  · rw [List.forall₂_map_left_iff, List.forall₂_map_right_iff, List.forall₂_same]
    exact fun i hi => h.lists (List.mem_append_right _ (List.mem_map_of_mem hi)) _ _

/-- All texts that some entry lists. -/
theorem reads_entries (m : Model) : (Analysis.ofModel m).entries.flatMap (·.reads) =
    m.exprs.flatMap fun e => e.reads.toList.map m.declared.accessText := by
  simp [Analysis.ofModel, Analysis.entry, exprs, List.flatMap_map]

/-- The locations are counted as accesses, by a pass of its own. -/
theorem TextsDiffer.readLocations (h : m.TextsDiffer) : (Analysis.ofModel m).readLocations
    = ((Analysis.ofModel m).entries.flatMap (·.reads)).toFinset.card := by
  let all : AccessSet := m.exprs.foldl (fun s e => s ∪ e.reads) ∅
  have hall : ∀ a, a ∈ all ↔ m.Reads a := fun a => by simp [all, Footprint.mem_foldl_reads, Reads]
  have hnodup : (all.toList.map m.declared.accessText).Nodup :=
    h.nodup all.ascending fun a ha => (hall a).mp ha
  have htexts : ((Analysis.ofModel m).entries.flatMap (·.reads)).toFinset
      = (all.toList.map m.declared.accessText).toFinset := by
    ext text
    simp only [reads_entries, List.mem_toFinset, List.mem_flatMap, List.mem_map, AccessSet.mem_toList, hall,
      Reads]
    constructor
    · rintro ⟨e, he, a, ha, rfl⟩
      exact ⟨a, ⟨e, he, ha⟩, rfl⟩
    · rintro ⟨a, ⟨e, he, ha⟩, rfl⟩
      exact ⟨e, he, a, ha, rfl⟩
  rw [htexts, List.toFinset_card_of_nodup hnodup, List.length_map]
  rfl

end Model

/-- In a model that is read from a source, the texts of two accesses that are read are the same exactly when
the accesses are. So no entry lists a text twice, and the number of locations is that of the texts. -/
theorem Model.locations_identify {base : Nat} {path source : String} {m : Model}
    (h : ofSource base path source = .ok m) :
    (∀ a b, m.Reads a → m.Reads b → (m.declared.accessText a = m.declared.accessText b ↔ a = b)) ∧
      List.Forall₂ (Entry.Lists m.declared) m.exprs (Analysis.ofModel m).entries ∧
      (Analysis.ofModel m).readLocations = ((Analysis.ofModel m).entries.flatMap (·.reads)).toFinset.card := by
  obtain ⟨hd, hrooted⟩ := rooted_of_reads h
  have hdiffer : m.TextsDiffer := fun a b ha hb =>
    (hrooted a ha).eq_of_accessText_eq hd (isWord_name h) (hrooted b hb)
  exact ⟨fun a b ha hb => ⟨hdiffer a b ha hb, congrArg _⟩, hdiffer.entries, hdiffer.readLocations⟩

/-- The macro and the initial value both read `a[1]`. -/
theorem Model.locations_identify_of_array :
    ∃ m, ofSource 1 "m" "byte a[3]\n#define D a[1]\nint x=D+a[a]" = .ok m ∧
      (Analysis.ofModel m).entries.map (·.reads) = [["a[1]"], ["a[0]", "a[1]", "a[*]"]] ∧
      (∀ a b, m.Reads a → m.Reads b → (m.declared.accessText a = m.declared.accessText b ↔ a = b)) ∧
      (Analysis.ofModel m).readLocations = 3 := by
  let span (line first last : Nat) : Span := ⟨"m", ⟨line, first⟩, ⟨line, last⟩⟩
  let ts : List Token :=
    [⟨.typeName .byte, span 1 1 4⟩, ⟨.ident "a", span 1 6 6⟩, ⟨.openBracket, span 1 7 7⟩,
      ⟨.number 3, span 1 8 8⟩, ⟨.closeBracket, span 1 9 9⟩, ⟨.define, span 2 1 7⟩, ⟨.ident "D", span 2 9 9⟩,
      ⟨.ident "a", span 2 11 11⟩, ⟨.openBracket, span 2 12 12⟩, ⟨.number 1, span 2 13 13⟩,
      ⟨.closeBracket, span 2 14 14⟩, ⟨.newline, span 2 15 15⟩, ⟨.typeName .int, span 3 1 3⟩,
      ⟨.ident "x", span 3 5 5⟩, ⟨.assign, span 3 6 6⟩, ⟨.ident "D", span 3 7 7⟩, ⟨.binary .add, span 3 8 8⟩,
      ⟨.ident "a", span 3 9 9⟩, ⟨.openBracket, span 3 10 10⟩, ⟨.ident "a", span 3 11 11⟩,
      ⟨.closeBracket, span 3 12 12⟩, ⟨.eof, span 3 13 13⟩]
  let one : Surface.Expr := .number (span 2 13 13) 1
  let element : Surface.Expr :=
    .reference (span 3 9 12) (.leaf ⟨"a", span 3 9 9⟩ (some (.reference (span 3 11 11) (.leaf ⟨"a", span 3 11 11⟩ none))))
  let sum : Surface.Expr :=
    .binary (span 3 7 12) .add (.reference (span 3 7 7) (.leaf ⟨"D", span 3 7 7⟩ none)) element
  let items : List Surface.Item :=
    [.globals ⟨.scalar .byte, span 1 1 4⟩ [⟨⟨"a", span 1 6 6⟩, some (.number ⟨3, span 1 8 8⟩), none⟩],
      .define ⟨"D", span 2 9 9⟩ (.reference (span 2 11 14) (.leaf ⟨"a", span 2 11 11⟩ (some one))),
      .globals ⟨.scalar .int, span 3 1 3⟩ [⟨⟨"x", span 3 5 5⟩, none, some (.value sum)⟩]]
  have htokens : tokens "byte a[3]\n#define D a[1]\nint x=D+a[a]" "m" = .ok ts := by decide +kernel
  have hitems : Surface.items ts = .ok items := by cbv
  obtain ⟨m, hm, hreads⟩ : ∃ m, (Reading.ofItems 1 "m" items).outcome = .ok m ∧
      (Analysis.ofModel m).entries.map (·.reads) = [["a[1]"], ["a[0]", "a[1]", "a[*]"]] :=
    ⟨_, rfl, by decide +kernel⟩
  have h : ofSource 1 "m" "byte a[3]\n#define D a[1]\nint x=D+a[a]" = .ok m := by
    rw [ofSource, Reading.ofSource, htokens, Except.bind, hitems]
    exact hm
  obtain ⟨htexts, -, hcount⟩ := locations_identify h
  rw [List.flatMap_def, hreads] at hcount
  exact ⟨m, h, hreads, htexts, hcount.trans (by decide)⟩

end Promela
