import Promela.Expr.Code
import Promela.Proofs.Places
import Promela.Proofs.Target.Evaluation
import Promela.Proofs.Target.Spelling

/-! The code of an expression means what the expression means: it is read in one way, it has the type
that its context asks for, and its value is that of the expression. -/
namespace Promela

@[simp] theorem truth_bne_zero (b : Bool) : (truth b != 0) = b := by
  cases b <;> rfl

@[simp] theorem ite_truth (b : Bool) : (if truth b ≠ 0 then 1 else 0) = truth b := by
  cases b <;> rfl

namespace Sense

def shape : Sense → Shape
  | int => .int
  | bool => .bool

/-- The integer itself, or whether it is not zero. -/
def object : Sense → Int → Object
  | int, v => .int v
  | bool, v => .bool (v != 0)

end Sense

namespace Target

/-- The term can be read, has the shape, and stands for the object. -/
structure Denotes (d : Declarations) (t : Target) (s : Shape)
    (o : Interpretation → Store Int → Object) : Prop where
  spelt : t.Spelt
  type : t.type? d = some s
  eval (I : Interpretation) (σ : Store Int) : t.eval? I (d.state I σ) = some (o I σ)

namespace Denotes

-- types and values of terms are computed
attribute [local simp] type? eval?

variable {d : Declarations} {t : Target} {v : Interpretation → Store Int → Int}

theorem number (n : Nat) : (Target.number n).Denotes d .int fun _ _ => .int n :=
  ⟨.number n, rfl, fun _ _ => rfl⟩

theorem truth (b : Bool) : (Target.truth b).Denotes d .bool fun _ _ => .bool b :=
  ⟨.truth b, rfl, fun _ _ => rfl⟩

theorem unary (op : UnaryOp) {o o' : Interpretation → Store Int → Object}
    (h : t.Denotes d (unaryRule op).1 o) (hop : ∀ I σ, I.unary? op (o I σ) = some (o' I σ)) :
    (Target.unary op t).Denotes d (unaryRule op).2 o' where
  spelt := .unary op h.spelt
  type := by simp [h.type]
  eval I σ := by simp [h.eval, hop]

theorem binary {op : BinaryOp} {l r : Target} {o o' o'' : Interpretation → Store Int → Object}
    (hl : l.Denotes d (binaryRule op).1 o) (hr : r.Denotes d (binaryRule op).1 o')
    (hop : ∀ I σ, I.binary? op (o I σ) (o' I σ) = some (o'' I σ)) :
    (Target.binary op l r).Denotes d (binaryRule op).2 o'' where
  spelt := .binary op hl.spelt hr.spelt
  type := by simp [hl.type, hr.type]
  eval I σ := by simp [hl.eval, hr.eval, hop]

theorem choice {c a b : Target} {s : Sense} {v w x : Interpretation → Store Int → Int}
    (hc : c.Denotes d .bool fun I σ => Sense.bool.object (v I σ))
    (ha : a.Denotes d s.shape fun I σ => s.object (w I σ))
    (hb : b.Denotes d s.shape fun I σ => s.object (x I σ)) :
    (Target.choice c a b).Denotes d s.shape fun I σ =>
      s.object (if v I σ ≠ 0 then w I σ else x I σ) where
  spelt := .choice hc.spelt ha.spelt hb.spelt
  type := by simp [hc.type, ha.type, hb.type]
  eval I σ := by
    by_cases hv : v I σ = 0
    · simp [hc.eval, hb.eval, Sense.object, hv]
    · have hv' : (v I σ != 0) = true := by simpa using hv
      simp [hc.eval, ha.eval, Sense.object, hv, hv']

/-- A truth value in either context. -/
theorem convert_bool {b : Interpretation → Store Int → Bool} (want : Sense)
    (h : t.Denotes d .bool fun I σ => .bool (b I σ)) :
    (convert .bool want t).Denotes d want.shape fun I σ => want.object (Promela.truth (b I σ)) := by
  have hbool : t.Denotes d .bool fun I σ => Sense.bool.object (Promela.truth (b I σ)) := by
    simpa [Sense.object] using h
  cases want with
  | bool => exact hbool
  | int =>
    have hchoice : (convert .bool .int t).Denotes d .int fun I σ =>
        .int (if Promela.truth (b I σ) ≠ 0 then 1 else 0) :=
      choice (s := .int) hbool (number 1) (number 0)
    simp only [ite_truth] at hchoice
    exact hchoice

theorem convert_int (want : Sense) (h : t.Denotes d .int fun I σ => .int (v I σ)) :
    (convert .int want t).Denotes d want.shape fun I σ => want.object (v I σ) := by
  cases want with
  | int => exact h
  | bool => exact binary h (number 0) fun _ _ => rfl

/-- A literal in either context. Its magnitude is one that negates. -/
theorem literalIn (want : Sense) {v : Int} (hv : -2147483648 ≤ v) :
    (Target.literalIn want v).Denotes d want.shape fun _ _ => want.object v := by
  cases want with
  | bool => exact truth (v != 0)
  | int =>
    by_cases hneg : v < 0
    · have hliteral : Target.literalIn .int v = .unary .neg (.number v.natAbs) := if_pos hneg
      rw [hliteral]
      refine unary .neg (number v.natAbs) fun I _ => ?_
      have hminus : I.neg v.natAbs = v := by
        rw [I.neg_literal v.natAbs (by omega) (by omega)]
        omega
      simp only [Interpretation.unary?, hminus, Sense.object]
    · have hliteral : Target.literalIn .int v = .number v.natAbs := if_neg hneg
      have hv : (v.natAbs : Int) = v := by omega
      rw [hliteral]
      have hnumber := number (d := d) v.natAbs
      rw [hv] at hnumber
      exact hnumber

example (n : Note) : (Expr.int n (-3)).intCode = (Expr.unary n .neg (.int n 3)).intCode := rfl

/-- The element of an array that an index means, the first one if there is no index. -/
theorem cell (base : Option Target) {v : Variable} {i : Option Expr} {s : Shape}
    {inner : Interpretation → Store Int → Option Spot → Object} (hlength : v.length ≠ some 0)
    (hfits : v.FitsIndex i)
    (hbase : (named base v).Denotes d (v.shaped s) fun I σ => v.object (inner I σ))
    (hindex : ∀ e ∈ i, (e.toTarget .int).Denotes d .int fun I σ => .int (e.value I.meaning σ)) :
    (Target.cell base v (indexTarget i)).Denotes d s fun I σ =>
      inner I σ (spot? I.meaning σ v i) := by
  have hlocation : (named base v).isLocation = true := by cases base <;> rfl
  cases hv : v.length with
  | none =>
    have hi : i = none := by
      cases i with
      | none => rfl
      | some e =>
        obtain ⟨-, n, hn, -⟩ := hfits e rfl
        simp [hv] at hn
    subst hi
    simpa [Target.cell, Variable.isArray, hv, Variable.shaped, Variable.object, spot?] using hbase
  | some n =>
    have hn : 0 < n := Nat.pos_of_ne_zero fun hn => hlength (by rw [hv, hn])
    simp only [Variable.shaped, Variable.isArray, Variable.object, hv, Option.isSome_some,
      if_true] at hbase
    simp only [Target.cell, Variable.isArray, hv, Option.isSome_some, if_true]
    cases i with
    | none =>
      refine ⟨.element hlocation hbase.spelt (.number 0), by simp [hbase.type, indexTarget],
        fun I σ => ?_⟩
      simp [hbase.eval, indexTarget, spot?, elementAt?, hn]
    | some e =>
      have he := hindex e rfl
      refine ⟨.element hlocation hbase.spelt he.spelt,
        by simp [hbase.type, indexTarget, he.type], fun I σ => ?_⟩
      simp only [eval?, hbase.eval, indexTarget, Option.getD_some, he.eval, spot?, hv,
        Interpretation.meaning]

theorem isLocation_cell (base : Option Target) (v : Variable) (i : Option Target) :
    (Target.cell base v i).isLocation = true := by
  unfold Target.cell
  split
  · rfl
  · cases base <;> rfl

/-- A place is the location of the cell that it denotes. -/
theorem place (hd : d.Coherent) {p : Place} {u : ValueType} (hp : p.Fits d)
    (hroot : p.var ∈ d.globals) (hnames : ∀ v ∈ p.vars, IsName v.name)
    (hu : p.target.type? = some u)
    (hindexes : ∀ i ∈ p.indexes,
      (i.toTarget .int).Denotes d .int fun I σ => .int (i.value I.meaning σ)) :
    (p.toTarget none).Denotes d .int fun I σ => I.content σ (p.cell? I.meaning σ) := by
  have hroot : (name p.var.name).Denotes d p.var.shape fun I σ =>
      p.var.object (p.var.elementObject I σ) :=
    ⟨.name (hnames _ p.var_mem_vars), by simp [hd.lookup?_name hroot],
      fun I σ => by simp [Declarations.state, hd.lookup?_name hroot]⟩
  cases hp with
  | @leaf v i hv hi =>
    obtain ⟨t, hlayout⟩ : ∃ t, v.layout = .scalar t := by
      cases hlayout : v.layout with
      | scalar t => exact ⟨t, rfl⟩
      | record r => simp [Place.target, Variable.type?, hlayout] at hu
    have hbase : (named none v).Denotes d (v.shaped .int) fun I σ =>
        v.object fun s => I.content σ (s.map fun s => ⟨s, []⟩) := by
      simp only [Place.var, Variable.shape_scalar hlayout, Variable.elementObject_scalar hlayout] at hroot
      exact hroot
    exact cell none (hd.length_ne v hv) hi hbase fun e he => hindexes e (by simpa [Place.indexes] using he)
  | @field v i j r f hv hi hr hf hj =>
    have hlayout : v.layout = .record r := by
      cases hlayout : v.layout with
      | scalar t => simp [Variable.record?, hlayout] at hr
      | record s => simpa [Variable.record?, hlayout] using hr
    have hfield := hd.fields_mem r (hd.record_mem hv hr) f hf
    have hbase : (named none v).Denotes d (v.shaped (.record r)) fun I σ =>
        v.object (v.elementObject I σ) := by
      simp only [Place.var, Variable.shape_record hlayout] at hroot
      exact hroot
    have hlookup : r.field? f.name = some f := hd.field?_name (hd.record_mem hv hr) hf
    have helement := cell none (hd.length_ne v hv) hi hbase fun e he =>
      hindexes e (by simpa [Place.indexes] using .inl he)
    have hmember : (member (Target.cell none v (indexTarget i)) f.name).Denotes d
        (f.toVariable.shaped .int) fun I σ => f.toVariable.object fun s' =>
          I.content σ ((spot? I.meaning σ v i).bind fun s =>
            (s'.map fun s' => ⟨s', []⟩).map (Cell.below s)) := by
      refine ⟨.member ?_ helement.spelt (hnames f.toVariable (by simp [Place.vars])), ?_, fun I σ => ?_⟩
      · exact isLocation_cell none v _
      · simp only [type?, helement.type, hlookup, Option.map_some]
        rfl
      · simp only [eval?, helement.eval, Variable.elementObject_record hlayout, hlookup,
          Option.map_some]
    exact cell (some (.cell none v (indexTarget i))) (hd.length_ne _ hfield) hj hmember fun e he =>
      hindexes e (by simpa [Place.indexes] using .inr he)

theorem query {h : String} {s : Shape} {o : Interpretation → Store Int → Object} (hh : IsName h)
    (hpoll : h ≠ "chan_poll") (hs : queryRule? h = some s)
    (ht : t.Denotes d .int fun I σ => .int (v I σ))
    (ho : ∀ I σ, I.query? h (v I σ) = some (o I σ)) : (call h [t]).Denotes d s o where
  spelt := .call hh (by simp) (by simpa using ht.spelt)
  type := by simp [ht.type, hpoll, hs]
  eval I σ := by simp [ht.eval, comparedArgs?, hpoll, ho]

end Denotes

theorem comparable_cons {d : Declarations} {t : Target} (h : t.type? d = some .int)
    (ts : List Target) : comparable d (t :: ts) = comparable d ts := by
  cases t with
  | wildcard => simp [type?] at h
  | _ => simp [comparable, h]

theorem comparedArgs?_cons {I : Interpretation} {state : String → Option Object} {t : Target} {v : Int}
    (h : t.eval? I state = some (.int v)) (ts : List Target) :
    comparedArgs? I state (t :: ts) = (comparedArgs? I state ts).map (some v :: ·) := by
  cases t with
  | wildcard => simp [eval?] at h
  | _ => simp only [comparedArgs?, h]

theorem pollTargets_cons {a : Expr} (h : a.place? = none) (as : List Expr) :
    pollTargets (a :: as) = a.toTarget .int :: pollTargets as := by
  cases a with
  | place n p => cases h
  | _ => rfl

/-- A plain variable becomes a wildcard. -/
theorem denotes_pollTargets {d : Declarations} {as : List Expr}
    (h : ∀ a ∈ as, (a.toTarget .int).Denotes d .int fun I σ => .int (a.value I.meaning σ)) :
    (∀ t ∈ pollTargets as, t.Spelt) ∧ comparable d (pollTargets as) = true ∧
      ∀ I σ, comparedArgs? I (d.state I σ) (pollTargets as) =
        some (comparedValues I.meaning σ as) := by
  induction as with
  | nil => exact ⟨by simp [pollTargets], rfl, fun _ _ => rfl⟩
  | cons a as ih =>
    obtain ⟨hspelt, htype, heval⟩ := ih fun b hb => h b (List.mem_cons_of_mem a hb)
    cases ha : a.place? with
    | some p =>
      obtain ⟨n, rfl⟩ := Expr.eq_place ha
      refine ⟨?_, by simpa [pollTargets, comparable] using htype, fun I σ => ?_⟩
      · rintro t (_ | ⟨_, ht⟩)
        · exact .wildcard
        · exact hspelt t ht
      · simp [pollTargets, comparedArgs?, heval, comparedValues]
    | none =>
      have hhead := h a List.mem_cons_self
      rw [pollTargets_cons ha]
      refine ⟨?_, by rw [comparable_cons hhead.type, htype], fun I σ => ?_⟩
      · rintro t (_ | ⟨_, ht⟩)
        · exact hhead.spelt
        · exact hspelt t ht
      · rw [comparedArgs?_cons (hhead.eval I σ), heval, comparedValues_cons ha]
        rfl

theorem Denotes.poll {d : Declarations} {c : Target} {v : Interpretation → Store Int → Int}
    {as : List Expr} (hc : c.Denotes d .int fun I σ => .int (v I σ))
    (h : ∀ a ∈ as, (a.toTarget .int).Denotes d .int fun I σ => .int (a.value I.meaning σ)) :
    (call pollHelper (c :: pollTargets as)).Denotes d .bool fun I σ =>
      .bool (I.poll (v I σ) (comparedValues I.meaning σ as)) := by
  obtain ⟨hspelt, htype, heval⟩ := denotes_pollTargets h
  refine ⟨.call ?_ (by simp) ?_, ?_, fun I σ => ?_⟩
  · exact ⟨Lexeme.isWord_of_all rfl rfl rfl, by decide⟩
  · rintro t (_ | ⟨_, ht⟩)
    · exact hc.spelt
    · exact hspelt t ht
  · simp [type?, hc.type, pollHelper, htype]
  · simp [eval?, hc.eval, heval, pollHelper]

end Target

/-- All places lead to global variables, and all names can be read. -/
def Expr.Nameable (d : Declarations) (e : Expr) : Prop :=
  ∀ p ∈ e.places, p.var ∈ d.globals ∧ ∀ v ∈ p.vars, Target.IsName v.name

open Target in
theorem Expr.Built.denotes {d : Declarations} (hd : d.Coherent) {e : Expr} (he : e.Built d) :
    e.Nameable d → ∀ want : Sense, (e.toTarget want).Denotes d want.shape fun I σ =>
      want.object (e.value I.meaning σ) := by
  refine he.nodes hd (P := fun e => e.Nameable d → ∀ want : Sense,
    (e.toTarget want).Denotes d want.shape fun I σ => want.object (e.value I.meaning σ))
    ?bool ?int ?mtype ?place ?unary ?binary ?ternary ?query ?poll ?eval
  case bool =>
    intro n b _ want
    exact .literalIn want (by cases b <;> decide)
  case int =>
    intro n v hv _ want
    have hrange := ValueType.contains_iff.mp (ValueType.contains_int_of_ofLiteral? hv)
    exact .literalIn want hrange.1
  case mtype =>
    intro n code _ want
    exact .literalIn want (by omega)
  case place =>
    intro n p hp ht hindexes hnames want
    obtain ⟨hroot, hvars⟩ := hnames p List.mem_cons_self
    refine .convert_int want (.place hd hp hroot hvars ht fun i hi => (hindexes i hi).2 ?_ .int)
    intro q hq
    refine hnames q (List.mem_cons_of_mem _ ?_)
    rw [Place.placesBelow_eq]
    exact List.mem_flatMap.mpr ⟨i, hi, hq⟩
  case unary =>
    intro n op a _ _ iha hnames want
    cases op with
    | neg => exact .convert_int want (.unary .neg (iha hnames .int) fun _ _ => rfl)
    | bitNot => exact .convert_int want (.unary .bitNot (iha hnames .int) fun _ _ => rfl)
    | not =>
      have hnot : (Target.unary .not (a.toTarget .bool)).Denotes d .bool fun I σ =>
          .bool (a.value I.meaning σ == 0) :=
        .unary .not (iha hnames .bool) fun I σ => by
          simp [Interpretation.unary?, Sense.object, bne]
      exact .convert_bool want hnot
  case binary =>
    intro n op l r _ _ _ ihl ihr hnames want
    have hl := ihl fun p hp => hnames p (List.mem_append_left _ hp)
    have hr := ihr fun p hp => hnames p (List.mem_append_right _ hp)
    cases op with
    | and | or => exact .convert_bool want (.binary (hl .bool) (hr .bool) fun _ _ => rfl)
    | eq | ne | lt | le | gt | ge =>
      exact .convert_bool want (.binary (hl .int) (hr .int) fun _ _ => rfl)
    | _ => exact .convert_int want (.binary (hl .int) (hr .int) fun _ _ => rfl)
  case ternary =>
    intro n c a b _ _ _ _ ihc iha ihb hnames want
    have hplaces : (Expr.ternary n c a b).places = c.places ++ a.places ++ b.places := rfl
    have hc := ihc fun p hp => hnames p (by simp [hplaces, hp])
    have ha := iha fun p hp => hnames p (by simp [hplaces, hp])
    have hb := ihb fun p hp => hnames p (by simp [hplaces, hp])
    exact .choice (hc .bool) (ha want) (hb want)
  case query =>
    intro n op c _ _ ihc hnames want
    have hc := ihc hnames .int
    have hhelper : IsName op.helper := by
      cases op <;> exact ⟨Lexeme.isWord_of_all rfl rfl rfl, by decide⟩
    cases op with
    | len => exact .convert_int want (.query hhelper (by decide) rfl hc fun _ _ => rfl)
    | _ => exact .convert_bool want (.query hhelper (by decide) rfl hc fun _ _ => rfl)
  case poll =>
    intro n c as _ _ ihc ihas hnames want
    have hc := ihc (fun p hp => hnames p (List.mem_append_left _ hp)) .int
    refine .convert_bool want (.poll hc fun a ha => (ihas a ha).2 (fun p hp => hnames p ?_) .int)
    rw [places, placesOfArgs_eq]
    exact List.mem_append_right _ (List.mem_flatMap.mpr ⟨a, ha, hp⟩)
  case eval =>
    intro n a _ _ iha hnames want
    exact iha hnames want

theorem Target.Denotes.parses_iff {d : Declarations} {t : Target} {s : Shape}
    {o : Interpretation → Store Int → Object} (h : t.Denotes d s o) (u : Target) :
    u.Parses t.text ↔ u = t :=
  ⟨fun hu => hu.unique h.spelt.parses, fun hu => hu ▸ h.spelt.parses⟩

/-- Both codes of an expression are read in exactly one way, the one as an integer with the value of the
expression, the other as the boolean that tells whether the value is not zero. -/
theorem Expr.code_means {d : Declarations} (hd : d.Reachable) {e : Expr} (he : e.Built d)
    (hnames : e.Nameable d) :
    (∃ t : Target, (∀ u, u.Parses e.intCode ↔ u = t) ∧ t.type? d = some .int ∧
      ∀ I σ, t.eval? I (d.state I σ) = some (.int (e.value I.meaning σ))) ∧
    (∃ t : Target, (∀ u, u.Parses e.boolCode ↔ u = t) ∧ t.type? d = some .bool ∧
      ∀ I σ, t.eval? I (d.state I σ) = some (.bool (e.value I.meaning σ != 0))) := by
  have hint := he.denotes hd.coherent hnames .int
  have hbool := he.denotes hd.coherent hnames .bool
  exact ⟨⟨_, hint.parses_iff, hint.type, hint.eval⟩, ⟨_, hbool.parses_iff, hbool.type, hbool.eval⟩⟩

/-- The codes of `-a[i] < -3` are `(((-a[i]) < (-3)) ? 1 : 0)` and `((-a[i]) < (-3))`. Where each `a[k]` is
`k + 2`, exact integers make them true if `i` is 2, and false if `i` is 1. -/
theorem Expr.code_means_of_comparison :
    let s := Span.point "" .first
    let d := Declarations.after [.scalar "i" .byte none s, .scalar "a" .int (some 4) s]
    let i := Expr.place ⟨s, .byte⟩ (.leaf ⟨0, "i", .scalar .byte, none, none⟩ none)
    let a := Expr.place ⟨s, .int⟩ (.leaf ⟨1, "a", .scalar .int, some 4, none⟩ (some i))
    let e := Expr.binary ⟨s, .bool⟩ .lt (.unary ⟨s, .int⟩ .neg a) (.int ⟨s, .short⟩ (-3))
    let σ : Int → Store Int := fun v c => if c.root.id = 0 then v else c.root.index + 2
    (e.Built d ∧ e.Nameable d) ∧ e.intCode = "(((-a[i]) < (-3)) ? 1 : 0)" ∧
      e.boolCode = "((-a[i]) < (-3))" ∧
    (∃ t : Target, (∀ u, u.Parses e.intCode ↔ u = t) ∧ t.type? d = some .int ∧
      (∀ I σ, t.eval? I (d.state I σ) = some (.int (e.value I.meaning σ))) ∧
      t.eval? .exact (d.state .exact (σ 2)) = some (.int 1) ∧
      t.eval? .exact (d.state .exact (σ 1)) = some (.int 0)) ∧
    (∃ t : Target, (∀ u, u.Parses e.boolCode ↔ u = t) ∧ t.type? d = some .bool ∧
      (∀ I σ, t.eval? I (d.state I σ) = some (.bool (e.value I.meaning σ != 0))) ∧
      t.eval? .exact (d.state .exact (σ 2)) = some (.bool true) ∧
      t.eval? .exact (d.state .exact (σ 1)) = some (.bool false)) := by
  intro s d i a e σ
  have hi : i.Built d := .place s (.build _ none s (.head _) (by simp) rfl) rfl
  have ha : a.Built d :=
    .place s (.build _ (some i) s (.tail _ (.head _)) (by simpa using hi) rfl) rfl
  have he : e.Built d := .binary s .lt (.unary s .neg ha rfl) (.int s (-3) rfl) rfl
  have hnames : e.Nameable d := by
    intro p (hp : p ∈ [.leaf ⟨1, "a", .scalar .int, some 4, none⟩ (some i),
      .leaf ⟨0, "i", .scalar .byte, none, none⟩ none])
    simp only [List.mem_cons, List.not_mem_nil, or_false] at hp
    obtain rfl | rfl := hp
    · refine ⟨.tail _ (.head _), fun v hv => ?_⟩
      cases List.mem_singleton.mp hv
      exact ⟨Lexeme.isWord_of_all rfl rfl rfl, by decide⟩
    · refine ⟨.head _, fun v hv => ?_⟩
      cases List.mem_singleton.mp hv
      exact ⟨Lexeme.isWord_of_all rfl rfl rfl, by decide⟩
  have hint : e.intCode = "(((-a[i]) < (-3)) ? 1 : 0)" := by decide +kernel
  have hbool : e.boolCode = "((-a[i]) < (-3))" := by decide +kernel
  have hless : e.value Interpretation.exact.meaning (σ 2) = 1 := by decide +kernel
  have hequal : e.value Interpretation.exact.meaning (σ 1) = 0 := by decide +kernel
  obtain ⟨⟨t, hparse, htype, heval⟩, u, hparse', htype', heval'⟩ := Expr.code_means ⟨_, rfl⟩ he hnames
  refine ⟨⟨he, hnames⟩, hint, hbool, ⟨t, hparse, htype, heval, ?_, ?_⟩, ⟨u, hparse', htype', heval', ?_, ?_⟩⟩
  · rw [heval, hless]
  · rw [heval, hequal]
  · rw [heval', hless]
    rfl
  · rw [heval', hequal]
    rfl

end Promela
