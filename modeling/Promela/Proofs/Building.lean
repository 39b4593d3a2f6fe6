import Promela.Expr.Typing
import Promela.Proofs.Declarations

/-! The expressions and places that can be built over one table of declarations, and what is known of
their nodes: where places lead and which indexes they have. -/
namespace Promela

instance decidableEqExcept {ε α : Type} [DecidableEq ε] [DecidableEq α] : DecidableEq (Except ε α)
  | .ok a, .ok b => decidable_of_iff (a = b) ⟨congrArg Except.ok, Except.ok.inj⟩
  | .error e, .error f => decidable_of_iff (e = f) ⟨congrArg Except.error, Except.error.inj⟩
  | .ok _, .error _ | .error _, .ok _ => .isFalse nofun

theorem bind_ok {ε α β : Type} {x : Except ε α} {f : α → Except ε β} {b : β}
    (h : (x >>= f) = .ok b) : ∃ a, x = .ok a ∧ f a = .ok b := by
  cases x with
  | error e => cases h
  | ok a => exact ⟨a, rfl, h⟩

theorem require_ok {p : Prop} [Decidable p] {fault : Fault} {span : Span} {u : Unit}
    (h : require p fault span = .ok u) : p := by
  by_cases hp : p
  · exact hp
  · simp [require, hp] at h

theorem Expr.eq_place {e : Expr} {p : Place} (h : e.place? = some p) : ∃ n, e = .place n p := by
  cases e with
  | place n q => cases h; exact ⟨n, rfl⟩
  | _ => cases h

mutual

/-- The expression comes from a run of constructor calls that all succeed, over variables of `d`. -/
inductive Expr.Built (d : Declarations) : Expr → Prop
  | bool (span : Span) (b : Bool) : Expr.Built d (.buildBool span b)
  | int (span : Span) (v : Int) {e : Expr} : Expr.buildInt span v = .ok e → Expr.Built d e
  | mtype (span : Span) (code : Nat) : Expr.Built d (.buildMtype span code)
  | place (span : Span) {p : Place} {e : Expr} : Place.Built d p →
      Expr.buildPlace span p = .ok e → Expr.Built d e
  | unary (span : Span) (op : UnaryOp) {a e : Expr} : Expr.Built d a →
      Expr.buildUnary span op a = .ok e → Expr.Built d e
  | binary (span : Span) (op : BinaryOp) {l r e : Expr} : Expr.Built d l → Expr.Built d r →
      Expr.buildBinary span op l r = .ok e → Expr.Built d e
  | ternary (span : Span) {c a b e : Expr} : Expr.Built d c → Expr.Built d a → Expr.Built d b →
      Expr.buildTernary span c a b = .ok e → Expr.Built d e
  | query (span : Span) (op : ChannelOp) {c e : Expr} : Expr.Built d c →
      Expr.buildQuery span op c = .ok e → Expr.Built d e
  | poll (span : Span) {c e : Expr} {as : List Expr} : Expr.Built d c →
      (∀ a ∈ as, Expr.Built d a) → Expr.buildPoll span c as = .ok e → Expr.Built d e
  | eval (span : Span) {a e : Expr} : Expr.Built d a → Expr.buildEval span a = .ok e →
      Expr.Built d e

inductive Place.Built (d : Declarations) : Place → Prop
  | build (v : Variable) (i : Option Expr) (span : Span) {p : Place} : v ∈ d.vars →
      (∀ e ∈ i, Expr.Built d e) → Place.build v i span = .ok p → Place.Built d p
  | select (span : Span) {p f q : Place} : Place.Built d p → Place.Built d f →
      p.select f span = .ok q → Place.Built d q

end

/-- An index stands at an array only, and one that is constant lies within it. -/
def Variable.FitsIndex (v : Variable) (i : Option Expr) : Prop :=
  ∀ e ∈ i, e.type.numeric ∧ ∃ n, v.length = some n ∧ ∀ k, e.constant? = some k → 0 ≤ k ∧ k < n

/-- A variable of the table, or a field below a variable of the typedef it belongs to. -/
inductive Place.Fits (d : Declarations) : Place → Prop
  | leaf {v : Variable} {i : Option Expr} : v ∈ d.vars → v.FitsIndex i → Place.Fits d (.leaf v i)
  | field {v : Variable} {i j : Option Expr} {r : Record} {f : Field} : v ∈ d.vars → v.FitsIndex i →
      v.record? = some r → f ∈ r.fields → f.toVariable.FitsIndex j →
      Place.Fits d (.field v i (.leaf f.toVariable j))

namespace Place

theorem build_ok {v : Variable} {i : Option Expr} {span : Span} {p : Place}
    (h : build v i span = .ok p) : p = leaf v i ∧ v.FitsIndex i := by
  cases i with
  | none =>
    cases h
    exact ⟨rfl, by simp [Variable.FitsIndex]⟩
  | some e =>
    cases hlength : v.length with
    | none => simp [build, hlength] at h
    | some n =>
      simp only [build, hlength] at h
      obtain ⟨_, hnumeric, h⟩ := bind_ok h
      cases hk : e.constant? with
      | none =>
        rw [hk] at h
        cases h
        refine ⟨rfl, fun e' he' => ?_⟩
        cases he'
        exact ⟨require_ok hnumeric, n, hlength, by simp [hk]⟩
      | some k =>
        rw [hk] at h
        obtain ⟨_, hbounds, h⟩ := bind_ok h
        cases h
        refine ⟨rfl, fun e' he' => ?_⟩
        cases he'
        refine ⟨require_ok hnumeric, n, hlength, fun k' hk' => ?_⟩
        cases hk.symm.trans hk'
        exact require_ok hbounds

theorem select_ok {p f q : Place} {span : Span} (h : p.select f span = .ok q) :
    (∃ v i r, p = leaf v i ∧ v.record? = some r ∧ r.hasField f.var.id = true ∧ q = field v i f) ∨
      ∃ v i p' q', p = field v i p' ∧ p'.select f span = .ok q' ∧ q = field v i q' := by
  cases p with
  | leaf v i =>
    cases hr : v.record? with
    | none => simp [select, hr, throw, throwThe, MonadExceptOf.throw, bind, Except.bind] at h
    | some r =>
      simp only [select, hr] at h
      obtain ⟨_, hfield, h⟩ := bind_ok h
      cases h
      exact .inl ⟨v, i, r, rfl, hr, require_ok hfield, rfl⟩
  | field v i p' =>
    simp only [select] at h
    obtain ⟨q', hq', h⟩ := bind_ok h
    cases h
    exact .inr ⟨v, i, p', q', rfl, hq', rfl⟩

theorem Fits.var_mem {d : Declarations} {p : Place} (h : p.Fits d) : p.var ∈ d.vars := by
  cases h <;> assumption

/-- Fields have no fields of their own, so a place never gets longer than two. -/
theorem Fits.select {d : Declarations} (hd : d.Coherent) {p f q : Place} {span : Span}
    (hp : p.Fits d) (hf : f.Fits d) (h : p.select f span = .ok q) : q.Fits d := by
  have hscalar : ∀ g : Field, g.toVariable.record? = none := fun _ => rfl
  obtain ⟨v, i, r, rfl, hr, hfield, rfl⟩ | ⟨v, i, p', q', rfl, hq', rfl⟩ := select_ok h
  · cases hp with
    | leaf hv hi =>
      obtain ⟨g, hg, hvar⟩ := hd.field_of_hasField (hd.record_mem hv hr) hf.var_mem hfield
      cases hf with
      | leaf hw hj =>
        obtain rfl : _ = g.toVariable := hvar
        exact .field hv hi hr hg hj
      | field hw hj hs =>
        obtain rfl : _ = g.toVariable := hvar
        rw [hscalar g] at hs
        cases hs
  · cases hp with
    | field hv hi hr hg hj =>
      obtain ⟨w, j, s, hleaf, hs, -, -⟩ | ⟨_, _, _, _, hfield, -⟩ := select_ok hq'
      · cases hleaf
        rw [hscalar] at hs
        cases hs
      · cases hfield

theorem indexes_select {f : Place} {span : Span} : ∀ {p q : Place}, p.select f span = .ok q →
    q.indexes = p.indexes ++ f.indexes
  | leaf v i, q, h => by
    obtain ⟨_, _, _, hp, _, _, rfl⟩ | ⟨_, _, _, _, hp, _⟩ := select_ok h
    · cases hp; rfl
    · cases hp
  | field v i p, q, h => by
    obtain ⟨_, _, _, hp, _⟩ | ⟨_, _, _, _, hp, hq, rfl⟩ := select_ok h
    · cases hp
    · cases hp
      simp [indexes, indexes_select hq]

end Place

/-- Induction over the nodes of an expression that was built. Each node passes its typing rule and
has the type that the rule gives. -/
theorem Expr.Built.nodes {d : Declarations} (hd : d.Coherent) {P : Expr → Prop}
    (bool : ∀ n b, P (.bool n b))
    (int : ∀ n v, ValueType.ofLiteral? v = some n.type → P (.int n v))
    (mtype : ∀ n code, P (.mtype n code))
    (place : ∀ n p, p.Fits d → p.target.type? = some n.type →
      (∀ i ∈ p.indexes, i.Built d ∧ P i) → P (.place n p))
    (unary : ∀ n op a, Typing.unary op a.type n.span = .ok n.type → a.Built d → P a →
      P (.unary n op a))
    (binary : ∀ n op l r, Typing.binary op l r n.span = .ok n.type → l.Built d → r.Built d →
      P l → P r → P (.binary n op l r))
    (ternary : ∀ n c a b, Typing.ternary c.type a.type b.type n.span = .ok n.type →
      c.Built d → a.Built d → b.Built d → P c → P a → P b → P (.ternary n c a b))
    (query : ∀ n op c, Typing.query op c = .ok n.type → c.Built d → P c → P (.query n op c))
    (poll : ∀ n c as, Typing.message c as n.span = .ok () → c.Built d → P c →
      (∀ a ∈ as, a.Built d ∧ P a) → P (.poll n c as))
    (eval : ∀ n a, Typing.eval a.type n.span = .ok n.type → a.Built d → P a → P (.eval n a))
    {e : Expr} (h : e.Built d) : P e := by
  refine @Expr.Built.rec d (fun e _ => P e)
    (fun p _ => p.Fits d ∧ ∀ i ∈ p.indexes, i.Built d ∧ P i)
    ?_ ?_ ?_ ?_ ?_ ?_ ?_ ?_ ?_ ?_ ?_ ?_ e h
  · exact fun span b => bool _ b
  · intro span v e he
    unfold buildInt at he
    split at he
    · rename_i t ht
      cases he
      exact int _ v ht
    · cases he
  · exact fun span code => mtype _ code
  · intro span p e _ he ⟨hfits, hindexes⟩
    unfold buildPlace at he
    split at he
    · rename_i t ht
      cases he
      exact place _ p hfits ht hindexes
    · cases he
  · intro span op a e ha he iha
    obtain ⟨t, ht, he⟩ := bind_ok he
    cases he
    exact unary _ op a ht ha iha
  · intro span op l r e hl hr he ihl ihr
    obtain ⟨t, ht, he⟩ := bind_ok he
    cases he
    exact binary _ op l r ht hl hr ihl ihr
  · intro span c a b e hc ha hb he ihc iha ihb
    obtain ⟨t, ht, he⟩ := bind_ok he
    cases he
    exact ternary _ c a b ht hc ha hb ihc iha ihb
  · intro span op c e hc he ihc
    obtain ⟨t, ht, he⟩ := bind_ok he
    cases he
    exact query _ op c ht hc ihc
  · intro span c e as hc has he ihc ihas
    obtain ⟨_, ht, he⟩ := bind_ok he
    cases he
    exact poll _ c as ht hc ihc fun a ha => ⟨has a ha, ihas a ha⟩
  · intro span a e ha he iha
    obtain ⟨t, ht, he⟩ := bind_ok he
    cases he
    exact eval _ a ht ha iha
  · intro v i span p hv hi hp ihi
    obtain ⟨rfl, hfits⟩ := Place.build_ok hp
    refine ⟨.leaf hv hfits, fun j hj => ?_⟩
    have hj : j ∈ i := by simpa [Place.indexes] using hj
    exact ⟨hi j hj, ihi j hj⟩
  · intro span p f q _ _ hq ⟨hp, ihp⟩ ⟨hf, ihf⟩
    refine ⟨hp.select hd hf hq, fun i hi => ?_⟩
    rw [Place.indexes_select hq] at hi
    exact (List.mem_append.mp hi).elim (ihp i) (ihf i)

/-- What a place within an expression that was built is like. -/
theorem Expr.Built.place_fits {d : Declarations} (hd : d.Coherent) {n : Note} {p : Place}
    (h : (Expr.place n p).Built d) :
    p.Fits d ∧ p.target.type? = some n.type ∧ ∀ i ∈ p.indexes, i.Built d := by
  refine h.nodes hd (P := fun e => ∀ q, e = .place n q →
    q.Fits d ∧ q.target.type? = some n.type ∧ ∀ i ∈ q.indexes, i.Built d)
    ?_ ?_ ?_ ?place ?_ ?_ ?_ ?_ ?_ ?_ p rfl
  case place =>
    intro n' q hfits htype hindexes q' heq
    cases heq
    exact ⟨hfits, htype, fun i hi => (hindexes i hi).1⟩
  all_goals intros; contradiction

end Promela
