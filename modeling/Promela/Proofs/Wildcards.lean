import Promela.Proofs.Code
import Promela.Proofs.ReadSet
import Promela.Proofs.Target.Calls

/-! Wildcards in the code of polls. A plain variable becomes the wildcard, and so does nothing else, but for
`eval` around a variable that has the word for the wildcard as its name. -/
namespace Promela

open Target

namespace Expr

/-- What stands below all `eval`s. -/
def evaluated : Expr → Expr
  | eval _ e => e.evaluated
  | e => e

/-- The expression is no variable, but its code is the word for the wildcard. -/
def IsMasked (e : Expr) : Prop :=
  e.place? = none ∧ ∃ n v i, e.evaluated = place n (.leaf v i) ∧ v.isArray = false ∧ v.name = "ANY"

/-- What stands for the expression among the arguments of a poll. -/
def argumentCode (e : Expr) : String := if e.place?.isSome then "ANY" else e.intCode

end Expr

/-- Some argument stands there, and it is no plain variable. -/
def ComparedAt (as : List Expr) (i : Nat) : Prop := ∃ a, as[i]? = some a ∧ a.place? = none

/-! ### Which terms are names -/

theorem Place.toTarget_some_ne_name (s : String) : ∀ (p : Place) (b : Target), p.toTarget (some b) ≠ .name s
  | .leaf v i, b => by
    simp only [toTarget, cell, named]
    split <;> simp
  | .field v i p, b => toTarget_some_ne_name s p _

theorem Place.toTarget_ne_wildcard : ∀ (p : Place) (b : Option Target), p.toTarget b ≠ .wildcard
  | .leaf v i, b => by
    simp only [toTarget, cell, named]
    split
    · simp
    · cases b <;> simp
  | .field v i p, b => toTarget_ne_wildcard p _

theorem Place.toTarget_eq_name_iff {p : Place} {s : String} :
    p.toTarget none = .name s ↔ ∃ v i, p = .leaf v i ∧ v.isArray = false ∧ v.name = s := by
  cases p with
  | leaf v i =>
    simp only [toTarget, cell, named]
    cases hv : v.isArray <;> simp [hv]
  | field v i p => simp [toTarget, toTarget_some_ne_name]

theorem Target.literal_ne (v : Int) (s : String) : literal v ≠ .name s ∧ literal v ≠ .wildcard := by
  unfold literal
  split <;> exact ⟨nofun, nofun⟩

namespace Expr

theorem toTarget_ne_wildcard : ∀ e : Expr, e.toTarget .int ≠ .wildcard
  | bool _ b => (literal_ne (truth b) "").2
  | int _ v => (literal_ne v "").2
  | mtype _ code => (literal_ne code "").2
  | place _ p => p.toTarget_ne_wildcard none
  | unary _ op _ => by cases op <;> exact nofun
  | binary _ op _ _ => by cases op <;> exact nofun
  | ternary .. => nofun
  | query _ op _ => by cases op <;> exact nofun
  | poll .. => nofun
  | eval _ e => toTarget_ne_wildcard e

theorem toTarget_eq_name_iff {s : String} : ∀ {e : Expr}, e.toTarget .int = .name s ↔
    ∃ n v i, e.evaluated = place n (.leaf v i) ∧ v.isArray = false ∧ v.name = s
  | bool .. | int .. | mtype .. => by simp [toTarget, literalIn, evaluated, (literal_ne _ s).1]
  | place n p => by
    refine Place.toTarget_eq_name_iff.trans ⟨?_, ?_⟩
    · rintro ⟨v, i, rfl, h⟩
      exact ⟨n, v, i, rfl, h⟩
    · rintro ⟨_, v, i, heq, h⟩
      cases heq
      exact ⟨v, i, rfl, h⟩
  | unary _ op _ => by cases op <;> simp [toTarget, evaluated, UnaryOp.sense, convert, ofBool]
  | binary _ op _ _ => by cases op <;> simp [toTarget, evaluated, BinaryOp.resultSense, BinaryOp.group, convert, ofBool]
  | ternary .. => by simp [toTarget, evaluated]
  | query _ op _ => by cases op <;> simp [toTarget, evaluated, ChannelOp.resultSense, convert, ofBool]
  | poll .. => by simp [toTarget, evaluated, convert, ofBool]
  | eval _ e => toTarget_eq_name_iff (e := e)

/-- The word for the wildcard stands for exactly the plain variables and the masked expressions. -/
theorem argumentCode_eq_wildcard_iff {a : Expr} : a.argumentCode = "ANY" ↔ a.place?.isSome ∨ a.IsMasked := by
  cases ha : a.place? with
  | some p => simp [argumentCode, ha]
  | none =>
    simp only [argumentCode, ha, Option.isSome_none, Bool.false_eq_true, if_false, false_or, intCode,
      text_eq_wildcard_iff, toTarget_ne_wildcard, toTarget_eq_name_iff, IsMasked, true_and]

end Expr

/-! ### Names in the code of an expression -/

namespace Target

theorem worded_literal (v : Int) : (literal v).Worded := by
  unfold literal
  split <;> trivial

theorem worded_literalIn (want : Sense) (v : Int) : (literalIn want v).Worded := by
  cases want with
  | int => exact worded_literal v
  | bool => trivial

theorem Worded.convert {t : Target} (h : t.Worded) (have' want : Sense) : (convert have' want t).Worded := by
  cases have' <;> cases want
  · exact h
  · exact ⟨h, trivial⟩
  · exact ⟨h, trivial, trivial⟩
  · exact h

theorem worded_cell {base : Option Target} {v : Variable} {i : Option Target} (hbase : ∀ b ∈ base, b.Worded)
    (hv : Lexeme.IsWord v.name) (hi : ∀ t ∈ i, t.Worded) : (cell base v i).Worded := by
  have hnamed : (named base v).Worded := by
    cases base with
    | none => exact hv
    | some b => exact ⟨hbase b rfl, hv⟩
  unfold cell
  split
  · refine ⟨hnamed, ?_⟩
    cases i with
    | none => trivial
    | some t => exact hi t rfl
  · exact hnamed

end Target

/-- All names at the places are words. -/
def WordedPlaces (ps : List Place) : Prop := ∀ p ∈ ps, ∀ v ∈ p.vars, Lexeme.IsWord v.name

theorem wordedPlaces_append {ps qs : List Place} : WordedPlaces (ps ++ qs) ↔ WordedPlaces ps ∧ WordedPlaces qs :=
  List.forall_mem_append

theorem isWord_helper (op : ChannelOp) : Lexeme.IsWord op.helper := by
  cases op <;> exact Lexeme.isWord_of_all rfl rfl rfl

mutual

theorem worded_toTarget : ∀ {e : Expr} (want : Sense), WordedPlaces e.places → (e.toTarget want).Worded
  | .bool _ b, want, _ => worded_literalIn want (truth b)
  | .int _ v, want, _ => worded_literalIn want v
  | .mtype _ code, want, _ => worded_literalIn want code
  | .place _ p, want, h => by
    obtain ⟨hvars, hbelow⟩ := List.forall_mem_cons.mp h
    have hlocation : (p.toTarget none).Worded := worded_placeTarget (fun _ hb => by cases hb) hvars hbelow
    exact hlocation.convert .int want
  | .unary _ op e, want, h => by
    have hterm : (Target.unary op (e.toTarget op.sense)).Worded := worded_toTarget (e := e) op.sense h
    exact hterm.convert op.sense want
  | .binary _ op l r, want, h => by
    obtain ⟨hl, hr⟩ := wordedPlaces_append.mp h
    have hterm : (Target.binary op (l.toTarget op.operandSense) (r.toTarget op.operandSense)).Worded :=
      ⟨worded_toTarget op.operandSense hl, worded_toTarget op.operandSense hr⟩
    exact hterm.convert op.resultSense want
  | .ternary _ c a b, want, h => by
    obtain ⟨h, hb⟩ := wordedPlaces_append.mp h
    obtain ⟨hc, ha⟩ := wordedPlaces_append.mp h
    exact ⟨worded_toTarget .bool hc, worded_toTarget want ha, worded_toTarget want hb⟩
  | .query _ op c, want, h => by
    have hterm : (call op.helper [c.toTarget .int]).Worded :=
      ⟨isWord_helper op, worded_toTarget (e := c) .int h, trivial⟩
    exact hterm.convert op.resultSense want
  | .poll _ c as, want, h => by
    obtain ⟨hc, has⟩ := wordedPlaces_append.mp h
    have hterm : (call pollHelper (c.toTarget .int :: pollTargets as)).Worded :=
      ⟨Lexeme.isWord_of_all rfl rfl rfl, worded_toTarget .int hc, worded_pollTargets has⟩
    exact hterm.convert .bool want
  | .eval _ e, want, h => worded_toTarget (e := e) want h

theorem worded_placeTarget : ∀ {p : Place} {base : Option Target}, (∀ b ∈ base, b.Worded) →
    (∀ v ∈ p.vars, Lexeme.IsWord v.name) → WordedPlaces p.placesBelow → (p.toTarget base).Worded
  | .leaf v i, base, hbase, hvars, hbelow =>
    worded_cell hbase (hvars v List.mem_cons_self) (worded_indexTarget hbelow)
  | .field v i p, base, hbase, hvars, hbelow => by
    obtain ⟨hi, hp⟩ := wordedPlaces_append.mp hbelow
    obtain ⟨hv, hvars⟩ := List.forall_mem_cons.mp hvars
    have hcell : (cell base v (indexTarget i)).Worded := worded_cell hbase hv (worded_indexTarget hi)
    exact worded_placeTarget (p := p) (fun b hb => by cases hb; exact hcell) hvars hp

theorem worded_indexTarget : ∀ {i : Option Expr}, WordedPlaces (placesOfIndex i) → ∀ t ∈ indexTarget i, t.Worded
  | none, _ => nofun
  | some e, h => fun t ht => by
    cases ht
    exact worded_toTarget (e := e) .int h

theorem worded_pollTargets : ∀ {as : List Expr}, WordedPlaces (placesOfArgs as) → WordedArgs (pollTargets as)
  | [], _ => trivial
  | a :: as, h => by
    obtain ⟨ha, has⟩ := wordedPlaces_append.mp h
    cases hplace : a.place? with
    | some p =>
      obtain ⟨n, rfl⟩ := Expr.eq_place hplace
      exact ⟨trivial, worded_pollTargets has⟩
    | none =>
      rw [pollTargets_cons hplace]
      exact ⟨worded_toTarget .int ha, worded_pollTargets has⟩

end

/-! ### Polls -/

theorem text_pollTargets (as : List Expr) : (pollTargets as).map text = as.map Expr.argumentCode := by
  induction as with
  | nil => rfl
  | cons a as ih =>
    cases hplace : a.place? with
    | some p =>
      obtain ⟨n, rfl⟩ := Expr.eq_place hplace
      rw [pollTargets, List.map_cons, List.map_cons, ih]
      rfl
    | none =>
      rw [pollTargets_cons hplace, List.map_cons, List.map_cons, ih, Expr.argumentCode, hplace]
      rfl

namespace Expr

variable {n : Note} {c : Expr} {as : List Expr}

theorem places_evaluated : ∀ e : Expr, e.evaluated.places = e.places
  | eval _ e => places_evaluated e
  | bool .. | int .. | mtype .. | place .. | unary .. | binary .. | ternary .. | query .. | poll .. => rfl

/-- Without a variable of this name nothing is masked. -/
theorem not_isMasked {a : Expr} (h : ∀ p ∈ a.places, ∀ v ∈ p.vars, v.name ≠ "ANY") : ¬ a.IsMasked := by
  rintro ⟨-, n, v, i, hvar, -, hname⟩
  have hplace : Place.leaf v i ∈ a.places := by
    rw [← places_evaluated, hvar]
    exact List.mem_cons_self
  exact h _ hplace v (List.mem_singleton.mpr rfl) hname

/-- The code of a poll is read as a call in one way only. -/
theorem isCall_poll_iff (hnames : WordedPlaces (poll n c as).places) (ts : List String) :
    IsCall pollHelper ts (poll n c as).boolCode ↔ ts = c.intCode :: as.map argumentCode := by
  obtain ⟨hc, has⟩ := wordedPlaces_append.mp hnames
  have hargs : WordedArgs (c.toTarget .int :: pollTargets as) := ⟨worded_toTarget .int hc, worded_pollTargets has⟩
  have hcall := isCall_text_iff (h := pollHelper) (List.cons_ne_nil _ _) hargs ts
  rwa [List.map_cons, text_pollTargets] at hcall

theorem intCode_poll : (poll n c as).intCode = "(" ++ (poll n c as).boolCode ++ " ? 1 : 0)" := by
  have hnumbers : " ? " ++ (number 1).text ++ " : " ++ (number 0).text ++ ")" = " ? 1 : 0)" := by decide
  have htext : (poll n c as).intCode
      = "(" ++ (poll n c as).boolCode ++ " ? " ++ (number 1).text ++ " : " ++ (number 0).text ++ ")" := rfl
  rw [htext, ← hnumbers]
  simp only [String.append_assoc]

/-- Unless it is masked, an argument is compared exactly if its code is no wildcard. -/
theorem place?_eq_none_iff {a : Expr} (hmasked : ¬ a.IsMasked) : a.place? = none ↔ a.argumentCode ≠ "ANY" := by
  rw [ne_eq, argumentCode_eq_wildcard_iff.trans (or_iff_left hmasked), Option.not_isSome_iff_eq_none]

theorem mem_pollReadList_singleton_iff {a : Expr} {r : Access} : r ∈ pollReadList [a] ↔
    (a.place? = none ∧ r ∈ a.readList) ∨ ∃ m p, a = place m p ∧ r ∈ p.indexReadList := by
  cases ha : a.place? with
  | some q =>
    obtain ⟨m, rfl⟩ := eq_place ha
    simp only [pollReadList, List.append_nil, reduceCtorEq, false_and, false_or]
    constructor
    · exact fun h => ⟨m, q, rfl, h⟩
    · rintro ⟨_, p, heq, h⟩
      cases heq
      exact h
  | none =>
    have hplace : ¬ ∃ m p, a = place m p ∧ r ∈ p.indexReadList := by
      rintro ⟨m, p, rfl, -⟩
      cases ha
    simp [pollReadList_cons ha, pollReadList, hplace]

/-- A poll reads its channel, the arguments that are compared, and the indexes of the plain variables. -/
theorem mem_reads_poll_iff {r : Access} : r ∈ (poll n c as).reads ↔
    r ∈ c.reads ∨ (∃ a ∈ as, a.place? = none ∧ r ∈ a.reads) ∨ ∃ m p, place m p ∈ as ∧ r ∈ p.indexReads := by
  have hreads : ∀ {e : Expr}, r ∈ e.reads ↔ r ∈ e.readList := AccessSet.mem_ofList
  have hindexes : ∀ {p : Place}, r ∈ p.indexReads ↔ r ∈ p.indexReadList := AccessSet.mem_ofList
  simp only [hreads, hindexes, readList, List.mem_append]
  refine or_congr_right ?_
  rw [pollReadList_eq, List.mem_flatMap]
  simp only [mem_pollReadList_singleton_iff, and_or_left, exists_or]
  refine or_congr_right ⟨?_, ?_⟩
  · rintro ⟨_, hmem, m, p, rfl, hr⟩
    exact ⟨m, p, hmem, hr⟩
  · rintro ⟨m, p, hmem, hr⟩
    exact ⟨_, hmem, m, p, rfl, hr⟩

/-- Where no argument is masked, what the compared ones read is what the arguments other than wildcards read. -/
theorem exists_compared_iff (hmasked : ∀ a ∈ as, ¬ a.IsMasked) {P : Expr → Prop} :
    (∃ a ∈ as, a.place? = none ∧ P a) ↔
      ∃ (i : Nat) (a : Expr) (t : String), as[i]? = some a ∧ (as.map argumentCode)[i]? = some t ∧ t ≠ "ANY" ∧ P a := by
  have hcompared : ∀ a ∈ as, (a.place? = none ↔ a.argumentCode ≠ "ANY") := fun a ha => place?_eq_none_iff (hmasked a ha)
  constructor
  · rintro ⟨a, ha, hplace, hP⟩
    obtain ⟨i, hi⟩ := List.mem_iff_getElem?.mp ha
    exact ⟨i, a, a.argumentCode, hi, by rw [List.getElem?_map, hi]; rfl, (hcompared a ha).mp hplace, hP⟩
  · rintro ⟨i, a, t, hi, ht, hne, hP⟩
    rw [List.getElem?_map, hi] at ht
    cases ht
    have ha : a ∈ as := List.mem_of_getElem? hi
    exact ⟨a, ha, (hcompared a ha).mpr hne, hP⟩

theorem comparedAt_iff (hmasked : ∀ a ∈ as, ¬ a.IsMasked) (i : Nat) :
    ComparedAt as i ↔ ∃ t, (as.map argumentCode)[i]? = some t ∧ t ≠ "ANY" := by
  rw [ComparedAt, List.getElem?_map]
  cases ha : as[i]? with
  | none => simp
  | some a =>
    have hcompared := place?_eq_none_iff (hmasked a (List.mem_of_getElem? ha))
    simp [hcompared]

/-- The code of a poll is a call of the helper with the channel and one text for each argument, and is read in no
other way. An argument is the wildcard exactly if it is a plain variable, or `eval` around a variable that has the
word for the wildcard as its name. Where there is none of the latter, a poll reads its channel, what the arguments
read that the code compares, and the indexes of the others; and polls with the same code compare the same
arguments. -/
theorem poll_wildcards (hnames : WordedPlaces (poll n c as).places) :
    ∃ args : List String, args.length = as.length ∧
      (∀ ts, IsCall pollHelper ts (poll n c as).boolCode ↔ ts = c.intCode :: args) ∧
      (poll n c as).intCode = "(" ++ (poll n c as).boolCode ++ " ? 1 : 0)" ∧
      (∀ (i : Nat) (a : Expr), as[i]? = some a → (args[i]? = some "ANY" ↔ a.place?.isSome ∨ a.IsMasked)) ∧
      ((∀ a ∈ as, ¬ a.IsMasked) → ∀ r, r ∈ (poll n c as).reads ↔ r ∈ c.reads ∨
        (∃ (i : Nat) (a : Expr) (t : String), as[i]? = some a ∧ args[i]? = some t ∧ t ≠ "ANY" ∧ r ∈ a.reads) ∨
        ∃ m p, place m p ∈ as ∧ r ∈ p.indexReads) ∧
      ∀ n' c' as', WordedPlaces (poll n' c' as').places → (∀ a ∈ as ++ as', ¬ a.IsMasked) →
        (poll n' c' as').boolCode = (poll n c as).boolCode ∨ (poll n' c' as').intCode = (poll n c as).intCode →
        as'.length = as.length ∧ ∀ i, ComparedAt as' i ↔ ComparedAt as i := by
  refine ⟨as.map argumentCode, List.length_map _, isCall_poll_iff hnames, intCode_poll, fun i a ha => ?_,
    fun hmasked r => ?_, fun n' c' as' hnames' hmasked hcode => ?_⟩
  · rw [List.getElem?_map, ha, Option.map_some, Option.some_inj]
    exact argumentCode_eq_wildcard_iff
  · rw [mem_reads_poll_iff, exists_compared_iff hmasked]
  · have hbool : (poll n' c' as').boolCode = (poll n c as).boolCode := by
      rcases hcode with hcode | hcode
      · exact hcode
      · have hchars := congrArg String.toList (intCode_poll.symm.trans (hcode.trans intCode_poll))
        simp only [String.toList_append, List.append_left_inj, List.append_right_inj] at hchars
        exact String.toList_inj.mp hchars
    have hsame : c'.intCode :: as'.map argumentCode = c.intCode :: as.map argumentCode :=
      (isCall_poll_iff hnames _).mp (hbool ▸ (isCall_poll_iff hnames' _).mpr rfl)
    have hargs : as'.map argumentCode = as.map argumentCode := (List.cons.inj hsame).2
    obtain ⟨hmasked, hmasked'⟩ := List.forall_mem_append.mp hmasked
    refine ⟨by simpa using congrArg List.length hargs, fun i => ?_⟩
    rw [comparedAt_iff hmasked, comparedAt_iff hmasked', hargs]

/-- The polls `c?[x, eval(y)]` and `c?[y, eval(y)]` have the same code and compare the second argument. -/
theorem poll_wildcards_of_two_polls :
    let s := Span.point "" .first
    let var (id : Nat) (name : String) (t : ValueType) : Expr :=
      place ⟨s, t⟩ (.leaf ⟨id, name, .scalar t, none, none⟩ none)
    let c := var 0 "c" .chan
    let x := var 1 "x" .int
    let y := var 2 "y" .int
    let e := poll ⟨s, .bool⟩ c [x, .eval ⟨s, .int⟩ y]
    let e' := poll ⟨s, .bool⟩ c [y, .eval ⟨s, .int⟩ y]
    (WordedPlaces e.places ∧ WordedPlaces e'.places) ∧ e.boolCode = "chan_poll(c, ANY, y)" ∧
      (∀ ts, IsCall pollHelper ts e.boolCode ↔ ts = ["c", "ANY", "y"]) ∧
      ∀ i, ComparedAt [y, .eval ⟨s, .int⟩ y] i ↔ ComparedAt [x, .eval ⟨s, .int⟩ y] i := by
  intro s var c x y e e'
  have hword : ∀ name ∈ ["c", "x", "y"], Lexeme.IsWord name := by
    intro name hname
    simp only [List.mem_cons, List.not_mem_nil, or_false] at hname
    obtain rfl | rfl | rfl := hname <;> exact Lexeme.isWord_of_all rfl rfl rfl
  have hvars : ∀ p ∈ e.places ++ e'.places, ∀ v ∈ p.vars, v.name ∈ ["c", "x", "y"] := by decide
  have hnames : WordedPlaces (e.places ++ e'.places) := fun p hp v hv => hword _ (hvars p hp v hv)
  obtain ⟨hnames, hnames'⟩ := wordedPlaces_append.mp hnames
  have hcode : e.boolCode = "chan_poll(c, ANY, y)" := by decide +kernel
  have hcode' : e'.boolCode = e.boolCode := rfl
  have hmasked : ∀ a ∈ [x, .eval ⟨s, .int⟩ y] ++ [y, .eval ⟨s, .int⟩ y], ¬ a.IsMasked :=
    fun a ha => not_isMasked (by revert a; decide)
  obtain ⟨args, -, hcall, -, -, -, htwo⟩ := poll_wildcards hnames
  obtain ⟨-, hcompared⟩ := htwo ⟨s, .bool⟩ c [y, .eval ⟨s, .int⟩ y] hnames' hmasked (.inl hcode')
  have hread : IsCall pollHelper ["c", "ANY", "y"] e.boolCode := ⟨by decide, by decide, by rw [hcode]; rfl⟩
  exact ⟨⟨hnames, hnames'⟩, hcode, fun ts => (hcall ts).trans (by rw [(hcall _).mp hread]), hcompared⟩

/-- The poll `c?[eval(ANY)]` compares with the variable and reads it, `c?[ANY]` does neither, and both have the
same code. -/
theorem poll_wildcards_ambiguous :
    let s := Span.point "" .first
    let d := Declarations.after [.channel "c" none none s, .scalar "ANY" .byte none s]
    let c := place ⟨s, .chan⟩ (.leaf ⟨0, "c", .scalar .chan, none, none⟩ none)
    let x := place ⟨s, .byte⟩ (.leaf ⟨1, "ANY", .scalar .byte, none, none⟩ none)
    let e := poll ⟨s, .bool⟩ c [x]
    let e' := poll ⟨s, .bool⟩ c [.eval ⟨s, .byte⟩ x]
    (e.Built d ∧ e'.Built d ∧ WordedPlaces e.places ∧ WordedPlaces e'.places) ∧
      e.boolCode = "chan_poll(c, ANY)" ∧ e'.boolCode = "chan_poll(c, ANY)" ∧
      ¬ ComparedAt [x] 0 ∧ ComparedAt [.eval ⟨s, .byte⟩ x] 0 ∧
      e.reads.toList.map d.accessText = ["c"] ∧ e'.reads.toList.map d.accessText = ["c", "ANY"] := by
  intro s d c x e e'
  have hc : c.Built d := .place s (.build _ none s (.head _) (by simp) rfl) rfl
  have hx : x.Built d := .place s (.build _ none s (.tail _ (.head _)) (by simp) rfl) rfl
  have he : e.Built d := by
    refine .poll s hc (fun y (hy : y ∈ [x]) => ?_) rfl
    cases List.mem_singleton.mp hy
    exact hx
  have he' : e'.Built d := by
    refine .poll s hc (fun y (hy : y ∈ [.eval ⟨s, .byte⟩ x]) => ?_) rfl
    cases List.mem_singleton.mp hy
    exact .eval s hx rfl
  have hword : ∀ name ∈ ["c", "ANY"], Lexeme.IsWord name := by
    intro name hname
    simp only [List.mem_cons, List.not_mem_nil, or_false] at hname
    obtain rfl | rfl := hname <;> exact Lexeme.isWord_of_all rfl rfl rfl
  have hvars : ∀ p ∈ e.places ++ e'.places, ∀ v ∈ p.vars, v.name ∈ ["c", "ANY"] := by decide
  have hnames : WordedPlaces (e.places ++ e'.places) := fun p hp v hv => hword _ (hvars p hp v hv)
  obtain ⟨hnames, hnames'⟩ := wordedPlaces_append.mp hnames
  refine ⟨⟨he, he', hnames, hnames'⟩, by decide +kernel, by decide +kernel, ?_, ⟨_, rfl, rfl⟩, by decide +kernel,
    by decide +kernel⟩
  rintro ⟨a, ha, hplace⟩
  cases ha
  cases hplace

end Expr
end Promela
