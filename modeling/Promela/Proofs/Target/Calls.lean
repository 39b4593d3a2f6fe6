import Promela.Proofs.Target.Lexemes
import Promela.Target

/-! The text of a call can be taken apart again: only commas outside all parentheses of its own part one
argument from the next one, and no other text is a wildcard. -/
namespace Promela

/-- The nesting after one more character of an argument. An argument neither closes a parenthesis that it has
not opened, nor has a comma outside all parentheses. -/
def nestingStep? (depth : Nat) (c : Char) : Option Nat :=
  if c = '(' then some (depth + 1)
  else if c = ')' then if depth = 0 then none else some (depth - 1)
  else if c = ',' ∧ depth = 0 then none
  else some depth

def nesting? (depth : Nat) (cs : List Char) : Option Nat := cs.foldlM nestingStep? depth

/-- The text can stand as one argument. -/
def IsArgument (s : String) : Prop := nesting? 0 s.toList = some 0

instance (s : String) : Decidable (IsArgument s) := inferInstanceAs (Decidable (_ = _))

/-- The text is that of a call with these arguments. -/
structure IsCall (helper : String) (args : List String) (code : String) : Prop where
  ne_nil : args ≠ []
  isArgument : ∀ a ∈ args, IsArgument a
  code_eq : code = helper ++ "(" ++ ", ".intercalate args ++ ")"

theorem nesting?_append {k : Nat} {cs ds : List Char} :
    nesting? k (cs ++ ds) = (nesting? k cs).bind (nesting? · ds) := List.foldlM_append

theorem nesting?_cons {k : Nat} {c : Char} {cs : List Char} :
    nesting? k (c :: cs) = (nestingStep? k c).bind (nesting? · cs) := List.foldlM_cons

/-- Below more parentheses the same goes. -/
theorem nesting?_add {k m : Nat} {cs : List Char} (h : nesting? k cs = some m) (j : Nat) :
    nesting? (k + j) cs = some (m + j) := by
  induction cs generalizing k with
  | nil =>
    cases h
    rfl
  | cons c cs ih =>
    rw [nesting?_cons, Option.bind_eq_some_iff] at h
    obtain ⟨k', hstep, hrest⟩ := h
    have hstep' : nestingStep? (k + j) c = some (k' + j) := by
      unfold nestingStep? at hstep ⊢
      grind
    rw [nesting?_cons, hstep', Option.bind_some, ih hrest]

/-- The text can stand in parentheses. -/
def IsInner (s : String) : Prop := ∀ k, nesting? (k + 1) s.toList = some (k + 1)

theorem IsInner.append {s t : String} (hs : IsInner s) (ht : IsInner t) : IsInner (s ++ t) := fun k => by
  rw [String.toList_append, nesting?_append, hs k, Option.bind_some, ht k]

namespace IsArgument

variable {s t : String}

/-- An argument may stand at any depth, and it ends there. -/
theorem nesting? (h : IsArgument s) (k : Nat) : Promela.nesting? k s.toList = some k := by
  simpa using nesting?_add h k

theorem inner (h : IsArgument s) : IsInner s := fun k => h.nesting? (k + 1)

theorem append (hs : IsArgument s) (ht : IsArgument t) : IsArgument (s ++ t) := by
  rw [IsArgument, String.toList_append, nesting?_append, hs, Option.bind_some, ht]

theorem parens (h : IsInner s) : IsArgument ("(" ++ s ++ ")") := by
  have hopen : nestingStep? 0 '(' = some 1 := rfl
  have htext : ("(" ++ s ++ ")").toList = '(' :: (s.toList ++ [')']) := by simp
  rw [IsArgument, htext, nesting?_cons, hopen, Option.bind_some, nesting?_append, h 0]
  rfl

theorem of_forall (h : ∀ c ∈ s.toList, c ≠ '(' ∧ c ≠ ')' ∧ c ≠ ',') : IsArgument s := by
  rw [IsArgument]
  generalize s.toList = cs at h
  induction cs with
  | nil => rfl
  | cons c cs ih =>
    obtain ⟨⟨hopen, hclose, hcomma⟩, hcs⟩ := List.forall_mem_cons.mp h
    have hstep : nestingStep? 0 c = some 0 := by simp [nestingStep?, hopen, hclose, hcomma]
    rw [nesting?_cons, hstep, Option.bind_some, ih hcs]

theorem word (hs : Lexeme.IsWord s) : IsArgument s := by
  obtain ⟨c, cs, htext, hc, hcs⟩ := hs
  refine of_forall fun c' hc' => ?_
  have hword : Lexer.isWordRest c' = true := by
    rw [htext] at hc'
    rcases List.mem_cons.mp hc' with rfl | hc'
    · exact Lexeme.wordRest_of_wordStart hc
    · exact hcs c' hc'
  refine ⟨?_, ?_, ?_⟩ <;> rintro rfl <;> cases hword

theorem number (n : Nat) : IsArgument (toString n) := by
  refine of_forall fun c hc => ?_
  have hc : c ∈ Nat.toDigits 10 n := by simpa using hc
  have hdigit : c.isDigit = true := Nat.isDigit_of_mem_toDigits (by decide) (by decide) hc
  refine ⟨?_, ?_, ?_⟩ <;> rintro rfl <;> cases hdigit

theorem symbol (op : BinaryOp) : IsArgument op.symbol := by cases op <;> decide

end IsArgument

/-! ### Taking a call apart -/

/-- Two arguments before the rests of their lists are the same. -/
theorem IsArgument.append_inj {s t : String} {ds es : List Char} (hs : IsArgument s) (ht : IsArgument t)
    (hds : ∀ c ∈ ds.head?, c = ',') (hes : ∀ c ∈ es.head?, c = ',') (h : s.toList ++ ds = t.toList ++ es) :
    s = t ∧ ds = es := by
  -- The longer one would go on with a comma outside all parentheses.
  have hextra : ∀ {s t : String} {ds es r : List Char}, IsArgument s → IsArgument t → (∀ c ∈ ds.head?, c = ',') →
      t.toList = s.toList ++ r → ds = r ++ es → r = [] := by
    intro s t ds es r hs ht hds hlong hrest
    cases r with
    | nil => rfl
    | cons c r =>
      obtain rfl : c = ',' := hds c (by simp [hrest])
      rw [IsArgument, hlong, nesting?_append, hs, Option.bind_some, nesting?_cons] at ht
      cases ht
  rcases List.append_eq_append_iff.mp h with ⟨r, hlong, hrest⟩ | ⟨r, hlong, hrest⟩
  · obtain rfl := hextra hs ht hds hlong hrest
    exact ⟨String.toList_inj.mp (by simpa using hlong.symm), hrest⟩
  · obtain rfl := hextra ht hs hes hlong hrest
    exact ⟨String.toList_inj.mp (by simpa using hlong), hrest.symm⟩

/-- The further arguments, each with a comma before it. -/
def furtherArgs (xs : List String) : List Char := xs.flatMap fun x => ", ".toList ++ x.toList

theorem toList_intercalate_cons (x : String) (xs : List String) :
    (", ".intercalate (x :: xs)).toList = x.toList ++ furtherArgs xs := by
  induction xs generalizing x with
  | nil => simp [furtherArgs]
  | cons y ys ih => simp [String.intercalate_cons_cons, ih, furtherArgs]

theorem head?_furtherArgs (xs : List String) : ∀ c ∈ (furtherArgs xs).head?, c = ',' := by
  cases xs with
  | nil => exact fun _ hc => by cases hc
  | cons x xs => exact fun _ hc => by cases hc; rfl

theorem furtherArgs_inj {xs ys : List String} (hxs : ∀ x ∈ xs, IsArgument x) (hys : ∀ y ∈ ys, IsArgument y)
    (h : furtherArgs xs = furtherArgs ys) : xs = ys := by
  induction xs generalizing ys with
  | nil =>
    cases ys with
    | nil => rfl
    | cons y ys => cases h
  | cons x xs ih =>
    cases ys with
    | nil => cases h
    | cons y ys =>
      obtain ⟨hx, hxs⟩ := List.forall_mem_cons.mp hxs
      obtain ⟨hy, hys⟩ := List.forall_mem_cons.mp hys
      have htexts : x.toList ++ furtherArgs xs = y.toList ++ furtherArgs ys := by
        simpa [furtherArgs] using h
      obtain ⟨hhead, hrest⟩ := hx.append_inj hy (head?_furtherArgs xs) (head?_furtherArgs ys) htexts
      rw [hhead, ih hxs hys hrest]

/-- A text is a call of a helper with one list of arguments at most. -/
theorem IsCall.unique {helper code : String} {xs ys : List String} (hx : IsCall helper xs code)
    (hy : IsCall helper ys code) : xs = ys := by
  have hsame : (", ".intercalate xs).toList = (", ".intercalate ys).toList := by
    have hcode := congrArg String.toList (hx.code_eq.symm.trans hy.code_eq)
    simpa only [String.toList_append, List.append_left_inj, List.append_right_inj] using hcode
  have hxs := hx.isArgument
  have hys := hy.isArgument
  obtain ⟨x, xs, rfl⟩ := List.exists_cons_of_ne_nil hx.ne_nil
  obtain ⟨y, ys, rfl⟩ := List.exists_cons_of_ne_nil hy.ne_nil
  rw [toList_intercalate_cons, toList_intercalate_cons] at hsame
  have hfurther : furtherArgs (x :: xs) = furtherArgs (y :: ys) := by
    simpa only [furtherArgs, List.flatMap_cons, List.append_assoc, List.append_right_inj] using hsame
  exact furtherArgs_inj hxs hys hfurther

namespace Target

/-! ### Texts of terms -/

mutual

/-- All names in the term are words. -/
def Worded : Target → Prop
  | number _ | truth _ | wildcard => True
  | name s => Lexeme.IsWord s
  | element a i => a.Worded ∧ i.Worded
  | member b f => b.Worded ∧ Lexeme.IsWord f
  | unary _ x => x.Worded
  | binary _ l r => l.Worded ∧ r.Worded
  | choice c a b => c.Worded ∧ a.Worded ∧ b.Worded
  | call h as => Lexeme.IsWord h ∧ WordedArgs as

def WordedArgs : List Target → Prop
  | [] => True
  | t :: ts => t.Worded ∧ WordedArgs ts

end

theorem texts_eq (ts : List Target) : texts ts = ts.map text := by
  induction ts with
  | nil => rfl
  | cons t ts ih => rw [texts, ih, List.map_cons]

theorem text_call (h : String) (ts : List Target) :
    (call h ts).text = h ++ ("(" ++ ", ".intercalate (ts.map text) ++ ")") := by
  simp only [text, texts_eq, String.append_assoc]

theorem text_unary {op : UnaryOp} (h : op ≠ .not) (x : Target) :
    (unary op x).text = "(" ++ (op.symbol ++ x.text) ++ ")" := by
  cases op with
  | not => exact absurd rfl h
  | neg | bitNot => rw [← String.append_assoc]; rfl

/-- A list of arguments can stand in parentheses. -/
theorem isInner_intercalate {xs : List String} (h : ∀ x ∈ xs, IsArgument x) : IsInner (", ".intercalate xs) := by
  have hcomma : IsInner ", " := fun k => by simp [nesting?, nestingStep?]
  induction xs with
  | nil => exact fun k => rfl
  | cons x xs ih =>
    obtain ⟨hx, hxs⟩ := List.forall_mem_cons.mp h
    cases xs with
    | nil => simpa using hx.inner
    | cons y ys =>
      rw [String.intercalate_cons_cons]
      exact (hx.inner.append hcomma).append (ih hxs)

mutual

/-- The text of a term can stand as an argument. -/
theorem Worded.isArgument : ∀ {t : Target}, t.Worded → IsArgument t.text
  | number n, _ => .number n
  | truth b, _ => by cases b <;> decide
  | wildcard, _ => by decide
  | name s, h => .word h
  | element a i, h => ((h.1.isArgument.append (by decide)).append h.2.isArgument).append (by decide)
  | member b f, h => (h.1.isArgument.append (by decide)).append (.word h.2)
  | unary op x, h => by
    have hx : IsArgument x.text := Worded.isArgument (t := x) h
    by_cases hop : op = .not
    · subst hop
      exact IsArgument.append (by decide) hx
    · have hinner : IsArgument (op.symbol ++ x.text) := IsArgument.append (by cases op <;> decide) hx
      exact text_unary hop x ▸ .parens hinner.inner
  | binary op l r, h => by
    have hinner : IsArgument (l.text ++ (" " ++ op.symbol ++ " ") ++ r.text) :=
      (h.1.isArgument.append ((IsArgument.append (by decide) (.symbol op)).append (by decide))).append h.2.isArgument
    have htext : (binary op l r).text = "(" ++ (l.text ++ (" " ++ op.symbol ++ " ") ++ r.text) ++ ")" := by
      simp [text, String.append_assoc]
    exact htext ▸ .parens hinner.inner
  | choice c a b, h => by
    have hinner : IsArgument (c.text ++ " ? " ++ a.text ++ " : " ++ b.text) :=
      (((h.1.isArgument.append (by decide)).append h.2.1.isArgument).append (by decide)).append h.2.2.isArgument
    have htext : (choice c a b).text = "(" ++ (c.text ++ " ? " ++ a.text ++ " : " ++ b.text) ++ ")" := by
      simp [text, String.append_assoc]
    exact htext ▸ .parens hinner.inner
  | call h ts, hw => by
    rw [text_call]
    refine (IsArgument.word hw.1).append (.parens (isInner_intercalate fun x hx => ?_))
    obtain ⟨t, ht, rfl⟩ := List.mem_map.mp hx
    exact WordedArgs.isArgument hw.2 t ht

theorem WordedArgs.isArgument : ∀ {ts : List Target}, WordedArgs ts → ∀ t ∈ ts, IsArgument t.text
  | [], _ => fun _ ht => absurd ht List.not_mem_nil
  | _ :: _, h => List.forall_mem_cons.mpr ⟨h.1.isArgument, WordedArgs.isArgument h.2⟩

end

/-- The text of a call is read as a call in one way only. -/
theorem isCall_text_iff {h : String} {ts : List Target} (hne : ts ≠ []) (hts : WordedArgs ts) (args : List String) :
    IsCall h args (call h ts).text ↔ args = ts.map text := by
  have hcall : IsCall h (ts.map text) (call h ts).text := by
    refine ⟨by simpa using hne, fun x hx => ?_, by simp only [text_call, String.append_assoc]⟩
    obtain ⟨t, ht, rfl⟩ := List.mem_map.mp hx
    exact hts.isArgument t ht
  exact ⟨fun hargs => hargs.unique hcall, fun hargs => hargs ▸ hcall⟩

/-- No text of a term is the word for the wildcard but that word. -/
theorem text_eq_wildcard_iff {t : Target} : t.text = "ANY" ↔ t = wildcard ∨ t = name "ANY" := by
  constructor
  · intro h
    have hchars : ∀ c ∈ t.text.toList, c = 'A' ∨ c = 'N' ∨ c = 'Y' := by
      rw [h]
      simp
    cases t with
    | wildcard => exact .inl rfl
    | name s => exact .inr (congrArg name h)
    | number n =>
      have hA : 'A' ∈ Nat.toDigits 10 n := by
        have hA : 'A' ∈ (number n).text.toList := by
          rw [h]
          decide
        simpa [text] using hA
      cases Nat.isDigit_of_mem_toDigits (by decide) (by decide) hA
    | truth b => cases b <;> simp [text] at h
    | element a i => exact absurd (hchars '[' (by simp [text])) (by decide)
    | member b f => exact absurd (hchars '.' (by simp [text])) (by decide)
    | unary op x =>
      cases op with
      | not => exact absurd (hchars '!' (by simp [text])) (by decide)
      | neg | bitNot => exact absurd (hchars '(' (by simp [text])) (by decide)
    | binary op l r => exact absurd (hchars '(' (by simp [text])) (by decide)
    | choice c a b => exact absurd (hchars '(' (by simp [text])) (by decide)
    | call h as => exact absurd (hchars '(' (by simp [text])) (by decide)
  · rintro (rfl | rfl) <;> rfl

end Target
end Promela
