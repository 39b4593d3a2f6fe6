import Promela.Proofs.Target.Grammar

/-! The text of a term is read back as the term. -/
namespace Promela
namespace Target

/-- A name of a variable, of a field or of a helper. -/
def IsName (s : String) : Prop := Lexeme.IsWord s ∧ s ∉ reserved

def isLocation : Target → Bool
  | name _ | element _ _ | member _ _ => true
  | _ => false

/-- Only locations have elements and members, and all names can be read. -/
inductive Spelt : Target → Prop
  | number (n : Nat) : Spelt (number n)
  | truth (b : Bool) : Spelt (truth b)
  | wildcard : Spelt wildcard
  | name {s : String} : IsName s → Spelt (name s)
  | element {b i : Target} : b.isLocation → Spelt b → Spelt i → Spelt (element b i)
  | member {b : Target} {f : String} : b.isLocation → Spelt b → IsName f → Spelt (member b f)
  | unary (op : UnaryOp) {x : Target} : Spelt x → Spelt (unary op x)
  | binary (op : BinaryOp) {l r : Target} : Spelt l → Spelt r → Spelt (binary op l r)
  | choice {c a b : Target} : Spelt c → Spelt a → Spelt b → Spelt (choice c a b)
  | call {h : String} {as : List Target} : IsName h → as ≠ [] → (∀ a ∈ as, Spelt a) →
      Spelt (call h as)

open Lexeme (sign word) in
mutual

/-- The lexemes of the text. -/
def lexemes : Target → List Lexeme
  | number n => [.number n]
  | truth b => [word (if b then "true" else "false")]
  | wildcard => [word "ANY"]
  | name s => [word s]
  | element b i => b.lexemes ++ sign "[" :: i.lexemes ++ [sign "]"]
  | member b f => b.lexemes ++ [sign ".", word f]
  | unary .not x => sign "!" :: x.lexemes
  | unary op x => sign "(" :: sign op.symbol :: x.lexemes ++ [sign ")"]
  | binary op l r => sign "(" :: l.lexemes ++ sign op.symbol :: r.lexemes ++ [sign ")"]
  | choice c a b =>
    sign "(" :: c.lexemes ++ sign "?" :: a.lexemes ++ sign ":" :: b.lexemes ++ [sign ")"]
  | call h as => word h :: sign "(" :: lexemesOfArgs as ++ [sign ")"]

def lexemesOfArgs : List Target → List Lexeme
  | [] => []
  | [a] => a.lexemes
  | a :: as => a.lexemes ++ sign "," :: lexemesOfArgs as

end

/-- How a term starts. No operator before it makes a pair with that. -/
def Opens : List Char → Prop
  | c :: _ => Lexer.isWordRest c = true ∨ c = '!' ∨ c = '('
  | [] => False

theorem Opens.not_mem_pairs {cs : List Char} (h : Opens cs) (c : Char) :
    ∀ c' ∈ cs.head?, (c, c') ∉ Lexeme.pairs := by
  have hpairs : ∀ p ∈ Lexeme.pairs, Lexer.isWordRest p.2 = false ∧ p.2 ≠ '!' ∧ p.2 ≠ '(' := by decide
  intro c' hc' hmem
  obtain ⟨hword, hbang, hparen⟩ := hpairs _ hmem
  cases cs with
  | nil => cases hc'
  | cons _ _ =>
    cases hc'
    rcases h with h | h | h
    · exact absurd h (by simpa using hword)
    · exact hbang h
    · exact hparen h

theorem Spelt.opens {t : Target} (h : t.Spelt) : ∀ rest, Opens (t.text.toList ++ rest) := by
  have hword : ∀ {s : String}, IsName s → ∀ rest, Opens (s.toList ++ rest) := by
    intro s hs rest
    obtain ⟨⟨c, cs, htext, hc, -⟩, -⟩ := hs
    rw [htext]
    exact .inl (Lexeme.wordRest_of_wordStart hc)
  induction h with
  | number n =>
    intro rest
    have htext : (Target.number n).text.toList = Nat.toDigits 10 n := by simp [text]
    rw [htext]
    cases hn : Nat.toDigits 10 n with
    | nil => exact absurd hn Nat.toDigits_ne_nil
    | cons c cs =>
      have hc : c ∈ Nat.toDigits 10 n := by simp [hn]
      exact .inl (Lexeme.wordRest_of_digit (Nat.isDigit_of_mem_toDigits (by decide) (by decide) hc))
  | truth b => cases b <;> exact fun _ => .inl rfl
  | wildcard => exact fun _ => .inl rfl
  | name hs => exact hword hs
  | element _ _ _ ih _ =>
    intro rest
    simpa only [text, String.toList_append, List.append_assoc] using ih _
  | member _ _ _ ih =>
    intro rest
    simpa only [text, String.toList_append, List.append_assoc] using ih _
  | unary op _ _ =>
    intro rest
    cases op with
    | not =>
      simp only [text, String.toList_append, List.append_assoc]
      exact .inr (.inl rfl)
    | _ =>
      simp only [text, String.toList_append, List.append_assoc]
      exact .inr (.inr rfl)
  | binary op _ _ _ _ =>
    intro rest
    simp only [text, String.toList_append, List.append_assoc]
    exact .inr (.inr rfl)
  | choice _ _ _ _ _ _ =>
    intro rest
    simp only [text, String.toList_append, List.append_assoc]
    exact .inr (.inr rfl)
  | call hh _ _ _ =>
    intro rest
    simpa only [text, String.toList_append, List.append_assoc] using hword hh _

open Lexeme

theorem scan_texts {as : List Target} (hne : as ≠ [])
    (h : ∀ a ∈ as, ∀ {rest}, Parted rest →
      scan (a.text.toList ++ rest) = (scan rest).map (a.lexemes ++ ·)) {rest : List Char}
    (hrest : Parted rest) :
    scan ((", ".intercalate (texts as)).toList ++ rest) = (scan rest).map (lexemesOfArgs as ++ ·) := by
  induction as with
  | nil => exact absurd rfl hne
  | cons a as ih =>
    cases as with
    | nil => simpa [texts, lexemesOfArgs] using h a (by simp) hrest
    | cons b bs =>
      have ih := ih (by simp) fun a ha => h a (List.mem_cons_of_mem _ ha)
      have htext : (", ".intercalate (texts (a :: b :: bs))).toList ++ rest =
          a.text.toList ++ ',' :: ' ' :: ((", ".intercalate (texts (b :: bs))).toList ++ rest) := by
        simp [texts, String.intercalate_cons_cons]
      rw [htext, h a (by simp) (.cons rfl), scan_lone "," rfl (by decide), scan_blank, ih]
      cases scan rest <;> simp [lexemesOfArgs]

/-- The text of a term has the lexemes of the term, whatever follows, unless it goes on with a word. -/
theorem Spelt.scan_text {t : Target} (h : t.Spelt) : ∀ {rest}, Parted rest →
    scan (t.text.toList ++ rest) = (scan rest).map (t.lexemes ++ ·) := by
  induction h with
  | number n => exact fun hrest => scan_number n hrest
  | truth b =>
    intro rest hrest
    have hword : IsWord (if b then "true" else "false") := by
      cases b <;> exact isWord_of_all rfl rfl rfl
    exact scan_word hword hrest
  | wildcard =>
    intro rest hrest
    have hword : IsWord "ANY" := isWord_of_all rfl rfl rfl
    exact scan_word hword hrest
  | name hs => exact fun hrest => scan_word hs.1 hrest
  | @element b i _ _ _ ihb ihi =>
    intro rest hrest
    have htext : (Target.element b i).text.toList ++ rest =
        b.text.toList ++ '[' :: (i.text.toList ++ ']' :: rest) := by simp [text]
    rw [htext, ihb (.cons rfl), scan_lone "[" rfl (by decide), ihi (.cons rfl),
      scan_lone "]" rfl (by decide)]
    cases scan rest <;> simp [lexemes]
  | @member b f _ _ hf ih =>
    intro rest hrest
    have htext : (Target.member b f).text.toList ++ rest = b.text.toList ++ '.' :: (f.toList ++ rest) := by
      simp [text]
    rw [htext, ih (.cons rfl), scan_lone "." rfl (by decide), scan_word hf.1 hrest]
    cases scan rest <;> simp [lexemes]
  | @unary op x hx ih =>
    intro rest hrest
    cases op with
    | not =>
      have htext : (Target.unary .not x).text.toList ++ rest = '!' :: (x.text.toList ++ rest) := by
        simp [text]
      rw [htext, scan_sign "!" rfl (by decide) ((hx.opens rest).not_mem_pairs _), ih hrest]
      cases scan rest <;> simp [lexemes]
    | neg =>
      have htext : (Target.unary .neg x).text.toList ++ rest =
          '(' :: '-' :: (x.text.toList ++ ')' :: rest) := by simp [text, UnaryOp.symbol]
      rw [htext, scan_lone "(" rfl (by decide),
        scan_sign "-" rfl (by decide) ((hx.opens _).not_mem_pairs _), ih (.cons rfl),
        scan_lone ")" rfl (by decide)]
      cases scan rest <;> simp [lexemes, UnaryOp.symbol]
    | bitNot =>
      have htext : (Target.unary .bitNot x).text.toList ++ rest =
          '(' :: '~' :: (x.text.toList ++ ')' :: rest) := by simp [text, UnaryOp.symbol]
      rw [htext, scan_lone "(" rfl (by decide), scan_lone "~" rfl (by decide), ih (.cons rfl),
        scan_lone ")" rfl (by decide)]
      cases scan rest <;> simp [lexemes, UnaryOp.symbol]
  | @binary op l r _ _ ihl ihr =>
    intro rest hrest
    have htext : (Target.binary op l r).text.toList ++ rest =
        '(' :: (l.text.toList ++ ' ' :: (op.symbol.toList ++ ' ' :: (r.text.toList ++ ')' :: rest))) := by
      simp [text]
    rw [htext, scan_lone "(" rfl (by decide), ihl (.cons rfl), scan_blank, scan_symbol, ihr (.cons rfl),
      scan_lone ")" rfl (by decide)]
    cases scan rest <;> simp [lexemes]
  | @choice c a b _ _ _ ihc iha ihb =>
    intro rest hrest
    have htext : (Target.choice c a b).text.toList ++ rest = '(' :: (c.text.toList ++ ' ' :: '?' :: ' ' ::
        (a.text.toList ++ ' ' :: ':' :: ' ' :: (b.text.toList ++ ')' :: rest))) := by simp [text]
    rw [htext, scan_lone "(" rfl (by decide), ihc (.cons rfl), scan_blank,
      scan_lone "?" rfl (by decide), scan_blank, iha (.cons rfl), scan_blank,
      scan_lone ":" rfl (by decide), scan_blank, ihb (.cons rfl), scan_lone ")" rfl (by decide)]
    cases scan rest <;> simp [lexemes]
  | @call h as hh hne _ ih =>
    intro rest hrest
    have htext : (Target.call h as).text.toList ++ rest =
        h.toList ++ '(' :: ((", ".intercalate (texts as)).toList ++ ')' :: rest) := by simp [text]
    rw [htext, scan_word hh.1 (.cons rfl), scan_lone "(" rfl (by decide),
      scan_texts hne ih (.cons rfl), scan_lone ")" rfl (by decide)]
    cases scan rest <;> simp [lexemes]

theorem ofWord_of_isName {s : String} (hs : IsName s) : ofWord s = name s := by
  have hs := hs.2
  simp only [reserved, List.mem_cons, List.not_mem_nil, or_false, not_or] at hs
  obtain ⟨htrue, hfalse, hany⟩ := hs
  rw [ofWord, if_neg htrue, if_neg hfalse, if_neg hany]

end Target

namespace Phrase

/-- What binds tightly enough for a level binds tightly enough for a looser one. -/
theorem raise {m n : Nat} {ts : List Lexeme} {t : Target} (h : Phrase (.level m) ts t) (hmn : m ≤ n) :
    Phrase (.level n) ts t := by
  induction hmn with
  | refl => exact h
  | step _ ih => simpa using Phrase.level ih .chainEnd

theorem whole {n : Nat} {ts : List Lexeme} {t : Target} (h : Phrase (.level n) ts t) (hn : n ≤ 10) :
    Phrase .whole ts t :=
  .plain (h.raise hn)

theorem single {ts : List Lexeme} {t : Target} (h : Phrase .atom ts t) : Phrase (.level 0) ts t := by
  simpa using Phrase.suffixed h .suffixEnd

theorem grouped {ts : List Lexeme} {t : Target} (h : Phrase .whole ts t) :
    Phrase (.level 0) (.sign "(" :: ts ++ [.sign ")"]) t :=
  (Phrase.group h).single

theorem arguments (h : String) {as : List Target} (hne : as ≠ [])
    (has : ∀ a ∈ as, Phrase .whole a.lexemes a) (done : List Target) :
    Phrase (.args h done) (Target.lexemesOfArgs as ++ [.sign ")"]) (.call h (done ++ as)) := by
  induction as generalizing done with
  | nil => exact absurd rfl hne
  | cons a as ih =>
    have ha := has a List.mem_cons_self
    cases as with
    | nil => exact .lastArg ha
    | cons b bs =>
      have ih := ih (by simp) (fun a ha => has a (List.mem_cons_of_mem _ ha)) (done ++ [a])
      simpa [Target.lexemesOfArgs] using Phrase.moreArgs ha ih

end Phrase

namespace Target

/-- The lexemes of a term are a phrase for it. A location may be followed by indexes and fields. -/
theorem Spelt.phrase {t : Target} (h : t.Spelt) : Phrase (.level 0) t.lexemes t ∧
    (t.isLocation = true → ∀ {us : List Lexeme} {u : Target}, Phrase (.suffixes t) us u →
      Phrase (.level 0) (t.lexemes ++ us) u) := by
  induction h with
  | number n => exact ⟨(Phrase.number n).single, by simp [isLocation]⟩
  | truth b => cases b <;> exact ⟨(Phrase.word _).single, by simp [isLocation]⟩
  | wildcard => exact ⟨(Phrase.word "ANY").single, by simp [isLocation]⟩
  | @name s hs =>
    have hatom : Phrase .atom [.word s] (.name s) := by
      simpa only [ofWord_of_isName hs] using Phrase.word s
    exact ⟨hatom.single, fun _ _ _ hus => .suffixed hatom hus⟩
  | @element b i hb _ _ ihb ihi =>
    have hlocation : ∀ {us : List Lexeme} {u : Target}, Phrase (.suffixes (.element b i)) us u →
        Phrase (.level 0) ((Target.element b i).lexemes ++ us) u := by
      intro us u hus
      have hindex := ihb.2 hb (.element (ihi.1.whole (by decide)) hus)
      simpa [lexemes] using hindex
    exact ⟨by simpa using hlocation .suffixEnd, fun _ => hlocation⟩
  | @member b f hb _ hf ih =>
    have hlocation : ∀ {us : List Lexeme} {u : Target}, Phrase (.suffixes (.member b f)) us u →
        Phrase (.level 0) ((Target.member b f).lexemes ++ us) u := by
      intro us u hus
      have hfield := ih.2 hb (.member hf.2 hus)
      simpa [lexemes] using hfield
    exact ⟨by simpa using hlocation .suffixEnd, fun _ => hlocation⟩
  | unary op _ ih =>
    refine ⟨?_, by simp [isLocation]⟩
    have hsign := Phrase.unary op ih.1
    cases op with
    | not => exact hsign
    | _ => exact (hsign.whole (by decide)).grouped
  | @binary op l r _ _ ihl ihr =>
    refine ⟨?_, by simp [isLocation]⟩
    have hop : op.looseness + 1 ≤ 10 := by cases op <;> decide
    have hchain : Phrase (.chain op.looseness l) (.sign op.symbol :: r.lexemes ++ []) (.binary op l r) :=
      .chain rfl (ihr.1.raise (Nat.zero_le _)) .chainEnd
    have hlevel := Phrase.level (ihl.1.raise (Nat.zero_le op.looseness)) hchain
    simpa [lexemes] using (hlevel.whole hop).grouped
  | choice _ _ _ ihc iha ihb =>
    refine ⟨?_, by simp [isLocation]⟩
    have hchoice := Phrase.choice (ihc.1.raise (by decide)) (iha.1.whole (by decide))
      (ihb.1.whole (by decide))
    simpa [lexemes] using hchoice.grouped
  | @call h as hh hne _ ih =>
    refine ⟨?_, by simp [isLocation]⟩
    have hargs := Phrase.arguments h hne (fun a ha => (ih a ha).1.whole (by decide)) []
    exact (Phrase.call hh.2 hargs).single

/-- A term is the one parse of its text. -/
theorem Spelt.parses {t : Target} (h : t.Spelt) : t.Parses t.text := by
  refine ⟨t.lexemes, ?_, h.phrase.1.whole (by decide)⟩
  have hend : Lexeme.Parted [] := fun _ hc => by cases hc
  have hscan := h.scan_text hend
  simpa [Lexeme.scan_nil] using hscan

end Target
end Promela
