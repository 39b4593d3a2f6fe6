import Promela.Proofs.Target.Lexemes
import Promela.Target

/-! The grammar of the target language: the binary operators, the conditional, signs and calls of C with
their binding. A text is read in one way at most. -/
namespace Promela

/-- The parts of an expression. A part that goes on with a term is given the term. -/
inductive Part
  | whole
  /-- Operators of looseness below `n`, and what stands before and behind an atom. -/
  | level (n : Nat)
  /-- What follows `left` at its level, operators of looseness `n` and their right sides. -/
  | chain (n : Nat) (left : Target)
  | atom
  /-- The indexes and fields that follow `base`. -/
  | suffixes (base : Target)
  /-- The arguments after `done`, up to the closing parenthesis. -/
  | args (helper : String) (done : List Target)

namespace Target

/-- Words that are no names. -/
def reserved : List String := ["true", "false", "ANY"]

def ofWord (s : String) : Target :=
  if s = "true" then truth true
  else if s = "false" then truth false
  else if s = "ANY" then wildcard
  else name s

end Target

open Lexeme in
inductive Phrase : Part → List Lexeme → Target → Prop
  | plain {ts : List Lexeme} {t : Target} : Phrase (.level 10) ts t → Phrase .whole ts t
  | choice {ts us vs : List Lexeme} {c a b : Target} : Phrase (.level 10) ts c → Phrase .whole us a →
      Phrase .whole vs b → Phrase .whole (ts ++ sign "?" :: us ++ sign ":" :: vs) (.choice c a b)
  | level {n : Nat} {ts us : List Lexeme} {l t : Target} : Phrase (.level n) ts l →
      Phrase (.chain n l) us t → Phrase (.level (n + 1)) (ts ++ us) t
  | chainEnd {n : Nat} {l : Target} : Phrase (.chain n l) [] l
  | chain {n : Nat} {op : BinaryOp} {ts us : List Lexeme} {l r t : Target} : op.looseness = n →
      Phrase (.level n) ts r → Phrase (.chain n (.binary op l r)) us t →
      Phrase (.chain n l) (sign op.symbol :: ts ++ us) t
  | unary (op : UnaryOp) {ts : List Lexeme} {x : Target} : Phrase (.level 0) ts x →
      Phrase (.level 0) (sign op.symbol :: ts) (.unary op x)
  | suffixed {ts us : List Lexeme} {b t : Target} : Phrase .atom ts b → Phrase (.suffixes b) us t →
      Phrase (.level 0) (ts ++ us) t
  | number (n : Nat) : Phrase .atom [number n] (.number n)
  | word (s : String) : Phrase .atom [word s] (.ofWord s)
  | group {ts : List Lexeme} {t : Target} : Phrase .whole ts t →
      Phrase .atom (sign "(" :: ts ++ [sign ")"]) t
  | call {h : String} {ts : List Lexeme} {t : Target} : h ∉ Target.reserved →
      Phrase (.args h []) ts t → Phrase .atom (word h :: sign "(" :: ts) t
  | suffixEnd {b : Target} : Phrase (.suffixes b) [] b
  | element {ts us : List Lexeme} {b i t : Target} : Phrase .whole ts i →
      Phrase (.suffixes (.element b i)) us t →
      Phrase (.suffixes b) (sign "[" :: ts ++ sign "]" :: us) t
  | member {b : Target} {f : String} {us : List Lexeme} {t : Target} : f ∉ Target.reserved →
      Phrase (.suffixes (.member b f)) us t → Phrase (.suffixes b) (sign "." :: word f :: us) t
  | lastArg {h : String} {as : List Target} {ts : List Lexeme} {a : Target} : Phrase .whole ts a →
      Phrase (.args h as) (ts ++ [sign ")"]) (.call h (as ++ [a]))
  | moreArgs {h : String} {as : List Target} {ts us : List Lexeme} {a t : Target} :
      Phrase .whole ts a → Phrase (.args h (as ++ [a])) us t →
      Phrase (.args h as) (ts ++ sign "," :: us) t

/-- The text is an expression that means the term. -/
def Target.Parses (t : Target) (text : String) : Prop :=
  ∃ ts, Lexeme.scan text.toList = some ts ∧ Phrase .whole ts t

@[simp] theorem BinaryOp.ofSymbol?_symbol (op : BinaryOp) : ofSymbol? op.symbol = some op := by
  cases op <;> rfl

theorem BinaryOp.symbol_inj {op op' : BinaryOp} (h : op.symbol = op'.symbol) : op = op' :=
  Option.some.inj ((ofSymbol?_symbol op).symm.trans (h ▸ ofSymbol?_symbol op'))

theorem UnaryOp.symbol_inj {op op' : UnaryOp} (h : op.symbol = op'.symbol) : op = op' := by
  cases op <;> cases op' <;> first | rfl | exact absurd h (by decide)

/-- How far out a lexeme reaches that follows a term: an opening parenthesis only to a name, an operator
to the terms of its level, and 13 stands for a lexeme that goes on with no term. -/
def Lexeme.reach : Lexeme → Nat
  | sign s =>
    if s = "(" then 0
    else if s = "[" ∨ s = "." then 1
    else if s = "?" then 12
    else
      match BinaryOp.ofSymbol? s with
      | some op => op.looseness + 2
      | none => 13
  | _ => 13

@[simp] theorem Lexeme.reach_symbol (op : BinaryOp) : (sign op.symbol).reach = op.looseness + 2 := by
  cases op <;> rfl

/-- The least reach of a lexeme that does not belong to the part any more. -/
def Part.bound : Part → Nat
  | whole => 13
  | level n => n + 2
  | chain n _ => n + 3
  | atom => 1
  | suffixes _ => 2
  | args _ _ => 0

/-- The text does not go on with a part of the bound. -/
def Stops (bound : Nat) (rest : List Lexeme) : Prop := ∀ x ∈ rest.head?, bound ≤ x.reach

namespace Stops

theorem cons {k : Nat} {x : Lexeme} {rest : List Lexeme} (h : k ≤ x.reach) : Stops k (x :: rest) := by
  intro y hy
  cases hy
  exact h

theorem mono {k m : Nat} {rest : List Lexeme} (h : Stops m rest) (hkm : k ≤ m) : Stops k rest :=
  fun x hx => Nat.le_trans hkm (h x hx)

theorem le_reach {k : Nat} {x : Lexeme} {rest : List Lexeme} (h : Stops k (x :: rest)) :
    k ≤ x.reach :=
  h x rfl

end Stops

/-- A chain starts with an operator of its level, if it has any. -/
theorem Phrase.stops_chain {n : Nat} {l t : Target} {us rest : List Lexeme}
    (h : Phrase (.chain n l) us t) (hrest : Stops (n + 3) rest) : Stops (n + 2) (us ++ rest) := by
  cases h with
  | chainEnd => exact hrest.mono (by omega)
  | @chain _ op _ _ _ _ _ hop _ _ =>
    exact .cons (by simp [hop])

theorem Phrase.stops_suffixes {b t : Target} {us rest : List Lexeme}
    (h : Phrase (.suffixes b) us t) (hrest : Stops 2 rest) : Stops 1 (us ++ rest) := by
  cases h with
  | suffixEnd => exact hrest.mono (by omega)
  | element _ _ => exact .cons (by decide)
  | member _ _ => exact .cons (by decide)

/-- No atom starts with an operator. -/
theorem Phrase.ne_symbol {ts us rest : List Lexeme} {b : Target} (h : Phrase .atom ts b)
    {op : UnaryOp} : .sign op.symbol :: us ≠ ts ++ rest := by
  intro heq
  have hparen : op.symbol ≠ "(" := by cases op <;> decide
  cases h with
  | group _ => exact hparen (Lexeme.sign.inj (List.cons.inj heq).1)
  | _ => cases heq

/-- Whatever else the part is read as on the same text, it ends at the same lexeme and means the same term. -/
def Part.Agrees (part : Part) (ts : List Lexeme) (t : Target) : Prop :=
  ∀ ⦃ts' : List Lexeme⦄ ⦃t' : Target⦄ ⦃rest rest' : List Lexeme⦄, Phrase part ts' t' → ts ++ rest = ts' ++ rest' →
    Stops part.bound rest → Stops part.bound rest' → t = t' ∧ rest = rest'

namespace Part.Agrees

variable {ts us vs : List Lexeme} {l r t x a b c i : Target} {n : Nat} {h : String} {done : List Target}

theorem plain (ht : (level 10).Agrees ts t) : whole.Agrees ts t := by
  intro ts' t' rest rest' h' heq hrest hrest'
  cases h' with
  | plain h' => exact ht h' heq (hrest.mono (by decide)) (hrest'.mono (by decide))
  | choice hc _ _ =>
    simp only [List.append_assoc, List.cons_append] at heq
    obtain ⟨-, rfl⟩ := ht hc heq (hrest.mono (by decide)) (.cons (by decide))
    exact absurd hrest.le_reach (by decide)

theorem choice (hc : (level 10).Agrees ts c) (ha : whole.Agrees us a) (hb : whole.Agrees vs b) :
    whole.Agrees (ts ++ .sign "?" :: us ++ .sign ":" :: vs) (.choice c a b) := by
  intro ts' t' rest rest' h' heq hrest hrest'
  simp only [List.append_assoc, List.cons_append] at heq
  cases h' with
  | plain h' =>
    obtain ⟨-, rfl⟩ := hc h' heq (.cons (by decide)) (hrest'.mono (by decide))
    exact absurd hrest'.le_reach (by decide)
  | choice hc' ha' hb' =>
    simp only [List.append_assoc, List.cons_append] at heq
    obtain ⟨rfl, heq⟩ := hc hc' heq (.cons (by decide)) (.cons (by decide))
    obtain ⟨-, heq⟩ := List.cons.inj heq
    obtain ⟨rfl, heq⟩ := ha ha' heq (.cons (by decide)) (.cons (by decide))
    obtain ⟨-, heq⟩ := List.cons.inj heq
    obtain ⟨rfl, heq⟩ := hb hb' heq hrest hrest'
    exact ⟨rfl, heq⟩

theorem level (hchain : Phrase (.chain n l) us t) (hl : (Part.level n).Agrees ts l)
    (ht : (Part.chain n l).Agrees us t) : (Part.level (n + 1)).Agrees (ts ++ us) t := by
  intro ts' t' rest rest' h' heq hrest hrest'
  cases h' with
  | level hl' hchain' =>
    simp only [List.append_assoc] at heq
    obtain ⟨rfl, heq⟩ := hl hl' heq (hchain.stops_chain hrest) (hchain'.stops_chain hrest')
    exact ht hchain' heq hrest hrest'

theorem chainEnd : (Part.chain n l).Agrees [] l := by
  intro ts' t' rest rest' h' heq hrest hrest'
  cases h' with
  | chainEnd => exact ⟨rfl, heq⟩
  | chain hop _ _ =>
    cases heq
    exact absurd hrest.le_reach (by simp [Part.bound, hop])

theorem chain {op : BinaryOp} (hop : op.looseness = n) (hchain : Phrase (.chain n (.binary op l r)) us t)
    (hr : (Part.level n).Agrees ts r) (ht : (Part.chain n (.binary op l r)).Agrees us t) :
    (Part.chain n l).Agrees (.sign op.symbol :: ts ++ us) t := by
  intro ts' t' rest rest' h' heq hrest hrest'
  cases h' with
  | chainEnd =>
    cases heq
    exact absurd hrest'.le_reach (by simp [Part.bound, hop])
  | chain _ hr' hchain' =>
    simp only [List.append_assoc, List.cons_append] at heq
    obtain ⟨hsymbol, htail⟩ := List.cons.inj heq
    obtain rfl := BinaryOp.symbol_inj (Lexeme.sign.inj hsymbol)
    obtain ⟨rfl, heq⟩ := hr hr' htail (hchain.stops_chain hrest) (hchain'.stops_chain hrest')
    exact ht hchain' heq hrest hrest'

theorem unary (op : UnaryOp) (hx : (Part.level 0).Agrees ts x) :
    (Part.level 0).Agrees (.sign op.symbol :: ts) (.unary op x) := by
  intro ts' t' rest rest' h' heq hrest hrest'
  cases h' with
  | unary op' h' =>
    obtain ⟨hsymbol, htail⟩ := List.cons.inj heq
    obtain rfl := UnaryOp.symbol_inj (Lexeme.sign.inj hsymbol)
    obtain ⟨rfl, heq⟩ := hx h' htail hrest hrest'
    exact ⟨rfl, heq⟩
  | suffixed hb _ =>
    rw [List.append_assoc] at heq
    exact absurd heq hb.ne_symbol

theorem suffixed (hatom : Phrase .atom ts b) (hsuffixes : Phrase (.suffixes b) us t) (hb : atom.Agrees ts b)
    (ht : (suffixes b).Agrees us t) : (Part.level 0).Agrees (ts ++ us) t := by
  intro ts' t' rest rest' h' heq hrest hrest'
  cases h' with
  | unary op' h' =>
    rw [List.append_assoc] at heq
    exact absurd heq.symm hatom.ne_symbol
  | suffixed hb' hsuffixes' =>
    simp only [List.append_assoc] at heq
    obtain ⟨rfl, heq⟩ := hb hb' heq (hsuffixes.stops_suffixes hrest) (hsuffixes'.stops_suffixes hrest')
    exact ht hsuffixes' heq hrest hrest'

theorem number (n : Nat) : atom.Agrees [.number n] (.number n) := by
  intro ts' t' rest rest' h' heq hrest hrest'
  cases h' <;> cases heq
  exact ⟨rfl, rfl⟩

theorem word (s : String) : atom.Agrees [.word s] (.ofWord s) := by
  intro ts' t' rest rest' h' heq hrest hrest'
  cases h' with
  | word s' =>
    cases heq
    exact ⟨rfl, rfl⟩
  | call _ _ =>
    cases heq
    exact absurd hrest.le_reach (by decide)
  | _ => cases heq

theorem group (ht : whole.Agrees ts t) : atom.Agrees (.sign "(" :: ts ++ [.sign ")"]) t := by
  intro ts' t' rest rest' h' heq hrest hrest'
  cases h' with
  | group h' =>
    simp only [List.append_assoc, List.cons_append] at heq
    obtain ⟨rfl, heq⟩ := ht h' (List.cons.inj heq).2 (.cons (by decide)) (.cons (by decide))
    exact ⟨rfl, (List.cons.inj heq).2⟩
  | _ => cases heq

theorem call (ht : (args h []).Agrees ts t) : atom.Agrees (.word h :: .sign "(" :: ts) t := by
  intro ts' t' rest rest' h' heq hrest hrest'
  cases h' with
  | word s' =>
    cases heq
    exact absurd hrest'.le_reach (by decide)
  | call _ h' =>
    obtain ⟨hword, htail⟩ := List.cons.inj heq
    obtain rfl := Lexeme.word.inj hword
    exact ht h' (List.cons.inj htail).2 (hrest.mono (Nat.zero_le _)) (hrest'.mono (Nat.zero_le _))
  | _ => cases heq

theorem suffixEnd : (suffixes b).Agrees [] b := by
  intro ts' t' rest rest' h' heq hrest hrest'
  cases h' with
  | suffixEnd => exact ⟨rfl, heq⟩
  | _ =>
    cases heq
    exact absurd hrest.le_reach (by simp [Part.bound, Lexeme.reach])

theorem element (hi : whole.Agrees ts i) (ht : (suffixes (.element b i)).Agrees us t) :
    (suffixes b).Agrees (.sign "[" :: ts ++ .sign "]" :: us) t := by
  intro ts' t' rest rest' h' heq hrest hrest'
  cases h' with
  | suffixEnd =>
    cases heq
    exact absurd hrest'.le_reach (by simp [Part.bound, Lexeme.reach])
  | element hi' h' =>
    simp only [List.append_assoc, List.cons_append] at heq
    obtain ⟨rfl, htail⟩ := hi hi' (List.cons.inj heq).2 (.cons (by decide)) (.cons (by decide))
    exact ht h' (List.cons.inj htail).2 hrest hrest'
  | member _ _ => simp at heq

theorem member {f : String} (ht : (suffixes (.member b f)).Agrees us t) :
    (suffixes b).Agrees (.sign "." :: .word f :: us) t := by
  intro ts' t' rest rest' h' heq hrest hrest'
  cases h' with
  | suffixEnd =>
    cases heq
    exact absurd hrest'.le_reach (by simp [Part.bound, Lexeme.reach])
  | element _ _ => simp at heq
  | member _ h' =>
    obtain ⟨hword, htail⟩ := List.cons.inj (List.cons.inj heq).2
    obtain rfl := Lexeme.word.inj hword
    exact ht h' htail hrest hrest'

theorem lastArg (ha : whole.Agrees ts a) :
    (args h done).Agrees (ts ++ [.sign ")"]) (.call h (done ++ [a])) := by
  intro ts' t' rest rest' h' heq hrest hrest'
  cases h' with
  | lastArg ha' =>
    simp only [List.append_assoc, List.cons_append] at heq
    obtain ⟨rfl, heq⟩ := ha ha' heq (.cons (by decide)) (.cons (by decide))
    exact ⟨rfl, (List.cons.inj heq).2⟩
  | moreArgs ha' _ =>
    simp only [List.append_assoc, List.cons_append] at heq
    obtain ⟨-, htail⟩ := ha ha' heq (.cons (by decide)) (.cons (by decide))
    simp at htail

theorem moreArgs (ha : whole.Agrees ts a) (ht : (args h (done ++ [a])).Agrees us t) :
    (args h done).Agrees (ts ++ .sign "," :: us) t := by
  intro ts' t' rest rest' h' heq hrest hrest'
  cases h' with
  | lastArg ha' =>
    simp only [List.append_assoc, List.cons_append] at heq
    obtain ⟨-, htail⟩ := ha ha' heq (.cons (by decide)) (.cons (by decide))
    simp at htail
  | moreArgs ha' h' =>
    simp only [List.append_assoc, List.cons_append] at heq
    obtain ⟨rfl, htail⟩ := ha ha' heq (.cons (by decide)) (.cons (by decide))
    exact ht h' (List.cons.inj htail).2 hrest hrest'

end Part.Agrees

/-- What can be read in two ways ends at the same lexeme in both and means the same term. -/
theorem Phrase.agree {part : Part} {ts : List Lexeme} {t : Target} (h : Phrase part ts t) : part.Agrees ts t := by
  induction h with
  | plain _ ht => exact ht.plain
  | choice _ _ _ hc ha hb => exact hc.choice ha hb
  | level _ hchain hl ht => exact hl.level hchain ht
  | chainEnd => exact .chainEnd
  | chain hop _ hchain hr ht => exact hr.chain hop hchain ht
  | unary op _ hx => exact hx.unary op
  | suffixed hatom hsuffixes hb ht => exact hb.suffixed hatom hsuffixes ht
  | number n => exact .number n
  | word s => exact .word s
  | group _ ht => exact ht.group
  | call _ _ ht => exact ht.call
  | suffixEnd => exact .suffixEnd
  | element _ _ hi ht => exact hi.element ht
  | member _ _ ht => exact ht.member
  | lastArg _ ha => exact ha.lastArg
  | moreArgs _ _ ha ht => exact ha.moreArgs ht

/-- The grammar is unambiguous. -/
theorem Target.Parses.unique {text : String} {t t' : Target} (h : t.Parses text) (h' : t'.Parses text) :
    t = t' := by
  obtain ⟨ts, hscan, hphrase⟩ := h
  obtain ⟨ts', hscan', hphrase'⟩ := h'
  obtain rfl := Option.some.inj (hscan.symm.trans hscan')
  have hstops : Stops Part.whole.bound [] := fun x hx => by cases hx
  exact (hphrase.agree hphrase' rfl hstops hstops).1

end Promela
