import Promela.Model.Reading
import Promela.Proofs.Surface.Items

/-! Texts with a construct that is not read. A block or a directive is skipped and then reported for the
first of its kind, a macro with parameters is reported where it is met, and only tokens are skipped:
what the text is made of has to be tokens throughout. -/
namespace Promela

namespace Surface

@[simp] theorem Item.unread?_bare (i : Item) : i.bare.unread? = i.unread? := by
  cases i <;> rfl

theorem findSome?_unread?_bare (js : List Item) :
    (js.map Item.bare).findSome? BareItem.unread? = js.findSome? Item.unread? := by
  rw [List.findSome?_map]
  congr 1
  funext i
  exact i.unread?_bare

/-- A macro with parameters ends the reading at the parenthesis that opens them. -/
theorem items_of_parameterized {name : Located String} {s s' : Span} {us : List Token}
    (h : s'.start = ⟨name.span.stop.line, name.span.stop.column + 1⟩) :
    items (⟨.define, s⟩ :: ⟨.ident name.value, name.span⟩ :: ⟨.openParen, s'⟩ :: us)
      = .error (.ofUnread (.parameterizedDefine name.value) s') := by
  have hparameters : notParameterized name (⟨.openParen, s'⟩ :: us)
      = .error (.ofUnread (.parameterizedDefine name.value) s') := if_pos h
  have hdefine : define (⟨.ident name.value, name.span⟩ :: ⟨.openParen, s'⟩ :: us)
      = .error (.ofUnread (.parameterizedDefine name.value) s') := by
    change (notParameterized name (⟨.openParen, s'⟩ :: us) >>= fun _ => _) = _
    rw [hparameters]
    rfl
  rw [items.eq_def]
  dsimp only [item]
  rw [hdefine]
  rfl

end Surface

open Surface

/-- What is skipped is reported before anything is looked up. -/
theorem Reading.ofItems_of_unread {base : Nat} {path : String} {items : List Item} {word : Located String}
    (h : items.findSome? (·.unread?) = some word) :
    (ofItems base path items).outcome = .error (.ofUnread (.construct word.value) word.span) := by
  unfold ofItems
  split
  next => cases h
  next heq =>
    cases heq.symm.trans h
    rfl
  next heq => cases heq.symm.trans h

theorem Model.ofSource_of_error {base : Nat} {path source : String} {r : Rejection}
    (h : (tokens source path).bind items = .error r) : ofSource base path source = .error r := by
  unfold ofSource Reading.ofSource
  rw [h]
  rfl

/-- A text that is made of declarations and skipped constructs is rejected for the first construct. If a
macro with parameters stands behind them, the text is rejected for this macro. -/
theorem Model.ofSource_of_renders (base : Nat) {path source : String} {ts rest : List Token}
    {is : List BareItem} (htokens : tokens source path = .ok ts) (hrenders : Renders is ts rest) :
    (∀ s, rest = [⟨.eof, s⟩] → ∀ word, is.findSome? (·.unread?) = some word →
      ofSource base path source = .error (.ofUnread (.construct word.value) word.span)) ∧
    (∀ (name : Located String) (s s' : Span) (us : List Token),
      rest = ⟨.define, s⟩ :: ⟨.ident name.value, name.span⟩ :: ⟨.openParen, s'⟩ :: us →
      s'.start = ⟨name.span.stop.line, name.span.stop.column + 1⟩ →
      ofSource base path source = .error (.ofUnread (.parameterizedDefine name.value) s')) := by
  constructor
  · rintro s rfl word hword
    obtain ⟨-, js, rfl, hjs⟩ := hrenders.read (.cons rfl nofun)
    rw [findSome?_unread?_bare] at hword
    rw [items_eof] at hjs
    have hitems : items ts = .ok js := hjs.trans (congrArg Except.ok (List.append_nil js))
    unfold ofSource Reading.ofSource
    rw [htokens, Except.bind, hitems]
    exact Reading.ofItems_of_unread hword
  · rintro name s s' us rfl hglued
    obtain ⟨-, js, rfl, hjs⟩ := hrenders.read (.cons rfl nofun)
    rw [items_of_parameterized hglued] at hjs
    apply ofSource_of_error
    rw [htokens, Except.bind, hjs]
    rfl

/-- The block is the first of the two constructs. -/
theorem Model.ofSource_of_renders_block :
    ofSource 0 "m" "byte x\ninit \x7b x \x7d\n#if 1"
      = .error (.ofUnread (.construct "init") ⟨"m", ⟨2, 1⟩, ⟨2, 4⟩⟩) := by
  let span (line first last : Nat) : Span := ⟨"m", ⟨line, first⟩, ⟨line, last⟩⟩
  let ts : List Token :=
    [⟨.typeName .byte, span 1 1 4⟩, ⟨.ident "x", span 1 6 6⟩, ⟨.unread "init", span 2 1 4⟩,
      ⟨.openBrace, span 2 6 6⟩, ⟨.ident "x", span 2 8 8⟩, ⟨.closeBrace, span 2 10 10⟩,
      ⟨.directive "#if", span 3 1 3⟩, ⟨.eof, span 3 6 6⟩]
  have htokens : tokens "byte x\ninit \x7b x \x7d\n#if 1" "m" = .ok ts := by decide +kernel
  have hvariable : ItemPhrase (.globals (.scalar .byte) [⟨"x", none, none⟩]) [.typeName .byte, .ident "x"] :=
    .globals (.scalar .byte) (.single ⟨[], .none, rfl⟩)
  have hbody : Balanced [.ident "x"] := .token nofun nofun nofun .nil
  have hblock : Block [.openBrace, .ident "x", .closeBrace] := .body hbody
  have hdirective := Renders.lastDirective ⟨"#if", span 3 1 3⟩ (span 3 6 6) []
  have hconstructs := @Renders.block ⟨"init", span 2 1 4⟩ _ ((ts.drop 3).take 3) _ _ hblock hdirective
  have hrenders := @Renders.item _ _ (ts.take 2) _ _ hvariable hconstructs
  exact (ofSource_of_renders 0 htokens hrenders).1 _ rfl _ rfl

/-- A text literal in the body of a block is no token and has the whole text rejected as malformed, and
the parameters of a later macro are reported before the block. -/
theorem Model.ofSource_not_first_construct :
    ofSource 0 "m" "init \x7b printf(\"a\") \x7d"
      = .error (.ofMalformed (.unexpectedCharacter '"') ⟨"m", ⟨1, 15⟩, ⟨1, 15⟩⟩) ∧
    ofSource 0 "m" "init \x7b \x7d\n#define f(x) x"
      = .error (.ofUnread (.parameterizedDefine "f") ⟨"m", ⟨2, 10⟩, ⟨2, 10⟩⟩) := by
  let span (line first last : Nat) : Span := ⟨"m", ⟨line, first⟩, ⟨line, last⟩⟩
  constructor
  · have htokens : tokens "init \x7b printf(\"a\") \x7d" "m"
        = .error (.ofMalformed (.unexpectedCharacter '"') (span 1 15 15)) := by decide +kernel
    apply ofSource_of_error
    rw [htokens]
    rfl
  · let ts : List Token :=
      [⟨.unread "init", span 1 1 4⟩, ⟨.openBrace, span 1 6 6⟩, ⟨.closeBrace, span 1 8 8⟩,
        ⟨.define, span 2 1 7⟩, ⟨.ident "f", span 2 9 9⟩, ⟨.openParen, span 2 10 10⟩,
        ⟨.ident "x", span 2 11 11⟩, ⟨.closeParen, span 2 12 12⟩, ⟨.ident "x", span 2 14 14⟩,
        ⟨.eof, span 2 15 15⟩]
    have htokens : tokens "init \x7b \x7d\n#define f(x) x" "m" = .ok ts := by decide +kernel
    have hitems : items ts = .error (.ofUnread (.parameterizedDefine "f") (span 2 10 10)) := by cbv
    apply ofSource_of_error
    rw [htokens, Except.bind, hitems]

end Promela
