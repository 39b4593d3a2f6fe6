import Promela.Proofs.Unread

/-! What is skipped. A construct that is not read takes its tokens up to the brace that closes its block, and
behind this brace reading goes on. Declarations have all their braces closed, so where a block lacks closing
braces none of what follows makes up for them, and the rest of the text is skipped with the block. -/
namespace Promela
namespace Surface

theorem Derives.balanced {form : Form} {ks : List TokenKind} (h : Derives form ks) : Balanced ks :=
  .of_all_isFlat (List.all_eq_true.mpr fun k hk => TokenKind.isFlat_of_inExpr (List.all_eq_true.mp h.inExpr k hk))

theorem isFlat_typeToken (type : TypeName) : (typeToken type).isFlat = true := by
  cases type with
  | scalar t => cases t <;> rfl
  | record n => rfl

theorem BareSize.isFlat_token (n : BareSize) : n.token.isFlat = true := by
  cases n <;> rfl

theorem balanced_sizeTokens (size : Option BareSize) : Balanced (sizeTokens size) := by
  cases size with
  | none => exact .nil
  | some n => exact .flat rfl (.flat n.isFlat_token (.flat rfl .nil))

theorem Listed.balanced {α : Type} {phrase : α → List TokenKind → Prop} {as : List α} {ks : List TokenKind}
    (h : Listed phrase as ks) (hphrase : ∀ {a us}, phrase a us → Balanced us) : Balanced ks := by
  induction h with
  | single ha => exact hphrase ha
  | more ha _ ih => exact (hphrase ha).append (.flat rfl ih)

theorem NamePhrase.balanced {name : String} {ks : List TokenKind} (h : NamePhrase name ks) : Balanced ks := by
  cases h
  exact .flat rfl .nil

theorem TypePhrase.balanced {type : TypeName} {ks : List TokenKind} (h : TypePhrase type ks) : Balanced ks := by
  cases h
  exact .flat (isFlat_typeToken type) .nil

theorem FieldPhrase.balanced {type : TypeName} {f : BareField} {ks : List TokenKind} (h : FieldPhrase type f ks) :
    Balanced ks := by
  obtain ⟨-, rfl⟩ := h
  exact .flat rfl (balanced_sizeTokens f.size)

theorem FieldsPhrase.balanced {fs : List BareField} {ks : List TokenKind} (h : FieldsPhrase fs ks) : Balanced ks := by
  induction h with
  | none => exact .nil
  | @last type _ _ hgroup => exact .flat (isFlat_typeToken type) (hgroup.balanced FieldPhrase.balanced)
  | @more type _ _ _ _ hgroup _ ih =>
    exact .flat (isFlat_typeToken type) ((hgroup.balanced FieldPhrase.balanced).append (.flat rfl ih))

theorem InitializerPhrase.balanced {init : Option BareInitializer} {ks : List TokenKind}
    (h : InitializerPhrase init ks) : Balanced ks := by
  cases h with
  | none => exact .nil
  | value he => exact .flat rfl he.balanced
  | channel capacity hfields =>
    have hmessage := Balanced.braces (hfields.balanced TypePhrase.balanced) .nil
    exact .flat rfl (.flat rfl (.flat capacity.isFlat_token (.flat rfl (.flat rfl hmessage))))

theorem DeclaratorPhrase.balanced {d : BareDeclarator} {ks : List TokenKind} (h : DeclaratorPhrase d ks) :
    Balanced ks := by
  obtain ⟨vs, hinit, rfl⟩ := h
  exact .flat rfl ((balanced_sizeTokens d.size).append hinit.balanced)

theorem ItemPhrase.balanced {i : BareItem} {ks : List TokenKind} (h : ItemPhrase i ks) : Balanced ks := by
  cases h with
  | mtypes hns => exact .flat rfl (.braces (hns.balanced NamePhrase.balanced) .nil)
  | assigned hns => exact .flat rfl (.flat rfl (.braces (hns.balanced NamePhrase.balanced) .nil))
  | record name hfs => exact .flat rfl (.flat rfl (.braces hfs.balanced .nil))
  | globals type hds => exact .flat (isFlat_typeToken type) (hds.balanced DeclaratorPhrase.balanced)

theorem Block.balanced {ks : List TokenKind} (h : Block ks) : Balanced ks := by
  induction h with
  | body hbody => exact .braces hbody .nil
  | head hopen hclose heof _ ih => exact .token hopen hclose heof ih

/-- Items and constructs that are not read close the braces that they open. -/
theorem Renders.balanced {is : List BareItem} {ts rest : List Token} (h : Renders is ts rest) :
    ∃ us, ts = us ++ rest ∧ Balanced (us.map Token.kind) := by
  induction h with
  | done rest => exact ⟨[], rfl, .nil⟩
  | semicolon s _ ih =>
    obtain ⟨us, rfl, hus⟩ := ih
    exact ⟨⟨.semicolon, s⟩ :: us, rfl, .flat rfl hus⟩
  | @item _ _ us _ _ hi _ ih =>
    obtain ⟨vs, rfl, hvs⟩ := ih
    refine ⟨us ++ vs, (List.append_assoc ..).symm, ?_⟩
    rw [List.map_append]
    exact hi.balanced.append hvs
  | @define s s' name _ _ us _ _ hbody _ _ ih =>
    obtain ⟨vs, rfl, hvs⟩ := ih
    refine ⟨⟨.define, s⟩ :: ⟨.ident name.value, name.span⟩ :: (us ++ ⟨.newline, s'⟩ :: vs), ?_, ?_⟩
    · simp
    · simp only [List.map_cons, List.map_append]
      exact .flat rfl (.flat rfl (hbody.balanced.append (.flat rfl hvs)))
  | @lastDefine s s' name _ us rest hbody _ =>
    exact ⟨⟨.define, s⟩ :: ⟨.ident name.value, name.span⟩ :: us, rfl, .flat rfl (.flat rfl hbody.balanced)⟩
  | directive word s _ ih =>
    obtain ⟨us, rfl, hus⟩ := ih
    exact ⟨⟨.directive word.value, word.span⟩ :: ⟨.newline, s⟩ :: us, rfl, .flat rfl (.flat rfl hus)⟩
  | lastDirective word s rest => exact ⟨[⟨.directive word.value, word.span⟩], rfl, .flat rfl .nil⟩
  | @block word _ us _ _ hblock _ ih =>
    obtain ⟨vs, rfl, hvs⟩ := ih
    refine ⟨⟨.unread word.value, word.span⟩ :: (us ++ vs), ?_, ?_⟩
    · simp
    · rw [List.map_cons, List.map_append]
      exact .flat rfl (hblock.balanced.append hvs)

/-! Items around what is skipped. -/

/-- Nothing closes a block again that lacks closing braces, so it takes the rest of the text. -/
theorem yields_item_unclosed (word : Located String) {n : Nat} {ks : List TokenKind} {us vs : List Token} {s : Span}
    (h : Block ks) (hlacks : Lacks (n + 1) ks (us.map Token.kind)) (hvs : Balanced (vs.map Token.kind)) :
    ∃ i : Item, i.bare = .unread word ∧
      Yields (item (⟨.unread word.value, word.span⟩ :: (us ++ (vs ++ [⟨.eof, s⟩])))) i [⟨.eof, s⟩] := by
  have hskip : skipBlock 0 (us ++ (vs ++ [⟨.eof, s⟩])) = [⟨.eof, s⟩] := by
    rw [h.skipBlock_of_lacks hlacks s, skipBlock_closeBrace, hvs.skipBlock rfl]
    rfl
  exact ⟨.unread word, rfl, yields_pure.mpr ⟨rfl, hskip.symm⟩⟩

theorem ReadTo.append {is is' : List BareItem} {ts us rest : List Token} (h : ReadTo is ts us)
    (h' : ReadTo is' us rest) : ReadTo (is ++ is') ts rest := by
  obtain ⟨hstops, js, rfl, hjs⟩ := h
  obtain ⟨-, js', rfl, hjs'⟩ := h'
  refine ⟨hstops, js ++ js', List.map_append, ?_⟩
  rw [hjs, hjs', ← comp_map]
  congr 1
  funext later
  exact (List.append_assoc js js' later).symm

theorem ReadTo.items_eq {is : List BareItem} {ts : List Token} {s : Span} (h : ReadTo is ts [⟨.eof, s⟩]) :
    ∃ js, items ts = .ok js ∧ js.map Item.bare = is := by
  obtain ⟨-, js, hbare, hjs⟩ := h
  rw [items_eof] at hjs
  exact ⟨js, hjs.trans (congrArg Except.ok (List.append_nil js)), hbare⟩

theorem filterMap_unread?_bare (js : List Item) :
    (js.map Item.bare).filterMap BareItem.unread? = js.filterMap Item.unread? := by
  rw [List.filterMap_map]
  congr 1
  funext i
  exact i.unread?_bare

/-- A text of items and of constructs that are not read is read as these items, in order, and each construct is
skipped up to its end and noted with the place of its first word. If the block of a construct lacks closing
braces, the text is read up to this construct, which is noted too, and whatever follows is skipped. -/
theorem items_of_constructs (is : List BareItem) (ts : List Token) (s : Span) :
    (Renders is ts [⟨.eof, s⟩] →
      ∃ js, items ts = .ok js ∧ js.map Item.bare = is ∧
        js.filterMap Item.unread? = is.filterMap BareItem.unread?) ∧
    ∀ (word : Located String) (n : Nat) (ks : List TokenKind) (us vs : List Token) (later : List BareItem),
      Block ks → Lacks (n + 1) ks (us.map Token.kind) → Renders later vs [⟨.eof, s⟩] →
      Renders is ts (⟨.unread word.value, word.span⟩ :: (us ++ vs)) →
      ∃ js, items ts = .ok js ∧ js.map Item.bare = is ++ [.unread word] ∧
        js.filterMap Item.unread? = is.filterMap BareItem.unread? ++ [word] := by
  constructor
  · intro hrenders
    obtain ⟨js, hjs, rfl⟩ := (hrenders.read (.cons rfl nofun)).items_eq
    exact ⟨js, hjs, rfl, (filterMap_unread?_bare js).symm⟩
  · intro word n ks us vs later hblock hlacks hlater hrenders
    obtain ⟨vs, rfl, hvs⟩ := hlater.balanced
    have hend : Stops [⟨.eof, s⟩] := .cons rfl nofun
    have hread := hrenders.read (.cons rfl nofun)
    have hunclosed := (readTo_nil hend).cons (yields_item_unclosed word hblock hlacks hvs) rfl
    obtain ⟨js, hjs, hbare⟩ := (hread.append hunclosed).items_eq
    refine ⟨js, hjs, hbare, ?_⟩
    rw [← filterMap_unread?_bare, hbare, List.filterMap_append]
    rfl

/-- The body of `proctype p { never { #define } }` holds a keyword and the start of a macro. What stands behind
it is read, and skipped if the inner brace is missing. -/
theorem items_of_constructs_nested :
    let c (column : Nat) := Span.point "m" ⟨1, column⟩
    let ts : List Token :=
      [⟨.typeName .byte, c 1⟩, ⟨.ident "x", c 2⟩, ⟨.semicolon, c 3⟩, ⟨.unread "proctype", c 4⟩, ⟨.ident "p", c 5⟩,
        ⟨.openBrace, c 6⟩, ⟨.unread "never", c 7⟩, ⟨.openBrace, c 8⟩, ⟨.define, c 9⟩, ⟨.newline, c 10⟩,
        ⟨.closeBrace, c 11⟩, ⟨.closeBrace, c 12⟩, ⟨.directive "#if", c 13⟩, ⟨.newline, c 14⟩,
        ⟨.typeName .bit, c 15⟩, ⟨.ident "y", c 16⟩, ⟨.eof, c 17⟩]
    (∃ js, items ts = .ok js ∧
      js.map Item.bare = [.globals (.scalar .byte) [⟨"x", none, none⟩], .unread ⟨"proctype", c 4⟩,
        .unread ⟨"#if", c 13⟩, .globals (.scalar .bit) [⟨"y", none, none⟩]] ∧
      js.filterMap Item.unread? = [⟨"proctype", c 4⟩, ⟨"#if", c 13⟩]) ∧
    ∃ js, items (ts.eraseIdx 10) = .ok js ∧
      js.map Item.bare = [.globals (.scalar .byte) [⟨"x", none, none⟩], .unread ⟨"proctype", c 4⟩] ∧
      js.filterMap Item.unread? = [⟨"proctype", c 4⟩] := by
  intro c ts
  have hx : ItemPhrase (.globals (.scalar .byte) [⟨"x", none, none⟩]) [.typeName .byte, .ident "x"] :=
    .globals (.scalar .byte) (.single ⟨[], .none, rfl⟩)
  have hy : ItemPhrase (.globals (.scalar .bit) [⟨"y", none, none⟩]) [.typeName .bit, .ident "y"] :=
    .globals (.scalar .bit) (.single ⟨[], .none, rfl⟩)
  have hinner : Balanced [.define, .newline] := .flat rfl (.flat rfl .nil)
  have hblock : Block [.ident "p", .openBrace, .unread "never", .openBrace, .define, .newline, .closeBrace,
      .closeBrace] := .head nofun nofun nofun (.body (.flat rfl (.braces hinner .nil)))
  have hlater := Renders.directive ⟨"#if", c 13⟩ (c 14)
    (@Renders.item _ _ [⟨.typeName .bit, c 15⟩, ⟨.ident "y", c 16⟩] _ _ hy (.done [⟨.eof, c 17⟩]))
  constructor
  · have hconstruct := @Renders.block ⟨"proctype", c 4⟩ _ ((ts.drop 4).take 8) _ _ hblock hlater
    exact (items_of_constructs _ ts (c 17)).1 (@Renders.item _ _ (ts.take 2) _ _ hx (.semicolon (c 3) hconstruct))
  · have hlacks : Lacks 1 _ (((ts.drop 4).eraseIdx 6).take 7 |>.map Token.kind) :=
      .keep (.ident "p") (.keep .openBrace (.keep (.unread "never") (.keep .openBrace (.keep .define
        (.keep .newline (.drop (.keep .closeBrace .nil)))))))
    exact (items_of_constructs _ (ts.eraseIdx 10) (c 17)).2 ⟨"proctype", c 4⟩ 0 _ _ _ _ hblock hlacks hlater
      (@Renders.item _ _ (ts.take 2) _ _ hx (.semicolon (c 3) (.done _)))

end Surface
end Promela
