import Promela.Proofs.Surface.Braces
import Promela.Proofs.Surface.Phrases

/-! Declarations are read as what they were written from: each item takes its own tokens, a block that is
not read takes those up to its last brace, and what follows is the next item. -/
namespace Promela
namespace Surface

section

variable {us rest : List Token} {s s₁ s₂ : Span}

theorem yields_item_mtypes {ns : List String} (h : Listed NamePhrase ns (us.map Token.kind)) {vs : List Token}
    (hvs : opensMtypes vs = true)
    (hskip : skip .assign vs = ⟨.openBrace, s₁⟩ :: (us ++ ⟨.closeBrace, s₂⟩ :: rest)) :
    ∃ i : Item, i.bare = .mtypes ns ∧ Yields (item (⟨.mtype, s⟩ :: vs)) i (skip .semicolon rest) := by
  have hstops : Stops (⟨.closeBrace, s₂⟩ :: rest) := .cons rfl nofun
  obtain ⟨ns, rfl, hns⟩ := yields_names h hstops
  refine ⟨.mtypes ns, rfl, ?_⟩
  rw [item, if_pos hvs]
  refine yields_map_within ?_
  refine (yields_expect.mpr hskip).bind ?_
  refine hns.bind ?_
  refine (yields_expect.mpr rfl).bind ?_
  exact yields_pure.mpr ⟨rfl, rfl⟩

theorem yields_item_record (name : Located String) {fs : List BareField}
    (h : FieldsPhrase fs (us.map Token.kind)) :
    ∃ i : Item, i.bare = .record name.value fs ∧
      Yields (item (⟨.typedef, s⟩ :: ⟨.ident name.value, name.span⟩ :: ⟨.openBrace, s₁⟩ ::
        (us ++ ⟨.closeBrace, s₂⟩ :: rest))) i (skip .semicolon rest) := by
  obtain ⟨fs, rfl, hfs⟩ := h.read rfl s₂ rest
  refine ⟨.record name fs, rfl, ?_⟩
  refine yields_map_within ?_
  rw [record]
  refine (yields_ident.mpr rfl).bind ?_
  refine (yields_expect.mpr rfl).bind ?_
  refine hfs.bind ?_
  refine (yields_expect.mpr rfl).bind ?_
  exact yields_pure.mpr ⟨rfl, rfl⟩

/-- A type before a name starts a declaration of variables. -/
theorem item_globals (type : TypeName) {name : String} :
    item (⟨typeToken type, s⟩ :: ⟨.ident name, s₁⟩ :: rest)
      = globals (⟨typeToken type, s⟩ :: ⟨.ident name, s₁⟩ :: rest) := by
  cases type with
  | scalar t => cases t <;> rfl
  | record n => rfl

theorem Listed.starts_with_name {ds : List BareDeclarator} {ks : List TokenKind}
    (h : Listed DeclaratorPhrase ds ks) : ∃ name ls, ks = .ident name :: ls := by
  cases h with
  | single hd =>
    obtain ⟨_, _, rfl⟩ := hd
    exact ⟨_, _, rfl⟩
  | more hd _ =>
    obtain ⟨_, _, rfl⟩ := hd
    exact ⟨_, _, rfl⟩

theorem yields_item_globals (type : TypeName) {ds : List BareDeclarator}
    (h : Listed DeclaratorPhrase ds (us.map Token.kind)) (hrest : Stops rest) :
    ∃ i : Item, i.bare = .globals type ds ∧
      Yields (item (⟨typeToken type, s⟩ :: (us ++ rest))) i (skip .semicolon rest) := by
  obtain ⟨name, ks, hname⟩ := h.starts_with_name
  obtain ⟨s₁, vs, rfl, -⟩ := map_kind_eq_cons.mp hname
  obtain ⟨ds, rfl, hds⟩ := yields_declarators h hrest
  refine ⟨.globals ⟨type, s⟩ ds, rfl, ?_⟩
  rw [List.cons_append, item_globals]
  refine (yields_typeName type).bind ?_
  refine hds.bind ?_
  exact yields_pure.mpr ⟨rfl, rfl⟩

/-- A declaration that ends by itself is read up to its last token and the semicolon behind it. -/
theorem ItemPhrase.read {i : BareItem} {ks : List TokenKind} (h : ItemPhrase i ks)
    (hks : us.map Token.kind = ks) (hrest : Stops rest) :
    ∃ i' : Item, i'.bare = i ∧ Yields (item (us ++ rest)) i' (skip .semicolon rest) := by
  cases h with
  | mtypes hns =>
    simp only [List.cons_append, List.map_eq_append_iff, map_kind_eq_cons, List.map_eq_nil_iff] at hks
    obtain ⟨s, _, rfl, s₁, _, rfl, us, _, rfl, rfl, s₂, _, rfl, rfl⟩ := hks
    dsimp only [List.cons_append]
    rw [List.append_assoc]
    exact yields_item_mtypes hns rfl rfl
  | assigned hns =>
    simp only [List.cons_append, List.map_eq_append_iff, map_kind_eq_cons, List.map_eq_nil_iff] at hks
    obtain ⟨s, _, rfl, s₃, _, rfl, s₁, _, rfl, us, _, rfl, rfl, s₂, _, rfl, rfl⟩ := hks
    dsimp only [List.cons_append]
    rw [List.append_assoc]
    exact yields_item_mtypes hns rfl rfl
  | record name hfs =>
    simp only [List.cons_append, List.map_eq_append_iff, map_kind_eq_cons, List.map_eq_nil_iff] at hks
    obtain ⟨s, _, rfl, s₁, _, rfl, s₂, _, rfl, us, _, rfl, rfl, s₃, _, rfl, rfl⟩ := hks
    dsimp only [List.cons_append]
    rw [List.append_assoc]
    exact yields_item_record ⟨name, s₁⟩ hfs
  | globals type hds =>
    obtain ⟨s, us, rfl, rfl⟩ := map_kind_eq_cons.mp hks
    exact yields_item_globals type hds hrest

theorem notParameterized_of_not_glued {name : Located String} (h : ¬Glued name us) :
    notParameterized name us = .ok () := by
  unfold notParameterized
  split
  next s vs => exact if_neg fun hs => h ⟨s, vs, rfl, hs⟩
  next => rfl

theorem yields_lineEnd_newline : Yields (lineEnd (⟨.newline, s⟩ :: rest)) () rest :=
  yields_pure.mpr ⟨rfl, rfl⟩

theorem yields_lineEnd_eof : Yields (lineEnd (⟨.eof, s⟩ :: rest)) () (⟨.eof, s⟩ :: rest) :=
  yields_pure.mpr ⟨rfl, rfl⟩

theorem not_glued_append {name : Located String} {ts : List Token} (h : ¬Glued name us)
    (hts : ∀ t ∈ ts.head?, t.kind.mayFollow = true) : ¬Glued name (us ++ ts) := by
  rintro ⟨s, vs, heq, hs⟩
  cases us with
  | nil =>
    rw [List.nil_append] at heq
    subst heq
    cases hts _ rfl
  | cons u us =>
    cases heq
    exact h ⟨s, us, rfl, hs⟩

theorem yields_item_define {name : Located String} {e : BareExpr} {ts : List Token}
    (h : Derives (.level levels e) (us.map Token.kind)) (hglued : ¬Glued name us)
    (hts : ∀ t ∈ ts.head?, t.kind.mayFollow = true) (hend : Yields (lineEnd ts) () rest) :
    ∃ i : Item, i.bare = .define name.value e ∧
      Yields (item (⟨.define, s⟩ :: ⟨.ident name.value, name.span⟩ :: (us ++ ts))) i rest := by
  obtain ⟨e, rfl, he⟩ := (h.read rfl).level (ends_of_mayFollow hts)
  refine ⟨.define name e, rfl, ?_⟩
  refine yields_map_within ?_
  refine (yields_ident.mpr rfl).bind ?_
  dsimp only
  rw [notParameterized_of_not_glued (not_glued_append hglued hts)]
  refine he.bind ?_
  refine hend.bind ?_
  exact yields_pure.mpr ⟨rfl, rfl⟩

end

/-! All items. -/

theorem items_semicolon {s : Span} {ts : List Token} : items (⟨.semicolon, s⟩ :: ts) = items ts := by
  rw [items]

theorem items_newline {s : Span} {ts : List Token} : items (⟨.newline, s⟩ :: ts) = items ts := by
  rw [items]

theorem items_eof {s : Span} {ts : List Token} : items (⟨.eof, s⟩ :: ts) = .ok [] := by
  rw [items]
  rfl

theorem items_skip_semicolon (ts : List Token) : items (skip .semicolon ts) = items ts := by
  unfold skip
  split
  next t ts =>
    split
    next h =>
      obtain ⟨k, s⟩ := t
      obtain rfl : k = .semicolon := h
      exact items_semicolon.symm
    next => rfl
  next => rfl

theorem items_of_item {ts rest : List Token} {i : Item} (h : Yields (item ts) i rest) :
    items ts = (i :: ·) <$> items rest := by
  obtain ⟨hlt, hok⟩ := h
  rw [items.eq_def ts]
  split
  next => cases hok
  next => cases hok
  next => cases hok
  next => cases hok
  next =>
    rw [hok]
    rfl

/-- What an item starts with goes on with nothing. -/
theorem stops_of_item {ts rest : List Token} {i : Item} (h : Yields (item ts) i rest) : Stops ts := by
  unfold item at h
  split at h
  case h_9 => exact absurd h not_yields_error
  all_goals exact .cons rfl nofun

/-- The items at the front of the tokens, up to `rest`, are these. -/
def ReadTo (is : List BareItem) (ts rest : List Token) : Prop :=
  Stops ts ∧ ∃ js : List Item, js.map Item.bare = is ∧ items ts = (js ++ ·) <$> items rest

theorem ReadTo.cons {i : BareItem} {is : List BareItem} {us vs ts rest : List Token} (h : ReadTo is ts rest)
    (hi : ∃ i' : Item, i'.bare = i ∧ Yields (item us) i' vs) (hvs : items vs = items ts) :
    ReadTo (i :: is) us rest := by
  obtain ⟨-, js, rfl, hjs⟩ := h
  obtain ⟨i, rfl, hi⟩ := hi
  refine ⟨stops_of_item hi, i :: js, rfl, ?_⟩
  rw [items_of_item hi, hvs, hjs, ← comp_map]
  rfl

theorem readTo_nil {rest : List Token} (h : Stops rest) : ReadTo [] rest rest :=
  ⟨h, [], rfl, (id_map _).symm⟩

theorem yields_item_directive {word : Located String} {s : Span} {ts : List Token} {k : TokenKind}
    (hk : k = .newline ∨ k = .eof) :
    ∃ i : Item, i.bare = .unread word ∧
      Yields (item (⟨.directive word.value, word.span⟩ :: ⟨k, s⟩ :: ts)) i (⟨k, s⟩ :: ts) := by
  have hline : skipLine (⟨k, s⟩ :: ts) = ⟨k, s⟩ :: ts := if_pos hk
  exact ⟨.unread word, rfl, yields_pure.mpr ⟨rfl, hline.symm⟩⟩

theorem yields_item_block {word : Located String} {us ts : List Token} (h : Block (us.map Token.kind)) :
    ∃ i : Item, i.bare = .unread word ∧
      Yields (item (⟨.unread word.value, word.span⟩ :: (us ++ ts))) i ts :=
  ⟨.unread word, rfl, yields_pure.mpr ⟨rfl, (h.skipBlock rfl ts).symm⟩⟩

/-- The tokens of items are read as these items, and what follows is read on. -/
theorem Renders.read {is : List BareItem} {ts rest : List Token} (h : Renders is ts rest)
    (hrest : Stops rest) : ReadTo is ts rest := by
  induction h with
  | done rest => exact readTo_nil hrest
  | semicolon s _ ih =>
    obtain ⟨-, js, hbare, hjs⟩ := ih hrest
    exact ⟨.cons rfl nofun, js, hbare, items_semicolon.trans hjs⟩
  | item hi _ ih =>
    have hread := ih hrest
    exact hread.cons (hi.read rfl hread.1) (items_skip_semicolon _)
  | define s s' hbody hglued _ ih =>
    have hread := ih hrest
    exact hread.cons (yields_item_define hbody hglued (mayFollow_cons rfl) yields_lineEnd_newline) rfl
  | lastDefine s s' rest hbody hglued =>
    have hread := readTo_nil hrest
    exact hread.cons (yields_item_define hbody hglued hrest.mayFollow yields_lineEnd_eof) rfl
  | directive word s _ ih => exact (ih hrest).cons (yields_item_directive (.inl rfl)) items_newline
  | lastDirective word s rest => exact (readTo_nil hrest).cons (yields_item_directive (.inr rfl)) rfl
  | block word hblock _ ih => exact (ih hrest).cons (yields_item_block hblock) rfl

theorem exists_itemPhrase {i : BareItem} (h : i.Declares) (hdefine : ∀ name e, i ≠ .define name e) :
    ∃ us, ItemPhrase i us := by
  cases i with
  | mtypes names =>
    have hnames : ∀ name ∈ names, ∃ us, NamePhrase name us := fun name _ => ⟨[.ident name], rfl⟩
    obtain ⟨us, hus⟩ := exists_listed h hnames
    exact ⟨_, .mtypes hus⟩
  | record name fs =>
    obtain ⟨us, hus⟩ := exists_fieldsPhrase fs
    exact ⟨_, .record name hus⟩
  | globals type ds =>
    obtain ⟨us, hus⟩ := exists_listed h.1 fun d hd => exists_declaratorPhrase (h.2 d hd)
    exact ⟨_, .globals type hus⟩
  | define name e => exact absurd rfl (hdefine name e)
  | unread word => exact h.elim

/-- Tokens that all stand at one place stand nowhere right behind another. -/
theorem not_glued_somewhere (name : String) (ks : List TokenKind) :
    ¬Glued ⟨name, .point "" .first⟩ (ks.map somewhere) := by
  rintro ⟨s, vs, heq, hs⟩
  cases ks with
  | nil => cases heq
  | cons k ks =>
    obtain ⟨hk, -⟩ := List.cons.inj heq
    obtain ⟨-, rfl⟩ := Token.mk.inj hk
    have hcolumn := congrArg Position.column hs
    exact absurd hcolumn (Nat.ne_of_lt (Nat.lt_succ_self _))

theorem exists_renders {is : List BareItem} (h : ∀ i ∈ is, i.Declares) (s : Span) :
    ∃ ts, Renders is ts [⟨.eof, s⟩] := by
  induction is with
  | nil => exact ⟨_, .done _⟩
  | cons i is ih =>
    obtain ⟨ts, hts⟩ := ih fun j hj => h j (List.mem_cons_of_mem i hj)
    have hi := h i List.mem_cons_self
    by_cases hdefine : ∃ name e, i = .define name e
    · obtain ⟨name, e, rfl⟩ := hdefine
      obtain ⟨ks, hks⟩ := hi
      rw [← map_kind_map_somewhere ks] at hks
      exact ⟨_, .define s s hks (not_glued_somewhere name ks) hts⟩
    · obtain ⟨ks, hks⟩ := exists_itemPhrase hi fun name e heq => hdefine ⟨name, e, heq⟩
      rw [← map_kind_map_somewhere ks] at hks
      exact ⟨_, .item hks hts⟩

theorem not_unread_of_declares {js : List Item} (h : ∀ i ∈ js.map Item.bare, i.Declares)
    (word : Located String) : Item.unread word ∉ js :=
  fun hword => h _ (List.mem_map_of_mem hword)

/-- Every list of declarations can be written as tokens, and however it is written, these declarations
are read, in order and nothing else, and no construct is skipped. -/
theorem items_of_renders (is : List BareItem) (h : ∀ i ∈ is, i.Declares) :
    (∀ s : Span, ∃ ts, Renders is ts [⟨.eof, s⟩]) ∧
    ∀ (ts : List Token) (s : Span), Renders is ts [⟨.eof, s⟩] →
      ∃ js, items ts = .ok js ∧ js.map Item.bare = is ∧ ∀ word, Item.unread word ∉ js := by
  refine ⟨exists_renders h, ?_⟩
  intro ts s hts
  have hstops : Stops [⟨.eof, s⟩] := .cons rfl nofun
  obtain ⟨-, js, rfl, hjs⟩ := hts.read hstops
  refine ⟨js, ?_, rfl, not_unread_of_declares h⟩
  rw [hjs, items_eof]
  exact congrArg Except.ok (List.append_nil js)

/-- The declarations of `mtype = { red }; byte x[2], y; #define N (3)`. -/
def threeItems : List BareItem :=
  [.mtypes ["red"], .globals (.scalar .byte) [⟨"x", some (.number 2), none⟩, ⟨"y", none, none⟩],
    .define "N" (.number 3)]

theorem items_of_renders_threeItems :
    ∃ js, items (([.mtype, .assign, .openBrace, .ident "red", .closeBrace, .semicolon, .typeName .byte,
        .ident "x", .openBracket, .number 2, .closeBracket, .comma, .ident "y", .semicolon, .define,
        .ident "N", .openParen, .number 3, .closeParen, .newline, .eof] : List TokenKind).map somewhere) = .ok js ∧
      js.map Item.bare = threeItems ∧ ∀ word, Item.unread word ∉ js := by
  have hbody : Derives (.level levels (.number 3)) [.openParen, .number 3, .closeParen] :=
    (Derives.group ((Derives.number 3).primary_level levels)).primary_level levels
  have hdeclares : ∀ i ∈ threeItems, i.Declares := by
    simpa [threeItems, BareItem.Declares] using ⟨_, hbody⟩
  have hcolors : ItemPhrase (.mtypes ["red"]) [.mtype, .assign, .openBrace, .ident "red", .closeBrace] :=
    .assigned (.single rfl)
  have hx : DeclaratorPhrase ⟨"x", some (.number 2), none⟩ [.ident "x", .openBracket, .number 2, .closeBracket] :=
    ⟨[], .none, rfl⟩
  have hy : DeclaratorPhrase ⟨"y", none, none⟩ [.ident "y"] := ⟨[], .none, rfl⟩
  have hvariables := ItemPhrase.globals (.scalar .byte) (.more hx (.single hy))
  rw [← map_kind_map_somewhere [.openParen, .number 3, .closeParen]] at hbody
  rw [← map_kind_map_somewhere [.mtype, .assign, .openBrace, .ident "red", .closeBrace]] at hcolors
  rw [← map_kind_map_somewhere (typeToken (.scalar .byte) :: _)] at hvariables
  have hmacro := Renders.define (.point "" .first) (.point "" .first) hbody
    (not_glued_somewhere "N" _) (.done [somewhere .eof])
  exact (items_of_renders threeItems hdeclares).2 _ _
    (.item hcolors (.semicolon _ (.item hvariables (.semicolon _ hmacro))))

end Surface
end Promela
