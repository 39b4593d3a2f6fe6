import Promela.Proofs.Surface.Grammar
import Promela.Surface.ItemParser

/-! Declarations as tokens. The assignment sign after `mtype`, the semicolon after the last field of a
typedef and those between declarations are free, fields of one type may share it, and a macro ends with
its line. Blocks and directives that are not read may stand between declarations. -/
namespace Promela
namespace Surface

/-- A size without its span. -/
inductive BareSize
  | number (value : Nat)
  | named (name : String)

structure BareField where
  type : TypeName
  name : String
  size : Option BareSize

inductive BareInitializer
  | value (e : BareExpr)
  | channel (capacity : BareSize) (fields : List TypeName)

structure BareDeclarator where
  name : String
  size : Option BareSize
  init : Option BareInitializer

/-- An item without its spans. Only what is not read keeps the place of its first word. -/
inductive BareItem
  | mtypes (names : List String)
  | record (name : String) (fields : List BareField)
  | globals (type : TypeName) (declarators : List BareDeclarator)
  | define (name : String) (body : BareExpr)
  | unread (word : Located String)

def Size.bare : Size → BareSize
  | .number n => .number n.value
  | .named n => .named n.value

def FieldDecl.bare (f : FieldDecl) : BareField := ⟨f.type.value, f.name.value, f.size.map Size.bare⟩

def Initializer.bare : Initializer → BareInitializer
  | .value e => .value e.bare
  | .channel n fields _ => .channel n.bare (fields.map (·.value))

def Declarator.bare (d : Declarator) : BareDeclarator :=
  ⟨d.name.value, d.size.map Size.bare, d.init.map Initializer.bare⟩

def Item.bare : Item → BareItem
  | .mtypes names => .mtypes (names.map (·.value))
  | .record name fields => .record name.value (fields.map FieldDecl.bare)
  | .globals type ds => .globals type.value (ds.map Declarator.bare)
  | .define name body => .define name.value body.bare
  | .unread word => .unread word

def BareItem.unread? : BareItem → Option (Located String)
  | .unread word => some word
  | _ => none

def typeToken : TypeName → TokenKind
  | .scalar .mtype => .mtype
  | .scalar .chan => .chan
  | .scalar t => .typeName t
  | .record r => .ident r

def BareSize.token : BareSize → TokenKind
  | .number n => .number n
  | .named n => .ident n

def sizeTokens : Option BareSize → List TokenKind
  | none => []
  | some n => [.openBracket, n.token, .closeBracket]

/-- One phrase or more, with commas between them. -/
inductive Listed {α : Type} (phrase : α → List TokenKind → Prop) : List α → List TokenKind → Prop
  | single {a : α} {us : List TokenKind} : phrase a us → Listed phrase [a] us
  | more {a : α} {as : List α} {us vs : List TokenKind} : phrase a us → Listed phrase as vs →
      Listed phrase (a :: as) (us ++ .comma :: vs)

def NamePhrase (name : String) (us : List TokenKind) : Prop := us = [.ident name]

def TypePhrase (type : TypeName) (us : List TokenKind) : Prop := us = [typeToken type]

/-- A field of a group of fields of one type. -/
def FieldPhrase (type : TypeName) (f : BareField) (us : List TokenKind) : Prop :=
  f.type = type ∧ us = .ident f.name :: sizeTokens f.size

/-- The fields of a typedef in groups. -/
inductive FieldsPhrase : List BareField → List TokenKind → Prop
  | none : FieldsPhrase [] []
  | last {type : TypeName} {fs : List BareField} {us : List TokenKind} :
      Listed (FieldPhrase type) fs us → FieldsPhrase fs (typeToken type :: us)
  | more {type : TypeName} {fs gs : List BareField} {us vs : List TokenKind} :
      Listed (FieldPhrase type) fs us → FieldsPhrase gs vs →
      FieldsPhrase (fs ++ gs) (typeToken type :: us ++ .semicolon :: vs)

inductive InitializerPhrase : Option BareInitializer → List TokenKind → Prop
  | none : InitializerPhrase none []
  | value {e : BareExpr} {us : List TokenKind} : Derives (.level levels e) us →
      InitializerPhrase (some (.value e)) (.assign :: us)
  | channel (capacity : BareSize) {fields : List TypeName} {us : List TokenKind} :
      Listed TypePhrase fields us →
      InitializerPhrase (some (.channel capacity fields))
        (.assign :: .openBracket :: capacity.token :: .closeBracket :: .of :: .openBrace :: us ++ [.closeBrace])

def DeclaratorPhrase (d : BareDeclarator) (us : List TokenKind) : Prop :=
  ∃ vs, InitializerPhrase d.init vs ∧ us = .ident d.name :: sizeTokens d.size ++ vs

/-- The tokens of a declaration that ends by itself. A semicolon behind it stands between declarations. -/
inductive ItemPhrase : BareItem → List TokenKind → Prop
  | mtypes {names : List String} {us : List TokenKind} : Listed NamePhrase names us →
      ItemPhrase (.mtypes names) (.mtype :: .openBrace :: us ++ [.closeBrace])
  | assigned {names : List String} {us : List TokenKind} : Listed NamePhrase names us →
      ItemPhrase (.mtypes names) (.mtype :: .assign :: .openBrace :: us ++ [.closeBrace])
  | record (name : String) {fs : List BareField} {us : List TokenKind} : FieldsPhrase fs us →
      ItemPhrase (.record name fs) (.typedef :: .ident name :: .openBrace :: us ++ [.closeBrace])
  | globals (type : TypeName) {ds : List BareDeclarator} {us : List TokenKind} :
      Listed DeclaratorPhrase ds us → ItemPhrase (.globals type ds) (typeToken type :: us)

/-- An initializer that can be spelled: its expression is one of the grammar, or a message has a field. -/
def BareInitializer.Spelled : BareInitializer → Prop
  | .value e => ∃ us, Derives (.level levels e) us
  | .channel _ fields => fields ≠ []

/-- A declaration that can be spelled: it names something, and its expressions are of the grammar. -/
def BareItem.Declares : BareItem → Prop
  | .mtypes names => names ≠ []
  | .record _ _ => True
  | .globals _ ds => ds ≠ [] ∧ ∀ d ∈ ds, ∀ init ∈ d.init, init.Spelled
  | .define _ e => ∃ us, Derives (.level levels e) us
  | .unread _ => False

theorem exists_listed {α : Type} {phrase : α → List TokenKind → Prop} {as : List α} (hne : as ≠ [])
    (h : ∀ a ∈ as, ∃ us, phrase a us) : ∃ us, Listed phrase as us := by
  induction as with
  | nil => exact absurd rfl hne
  | cons a as ih =>
    obtain ⟨us, hus⟩ := h a List.mem_cons_self
    cases as with
    | nil => exact ⟨us, .single hus⟩
    | cons b bs =>
      obtain ⟨vs, hvs⟩ := ih (List.cons_ne_nil b bs) fun c hc => h c (List.mem_cons_of_mem a hc)
      exact ⟨us ++ .comma :: vs, .more hus hvs⟩

/-- Each field may name its type again. -/
theorem exists_fieldsPhrase (fs : List BareField) : ∃ us, FieldsPhrase fs us := by
  induction fs with
  | nil => exact ⟨[], .none⟩
  | cons f fs ih =>
    obtain ⟨us, hus⟩ := ih
    have hf : FieldPhrase f.type f (.ident f.name :: sizeTokens f.size) := ⟨rfl, rfl⟩
    exact ⟨_, .more (.single hf) hus⟩

theorem exists_declaratorPhrase {d : BareDeclarator} (h : ∀ init ∈ d.init, init.Spelled) :
    ∃ us, DeclaratorPhrase d us := by
  obtain ⟨name, size, init⟩ := d
  have hinit : ∃ vs, InitializerPhrase init vs := by
    match init, h with
    | none, _ => exact ⟨[], .none⟩
    | some (.value e), h =>
      obtain ⟨us, hus⟩ := h _ rfl
      exact ⟨_, .value hus⟩
    | some (.channel n fields), h =>
      have htypes : ∀ type ∈ fields, ∃ us, TypePhrase type us := fun type _ => ⟨[typeToken type], rfl⟩
      obtain ⟨us, hus⟩ := exists_listed (h _ rfl) htypes
      exact ⟨_, .channel n hus⟩
  obtain ⟨vs, hvs⟩ := hinit
  exact ⟨_, vs, hvs, rfl⟩

/-- Every brace in the tokens has its partner among them. -/
inductive Balanced : List TokenKind → Prop
  | nil : Balanced []
  | token {k : TokenKind} {us : List TokenKind} : k ≠ .openBrace → k ≠ .closeBrace → k ≠ .eof →
      Balanced us → Balanced (k :: us)
  | braces {us vs : List TokenKind} : Balanced us → Balanced vs →
      Balanced (.openBrace :: us ++ .closeBrace :: vs)

/-- Tokens without braces, and then a block in braces. -/
inductive Block : List TokenKind → Prop
  | body {us : List TokenKind} : Balanced us → Block (.openBrace :: us ++ [.closeBrace])
  | head {k : TokenKind} {us : List TokenKind} : k ≠ .openBrace → k ≠ .closeBrace → k ≠ .eof →
      Block us → Block (k :: us)

/-- A parenthesis stands right behind the name. -/
def Glued (name : Located String) (us : List Token) : Prop :=
  ∃ s vs, us = ⟨.openParen, s⟩ :: vs ∧ s.start = ⟨name.span.stop.line, name.span.stop.column + 1⟩

/-- The tokens are the items, with any number of semicolons between them, and then `rest`. -/
inductive Renders : List BareItem → List Token → List Token → Prop
  | done (rest : List Token) : Renders [] rest rest
  | semicolon (s : Span) {is : List BareItem} {ts rest : List Token} : Renders is ts rest →
      Renders is (⟨.semicolon, s⟩ :: ts) rest
  | item {i : BareItem} {is : List BareItem} {us ts rest : List Token} :
      ItemPhrase i (us.map Token.kind) → Renders is ts rest → Renders (i :: is) (us ++ ts) rest
  | define (s s' : Span) {name : Located String} {e : BareExpr} {is : List BareItem}
      {us ts rest : List Token} : Derives (.level levels e) (us.map Token.kind) → ¬Glued name us →
      Renders is ts rest →
      Renders (.define name.value e :: is)
        (⟨.define, s⟩ :: ⟨.ident name.value, name.span⟩ :: us ++ ⟨.newline, s'⟩ :: ts) rest
  | lastDefine (s s' : Span) {name : Located String} {e : BareExpr} {us : List Token} (rest : List Token) :
      Derives (.level levels e) (us.map Token.kind) → ¬Glued name us →
      Renders [.define name.value e]
        (⟨.define, s⟩ :: ⟨.ident name.value, name.span⟩ :: us ++ ⟨.eof, s'⟩ :: rest) (⟨.eof, s'⟩ :: rest)
  | directive (word : Located String) (s : Span) {is : List BareItem} {ts rest : List Token} :
      Renders is ts rest →
      Renders (.unread word :: is) (⟨.directive word.value, word.span⟩ :: ⟨.newline, s⟩ :: ts) rest
  | lastDirective (word : Located String) (s : Span) (rest : List Token) :
      Renders [.unread word] (⟨.directive word.value, word.span⟩ :: ⟨.eof, s⟩ :: rest) (⟨.eof, s⟩ :: rest)
  | block (word : Located String) {is : List BareItem} {us ts rest : List Token} :
      Block (us.map Token.kind) → Renders is ts rest →
      Renders (.unread word :: is) (⟨.unread word.value, word.span⟩ :: us ++ ts) rest

end Surface
end Promela
