import Promela.Surface.ExprParser

/-! Reading declarations. Semicolons after a declaration and between declarations are free; what is not
read is skipped as one item. -/
namespace Promela
namespace Surface

/-- One name or more, with commas between them. -/
def names (what : String) (ts : List Token) : Parse (List (Located String)) ts := do
  let ⟨n, ts₁, h₁⟩ ← ident what ts
  match ts₁, h₁ with
  | ⟨.comma, _⟩ :: ts₂, h₁ => do
    have h₂ : ts₂.length < ts.length := Nat.lt_of_succ_lt h₁
    let ⟨ns, ts₃, h₃⟩ ← names what ts₂
    pure ⟨n :: ns, ts₃, by omega⟩
  | ts₁, h₁ => pure ⟨[n], ts₁, h₁⟩
termination_by ts.length

def typeName : (ts : List Token) → Parse (Located TypeName) ts
  | ⟨.typeName t, s⟩ :: rest => pure ⟨⟨.scalar t, s⟩, rest, length_lt_succ _⟩
  | ⟨.mtype, s⟩ :: rest => pure ⟨⟨.scalar .mtype, s⟩, rest, length_lt_succ _⟩
  | ⟨.chan, s⟩ :: rest => pure ⟨⟨.scalar .chan, s⟩, rest, length_lt_succ _⟩
  | ⟨.ident n, s⟩ :: rest => pure ⟨⟨.record n, s⟩, rest, length_lt_succ _⟩
  | ts => .error (unexpected "type" ts)

def typeNames (ts : List Token) : Parse (List (Located TypeName)) ts := do
  let ⟨t, ts₁, h₁⟩ ← typeName ts
  match ts₁, h₁ with
  | ⟨.comma, _⟩ :: ts₂, h₁ => do
    have h₂ : ts₂.length < ts.length := Nat.lt_of_succ_lt h₁
    let ⟨us, ts₃, h₃⟩ ← typeNames ts₂
    pure ⟨t :: us, ts₃, by omega⟩
  | ts₁, h₁ => pure ⟨[t], ts₁, h₁⟩
termination_by ts.length

def sizeValue : (ts : List Token) → Parse Size ts
  | ⟨.number n, s⟩ :: rest => pure ⟨.number ⟨n, s⟩, rest, length_lt_succ _⟩
  | ⟨.ident n, s⟩ :: rest => pure ⟨.named ⟨n, s⟩, rest, length_lt_succ _⟩
  | ts => .error (unexpected "size" ts)

/-- A size and the bracket that closes it. -/
def size (ts : List Token) : Parse Size ts := do
  let ⟨n, ts₁, h₁⟩ ← sizeValue ts
  let ⟨_, ts₂, h₂⟩ ← expect .closeBracket "']' after size" ts₁
  pure ⟨n, ts₂, by omega⟩

def arraySize : (ts : List Token) → ParseMany (Option Size) ts
  | ⟨.openBracket, _⟩ :: rest => do
    let ⟨n, ts₁, h₁⟩ ← size rest
    pure ⟨some n, ts₁, length_lt_add_two h₁⟩
  | ts => pure ⟨none, ts, length_lt_succ _⟩

/-- The fields of one type, with commas between them. -/
def fields (type : Located TypeName) (ts : List Token) : Parse (List FieldDecl) ts := do
  let ⟨n, ts₁, h₁⟩ ← ident "field name" ts
  let ⟨size, ts₂, h₂⟩ ← arraySize ts₁
  match ts₂, h₂ with
  | ⟨.comma, _⟩ :: ts₃, h₂ => do
    have h₃ : ts₃.length < ts.length := by simp only [List.length_cons] at h₂; omega
    let ⟨fs, ts₄, h₄⟩ ← fields type ts₃
    pure ⟨⟨type, n, size⟩ :: fs, ts₄, by omega⟩
  | ts₂, h₂ => pure ⟨[⟨type, n, size⟩], ts₂, by omega⟩
termination_by ts.length

/-- Groups of fields up to the closing brace. The last semicolon may be missing. -/
def fieldGroups (ts : List Token) : ParseMany (List FieldDecl) ts :=
  match ts with
  | ⟨.closeBrace, s⟩ :: rest => pure ⟨[], ⟨.closeBrace, s⟩ :: rest, length_lt_succ _⟩
  | ts => do
    let ⟨type, ts₁, h₁⟩ ← typeName ts
    let ⟨fs, ts₂, h₂⟩ ← fields type ts₁
    match ts₂, h₂ with
    | ⟨.semicolon, _⟩ :: ts₃, h₂ => do
      have h₃ : ts₃.length < ts.length := by simp only [List.length_cons] at h₂; omega
      let ⟨gs, ts₄, h₄⟩ ← fieldGroups ts₃
      pure ⟨fs ++ gs, ts₄, by omega⟩
    | ⟨.closeBrace, s⟩ :: rest, h₂ => pure ⟨fs, ⟨.closeBrace, s⟩ :: rest, by omega⟩
    | ts₂, _ => .error (unexpected "';' after field" ts₂)
termination_by ts.length

def initializer : (ts : List Token) → Parse Initializer ts
  | [] => .error (unexpected "initializer" [])
  | ⟨.openBracket, s⟩ :: rest => do
    let ⟨capacity, ts₁, h₁⟩ ← size rest
    let ⟨_, ts₂, h₂⟩ ← expect .of "'of' after channel capacity" ts₁
    let ⟨_, ts₃, h₃⟩ ← expect .openBrace "'\x7b' for message fields" ts₂
    let ⟨fields, ts₄, h₄⟩ ← typeNames ts₃
    let ⟨close, ts₅, h₅⟩ ← expect .closeBrace "'\x7d' to close message fields" ts₄
    pure ⟨.channel capacity fields (s.through close), ts₅, by simp only [List.length_cons]; omega⟩
  | t :: rest => do
    let ⟨e, ts₁, h₁⟩ ← binary levels (t :: rest)
    pure ⟨.value e, ts₁, h₁⟩

def optionalInitializer : (ts : List Token) → ParseMany (Option Initializer) ts
  | ⟨.assign, _⟩ :: rest => do
    let ⟨i, ts₁, h₁⟩ ← initializer rest
    pure ⟨some i, ts₁, length_lt_add_two h₁⟩
  | ts => pure ⟨none, ts, length_lt_succ _⟩

/-- One variable or more, with commas between them. -/
def declarators (ts : List Token) : Parse (List Declarator) ts := do
  let ⟨n, ts₁, h₁⟩ ← ident "variable name" ts
  let ⟨size, ts₂, h₂⟩ ← arraySize ts₁
  let ⟨init, ts₃, h₃⟩ ← optionalInitializer ts₂
  match ts₃, h₃ with
  | ⟨.comma, _⟩ :: ts₄, h₃ => do
    have h₄ : ts₄.length < ts.length := by simp only [List.length_cons] at h₃; omega
    let ⟨ds, ts₅, h₅⟩ ← declarators ts₄
    pure ⟨⟨n, size, init⟩ :: ds, ts₅, by omega⟩
  | ts₃, h₃ => pure ⟨[⟨n, size, init⟩], ts₃, by omega⟩
termination_by ts.length

def globals (ts : List Token) : Parse Item ts := do
  let ⟨type, ts₁, h₁⟩ ← typeName ts
  let ⟨ds, ts₂, h₂⟩ ← declarators ts₁
  have h₃ := length_skip_le .semicolon ts₂
  pure ⟨.globals type ds, skip .semicolon ts₂, by omega⟩

/-- The constants that follow the keyword `mtype`. -/
def mtypes (ts : List Token) : Parse Item ts := do
  have h₀ := length_skip_le .assign ts
  let ⟨_, ts₁, h₁⟩ ← expect .openBrace "'\x7b' after mtype" (skip .assign ts)
  let ⟨ns, ts₂, h₂⟩ ← names "mtype constant" ts₁
  let ⟨_, ts₃, h₃⟩ ← expect .closeBrace "'\x7d' to close mtype declaration" ts₂
  have h₄ := length_skip_le .semicolon ts₃
  pure ⟨.mtypes ns, skip .semicolon ts₃, by omega⟩

/-- What follows the keyword `typedef`. -/
def record (ts : List Token) : Parse Item ts := do
  let ⟨n, ts₁, h₁⟩ ← ident "typedef name" ts
  let ⟨_, ts₂, h₂⟩ ← expect .openBrace "'\x7b' after typedef name" ts₁
  let ⟨fs, ts₃, h₃⟩ ← fieldGroups ts₂
  let ⟨_, ts₄, h₄⟩ ← expect .closeBrace "'\x7d' to close typedef" ts₃
  have h₅ := length_skip_le .semicolon ts₄
  pure ⟨.record n fs, skip .semicolon ts₄, by omega⟩

/-- Refuses a parenthesis that stands right behind the name and so opens a parameter list. -/
def notParameterized (name : Located String) : List Token → Except Rejection Unit
  | ⟨.openParen, s⟩ :: _ =>
    if s.start = ⟨name.span.stop.line, name.span.stop.column + 1⟩ then
      .error (.ofUnread (.parameterizedDefine name.value) s)
    else pure ()
  | _ => pure ()

def lineEnd : (ts : List Token) → ParseMany Unit ts
  | ⟨.newline, _⟩ :: rest => pure ⟨(), rest, Nat.lt_succ_of_le (Nat.le_succ _)⟩
  | ⟨.eof, s⟩ :: rest => pure ⟨(), ⟨.eof, s⟩ :: rest, length_lt_succ _⟩
  | ts => .error (unexpected "end of line" ts)

/-- What follows `#define`, up to the end of the line. -/
def define (ts : List Token) : Parse Item ts := do
  let ⟨n, ts₁, h₁⟩ ← ident "macro name after #define" ts
  notParameterized n ts₁
  let ⟨e, ts₂, h₂⟩ ← binary levels ts₁
  let ⟨_, ts₃, h₃⟩ ← lineEnd ts₂
  pure ⟨.define n e, ts₃, by omega⟩

/-- What is left from the end of the line on. The end of the list stops the search as well, where a search for
`newline` and `eof` alone would run past it. No text leads there: its tokens end with `eof`, which no reader
takes (`Ahead` in `Proofs.Surface.Advance`). -/
def skipLine : List Token → List Token
  | [] => []
  | t :: rest => if t.kind = .newline ∨ t.kind = .eof then t :: rest else skipLine rest

/-- What is left after the next block in braces. -/
def skipBlock (depth : Nat) : List Token → List Token
  | [] => []
  | t :: rest =>
    match t.kind with
    | .eof => t :: rest
    | .openBrace => skipBlock (depth + 1) rest
    | .closeBrace => if depth = 1 then rest else skipBlock (depth - 1) rest
    | _ => skipBlock depth rest

theorem length_skipLine_le (ts : List Token) : (skipLine ts).length ≤ ts.length := by
  induction ts with
  | nil => simp [skipLine]
  | cons t ts ih =>
    simp only [skipLine]
    split
    · exact Nat.le_refl _
    · exact Nat.le_succ_of_le ih

theorem length_skipBlock_le (depth : Nat) (ts : List Token) :
    (skipBlock depth ts).length ≤ ts.length := by
  induction ts generalizing depth with
  | nil => simp [skipBlock]
  | cons t ts ih =>
    have h := ih depth
    have h₁ := ih (depth + 1)
    have h₂ := ih (depth - 1)
    simp only [skipBlock]
    split
    · simp
    · simp; omega
    · split <;> simp; omega
    · simp; omega

/-- Whether `mtype` before these tokens opens a list of constants and is not a type. -/
def opensMtypes : List Token → Bool
  | ⟨.assign, _⟩ :: _ | ⟨.openBrace, _⟩ :: _ => true
  | _ => false

def item : (ts : List Token) → Parse Item ts
  | ⟨.mtype, s⟩ :: rest =>
    if opensMtypes rest then (mtypes rest).map (·.within (Nat.le_succ _))
    else globals (⟨.mtype, s⟩ :: rest)
  | ⟨.typedef, _⟩ :: rest => (record rest).map (·.within (Nat.le_succ _))
  | ⟨.define, _⟩ :: rest => (define rest).map (·.within (Nat.le_succ _))
  | ⟨.directive w, s⟩ :: rest =>
    pure ⟨.unread ⟨w, s⟩, skipLine rest, Nat.lt_succ_of_le (length_skipLine_le rest)⟩
  | ⟨.unread w, s⟩ :: rest =>
    pure ⟨.unread ⟨w, s⟩, skipBlock 0 rest, Nat.lt_succ_of_le (length_skipBlock_le 0 rest)⟩
  | ⟨.chan, s⟩ :: rest => globals (⟨.chan, s⟩ :: rest)
  | ⟨.typeName t, s⟩ :: rest => globals (⟨.typeName t, s⟩ :: rest)
  | ⟨.ident n, s⟩ :: ⟨.ident m, r⟩ :: rest => globals (⟨.ident n, s⟩ :: ⟨.ident m, r⟩ :: rest)
  | ts => .error (unexpected "a declaration" ts)

/-- All items up to the end of the text. -/
def items (ts : List Token) : Except Rejection (List Item) :=
  match ts with
  | [] => pure []
  | ⟨.eof, _⟩ :: _ => pure []
  | ⟨.semicolon, _⟩ :: rest => items rest
  | ⟨.newline, _⟩ :: rest => items rest
  | ts => do
    let ⟨i, ts₁, _⟩ ← item ts
    let is ← items ts₁
    pure (i :: is)
termination_by ts.length

end Surface
end Promela
