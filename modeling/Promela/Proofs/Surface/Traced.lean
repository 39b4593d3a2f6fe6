import Promela.Surface.ItemParser

/-! The readers with a record of their calls. Each reader is the one that records nothing, with its name and
the tokens in front of it noted on the way in; what it returns is what that one returns. -/
namespace Promela
namespace Surface

/-- A reader, or a loop that goes on with itself. Binary operators have one for each level. -/
inductive Phase
  | items | item | mtypes | record | define | globals
  | names | typeNames | fields | fieldGroups | declarators | size | arraySize | initializer | optionalInitializer
  | binary (level : Nat) | chain (level : Nat) | unary | prefixed | primary | reference | member | arguments
  | skipLine | skipBlock | lineEnd
  /-- A single token of some kind is read. -/
  | token
deriving DecidableEq

/-- A reader is called, or a loop goes on, with these tokens left. -/
structure Visit where
  phase : Phase
  rest : List Token

/-- What is read, and all calls that were made. Each is noted with the calls around it, the outermost first. -/
structure Traced (α : Type) where
  outcome : Except Rejection α
  calls : List (List Visit)

/-! ### How many tokens are left -/

section

variable {kind : TokenKind} {ts us vs : List Token}

theorem length_le_succ (ts : List Token) : ts.length ≤ ts.length + 1 := Nat.le_succ _

theorem length_lt_self_add_two (ts : List Token) : ts.length < ts.length + 1 + 1 := by omega

theorem length_lt_trans (h : vs.length < us.length) (h' : us.length < ts.length) : vs.length < ts.length := by omega

theorem length_lt_of_lt_succ (h : vs.length < us.length + 1) (h' : us.length < ts.length) :
    vs.length < ts.length := by omega

theorem length_lt_succ_of_lt (h : us.length < ts.length) : us.length < ts.length + 1 := by omega

theorem length_lt_add_two_of_lt_succ (h : us.length < ts.length + 1) : us.length < ts.length + 1 + 1 := by omega

/-- What follows a token. -/
theorem length_lt_of_succ_lt (h : us.length + 1 < ts.length) : us.length < ts.length := by omega

theorem length_lt_of_succ_lt_succ (h : us.length + 1 < ts.length + 1) : us.length < ts.length := by omega

theorem length_lt_of_add_two_lt_succ (h : us.length + 1 + 1 < ts.length + 1) : us.length < ts.length := by omega

theorem length_succ_lt_succ (h : vs.length + 1 < us.length) (h' : us.length < ts.length) :
    vs.length + 1 < ts.length + 1 := by omega

theorem length_skip_lt (kind : TokenKind) (h : us.length < ts.length) : (skip kind us).length < ts.length :=
  Nat.lt_of_le_of_lt (length_skip_le kind us) h

theorem length_lt_of_lt_skip (h : us.length < (skip kind ts).length) : us.length < ts.length :=
  Nat.lt_of_lt_of_le h (length_skip_le kind ts)

end

namespace Traced

variable {α β : Type}

instance : Monad Traced where
  pure a := ⟨.ok a, []⟩
  bind x f :=
    match x.outcome with
    | .ok a => ⟨(f a).outcome, x.calls ++ (f a).calls⟩
    | .error r => ⟨.error r, x.calls⟩

/-- A refusal, or a check that reads no token. -/
def lift (r : Except Rejection α) : Traced α := ⟨r, []⟩

/-- The calls of the body are made inside this one. -/
def enter (phase : Phase) (ts : List Token) (body : Traced α) : Traced α :=
  ⟨body.outcome, [⟨phase, ts⟩] :: body.calls.map (⟨phase, ts⟩ :: ·)⟩

/-- A single token is read. -/
def token (ts : List Token) (r : Except Rejection α) : Traced α := enter .token ts (lift r)

mutual

def binary (n : Nat) (ts : List Token) : Traced (Parsed Expr ts.length) :=
  enter (.binary n) ts <|
    match n with
    | 0 => unary ts
    | n + 1 => do
      let ⟨left, ts₁, h₁⟩ ← binary n ts
      let ⟨e, ts₂, h₂⟩ ← chain n left ts₁
      pure ⟨e, ts₂, length_lt_of_lt_succ h₂ h₁⟩
termination_by (ts.length, n + 2)

def chain (n : Nat) (left : Expr) (ts : List Token) : Traced (Parsed Expr (ts.length + 1)) :=
  enter (.chain n) ts <|
    match ts with
    | ⟨.binary op, s⟩ :: rest =>
      if op.looseness = n then do
        let ⟨right, ts₁, h₁⟩ ← binary n rest
        let ⟨e, ts₂, h₂⟩ ← chain n (.binary (left.span.through right.span) op left right) ts₁
        have h₂ := length_lt_of_lt_succ h₂ h₁
        pure ⟨e, ts₂, length_lt_add_two h₂⟩
      else pure ⟨left, ⟨.binary op, s⟩ :: rest, length_lt_succ _⟩
    | ts => pure ⟨left, ts, length_lt_succ _⟩
termination_by (ts.length, 0)

def unary (ts : List Token) : Traced (Parsed Expr ts.length) :=
  enter .unary ts <|
    match ts with
    | ⟨.bang, s⟩ :: rest => prefixed .not s rest
    | ⟨.binary .sub, s⟩ :: rest => prefixed .neg s rest
    | ⟨.tilde, s⟩ :: rest => prefixed .bitNot s rest
    | ts => primary ts
termination_by (ts.length, 1)

def prefixed (op : UnaryOp) (s : Span) (ts : List Token) : Traced (Parsed Expr (ts.length + 1)) :=
  enter .prefixed ts do
    let ⟨e, ts₁, h₁⟩ ← unary ts
    pure ⟨.unary (s.through e.span) op e, ts₁, length_lt_succ_of_lt h₁⟩
termination_by (ts.length, 2)

def primary (ts : List Token) : Traced (Parsed Expr ts.length) :=
  enter .primary ts <|
    match ts with
    | ⟨.number n, s⟩ :: rest => pure ⟨.number s n, rest, length_lt_succ _⟩
    | ⟨.truth b, s⟩ :: rest => pure ⟨.truth s b, rest, length_lt_succ _⟩
    | ⟨.skip, s⟩ :: rest => pure ⟨.number s 1, rest, length_lt_succ _⟩
    | ⟨.openParen, s⟩ :: rest => do
      let ⟨e, ts₁, h₁⟩ ← binary levels rest
      match ts₁, h₁ with
      | ⟨.arrow, _⟩ :: ts₂, h₁ => do
        have h₂ : ts₂.length < rest.length := length_lt_of_succ_lt h₁
        let ⟨a, ts₃, h₃⟩ ← binary levels ts₂
        let ⟨_, ts₄, h₄⟩ ← token ts₃ (expect .colon "':' in conditional expression" ts₃)
        let ⟨b, ts₅, h₅⟩ ← binary levels ts₄
        let ⟨close, ts₆, h₆⟩ ← token ts₅ (expect .closeParen "')' to close conditional" ts₅)
        have h₃ := length_lt_trans h₃ h₂
        have h₄ := length_lt_trans h₄ h₃
        have h₅ := length_lt_trans h₅ h₄
        have h₆ := length_lt_trans h₆ h₅
        pure ⟨.ternary (s.through close) e a b, ts₆, length_lt_succ_of_lt h₆⟩
      | ts₁, h₁ => do
        let ⟨close, ts₂, h₂⟩ ← token ts₁ (expect .closeParen "')'" ts₁)
        have h₂ := length_lt_trans h₂ h₁
        pure ⟨e.withSpan (s.through close), ts₂, length_lt_succ_of_lt h₂⟩
    | ⟨.query op, s⟩ :: rest => do
      let ⟨_, ts₁, h₁⟩ ← token rest (expect .openParen "'(' after channel operator" rest)
      let ⟨e, ts₂, h₂⟩ ← binary levels ts₁
      let ⟨close, ts₃, h₃⟩ ← token ts₂ (expect .closeParen "')'" ts₂)
      have h₂ := length_lt_trans h₂ h₁
      have h₃ := length_lt_trans h₃ h₂
      pure ⟨.query (s.through close) op e, ts₃, length_lt_succ_of_lt h₃⟩
    | ⟨.eval, s⟩ :: rest => do
      let ⟨_, ts₁, h₁⟩ ← token rest (expect .openParen "'(' after eval" rest)
      let ⟨e, ts₂, h₂⟩ ← binary levels ts₁
      let ⟨close, ts₃, h₃⟩ ← token ts₂ (expect .closeParen "')'" ts₂)
      have h₂ := length_lt_trans h₂ h₁
      have h₃ := length_lt_trans h₃ h₂
      pure ⟨.eval (s.through close) e, ts₃, length_lt_succ_of_lt h₃⟩
    | ⟨.ident name, s⟩ :: rest => do
      let ⟨(r, stop), ts₁, h₁⟩ ← reference ⟨name, s⟩ rest
      let e := Expr.reference (s.through stop) r
      match ts₁, h₁ with
      | ⟨.question, _⟩ :: ⟨.openBracket, _⟩ :: ts₂, h₁ => do
        have h₂ : ts₂.length < rest.length := length_lt_of_add_two_lt_succ h₁
        let ⟨args, ts₃, h₃⟩ ← arguments ts₂
        let ⟨close, ts₄, h₄⟩ ← token ts₃ (expect .closeBracket "']' to close poll" ts₃)
        have h₃ := length_lt_trans h₃ h₂
        have h₄ := length_lt_trans h₄ h₃
        pure ⟨.poll (s.through close) e args, ts₄, length_lt_succ_of_lt h₄⟩
      | ts₁, h₁ => pure ⟨e, ts₁, h₁⟩
    | ts => lift (.error (unexpected "expression" ts))
termination_by (ts.length, 0)

def reference (name : Located String) (ts : List Token) : Traced (Parsed (Reference × Span) (ts.length + 1)) :=
  enter .reference ts <|
    match ts with
    | ⟨.openBracket, _⟩ :: rest => do
      let ⟨i, ts₁, h₁⟩ ← binary levels rest
      let ⟨close, ts₂, h₂⟩ ← token ts₁ (expect .closeBracket "']' after index" ts₁)
      let ⟨r, ts₃, h₃⟩ ← member name (some i) close ts₂
      have h₂ := length_lt_trans h₂ h₁
      have h₃ := length_lt_of_lt_succ h₃ h₂
      pure ⟨r, ts₃, length_lt_add_two h₃⟩
    | ts => member name none name.span ts
termination_by (ts.length, 1)

def member (name : Located String) (index : Option Expr) (stop : Span) (ts : List Token) :
    Traced (Parsed (Reference × Span) (ts.length + 1)) :=
  enter .member ts <|
    match ts with
    | ⟨.dot, _⟩ :: rest => do
      let ⟨f, ts₁, h₁⟩ ← token rest (ident "field name" rest)
      let ⟨(r, stop), ts₂, h₂⟩ ← reference f ts₁
      have h₂ := length_lt_of_lt_succ h₂ h₁
      pure ⟨(.field name index r, stop), ts₂, length_lt_add_two h₂⟩
    | ts => pure ⟨(.leaf name index, stop), ts, length_lt_succ _⟩
termination_by (ts.length, 0)

def arguments (ts : List Token) : Traced (Parsed (List Expr) ts.length) :=
  enter .arguments ts do
    let ⟨e, ts₁, h₁⟩ ← binary levels ts
    match ts₁, h₁ with
    | ⟨.comma, _⟩ :: ts₂, h₁ => do
      have h₂ : ts₂.length < ts.length := length_lt_of_succ_lt h₁
      let ⟨es, ts₃, h₃⟩ ← arguments ts₂
      pure ⟨e :: es, ts₃, length_lt_trans h₃ h₂⟩
    | ts₁, h₁ => pure ⟨[e], ts₁, h₁⟩
termination_by (ts.length, levels + 3)

end

def names (what : String) (ts : List Token) : Traced (Parsed (List (Located String)) ts.length) :=
  enter .names ts do
    let ⟨n, ts₁, h₁⟩ ← token ts (ident what ts)
    match ts₁, h₁ with
    | ⟨.comma, _⟩ :: ts₂, h₁ => do
      have h₂ : ts₂.length < ts.length := length_lt_of_succ_lt h₁
      let ⟨ns, ts₃, h₃⟩ ← names what ts₂
      pure ⟨n :: ns, ts₃, length_lt_trans h₃ h₂⟩
    | ts₁, h₁ => pure ⟨[n], ts₁, h₁⟩
termination_by ts.length

def typeNames (ts : List Token) : Traced (Parsed (List (Located TypeName)) ts.length) :=
  enter .typeNames ts do
    let ⟨t, ts₁, h₁⟩ ← token ts (typeName ts)
    match ts₁, h₁ with
    | ⟨.comma, _⟩ :: ts₂, h₁ => do
      have h₂ : ts₂.length < ts.length := length_lt_of_succ_lt h₁
      let ⟨us, ts₃, h₃⟩ ← typeNames ts₂
      pure ⟨t :: us, ts₃, length_lt_trans h₃ h₂⟩
    | ts₁, h₁ => pure ⟨[t], ts₁, h₁⟩
termination_by ts.length

def size (ts : List Token) : Traced (Parsed Size ts.length) :=
  enter .size ts do
    let ⟨n, ts₁, h₁⟩ ← token ts (sizeValue ts)
    let ⟨_, ts₂, h₂⟩ ← token ts₁ (expect .closeBracket "']' after size" ts₁)
    pure ⟨n, ts₂, length_lt_trans h₂ h₁⟩

def arraySize (ts : List Token) : Traced (Parsed (Option Size) (ts.length + 1)) :=
  enter .arraySize ts <|
    match ts with
    | ⟨.openBracket, _⟩ :: rest => do
      let ⟨n, ts₁, h₁⟩ ← size rest
      pure ⟨some n, ts₁, length_lt_add_two h₁⟩
    | ts => pure ⟨none, ts, length_lt_succ _⟩

def fields (type : Located TypeName) (ts : List Token) : Traced (Parsed (List FieldDecl) ts.length) :=
  enter .fields ts do
    let ⟨n, ts₁, h₁⟩ ← token ts (ident "field name" ts)
    let ⟨size, ts₂, h₂⟩ ← arraySize ts₁
    match ts₂, h₂ with
    | ⟨.comma, _⟩ :: ts₃, h₂ => do
      have h₃ : ts₃.length < ts₁.length := length_lt_of_succ_lt_succ h₂
      have h₃ := length_lt_trans h₃ h₁
      let ⟨fs, ts₄, h₄⟩ ← fields type ts₃
      pure ⟨⟨type, n, size⟩ :: fs, ts₄, length_lt_trans h₄ h₃⟩
    | ts₂, h₂ => pure ⟨[⟨type, n, size⟩], ts₂, length_lt_of_lt_succ h₂ h₁⟩
termination_by ts.length

def fieldGroups (ts : List Token) : Traced (Parsed (List FieldDecl) (ts.length + 1)) :=
  enter .fieldGroups ts <|
    match ts with
    | ⟨.closeBrace, s⟩ :: rest => pure ⟨[], ⟨.closeBrace, s⟩ :: rest, length_lt_succ _⟩
    | ts => do
      let ⟨type, ts₁, h₁⟩ ← token ts (typeName ts)
      let ⟨fs, ts₂, h₂⟩ ← fields type ts₁
      match ts₂, h₂ with
      | ⟨.semicolon, _⟩ :: ts₃, h₂ => do
        have h₃ : ts₃.length < ts₁.length := length_lt_of_succ_lt h₂
        have h₃ := length_lt_trans h₃ h₁
        let ⟨gs, ts₄, h₄⟩ ← fieldGroups ts₃
        have h₄ := length_lt_of_lt_succ h₄ h₃
        pure ⟨fs ++ gs, ts₄, length_lt_succ_of_lt h₄⟩
      | ⟨.closeBrace, s⟩ :: rest, h₂ => pure ⟨fs, ⟨.closeBrace, s⟩ :: rest, length_succ_lt_succ h₂ h₁⟩
      | ts₂, _ => lift (.error (unexpected "';' after field" ts₂))
termination_by ts.length

def initializer (ts : List Token) : Traced (Parsed Initializer ts.length) :=
  enter .initializer ts <|
    match ts with
    | [] => lift (.error (unexpected "initializer" []))
    | ⟨.openBracket, s⟩ :: rest => do
      let ⟨capacity, ts₁, h₁⟩ ← size rest
      let ⟨_, ts₂, h₂⟩ ← token ts₁ (expect .of "'of' after channel capacity" ts₁)
      let ⟨_, ts₃, h₃⟩ ← token ts₂ (expect .openBrace "'\x7b' for message fields" ts₂)
      let ⟨fields, ts₄, h₄⟩ ← typeNames ts₃
      let ⟨close, ts₅, h₅⟩ ← token ts₄ (expect .closeBrace "'\x7d' to close message fields" ts₄)
      have h₂ := length_lt_trans h₂ h₁
      have h₃ := length_lt_trans h₃ h₂
      have h₄ := length_lt_trans h₄ h₃
      have h₅ := length_lt_trans h₅ h₄
      pure ⟨.channel capacity fields (s.through close), ts₅, length_lt_succ_of_lt h₅⟩
    | t :: rest => do
      let ⟨e, ts₁, h₁⟩ ← binary levels (t :: rest)
      pure ⟨.value e, ts₁, h₁⟩

def optionalInitializer (ts : List Token) : Traced (Parsed (Option Initializer) (ts.length + 1)) :=
  enter .optionalInitializer ts <|
    match ts with
    | ⟨.assign, _⟩ :: rest => do
      let ⟨i, ts₁, h₁⟩ ← initializer rest
      pure ⟨some i, ts₁, length_lt_add_two h₁⟩
    | ts => pure ⟨none, ts, length_lt_succ _⟩

def declarators (ts : List Token) : Traced (Parsed (List Declarator) ts.length) :=
  enter .declarators ts do
    let ⟨n, ts₁, h₁⟩ ← token ts (ident "variable name" ts)
    let ⟨size, ts₂, h₂⟩ ← arraySize ts₁
    have h₂ := length_lt_of_lt_succ h₂ h₁
    let ⟨init, ts₃, h₃⟩ ← optionalInitializer ts₂
    match ts₃, h₃ with
    | ⟨.comma, _⟩ :: ts₄, h₃ => do
      have h₄ : ts₄.length < ts₂.length := length_lt_of_succ_lt_succ h₃
      have h₄ := length_lt_trans h₄ h₂
      let ⟨ds, ts₅, h₅⟩ ← declarators ts₄
      pure ⟨⟨n, size, init⟩ :: ds, ts₅, length_lt_trans h₅ h₄⟩
    | ts₃, h₃ => pure ⟨[⟨n, size, init⟩], ts₃, length_lt_of_lt_succ h₃ h₂⟩
termination_by ts.length

def globals (ts : List Token) : Traced (Parsed Item ts.length) :=
  enter .globals ts do
    let ⟨type, ts₁, h₁⟩ ← token ts (typeName ts)
    let ⟨ds, ts₂, h₂⟩ ← declarators ts₁
    have h₂ := length_lt_trans h₂ h₁
    pure ⟨.globals type ds, Surface.skip .semicolon ts₂, length_skip_lt .semicolon h₂⟩

def mtypes (ts : List Token) : Traced (Parsed Item ts.length) :=
  enter .mtypes ts do
    let ⟨_, ts₁, h₁⟩ ← token (skip .assign ts) (expect .openBrace "'\x7b' after mtype" (skip .assign ts))
    let ⟨ns, ts₂, h₂⟩ ← names "mtype constant" ts₁
    let ⟨_, ts₃, h₃⟩ ← token ts₂ (expect .closeBrace "'\x7d' to close mtype declaration" ts₂)
    have h₁ := length_lt_of_lt_skip h₁
    have h₂ := length_lt_trans h₂ h₁
    have h₃ := length_lt_trans h₃ h₂
    pure ⟨.mtypes ns, skip .semicolon ts₃, length_skip_lt .semicolon h₃⟩

def record (ts : List Token) : Traced (Parsed Item ts.length) :=
  enter .record ts do
    let ⟨n, ts₁, h₁⟩ ← token ts (ident "typedef name" ts)
    let ⟨_, ts₂, h₂⟩ ← token ts₁ (expect .openBrace "'\x7b' after typedef name" ts₁)
    let ⟨fs, ts₃, h₃⟩ ← fieldGroups ts₂
    let ⟨_, ts₄, h₄⟩ ← token ts₃ (expect .closeBrace "'\x7d' to close typedef" ts₃)
    have h₂ := length_lt_trans h₂ h₁
    have h₃ := length_lt_of_lt_succ h₃ h₂
    have h₄ := length_lt_trans h₄ h₃
    pure ⟨.record n fs, skip .semicolon ts₄, length_skip_lt .semicolon h₄⟩

def lineEnd (ts : List Token) : Traced (Parsed Unit (ts.length + 1)) := enter .lineEnd ts (lift (Surface.lineEnd ts))

def define (ts : List Token) : Traced (Parsed Item ts.length) :=
  enter .define ts do
    let ⟨n, ts₁, h₁⟩ ← token ts (ident "macro name after #define" ts)
    lift (notParameterized n ts₁)
    let ⟨e, ts₂, h₂⟩ ← binary levels ts₁
    let ⟨_, ts₃, h₃⟩ ← lineEnd ts₂
    have h₂ := length_lt_trans h₂ h₁
    pure ⟨.define n e, ts₃, length_lt_of_lt_succ h₃ h₂⟩

def skipLine (ts : List Token) : Traced (Parsed Unit (ts.length + 1)) :=
  enter .skipLine ts <|
    match ts with
    | [] => pure ⟨(), [], length_lt_succ _⟩
    | t :: rest =>
      if t.kind = .newline ∨ t.kind = .eof then pure ⟨(), t :: rest, length_lt_succ _⟩
      else do
        let ⟨_, ts₁, h₁⟩ ← skipLine rest
        pure ⟨(), ts₁, length_lt_add_two_of_lt_succ h₁⟩

def skipBlock (depth : Nat) (ts : List Token) : Traced (Parsed Unit (ts.length + 1)) :=
  enter .skipBlock ts <|
    match ts with
    | [] => pure ⟨(), [], length_lt_succ _⟩
    | t :: rest =>
      let goOn (depth : Nat) : Traced (Parsed Unit (rest.length + 2)) := do
        let ⟨_, ts₁, h₁⟩ ← skipBlock depth rest
        pure ⟨(), ts₁, length_lt_add_two_of_lt_succ h₁⟩
      match t.kind with
      | .eof => pure ⟨(), t :: rest, length_lt_succ _⟩
      | .openBrace => goOn (depth + 1)
      | .closeBrace => if depth = 1 then pure ⟨(), rest, length_lt_self_add_two _⟩ else goOn (depth - 1)
      | _ => goOn depth

def item (ts : List Token) : Traced (Parsed Item ts.length) :=
  enter .item ts <|
    match ts with
    | ⟨.mtype, s⟩ :: rest =>
      if opensMtypes rest then (·.within (length_le_succ _)) <$> mtypes rest
      else globals (⟨.mtype, s⟩ :: rest)
    | ⟨.typedef, _⟩ :: rest => (·.within (length_le_succ _)) <$> record rest
    | ⟨.define, _⟩ :: rest => (·.within (length_le_succ _)) <$> define rest
    | ⟨.directive w, s⟩ :: rest => do
      let ⟨_, ts₁, h₁⟩ ← skipLine rest
      pure ⟨.unread ⟨w, s⟩, ts₁, h₁⟩
    | ⟨.unread w, s⟩ :: rest => do
      let ⟨_, ts₁, h₁⟩ ← skipBlock 0 rest
      pure ⟨.unread ⟨w, s⟩, ts₁, h₁⟩
    | ⟨.chan, s⟩ :: rest => globals (⟨.chan, s⟩ :: rest)
    | ⟨.typeName t, s⟩ :: rest => globals (⟨.typeName t, s⟩ :: rest)
    | ⟨.ident n, s⟩ :: ⟨.ident m, r⟩ :: rest => globals (⟨.ident n, s⟩ :: ⟨.ident m, r⟩ :: rest)
    | ts => lift (.error (unexpected "a declaration" ts))

/-- Unlike the reader that records nothing, this one tells where it stops. -/
def items (ts : List Token) : Traced (Parsed (List Item) (ts.length + 1)) :=
  enter .items ts <|
    match ts with
    | [] => pure ⟨[], [], length_lt_succ _⟩
    | ⟨.eof, s⟩ :: rest => pure ⟨[], ⟨.eof, s⟩ :: rest, length_lt_succ _⟩
    | ⟨.semicolon, _⟩ :: rest => (·.within (length_le_succ _)) <$> items rest
    | ⟨.newline, _⟩ :: rest => (·.within (length_le_succ _)) <$> items rest
    | ts => do
      let ⟨i, ts₁, h₁⟩ ← item ts
      let ⟨is, ts₂, h₂⟩ ← items ts₁
      have h₂ := length_lt_of_lt_succ h₂ h₁
      pure ⟨i :: is, ts₂, length_lt_succ_of_lt h₂⟩
termination_by ts.length

/-! ### The record changes nothing -/

theorem outcome_bind {x : Traced α} {r : Except Rejection α} {f : α → Traced β} {g : α → Except Rejection β}
    (hx : x.outcome = r) (hf : ∀ a, (f a).outcome = g a) : (x >>= f).outcome = r >>= g := by
  obtain ⟨outcome, calls⟩ := x
  cases hx
  cases outcome with
  | error e => rfl
  | ok a => exact hf a

mutual

theorem outcome_binary (n : Nat) (ts : List Token) : (binary n ts).outcome = Surface.binary n ts := by
  cases n with
  | zero =>
    rw [binary.eq_def, Surface.binary]
    exact outcome_unary ts
  | succ n =>
    rw [binary.eq_def, Surface.binary]
    refine outcome_bind (outcome_binary n ts) fun ⟨left, ts₁, h₁⟩ => ?_
    exact outcome_bind (outcome_chain n left ts₁) fun _ => rfl
termination_by (ts.length, n + 2)

theorem outcome_chain (n : Nat) (left : Expr) (ts : List Token) :
    (chain n left ts).outcome = Surface.chain n left ts := by
  unfold Surface.chain
  split <;> simp only [chain]
  next op s rest =>
    split
    next =>
      refine outcome_bind (outcome_binary n rest) fun ⟨right, ts₁, h₁⟩ => ?_
      exact outcome_bind (outcome_chain n _ ts₁) fun _ => rfl
    next => rfl
  next => rfl
termination_by (ts.length, 0)
decreasing_by all_goals (subst_vars; decreasing_tactic)

theorem outcome_unary (ts : List Token) : (unary ts).outcome = Surface.unary ts := by
  unfold Surface.unary
  split <;> simp only [unary]
  next s rest => exact outcome_prefixed .not s rest
  next s rest => exact outcome_prefixed .neg s rest
  next s rest => exact outcome_prefixed .bitNot s rest
  next => exact outcome_primary ts
termination_by (ts.length, 1)

theorem outcome_prefixed (op : UnaryOp) (s : Span) (ts : List Token) :
    (prefixed op s ts).outcome = Surface.prefixed op s ts := by
  rw [prefixed, Surface.prefixed]
  exact outcome_bind (outcome_unary ts) fun _ => rfl
termination_by (ts.length, 2)

theorem outcome_primary (ts : List Token) : (primary ts).outcome = Surface.primary ts := by
  unfold Surface.primary
  split <;> simp only [primary]
  case h_1 | h_2 | h_3 | h_8 => rfl
  case h_4 s rest =>
    refine outcome_bind (outcome_binary levels rest) fun ⟨e, ts₁, h₁⟩ => ?_
    dsimp only
    split
    next s₁ ts₂ h₂ =>
      have hlt : ts₂.length < rest.length := Nat.lt_of_succ_lt h₂
      refine outcome_bind (outcome_binary levels ts₂) fun ⟨a, ts₃, h₃⟩ => ?_
      refine outcome_bind rfl fun ⟨_, ts₄, (h₄ : ts₄.length < ts₃.length)⟩ => ?_
      refine outcome_bind (outcome_binary levels ts₄) fun ⟨b, ts₅, h₅⟩ => ?_
      exact outcome_bind rfl fun _ => rfl
    next =>
      -- The split may have decided the case on one side only.
      try simp only
      exact outcome_bind rfl fun _ => rfl
  case h_5 op s rest =>
    refine outcome_bind rfl fun ⟨_, ts₁, h₁⟩ => ?_
    refine outcome_bind (outcome_binary levels ts₁) fun ⟨e, ts₂, h₂⟩ => ?_
    exact outcome_bind rfl fun _ => rfl
  case h_6 s rest =>
    refine outcome_bind rfl fun ⟨_, ts₁, h₁⟩ => ?_
    refine outcome_bind (outcome_binary levels ts₁) fun ⟨e, ts₂, h₂⟩ => ?_
    exact outcome_bind rfl fun _ => rfl
  case h_7 name s rest =>
    refine outcome_bind (outcome_reference _ rest) fun ⟨⟨r, stop⟩, ts₁, h₁⟩ => ?_
    dsimp only
    split
    next s₁ s₂ ts₂ h₂ =>
      have hlt : ts₂.length < rest.length := length_lt_of_add_two_lt_succ h₂
      refine outcome_bind (outcome_arguments ts₂) fun ⟨args, ts₃, h₃⟩ => ?_
      exact outcome_bind rfl fun _ => rfl
    next =>
      try simp only
      rfl
termination_by (ts.length, 0)
decreasing_by all_goals (subst_vars; decreasing_tactic)

theorem outcome_reference (name : Located String) (ts : List Token) :
    (reference name ts).outcome = Surface.reference name ts := by
  unfold Surface.reference
  split <;> simp only [reference]
  next s rest =>
    refine outcome_bind (outcome_binary levels rest) fun ⟨i, ts₁, h₁⟩ => ?_
    refine outcome_bind rfl fun ⟨close, ts₂, (h₂ : ts₂.length < ts₁.length)⟩ => ?_
    exact outcome_bind (outcome_member name (some i) close ts₂) fun _ => rfl
  next => exact outcome_member name none name.span ts
termination_by (ts.length, 1)
decreasing_by all_goals (subst_vars; decreasing_tactic)

theorem outcome_member (name : Located String) (index : Option Expr) (stop : Span) (ts : List Token) :
    (member name index stop ts).outcome = Surface.member name index stop ts := by
  unfold Surface.member
  split <;> simp only [member]
  next s rest =>
    refine outcome_bind rfl fun ⟨f, ts₁, h₁⟩ => ?_
    exact outcome_bind (outcome_reference f ts₁) fun _ => rfl
  next => rfl
termination_by (ts.length, 0)
decreasing_by all_goals (subst_vars; decreasing_tactic)

theorem outcome_arguments (ts : List Token) : (arguments ts).outcome = Surface.arguments ts := by
  rw [arguments, Surface.arguments]
  refine outcome_bind (outcome_binary levels ts) fun ⟨e, ts₁, h₁⟩ => ?_
  dsimp only
  split
  next s ts₂ h₂ =>
    have hlt : ts₂.length < ts.length := Nat.lt_of_succ_lt h₂
    exact outcome_bind (outcome_arguments ts₂) fun _ => rfl
  next =>
    try simp only
    rfl
termination_by (ts.length, levels + 3)

end

theorem outcome_names (what : String) (ts : List Token) : (names what ts).outcome = Surface.names what ts := by
  rw [names, Surface.names]
  refine outcome_bind rfl fun ⟨n, ts₁, h₁⟩ => ?_
  dsimp only
  split
  next s ts₂ h₂ =>
    have hlt : ts₂.length < ts.length := Nat.lt_of_succ_lt h₂
    exact outcome_bind (outcome_names what ts₂) fun _ => rfl
  next =>
    try simp only
    rfl
termination_by ts.length

theorem outcome_typeNames (ts : List Token) : (typeNames ts).outcome = Surface.typeNames ts := by
  rw [typeNames, Surface.typeNames]
  refine outcome_bind rfl fun ⟨t, ts₁, h₁⟩ => ?_
  dsimp only
  split
  next s ts₂ h₂ =>
    have hlt : ts₂.length < ts.length := Nat.lt_of_succ_lt h₂
    exact outcome_bind (outcome_typeNames ts₂) fun _ => rfl
  next =>
    try simp only
    rfl
termination_by ts.length

theorem outcome_size (ts : List Token) : (size ts).outcome = Surface.size ts :=
  outcome_bind rfl fun _ => outcome_bind rfl fun _ => rfl

theorem outcome_arraySize (ts : List Token) : (arraySize ts).outcome = Surface.arraySize ts := by
  unfold Surface.arraySize
  split <;> simp only [arraySize]
  next s rest => exact outcome_bind (outcome_size rest) fun _ => rfl
  next => rfl

theorem outcome_fields (type : Located TypeName) (ts : List Token) :
    (fields type ts).outcome = Surface.fields type ts := by
  rw [fields, Surface.fields]
  refine outcome_bind rfl fun ⟨n, ts₁, (h₁ : ts₁.length < ts.length)⟩ => ?_
  refine outcome_bind (outcome_arraySize ts₁) fun ⟨size, ts₂, h₂⟩ => ?_
  dsimp only
  split
  next s ts₃ h₃ =>
    have hlt : ts₃.length < ts.length := length_lt_trans (length_lt_of_succ_lt_succ h₃) h₁
    exact outcome_bind (outcome_fields type ts₃) fun _ => rfl
  next =>
    try simp only
    rfl
termination_by ts.length

theorem outcome_fieldGroups (ts : List Token) : (fieldGroups ts).outcome = Surface.fieldGroups ts := by
  rw [Surface.fieldGroups.eq_def]
  split <;> rw [fieldGroups.eq_def]
  next => rfl
  next =>
    try simp only
    refine outcome_bind rfl fun p => ?_
    obtain ⟨type, ts₁, h₁⟩ := p
    have h₁ : ts₁.length < ts.length := h₁
    refine outcome_bind (outcome_fields type ts₁) fun p => ?_
    obtain ⟨fs, ts₂, h₂⟩ := p
    dsimp only
    split
    next s ts₃ h₃ =>
      have hlt : ts₃.length < ts.length := length_lt_trans (length_lt_of_succ_lt h₃) h₁
      exact outcome_bind (outcome_fieldGroups ts₃) fun _ => rfl
    next => rfl
    next =>
      try simp only
      rfl
termination_by ts.length

theorem outcome_initializer (ts : List Token) : (initializer ts).outcome = Surface.initializer ts := by
  unfold Surface.initializer
  split <;> simp only [initializer]
  next => rfl
  next s rest =>
    refine outcome_bind (outcome_size rest) fun p => ?_
    obtain ⟨capacity, ts₁, h₁⟩ := p
    refine outcome_bind rfl fun p => ?_
    obtain ⟨_, ts₂, h₂⟩ := p
    refine outcome_bind rfl fun p => ?_
    obtain ⟨_, ts₃, h₃⟩ := p
    refine outcome_bind (outcome_typeNames ts₃) fun p => ?_
    obtain ⟨fields, ts₄, h₄⟩ := p
    exact outcome_bind rfl fun _ => rfl
  next t rest _ => exact outcome_bind (outcome_binary levels (t :: rest)) fun _ => rfl

theorem outcome_optionalInitializer (ts : List Token) :
    (optionalInitializer ts).outcome = Surface.optionalInitializer ts := by
  unfold Surface.optionalInitializer
  split <;> simp only [optionalInitializer]
  next s rest => exact outcome_bind (outcome_initializer rest) fun _ => rfl
  next => rfl

theorem outcome_declarators (ts : List Token) : (declarators ts).outcome = Surface.declarators ts := by
  rw [declarators, Surface.declarators]
  refine outcome_bind rfl fun ⟨n, ts₁, (h₁ : ts₁.length < ts.length)⟩ => ?_
  refine outcome_bind (outcome_arraySize ts₁) fun ⟨size, ts₂, h₂⟩ => ?_
  refine outcome_bind (outcome_optionalInitializer ts₂) fun ⟨init, ts₃, h₃⟩ => ?_
  dsimp only
  split
  next s ts₄ h₄ =>
    have hlt : ts₄.length < ts.length :=
      length_lt_trans (length_lt_of_succ_lt_succ h₄) (length_lt_of_lt_succ h₂ h₁)
    exact outcome_bind (outcome_declarators ts₄) fun _ => rfl
  next =>
    try simp only
    rfl
termination_by ts.length

theorem outcome_globals (ts : List Token) : (globals ts).outcome = Surface.globals ts :=
  outcome_bind rfl fun ⟨_, ts₁, _⟩ => outcome_bind (outcome_declarators ts₁) fun _ => rfl

theorem outcome_mtypes (ts : List Token) : (mtypes ts).outcome = Surface.mtypes ts := by
  refine outcome_bind rfl fun ⟨_, ts₁, h₁⟩ => ?_
  refine outcome_bind (outcome_names _ ts₁) fun ⟨ns, ts₂, h₂⟩ => ?_
  exact outcome_bind rfl fun _ => rfl

theorem outcome_record (ts : List Token) : (record ts).outcome = Surface.record ts := by
  refine outcome_bind rfl fun ⟨n, ts₁, h₁⟩ => ?_
  refine outcome_bind rfl fun ⟨_, ts₂, h₂⟩ => ?_
  refine outcome_bind (outcome_fieldGroups ts₂) fun ⟨fs, ts₃, h₃⟩ => ?_
  exact outcome_bind rfl fun _ => rfl

theorem outcome_define (ts : List Token) : (define ts).outcome = Surface.define ts := by
  refine outcome_bind rfl fun ⟨n, ts₁, h₁⟩ => ?_
  refine outcome_bind rfl fun _ => ?_
  refine outcome_bind (outcome_binary levels ts₁) fun ⟨e, ts₂, h₂⟩ => ?_
  exact outcome_bind rfl fun _ => rfl

theorem outcome_skipLine (ts : List Token) :
    (skipLine ts).outcome = .ok ⟨(), Surface.skipLine ts, Nat.lt_succ_of_le (length_skipLine_le ts)⟩ := by
  induction ts with
  | nil => rfl
  | cons t rest ih =>
    rw [skipLine]
    by_cases hend : t.kind = .newline ∨ t.kind = .eof
    · simp only [Surface.skipLine, if_pos hend]
      rfl
    · simp only [Surface.skipLine, if_neg hend]
      exact outcome_bind ih fun _ => rfl

theorem outcome_skipBlock (depth : Nat) (ts : List Token) :
    (skipBlock depth ts).outcome =
      .ok ⟨(), Surface.skipBlock depth ts, Nat.lt_succ_of_le (length_skipBlock_le depth ts)⟩ := by
  induction ts generalizing depth with
  | nil => rfl
  | cons t rest ih =>
    obtain ⟨kind, s⟩ := t
    cases kind with
    | eof => rfl
    | openBrace => exact outcome_bind (ih (depth + 1)) fun _ => rfl
    | closeBrace =>
      rw [skipBlock]
      by_cases hdepth : depth = 1
      · simp only [Surface.skipBlock, if_pos hdepth]
        rfl
      · simp only [Surface.skipBlock, if_neg hdepth]
        exact outcome_bind (ih (depth - 1)) fun _ => rfl
    | _ => exact outcome_bind (ih depth) fun _ => rfl

theorem outcome_within {m n : Nat} {x : Traced (Parsed α m)} {r : Except Rejection (Parsed α m)} {h : m ≤ n}
    (hx : x.outcome = r) : ((·.within h) <$> x).outcome = r.map (·.within h) := by
  obtain ⟨outcome, calls⟩ := x
  cases hx
  cases outcome <;> rfl

theorem outcome_item (ts : List Token) : (item ts).outcome = Surface.item ts := by
  unfold Surface.item
  split <;> simp only [item]
  next s rest =>
    split
    next => exact outcome_within (outcome_mtypes rest)
    next => exact outcome_globals _
  next s rest => exact outcome_within (outcome_record rest)
  next s rest => exact outcome_within (outcome_define rest)
  next w s rest => exact outcome_bind (outcome_skipLine rest) fun _ => rfl
  next w s rest => exact outcome_bind (outcome_skipBlock 0 rest) fun _ => rfl
  next => exact outcome_globals _
  next => exact outcome_globals _
  next => exact outcome_globals _
  next => rfl

theorem value_bind {n : Nat} {x : Traced α} {r : Except Rejection α} {f : α → Traced (Parsed β n)}
    {g : α → Except Rejection β} (hx : x.outcome = r) (hf : ∀ a, (f a).outcome.map (·.value) = g a) :
    (x >>= f).outcome.map (·.value) = r >>= g := by
  obtain ⟨outcome, calls⟩ := x
  cases hx
  cases outcome with
  | error e => rfl
  | ok a => exact hf a

theorem value_map {m n : Nat} {x : Traced (Parsed α m)} {r : Except Rejection α} {f : Parsed α m → Parsed β n}
    {g : α → β} (hx : x.outcome.map (·.value) = r) (hf : ∀ p, (f p).value = g p.value) :
    (x >>= fun p => pure (f p)).outcome.map (·.value) = r.map g := by
  obtain ⟨outcome, calls⟩ := x
  cases hx
  cases outcome with
  | error e => rfl
  | ok p => exact congrArg Except.ok (hf p)

theorem map_id_eq (r : Except Rejection α) : r.map id = r := by
  cases r <;> rfl

/-- The items are the same, too. -/
theorem outcome_items (ts : List Token) : (items ts).outcome.map (·.value) = Surface.items ts := by
  rw [Surface.items.eq_def]
  split <;> rw [items.eq_def]
  next => rfl
  next => rfl
  next s rest => exact (value_map (outcome_items rest) fun _ => rfl).trans (map_id_eq _)
  next s rest => exact (value_map (outcome_items rest) fun _ => rfl).trans (map_id_eq _)
  next =>
    try simp only
    refine value_bind (outcome_item ts) fun p => ?_
    obtain ⟨i, ts₁, h₁⟩ := p
    exact value_map (outcome_items ts₁) fun _ => rfl
termination_by ts.length
decreasing_by all_goals (subst_vars; decreasing_tactic)

end Traced
end Surface
end Promela
