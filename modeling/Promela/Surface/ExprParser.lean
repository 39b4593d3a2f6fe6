import Promela.Surface.Reading

/-! Reading expressions. Binary operators associate to the left on ten levels; above them come the
prefix operators and then the operands. -/
namespace Promela
namespace Surface

def levels : Nat := 10

mutual

/-- An expression whose operators outside parentheses bind tighter than level `n`. -/
def binary (n : Nat) (ts : List Token) : Parse Expr ts :=
  match n with
  | 0 => unary ts
  | n + 1 => do
    let ⟨left, ts₁, h₁⟩ ← binary n ts
    let ⟨e, ts₂, h₂⟩ ← chain n left ts₁
    pure ⟨e, ts₂, by omega⟩
termination_by (ts.length, n + 2)

/-- Goes on from `left` as long as operators of level `n` follow. -/
def chain (n : Nat) (left : Expr) (ts : List Token) : ParseMany Expr ts :=
  match ts with
  | ⟨.binary op, s⟩ :: rest =>
    if op.looseness = n then do
      let ⟨right, ts₁, h₁⟩ ← binary n rest
      let ⟨e, ts₂, h₂⟩ ← chain n (.binary (left.span.through right.span) op left right) ts₁
      pure ⟨e, ts₂, by simp only [List.length_cons]; omega⟩
    else pure ⟨left, ⟨.binary op, s⟩ :: rest, length_lt_succ _⟩
  | ts => pure ⟨left, ts, length_lt_succ _⟩
termination_by (ts.length, 0)

def unary (ts : List Token) : Parse Expr ts :=
  match ts with
  | ⟨.bang, s⟩ :: rest => prefixed .not s rest
  | ⟨.binary .sub, s⟩ :: rest => prefixed .neg s rest
  | ⟨.tilde, s⟩ :: rest => prefixed .bitNot s rest
  | ts => primary ts
termination_by (ts.length, 1)

/-- The operand of a prefix operator that stands at `s`. -/
def prefixed (op : UnaryOp) (s : Span) (ts : List Token) : ParseMany Expr ts := do
  let ⟨e, ts₁, h₁⟩ ← unary ts
  pure ⟨.unary (s.through e.span) op e, ts₁, by omega⟩
termination_by (ts.length, 2)

def primary (ts : List Token) : Parse Expr ts :=
  match ts with
  | ⟨.number n, s⟩ :: rest => pure ⟨.number s n, rest, length_lt_succ _⟩
  | ⟨.truth b, s⟩ :: rest => pure ⟨.truth s b, rest, length_lt_succ _⟩
  | ⟨.skip, s⟩ :: rest => pure ⟨.number s 1, rest, length_lt_succ _⟩
  | ⟨.openParen, s⟩ :: rest => do
    let ⟨e, ts₁, h₁⟩ ← binary levels rest
    match ts₁, h₁ with
    | ⟨.arrow, _⟩ :: ts₂, h₁ => do
      have h₂ : ts₂.length < rest.length := Nat.lt_of_succ_lt h₁
      let ⟨a, ts₃, h₃⟩ ← binary levels ts₂
      let ⟨_, ts₄, h₄⟩ ← expect .colon "':' in conditional expression" ts₃
      let ⟨b, ts₅, h₅⟩ ← binary levels ts₄
      let ⟨close, ts₆, h₆⟩ ← expect .closeParen "')' to close conditional" ts₅
      pure ⟨.ternary (s.through close) e a b, ts₆, by simp only [List.length_cons]; omega⟩
    | ts₁, h₁ => do
      let ⟨close, ts₂, h₂⟩ ← expect .closeParen "')'" ts₁
      pure ⟨e.withSpan (s.through close), ts₂, by simp only [List.length_cons]; omega⟩
  | ⟨.query op, s⟩ :: rest => do
    let ⟨_, ts₁, h₁⟩ ← expect .openParen "'(' after channel operator" rest
    let ⟨e, ts₂, h₂⟩ ← binary levels ts₁
    let ⟨close, ts₃, h₃⟩ ← expect .closeParen "')'" ts₂
    pure ⟨.query (s.through close) op e, ts₃, by simp only [List.length_cons]; omega⟩
  | ⟨.eval, s⟩ :: rest => do
    let ⟨_, ts₁, h₁⟩ ← expect .openParen "'(' after eval" rest
    let ⟨e, ts₂, h₂⟩ ← binary levels ts₁
    let ⟨close, ts₃, h₃⟩ ← expect .closeParen "')'" ts₂
    pure ⟨.eval (s.through close) e, ts₃, by simp only [List.length_cons]; omega⟩
  | ⟨.ident name, s⟩ :: rest => do
    let ⟨(r, stop), ts₁, h₁⟩ ← reference ⟨name, s⟩ rest
    let e := Expr.reference (s.through stop) r
    match ts₁, h₁ with
    | ⟨.question, _⟩ :: ⟨.openBracket, _⟩ :: ts₂, h₁ => do
      have h₂ : ts₂.length < rest.length := by simp only [List.length_cons] at h₁; omega
      let ⟨args, ts₃, h₃⟩ ← arguments ts₂
      let ⟨close, ts₄, h₄⟩ ← expect .closeBracket "']' to close poll" ts₃
      pure ⟨.poll (s.through close) e args, ts₄, by simp only [List.length_cons]; omega⟩
    | ts₁, h₁ => pure ⟨e, ts₁, by simp only [List.length_cons]; omega⟩
  | ts => .error (unexpected "expression" ts)
termination_by (ts.length, 0)

/-- What follows a name: an index or not, and a field or not. Yields where the reference stops, too. -/
def reference (name : Located String) (ts : List Token) : ParseMany (Reference × Span) ts :=
  match ts with
  | ⟨.openBracket, _⟩ :: rest => do
    let ⟨i, ts₁, h₁⟩ ← binary levels rest
    let ⟨close, ts₂, h₂⟩ ← expect .closeBracket "']' after index" ts₁
    let ⟨r, ts₃, h₃⟩ ← member name (some i) close ts₂
    pure ⟨r, ts₃, by simp only [List.length_cons]; omega⟩
  | ts => member name none name.span ts
termination_by (ts.length, 1)

/-- The field of a reference that stops at `stop` so far. -/
def member (name : Located String) (index : Option Expr) (stop : Span) (ts : List Token) :
    ParseMany (Reference × Span) ts :=
  match ts with
  | ⟨.dot, _⟩ :: rest => do
    let ⟨f, ts₁, h₁⟩ ← ident "field name" rest
    let ⟨(r, stop), ts₂, h₂⟩ ← reference f ts₁
    pure ⟨(.field name index r, stop), ts₂, by simp only [List.length_cons]; omega⟩
  | ts => pure ⟨(.leaf name index, stop), ts, length_lt_succ _⟩
termination_by (ts.length, 0)

/-- One expression or more, with commas between them. -/
def arguments (ts : List Token) : Parse (List Expr) ts := do
  let ⟨e, ts₁, h₁⟩ ← binary levels ts
  match ts₁, h₁ with
  | ⟨.comma, _⟩ :: ts₂, h₁ => do
    have h₂ : ts₂.length < ts.length := Nat.lt_of_succ_lt h₁
    let ⟨es, ts₃, h₃⟩ ← arguments ts₂
    pure ⟨e :: es, ts₃, by omega⟩
  | ts₁, h₁ => pure ⟨[e], ts₁, h₁⟩
termination_by (ts.length, levels + 3)

end

end Surface
end Promela
