import Promela.Expr.Folding
import Promela.Fault

/-! The typing rules, one per form of node, over the types of the operands; and the only ways to build
expressions and places, which apply them. -/
namespace Promela

/-- Refuses with `fault` at `span` unless `ok`. -/
def require (ok : Prop) [Decidable ok] (fault : Fault) (span : Span) : Checked Unit :=
  if ok then .ok () else .error ⟨fault, span⟩

namespace Typing

def unary (op : UnaryOp) (t : ValueType) (span : Span) : Checked ValueType := do
  require t.numeric (.unaryOperand op t) span
  match op with
  | .neg => pure (if t.arithmetic.bits ≤ 8 then .short else t.arithmetic)
  | .bitNot => pure .int
  | .not => pure .bool

/-- A divisor that is constantly zero is refused where it stands. -/
def binary (op : BinaryOp) (left right : Expr) (span : Span) : Checked ValueType :=
  let l := left.type
  let r := right.type
  if op.group = .equality then do
    require (l.numeric = r.numeric) (.comparison l r) span
    pure .bool
  else do
    require (l.numeric ∧ r.numeric) (.binaryOperands op l r) span
    match op.group with
    | .arithmetic | .bitwise =>
      require (¬((op = .div ∨ op = .mod) ∧ right.constant? = some 0)) .zeroDivisor right.span
      pure (l.wider r)
    | .shift => pure l.arithmetic
    | .logical | .ordering | .equality => pure .bool

def ternary (condition first second : ValueType) (span : Span) : Checked ValueType := do
  require condition.numeric (.condition condition) span
  require (first.numeric = second.numeric) (.branches first second) span
  match first, second with
  | .chan, _ => pure .chan
  | .mtype, .mtype => pure .mtype
  | .bool, .bool => pure .bool
  | t, u => pure (t.wider u)

def query (op : ChannelOp) (channel : Expr) : Checked ValueType := do
  require (channel.type = .chan) (.queriedChannel op channel.type) channel.span
  pure (if op = .len then .byte else .bool)

def messageFields : List ValueType → List Expr → Checked Unit
  | f :: fs, e :: es => do
    require (f.accepts e.type) (.messageField f e.type) e.span
    messageFields fs es
  | _, _ => pure ()

/-- A message has to fit the signature of its channel, where that is known. -/
def message (channel : Expr) (args : List Expr) (span : Span) : Checked Unit := do
  require (channel.type = .chan) (.messageChannel channel.type) channel.span
  require (args ≠ []) .emptyMessage span
  match channel.place?.bind (·.target.signature) with
  | none => pure ()
  | some s =>
    require (s.fields.length = args.length) (.messageLength s.fields.length args.length) span
    messageFields s.fields args

def eval (t : ValueType) (span : Span) : Checked ValueType := do
  require t.numeric (.evalOperand t) span
  pure t

end Typing

namespace Place

/-- A reference to a variable. An index has to be a number and, where it is constant, in bounds. -/
def build (v : Variable) (index : Option Expr) (span : Span) : Checked Place :=
  match index, v.length with
  | none, _ => .ok (leaf v none)
  | some _, none => .error ⟨.notAnArray v.name, span⟩
  | some i, some length => do
    require i.type.numeric (.indexType v.name) i.span
    match i.constant? with
    | some n => require (0 ≤ n ∧ n < length) (.indexBounds n v.name length) i.span
    | none => pure ()
    pure (leaf v (some i))

/-- Chooses the field `f` below the innermost variable of the place. -/
def select (p f : Place) (span : Span) : Checked Place :=
  match p with
  | leaf v i => do
    match v.record? with
    | none => throw ⟨.noFields v.name, span⟩
    | some r => require (r.hasField f.var.id) (.noSuchField r.name f.var.name) span
    pure (field v i f)
  | field v i p => do
    let p ← p.select f span
    pure (field v i p)

end Place

namespace Expr

def buildBool (span : Span) (value : Bool) : Expr := bool ⟨span, .bool⟩ value

def buildInt (span : Span) (value : Int) : Checked Expr :=
  match ValueType.ofLiteral? value with
  | some t => .ok (int ⟨span, t⟩ value)
  | none => .error ⟨.literalRange value, span⟩

def buildMtype (span : Span) (code : Nat) : Expr := mtype ⟨span, .mtype⟩ code

def buildPlace (span : Span) (p : Place) : Checked Expr :=
  match p.target.type? with
  | some t => .ok (place ⟨span, t⟩ p)
  | none => .error ⟨.wholeRecord p.target.name, span⟩

def buildUnary (span : Span) (op : UnaryOp) (e : Expr) : Checked Expr := do
  let t ← Typing.unary op e.type span
  pure (unary ⟨span, t⟩ op e)

def buildBinary (span : Span) (op : BinaryOp) (l r : Expr) : Checked Expr := do
  let t ← Typing.binary op l r span
  pure (binary ⟨span, t⟩ op l r)

def buildTernary (span : Span) (c a b : Expr) : Checked Expr := do
  let t ← Typing.ternary c.type a.type b.type span
  pure (ternary ⟨span, t⟩ c a b)

def buildQuery (span : Span) (op : ChannelOp) (channel : Expr) : Checked Expr := do
  let t ← Typing.query op channel
  pure (query ⟨span, t⟩ op channel)

def buildPoll (span : Span) (channel : Expr) (args : List Expr) : Checked Expr := do
  Typing.message channel args span
  pure (poll ⟨span, .bool⟩ channel args)

def buildEval (span : Span) (e : Expr) : Checked Expr := do
  let t ← Typing.eval e.type span
  pure (eval ⟨span, t⟩ e)

end Expr
end Promela
