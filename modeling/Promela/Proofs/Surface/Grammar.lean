import Promela.Surface.ExprParser

/-! The grammar of expressions: ten levels of binary operators that associate to the left, above them
the prefix operators, and above these the operands. A tree that has a sentence has one with no more
parentheses than its levels ask for. -/
namespace Promela

namespace TokenKind

/-- The tokens that may stand behind an expression: those that end or close what it stands in, and
those that a declaration starts with. -/
def mayFollow : TokenKind → Bool
  | eof | newline | semicolon | comma | closeParen | closeBracket | closeBrace | colon | arrow => true
  | mtype | typedef | chan | typeName _ | define | directive _ | unread _ | ident _ => true
  | _ => false

/-- Whether an expression may have the token. -/
def inExpr : TokenKind → Bool
  | ident _ | number _ | truth _ | skip | query _ | eval | bang | tilde | binary _ => true
  | openParen | closeParen | openBracket | closeBracket | comma | dot | arrow | colon | question => true
  | _ => false

end TokenKind

namespace Surface

mutual

/-- An expression without its spans. -/
inductive BareExpr where
  | number (value : Nat)
  | truth (value : Bool)
  | reference (place : BareReference)
  | unary (op : UnaryOp) (operand : BareExpr)
  | binary (op : BinaryOp) (left right : BareExpr)
  | ternary (condition first second : BareExpr)
  | query (op : ChannelOp) (channel : BareExpr)
  | poll (channel : BareExpr) (args : List BareExpr)
  | eval (inner : BareExpr)

/-- A reference without its spans. -/
inductive BareReference where
  | leaf (name : String) (index : Option BareExpr)
  | field (name : String) (index : Option BareExpr) (rest : BareReference)

end

mutual

def Expr.bare : Expr → BareExpr
  | .number _ n => .number n
  | .truth _ b => .truth b
  | .reference _ r => .reference r.bare
  | .unary _ op e => .unary op e.bare
  | .binary _ op l r => .binary op l.bare r.bare
  | .ternary _ c a b => .ternary c.bare a.bare b.bare
  | .query _ op c => .query op c.bare
  | .poll _ c es => .poll c.bare (bareArguments es)
  | .eval _ e => .eval e.bare

def Reference.bare : Reference → BareReference
  | .leaf n i => .leaf n.value (bareIndex i)
  | .field n i r => .field n.value (bareIndex i) r.bare

def bareIndex : Option Expr → Option BareExpr
  | none => none
  | some e => some e.bare

def bareArguments : List Expr → List BareExpr
  | [] => []
  | e :: es => e.bare :: bareArguments es

end

/-- Parentheses change the span of what they enclose and nothing else. -/
@[simp] theorem Expr.bare_withSpan (e : Expr) (s : Span) : (e.withSpan s).bare = e.bare := by
  cases e <;> simp only [withSpan, bare]

/-- The binary operators of the levels, the tightest level first. -/
def operators : Nat → List BinaryOp
  | 0 => [.mul, .div, .mod]
  | 1 => [.add, .sub]
  | 2 => [.shl, .shr]
  | 3 => [.lt, .le, .gt, .ge]
  | 4 => [.eq, .ne]
  | 5 => [.bitAnd]
  | 6 => [.bitXor]
  | 7 => [.bitOr]
  | 8 => [.and]
  | 9 => [.or]
  | _ => []

theorem looseness_of_mem {op : BinaryOp} {n : Nat} (h : op ∈ operators n) : op.looseness = n := by
  unfold operators at h
  split at h
  case h_11 => cases h
  all_goals revert h; cases op <;> decide

@[simp] theorem mem_operators (op : BinaryOp) : op ∈ operators op.looseness := by
  cases op <;> decide

theorem looseness_lt_levels (op : BinaryOp) : op.looseness < levels := by
  cases op <;> decide

def prefixToken : UnaryOp → TokenKind
  | .not => .bang
  | .neg => .binary .sub
  | .bitNot => .tilde

/-- What a run of tokens may be, with what it means. -/
inductive Form
  /-- An expression whose operators outside parentheses stand on the levels below `n`. -/
  | level (n : Nat) (e : BareExpr)
  /-- Prefix operators and what they stand before. -/
  | operand (e : BareExpr)
  | primary (e : BareExpr)
  | reference (r : BareReference)
  | index (i : Option BareExpr)
  | arguments (es : List BareExpr)

/-- The tokens are a sentence of the form. -/
inductive Derives : Form → List TokenKind → Prop
  | operand {us : List TokenKind} {e : BareExpr} : Derives (.operand e) us → Derives (.level 0 e) us
  | tighter {n : Nat} {us : List TokenKind} {e : BareExpr} : Derives (.level n e) us →
      Derives (.level (n + 1) e) us
  | binary {n : Nat} {op : BinaryOp} {us vs : List TokenKind} {l r : BareExpr} : op ∈ operators n →
      Derives (.level (n + 1) l) us → Derives (.level n r) vs →
      Derives (.level (n + 1) (.binary op l r)) (us ++ .binary op :: vs)
  | prefixed (op : UnaryOp) {us : List TokenKind} {e : BareExpr} : Derives (.operand e) us →
      Derives (.operand (.unary op e)) (prefixToken op :: us)
  | primary {us : List TokenKind} {e : BareExpr} : Derives (.primary e) us → Derives (.operand e) us
  | number (n : Nat) : Derives (.primary (.number n)) [.number n]
  | truth (b : Bool) : Derives (.primary (.truth b)) [.truth b]
  | skip : Derives (.primary (.number 1)) [.skip]
  | group {us : List TokenKind} {e : BareExpr} : Derives (.level levels e) us →
      Derives (.primary e) (.openParen :: us ++ [.closeParen])
  | ternary {us vs ws : List TokenKind} {c a b : BareExpr} : Derives (.level levels c) us →
      Derives (.level levels a) vs → Derives (.level levels b) ws →
      Derives (.primary (.ternary c a b))
        (.openParen :: us ++ .arrow :: vs ++ .colon :: ws ++ [.closeParen])
  | query (op : ChannelOp) {us : List TokenKind} {c : BareExpr} : Derives (.level levels c) us →
      Derives (.primary (.query op c)) (.query op :: .openParen :: us ++ [.closeParen])
  | eval {us : List TokenKind} {e : BareExpr} : Derives (.level levels e) us →
      Derives (.primary (.eval e)) (.eval :: .openParen :: us ++ [.closeParen])
  | reference {us : List TokenKind} {r : BareReference} : Derives (.reference r) us →
      Derives (.primary (.reference r)) us
  | poll {us vs : List TokenKind} {r : BareReference} {es : List BareExpr} :
      Derives (.reference r) us → Derives (.arguments es) vs →
      Derives (.primary (.poll (.reference r) es))
        (us ++ .question :: .openBracket :: vs ++ [.closeBracket])
  | leaf (name : String) {us : List TokenKind} {i : Option BareExpr} : Derives (.index i) us →
      Derives (.reference (.leaf name i)) (.ident name :: us)
  | field (name : String) {us vs : List TokenKind} {i : Option BareExpr} {r : BareReference} :
      Derives (.index i) us → Derives (.reference r) vs →
      Derives (.reference (.field name i r)) (.ident name :: us ++ .dot :: vs)
  | unindexed : Derives (.index none) []
  | indexed {us : List TokenKind} {e : BareExpr} : Derives (.level levels e) us →
      Derives (.index (some e)) (.openBracket :: us ++ [.closeBracket])
  | single {us : List TokenKind} {e : BareExpr} : Derives (.level levels e) us →
      Derives (.arguments [e]) us
  | more {us vs : List TokenKind} {e : BareExpr} {es : List BareExpr} : Derives (.level levels e) us →
      Derives (.arguments es) vs → Derives (.arguments (e :: es)) (us ++ .comma :: vs)

namespace Derives

/-- What stands on a level stands on the looser ones. -/
theorem looser {n m : Nat} {e : BareExpr} {us : List TokenKind} (h : Derives (.level n e) us)
    (hnm : n ≤ m) : Derives (.level m e) us := by
  induction hnm with
  | refl => exact h
  | step _ ih => exact .tighter ih

/-- What needs no operator outside parentheses stands on every level. -/
theorem primary_level {e : BareExpr} {us : List TokenKind} (h : Derives (.primary e) us) (n : Nat) :
    Derives (.level n e) us :=
  (operand (primary h)).looser (Nat.zero_le n)

theorem name (name : String) (n : Nat) : Derives (.level n (.reference (.leaf name none))) [.ident name] :=
  (reference (leaf name unindexed)).primary_level n

theorem of_level_zero {e : BareExpr} {us : List TokenKind} (h : Derives (.level 0 e) us) :
    Derives (.operand e) us := by
  cases h with
  | operand h => exact h

theorem inExpr {form : Form} {ks : List TokenKind} (h : Derives form ks) :
    ks.all TokenKind.inExpr = true := by
  induction h with
  | operand _ ih | tighter _ ih | primary _ ih | reference _ ih | single _ ih => exact ih
  | number | truth | skip | unindexed => rfl
  | prefixed op _ ih => cases op <;> exact ih
  | leaf _ _ ih => exact ih
  | group _ ih | query _ _ ih | eval _ ih | indexed _ ih =>
    simp only [List.all_append, List.all_cons, List.cons_append, ih]
    rfl
  | binary _ _ _ ih ih' | poll _ _ ih ih' | field _ _ _ ih ih' | more _ _ ih ih' =>
    simp only [List.all_append, List.all_cons, List.cons_append, ih, ih']
    rfl
  | ternary _ _ _ ihc iha ihb =>
    simp only [List.all_append, List.all_cons, List.cons_append, ihc, iha, ihb]
    rfl

end Derives

mutual

/-- The tokens of an expression where level `n` may stand: a looser operator gets parentheses. -/
def BareExpr.tokens (n : Nat) : BareExpr → List TokenKind
  | .number v => [.number v]
  | .truth b => [.truth b]
  | .reference r => r.tokens
  | .unary op e => prefixToken op :: e.tokens 0
  | .binary op l r =>
    if op.looseness < n then l.tokens (op.looseness + 1) ++ .binary op :: r.tokens op.looseness
    else .openParen :: (l.tokens (op.looseness + 1) ++ .binary op :: r.tokens op.looseness) ++ [.closeParen]
  | .ternary c a b =>
    .openParen :: c.tokens levels ++ .arrow :: a.tokens levels ++ .colon :: b.tokens levels ++ [.closeParen]
  | .query op c => .query op :: .openParen :: c.tokens levels ++ [.closeParen]
  | .poll c es => c.tokens 0 ++ .question :: .openBracket :: argumentTokens es ++ [.closeBracket]
  | .eval e => .eval :: .openParen :: e.tokens levels ++ [.closeParen]

def BareReference.tokens : BareReference → List TokenKind
  | .leaf name i => .ident name :: indexTokens i
  | .field name i r => .ident name :: indexTokens i ++ .dot :: r.tokens

def indexTokens : Option BareExpr → List TokenKind
  | none => []
  | some e => .openBracket :: e.tokens levels ++ [.closeBracket]

def argumentTokens : List BareExpr → List TokenKind
  | [] => []
  | [e] => e.tokens levels
  | e :: e' :: es => e.tokens levels ++ .comma :: argumentTokens (e' :: es)

end

/-- The printed tokens of what the form means are a sentence of it, on every level for an expression. -/
def Form.Printed : Form → Prop
  | .level _ e | .operand e | .primary e => ∀ n, Derives (.level n e) (e.tokens n)
  | .reference r => Derives (.reference r) r.tokens
  | .index i => Derives (.index i) (indexTokens i)
  | .arguments es => Derives (.arguments es) (argumentTokens es)

theorem Derives.printed {form : Form} {us : List TokenKind} (h : Derives form us) : form.Printed := by
  induction h with
  | operand _ ih | tighter _ ih | primary _ ih | group _ ih => exact ih
  | @binary m op _ _ l r hop _ _ ihl ihr =>
    intro n
    obtain rfl := looseness_of_mem hop
    have hplain := Derives.binary hop (ihl (op.looseness + 1)) (ihr op.looseness)
    simp only [BareExpr.tokens]
    split
    next hn => exact hplain.looser hn
    next => exact (Derives.group (hplain.looser (looseness_lt_levels op))).primary_level n
  | prefixed op _ ih =>
    intro n
    exact (Derives.operand (.prefixed op (ih 0).of_level_zero)).looser (Nat.zero_le n)
  | number v =>
    intro n
    exact (Derives.number v).primary_level n
  | truth b =>
    intro n
    exact (Derives.truth b).primary_level n
  | skip =>
    intro n
    exact (Derives.number 1).primary_level n
  | ternary _ _ _ ihc iha ihb =>
    intro n
    exact (Derives.ternary (ihc levels) (iha levels) (ihb levels)).primary_level n
  | query op _ ih =>
    intro n
    exact (Derives.query op (ih levels)).primary_level n
  | eval _ ih =>
    intro n
    exact (Derives.eval (ih levels)).primary_level n
  | reference _ ih =>
    intro n
    exact (Derives.reference ih).primary_level n
  | poll _ _ ihr ihes =>
    intro n
    exact (Derives.poll ihr ihes).primary_level n
  | leaf name _ ih => exact .leaf name ih
  | field name _ _ ihi ihr => exact .field name ihi ihr
  | unindexed => exact .unindexed
  | indexed _ ih => exact .indexed (ih levels)
  | single _ ih => exact .single (ih levels)
  | @more _ _ e es _ hes ih ihes =>
    match es, hes, ihes with
    | e' :: es, _, ihes => exact .more (ih levels) ihes

end Surface
end Promela
