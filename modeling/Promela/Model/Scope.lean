import Promela.Expr.Typing
import Promela.Model
import Promela.Surface

/-! Looking up names. A name stands for a macro, an mtype constant or a variable, and these share one
namespace. -/
namespace Promela

/-- What names can mean at some place of a source text. -/
structure Scope where
  mtypes : Mtypes
  declared : Declarations
  definitions : List Definition

namespace Scope

def definition? (s : Scope) (name : String) : Option Definition :=
  s.definitions.find? (·.name.value = name)

/-- Literals are read in 64 bits before they are given a type. -/
def literal (v : Int) (span : Span) : Checked Expr := do
  require (Int64.minValue.toInt ≤ v ∧ v ≤ Int64.maxValue.toInt) (.literalSize v) span
  Expr.buildInt span v

mutual

/-- The typed expression for what is written. A negated literal is one literal, since the least `int`
has no positive counterpart. -/
def expr (s : Scope) : Surface.Expr → Checked Expr
  | .number span n => literal n span
  | .truth span b => pure (.buildBool span b)
  | .reference span r =>
    let name := r.name.value
    match s.definition? name, s.mtypes.code? name with
    | some d, _ => do
      require r.plainName?.isSome (.indexedDefinition name) span
      pure d.body
    | none, some code => do
      require r.plainName?.isSome (.indexedMtype name) span
      pure (.buildMtype span code)
    | none, none => do
      let v ← s.declared.lookup name r.name.span
      let p ← place s v r
      Expr.buildPlace span p
  | .unary span .neg (.number _ n) => literal (-n) span
  | .unary span op e => do
    let e ← expr s e
    Expr.buildUnary span op e
  | .binary span op l r => do
    let l ← expr s l
    let r ← expr s r
    Expr.buildBinary span op l r
  | .ternary span c a b => do
    let c ← expr s c
    let a ← expr s a
    let b ← expr s b
    Expr.buildTernary span c a b
  | .query span op c => do
    let c ← expr s c
    Expr.buildQuery span op c
  | .poll span c as => do
    let c ← expr s c
    let as ← args s as
    Expr.buildPoll span c as
  | .eval span e => do
    let e ← expr s e
    Expr.buildEval span e

/-- The place that a reference to `v` denotes. -/
def place (s : Scope) (v : Variable) : Surface.Reference → Checked Place
  | .leaf name i => do
    let i ← index s i
    Place.build v i name.span
  | .field name i rest => do
    let i ← index s i
    let p ← Place.build v i name.span
    let field := rest.name
    match v.record? with
    | none => throw ⟨.noFields v.name, field.span⟩
    | some r =>
      match r.field? field.value with
      | none => throw ⟨.noSuchField r.name field.value, field.span⟩
      | some f => do
        let q ← place s f.toVariable rest
        p.select q field.span

def index (s : Scope) : Option Surface.Expr → Checked (Option Expr)
  | none => pure none
  | some e => do
    let e ← expr s e
    pure (some e)

def args (s : Scope) : List Surface.Expr → Checked (List Expr)
  | [] => pure []
  | e :: es => do
    let e ← expr s e
    let es ← args s es
    pure (e :: es)

end

/-- The codes of the constants that are looked up for an expression. The body of a macro is taken as it is;
its own constants were looked up where the macro is defined. -/
def constants (s : Scope) (e : Surface.Expr) : List Nat :=
  e.names.filterMap fun name => if (s.definition? name).isSome then none else s.mtypes.code? name

/-- A size is a literal or a macro with a constant value. -/
def size (s : Scope) : Surface.Size → Checked Nat
  | .number n => do
    require (n.value < UInt32.size) .sizeRange n.span
    pure n.value
  | .named n =>
    match (s.definition? n.value).bind (·.body.constant?) with
    | none => throw ⟨.sizeNotConstant n.value, n.span⟩
    | some v => do
      require (0 ≤ v ∧ v < UInt32.size) .sizeRange n.span
      pure v.toNat

def optionalSize (s : Scope) : Option Surface.Size → Checked (Option Nat)
  | none => pure none
  | some n => do
    let n ← s.size n
    pure (some n)

/-- A new variable or macro must not have the name of a constant or macro. -/
def checkFresh (s : Scope) (name : Located String) : Checked Unit := do
  require (s.mtypes.code? name.value = none) (.alreadyMtype name.value) name.span
  require (s.definition? name.value).isNone (.alreadyDefinition name.value) name.span

end Scope
end Promela
