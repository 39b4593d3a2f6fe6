import Promela.Span
import Promela.ValueType
import Promela.Operator

/-! Why a declaration, an expression or an operation is refused. Each constructor is one cause; the
kind and the wording of a cause are given here and nowhere else. -/
namespace Promela

inductive FaultKind
  | typeMismatch | arityMismatch | invalidIndex | invalidOperand | invalidLiteral | notAnLvalue
  | unresolvedReference | duplicateDeclaration | capacity
deriving DecidableEq

inductive Fault
  | literalRange (value : Int)
  | literalSize (value : Int)
  | wholeRecord (name : String)
  | unaryOperand (op : UnaryOp) (type : ValueType)
  | binaryOperands (op : BinaryOp) (left right : ValueType)
  | comparison (left right : ValueType)
  | zeroDivisor
  | condition (type : ValueType)
  | branches (first second : ValueType)
  | evalOperand (type : ValueType)
  | queriedChannel (op : ChannelOp) (type : ValueType)
  | messageChannel (type : ValueType)
  | emptyMessage
  | messageLength (expected actual : Nat)
  | messageField (field value : ValueType)
  | notAnArray (name : String)
  | indexType (name : String)
  | indexBounds (index : Int) (name : String) (length : Nat)
  | noFields (name : String)
  | noSuchField (record field : String)
  | indexedDefinition (name : String)
  | indexedMtype (name : String)
  | notAVariable
  | assignment (value target : ValueType)
  | initialization (type : ValueType) (name : String) (value : ValueType)
  | emptySignature (channel : String)
  | undefinedRecord (name : String)
  | duplicateRecord (name : String)
  | emptyRecord (name : String)
  | duplicateField (record field : String)
  | emptyArray (name : String)
  | duplicateVariable (name : String)
  | undefinedVariable (name : String)
  | tooManyVariables
  | duplicateMtype (name : String)
  | tooManyMtypes
  | mtypeAboveByte (name : String)
  | undefinedMtype (name : String)
  | alreadyMtype (name : String)
  | alreadyDefinition (name : String)
  | alreadyVariable (name : String)
  | sizeNotConstant (name : String)
  | sizeRange
deriving DecidableEq

namespace Fault

def kind : Fault → FaultKind
  | literalRange _ | literalSize _ => .invalidLiteral
  | wholeRecord _ | unaryOperand .. | binaryOperands .. | comparison .. | condition _ | branches ..
  | evalOperand _ | queriedChannel .. | messageChannel _ | messageField .. | indexType _ | noFields _
  | indexedDefinition _ | indexedMtype _ | assignment .. | initialization .. => .typeMismatch
  | emptyMessage | messageLength .. | emptySignature _ | emptyRecord _ => .arityMismatch
  | zeroDivisor => .invalidOperand
  | notAnArray _ | indexBounds .. | emptyArray _ | sizeRange => .invalidIndex
  | notAVariable => .notAnLvalue
  | noSuchField .. | undefinedRecord _ | undefinedVariable _ | undefinedMtype _ | sizeNotConstant _ =>
    .unresolvedReference
  | duplicateRecord _ | duplicateField .. | duplicateVariable _ | duplicateMtype _ | alreadyMtype _
  | alreadyDefinition _ | alreadyVariable _ => .duplicateDeclaration
  | tooManyVariables | tooManyMtypes | mtypeAboveByte _ => .capacity

def message : Fault → String
  | literalRange v => s!"integer literal out of range: {v}"
  | literalSize v => s!"integer literal {v} is out of range"
  | wholeRecord v => s!"{v} is a typedef value, not a scalar"
  | unaryOperand op t => s!"operator {op.symbol} applied to {t.keyword}"
  | binaryOperands op l r => s!"operator {op.symbol} applied to {l.keyword} and {r.keyword}"
  | comparison l r => s!"cannot compare {l.keyword} with {r.keyword}"
  | zeroDivisor => "division by zero"
  | condition t => s!"condition of type {t.keyword}"
  | branches a b => s!"branches of type {a.keyword} and {b.keyword}"
  | evalOperand t => s!"eval of a {t.keyword} value"
  | queriedChannel op t => s!"{op.keyword} needs a chan operand, got {t.keyword}"
  | messageChannel t => s!"message needs a chan operand, got {t.keyword}"
  | emptyMessage => "message needs at least one field"
  | messageLength m n => s!"channel expects {m} field(s), got {n}"
  | messageField f t => s!"{t.keyword} value in a {f.keyword} message field"
  | notAnArray v => s!"{v} is not an array"
  | indexType v => s!"array index of {v} must be numeric"
  | indexBounds i v n => s!"index {i} out of bounds for {v}[{n}]"
  | noFields v => s!"{v} has no fields"
  | noSuchField r f => s!"{r} has no field {f}"
  | indexedDefinition n => s!"#define {n} cannot be indexed"
  | indexedMtype n => s!"mtype constant {n} cannot be indexed"
  | notAVariable => "write target must be a variable"
  | assignment v t => s!"cannot assign {v.keyword} to {t.keyword}"
  | initialization t v u => s!"cannot initialize {t.keyword} {v} with {u.keyword}"
  | emptySignature c => s!"channel {c} declares no message fields"
  | undefinedRecord n => s!"undefined type: {n}"
  | duplicateRecord n => s!"duplicate type: {n}"
  | emptyRecord n => s!"typedef {n} has no fields"
  | duplicateField r f => s!"duplicate field: {r}.{f}"
  | emptyArray v => s!"array {v} must have at least one element"
  | duplicateVariable n => s!"duplicate variable: {n}"
  | undefinedVariable n => s!"undefined variable: {n}"
  | tooManyVariables => "too many variables"
  | duplicateMtype n => s!"duplicate mtype constant: {n}"
  | tooManyMtypes => "too many mtype constants (at most 255)"
  | mtypeAboveByte n => s!"mtype constant {n} would get a code above 255"
  | undefinedMtype n => s!"undefined mtype constant: {n}"
  | alreadyMtype n => s!"{n} is already an mtype constant"
  | alreadyDefinition n => s!"{n} is already a #define"
  | alreadyVariable n => s!"{n} is already a variable"
  | sizeNotConstant n => s!"size {n} is not a constant #define"
  | sizeRange => "size out of range"

end Fault

/-- The outcome of a step that may be refused at some place in the source. -/
abbrev Checked := Except (Located Fault)

end Promela
