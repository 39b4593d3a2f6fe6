import Promela.Fault
import Promela.Variable

/-! The declarations of one model. Ids count every variable, fields included; names live in one table
for global variables and one for typedefs. -/
namespace Promela

structure Declarations where
  /-- Every variable at the place its id says. -/
  vars : List Variable
  /-- The global variables in declaration order. -/
  globals : List Variable
  records : List Record
deriving DecidableEq

/-- A field as it is declared, before it has an id. -/
structure FieldDecl where
  name : String
  type : ValueType
  length : Option Nat
deriving DecidableEq

namespace Declarations

def empty : Declarations := ⟨[], [], []⟩

instance : EmptyCollection Declarations := ⟨empty⟩

def get? (d : Declarations) (id : VarId) : Option Variable := d.vars[id]?

def lookup? (d : Declarations) (name : String) : Option Variable := d.globals.find? (·.name = name)

def record? (d : Declarations) (name : String) : Option Record := d.records.find? (·.name = name)

def size (d : Declarations) : Nat := d.globals.length

def lookup (d : Declarations) (name : String) (span : Span) : Checked Variable :=
  match d.lookup? name with
  | some v => .ok v
  | none => .error ⟨.undefinedVariable name, span⟩

def nextId (d : Declarations) : VarId := d.vars.length

/-- No table has more ids than this. -/
def limit : Nat := UInt32.size

/-- Adds a global variable under the next id. -/
def addGlobal (d : Declarations) (name : String) (layout : Layout) (length : Option Nat)
    (signature : Option Signature) (span : Span) : Checked (Variable × Declarations) :=
  if (d.lookup? name).isSome then .error ⟨.duplicateVariable name, span⟩
  else if length = some 0 then .error ⟨.emptyArray name, span⟩
  else if limit ≤ d.nextId then .error ⟨.tooManyVariables, span⟩
  else
    let v : Variable := ⟨d.nextId, name, layout, length, signature⟩
    .ok (v, { d with vars := d.vars ++ [v], globals := d.globals ++ [v] })

def declareScalar (d : Declarations) (name : String) (type : ValueType) (length : Option Nat)
    (span : Span) : Checked (Variable × Declarations) :=
  d.addGlobal name (.scalar type) length none span

/-- A channel without a signature carries any message. -/
def declareChannel (d : Declarations) (name : String) (signature : Option Signature)
    (length : Option Nat) (span : Span) : Checked (Variable × Declarations) :=
  if signature.any (·.fields.isEmpty) then .error ⟨.emptySignature name, span⟩
  else d.addGlobal name (.scalar .chan) length signature span

def declareRecordVariable (d : Declarations) (name record : String) (length : Option Nat)
    (span : Span) : Checked (Variable × Declarations) :=
  match d.record? record with
  | none => .error ⟨.undefinedRecord record, span⟩
  | some r => d.addGlobal name (.record r) length none span

/-- Takes an id for each field in turn. The ids taken before a refused field stay taken. -/
def addFields (record : String) (span : Span) :
    List FieldDecl → List Field → Declarations → Checked (List Field) × Declarations
  | [], done, d => (.ok done, d)
  | f :: fs, done, d =>
    if done.any (·.name = f.name) then (.error ⟨.duplicateField record f.name, span⟩, d)
    else if f.length = some 0 then (.error ⟨.emptyArray f.name, span⟩, d)
    else if limit ≤ d.nextId then (.error ⟨.tooManyVariables, span⟩, d)
    else
      let field : Field := ⟨d.nextId, f.name, f.type, f.length⟩
      addFields record span fs (done ++ [field])
        { d with vars := d.vars ++ [field.toVariable] }

/-- The table is returned in every case, since a refused typedef may have used up ids. -/
def defineRecord (d : Declarations) (name : String) (fields : List FieldDecl) (span : Span) :
    Checked Record × Declarations :=
  if (d.record? name).isSome then (.error ⟨.duplicateRecord name, span⟩, d)
  else if fields.isEmpty then (.error ⟨.emptyRecord name, span⟩, d)
  else
    match addFields name span fields [] d with
    | (.error e, d) => (.error e, d)
    | (.ok fields, d) =>
      let r : Record := ⟨name, fields⟩
      (.ok r, { d with records := d.records ++ [r] })

end Declarations
end Promela
