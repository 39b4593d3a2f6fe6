import Promela.ValueType

/-! Variables: global scalars, channels and typedef values, and the fields of typedefs, which are
variables with identities of their own. -/
namespace Promela

/-- Ids are handed out densely from 0, in declaration order. -/
abbrev VarId := Nat

/-- Capacity and message layout of a channel declaration. -/
structure Signature where
  capacity : Nat
  fields : List ValueType
deriving DecidableEq

/-- A field of a typedef. Fields hold scalars only. -/
structure Field where
  id : VarId
  name : String
  type : ValueType
  length : Option Nat
deriving DecidableEq

/-- The layout of a typedef. -/
structure Record where
  name : String
  fields : List Field
deriving DecidableEq

namespace Record

def field? (r : Record) (name : String) : Option Field := r.fields.find? (·.name = name)

def hasField (r : Record) (id : VarId) : Bool := r.fields.any (·.id = id)

end Record

inductive Layout
  | scalar (type : ValueType)
  | record (layout : Record)
deriving DecidableEq

structure Variable where
  id : VarId
  name : String
  layout : Layout
  length : Option Nat
  signature : Option Signature
deriving DecidableEq

namespace Variable

/-- The type of one value, none for a typedef variable. -/
def type? (v : Variable) : Option ValueType :=
  match v.layout with
  | .scalar t => some t
  | .record _ => none

def record? (v : Variable) : Option Record :=
  match v.layout with
  | .scalar _ => none
  | .record r => some r

def isArray (v : Variable) : Bool := v.length.isSome

end Variable

def Field.toVariable (f : Field) : Variable := ⟨f.id, f.name, .scalar f.type, f.length, none⟩

end Promela
