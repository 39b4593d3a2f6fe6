import Promela.Model.Event
import Promela.Model.Scope
import Promela.Surface.ItemParser
import Promela.Token.Lexer

/-! Reading a model from its source text: tokens, items, and then one item after the other with the
names that are known so far. The log says what was settled, also when the text is rejected in the end. -/
namespace Promela

/-- What the items read so far have settled. -/
structure Progress extends Scope where
  initials : List InitialValue
  log : List Event
  /-- The codes of the constants that were looked up. -/
  used : List Nat

/-- A step that may be refused. What was settled before that stays known. -/
abbrev Resolving := EStateM Rejection Progress

namespace Resolving

def checked {α : Type} (c : Checked α) : Resolving α :=
  match c with
  | .ok a => pure a
  | .error f => throw (.ofFault f)

/-- The typed expression for what is written. The constants that it names are noted as used. -/
def resolve (s : Scope) (raw : Surface.Expr) : Resolving Expr := do
  let e ← checked (s.expr raw)
  modify fun p => { p with used := p.used ++ s.constants raw }
  pure e

/-- Adds one global variable to the declarations. -/
def declare (op : Declarations → Checked (Variable × Declarations)) : Resolving Variable := do
  let p ← get
  let (v, d) ← checked (op p.declared)
  set ({ p with declared := d, log := p.log ++ [.variableDeclared v.name v.id] } : Progress)
  pure v

def recordField (s : Scope) (record : String) (f : Surface.FieldDecl) : Resolving FieldDecl :=
  match f.type.value with
  | .record t => throw (.ofUnread (.nestedRecord record f.name.value t) f.type.span)
  | .scalar t => do
    let length ← checked (s.optionalSize f.size)
    pure ⟨f.name.value, t, length⟩

def record (name : Located String) (fields : List Surface.FieldDecl) : Resolving Unit := do
  let p ← get
  let fields ← fields.mapM (recordField p.toScope name.value)
  match p.declared.defineRecord name.value fields name.span with
  | (.ok r, d) =>
    set ({ p with declared := d, log := p.log ++ [.recordDefined r.name r.fields.length] } : Progress)
  | (.error f, d) => do
    set ({ p with declared := d } : Progress)
    throw (.ofFault f)

def messageField (t : Located Surface.TypeName) : Resolving ValueType :=
  match t.value with
  | .scalar t => pure t
  | .record r => throw (.ofUnread (.recordInMessage r) t.span)

def signature (s : Scope) (capacity : Surface.Size) (fields : List (Located Surface.TypeName)) :
    Resolving Signature := do
  let capacity ← checked (s.size capacity)
  let fields ← fields.mapM messageField
  pure ⟨capacity, fields⟩

def channel (s : Scope) (d : Surface.Declarator) (length : Option Nat) : Resolving Unit := do
  let sig ← match d.init with
    | some (.value e) => throw (.ofMalformed (.channelInitializer d.name.value) e.span)
    | some (.channel capacity fields _) => some <$> signature s capacity fields
    | none => pure none
  let _ ← declare (·.declareChannel d.name.value sig length d.name.span)

/-- The value is looked up before the variable exists, so no variable is its own initial value. -/
def scalar (s : Scope) (t : ValueType) (d : Surface.Declarator) (length : Option Nat) :
    Resolving Unit := do
  let add := declare (·.declareScalar d.name.value t length d.name.span)
  match d.init with
  | some (.channel _ _ span) => throw (.ofMalformed (.notAChannel d.name.value) span)
  | none =>
    let _ ← add
  | some (.value e) => do
    let e ← resolve s e
    let v ← add
    checked (require (t.accepts e.type) (.initialization t d.name.value e.type) e.span)
    modify fun p => { p with initials := p.initials ++ [⟨v, e⟩] }

def recordVariable (r : String) (d : Surface.Declarator) (length : Option Nat) : Resolving Unit := do
  match d.init with
  | some (.channel _ _ span) => throw (.ofMalformed (.notAChannel d.name.value) span)
  | some (.value e) => throw (.ofMalformed (.recordInitializer d.name.value) e.span)
  | none =>
    let _ ← declare (·.declareRecordVariable d.name.value r length d.name.span)

def declarator (t : Surface.TypeName) (d : Surface.Declarator) : Resolving Unit := do
  let s := (← get).toScope
  checked (s.checkFresh d.name)
  let length ← checked (s.optionalSize d.size)
  match t with
  | .scalar .chan => channel s d length
  | .scalar t => scalar s t d length
  | .record r => recordVariable r d length

def define (name : Located String) (body : Surface.Expr) : Resolving Unit := do
  let p ← get
  checked (p.checkFresh name)
  checked (require (p.declared.lookup? name.value = none) (.alreadyVariable name.value) name.span)
  let body ← resolve p.toScope body
  modify fun p => { p with definitions := p.definitions ++ [⟨name, body⟩] }

/-- The constants are known before the first item, and nothing skipped gets here. -/
def item : Surface.Item → Resolving Unit
  | .mtypes _ | .unread _ => pure ()
  | .record name fields => record name fields
  | .globals t ds => ds.forM (declarator t.value)
  | .define name body => define name body

end Resolving

namespace Surface
namespace Item

def mtypeNames : Item → List (Located String)
  | mtypes names => names
  | _ => []

def unread? : Item → Option (Located String)
  | unread word => some word
  | _ => none

end Item
end Surface

namespace Mtypes

def declareAll (m : Mtypes) (names : List (Located String)) : Checked Mtypes :=
  names.foldlM (fun m n => (·.2) <$> m.declare n.value n.span) m

end Mtypes

/-- The constants with codes that were not used, in the order of their codes. -/
def unusedMtypes (names : List (Located String)) (base : Nat) (used : List Nat) : List Notice :=
  ((names.zipIdx base).filter (!used.contains ·.2)).map fun n => .unusedMtype n.1

structure Reading where
  log : List Event
  outcome : Except Rejection Model

namespace Reading

def rejected (r : Rejection) (log : List Event) : Reading := ⟨log, .error r⟩

/-- All constants are declared first, wherever they stand. -/
def ofItems (base : Nat) (path : String) (items : List Surface.Item) : Reading :=
  match items, items.findSome? (·.unread?) with
  | [], _ => rejected ⟨.malformed .noDeclarations, none⟩ []
  | _, some word => rejected (.ofUnread (.construct word.value) word.span) []
  | _, none =>
    let names := items.flatMap (·.mtypeNames)
    match (Mtypes.withBase base).declareAll names with
    | .error f => rejected (.ofFault f) []
    | .ok mtypes =>
      let start : Progress := ⟨⟨mtypes, ∅, []⟩, [], [.mtypesFrozen mtypes.size base], []⟩
      match (items.forM Resolving.item).run start with
      | .error r p => rejected r p.log
      | .ok _ p =>
        let model : Model :=
          ⟨mtypes, p.declared, p.definitions, p.initials, unusedMtypes names base p.used⟩
        ⟨p.log ++ [.modelResolved path model.stats], .ok model⟩

def ofSource (base : Nat) (path source : String) : Reading :=
  match (tokens source path).bind Surface.items with
  | .error r => rejected r []
  | .ok items => ofItems base path items

end Reading

/-- The model in a source text. Codes of mtype constants start at `base`. -/
def Model.ofSource (base : Nat) (path source : String) : Except Rejection Model :=
  (Reading.ofSource base path source).outcome

end Promela
