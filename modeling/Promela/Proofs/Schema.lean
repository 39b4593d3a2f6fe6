import Promela.CommandLine.Result

/-! Schemas of JSON values, and the schema of results. A schema is built from keywords. Each keyword constrains
the values of the kind it is about, and all other values pass. -/
namespace Promela

namespace Json

inductive Kind | null | integer | string | array | object
deriving DecidableEq

def kind : Json → Kind
  | null => .null
  | number _ => .integer
  | string _ => .string
  | array _ => .array
  | object _ => .object

/-- The members of an object; no other value has any. -/
def memberList : Json → List (String × Json)
  | object ms => ms
  | _ => []

def itemList : Json → List Json
  | array js => js
  | _ => []

/-- The member of that name. -/
def member? (j : Json) (name : String) : Option Json := j.memberList.lookup name

end Json

inductive Schema where
  | any
  | both (first second : Schema)
  | type (kinds : List Json.Kind)
  | enum (values : List Json)
  | minimum (bound : Nat)
  | pattern (fits : String → Prop)
  | required (names : List String)
  | property (name : String) (schema : Schema)
  | items (schema : Schema)
  | minItems (bound : Nat)

namespace Schema

def Accepts : Schema → Json → Prop
  | any, _ => True
  | both s t, j => s.Accepts j ∧ t.Accepts j
  | type kinds, j => j.kind ∈ kinds
  | enum values, j => j ∈ values
  | minimum bound, j => ∀ n, j = .number n → bound ≤ n
  | pattern fits, j => ∀ s, j = .string s → fits s
  | required names, j => j.kind = .object → ∀ name ∈ names, ∃ v, (name, v) ∈ j.memberList
  | property name s, j => ∀ v, (name, v) ∈ j.memberList → s.Accepts v
  | items s, j => ∀ v ∈ j.itemList, s.Accepts v
  | minItems bound, j => j.kind = .array → bound ≤ j.itemList.length

/-- All of the schemas have to accept a value. -/
def all (ss : List Schema) : Schema := ss.foldr both any

def text : Schema := type [.string]

def words (ws : List String) : Schema := enum (ws.map .string)

def integer (least : Nat) : Schema := both (type [.integer]) (minimum least)

/-- What is asked of an object but that it is one. -/
def fields (names : List String) (properties : List (String × Schema)) : Schema :=
  both (required names) (all (properties.map fun p => property p.1 p.2))

def object (names : List String) (properties : List (String × Schema)) : Schema :=
  both (type [.object]) (fields names properties)

/-- The members stand in the order of the properties, of which some may be without a member, and each has what is
asked of it. -/
inductive Aligned : List (String × Schema) → List (String × Json) → Prop
  | nil : Aligned [] []
  | present {name : String} {s : Schema} {j : Json} {ps : List (String × Schema)} {ms : List (String × Json)} :
      s.Accepts j → Aligned ps ms → Aligned ((name, s) :: ps) ((name, j) :: ms)
  | absent {name : String} {s : Schema} {ps : List (String × Schema)} {ms : List (String × Json)} :
      Aligned ps ms → Aligned ((name, s) :: ps) ms

namespace Aligned

variable {ps : List (String × Schema)} {ms : List (String × Json)}

theorem name_mem (h : Aligned ps ms) : ∀ m ∈ ms, m.1 ∈ ps.map Prod.fst := by
  induction h with
  | nil => exact fun _ hm => absurd hm List.not_mem_nil
  | present _ _ ih => exact List.forall_mem_cons.mpr ⟨List.mem_cons_self, fun m hm => List.mem_cons_of_mem _ (ih m hm)⟩
  | absent _ ih => exact fun m hm => List.mem_cons_of_mem _ (ih m hm)

theorem accepts (h : Aligned ps ms) (hnodup : (ps.map Prod.fst).Nodup) :
    ∀ p ∈ ps, ∀ v, (p.1, v) ∈ ms → p.2.Accepts v := by
  induction h with
  | nil => exact fun _ hp => absurd hp List.not_mem_nil
  | @present name s j ps ms hj htail ih =>
    obtain ⟨hfresh, hnodup⟩ := List.nodup_cons.mp hnodup
    refine List.forall_mem_cons.mpr ⟨fun v hv => ?_, fun p hp v hv => ?_⟩
    · rcases List.mem_cons.mp hv with heq | hv
      · cases heq
        exact hj
      · exact absurd (htail.name_mem _ hv) hfresh
    · rcases List.mem_cons.mp hv with heq | hv
      · cases heq
        exact absurd (List.mem_map_of_mem hp) hfresh
      · exact ih hnodup p hp v hv
  | @absent name s ps ms htail ih =>
    obtain ⟨hfresh, hnodup⟩ := List.nodup_cons.mp hnodup
    refine List.forall_mem_cons.mpr ⟨fun v hv => ?_, ih hnodup⟩
    exact absurd (htail.name_mem _ hv) hfresh

end Aligned

section

variable {names : List String} {ps : List (String × Schema)} {ms : List (String × Json)}

end

end Schema

namespace CommandLine

open Schema

end CommandLine
end Promela
