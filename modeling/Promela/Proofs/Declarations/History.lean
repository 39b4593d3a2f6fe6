import Promela.Proofs.Declarations

/-! What a run of calls leaves in the table: every global that a call declared, in order, under an id of its
own, and all that was found before. A refused call leaves everything as it was, but for a typedef that is
refused at a later field: the fields before that one keep their ids. -/
namespace Promela
namespace Declarations

/-- What a call for a global variable returns. -/
def answer (c : Checked (Variable × Declarations)) : Checked (Variable ⊕ Record) :=
  c.map fun p => .inl p.1

/-- What a call returns: the global variable that it declares, or the typedef. -/
def returned (d : Declarations) : Declaration → Checked (Variable ⊕ Record)
  | .scalar n t l s => answer (d.declareScalar n t l s)
  | .channel n g l s => answer (d.declareChannel n g l s)
  | .recordVariable n r l s => answer (d.declareRecordVariable n r l s)
  | .record n fs s => (d.defineRecord n fs s).1.map .inr

def newGlobals : Checked (Variable ⊕ Record) → List Variable
  | .ok (.inl v) => [v]
  | _ => []

/-- The global variables that a run of calls declares, in order. -/
def declared (d : Declarations) : List Declaration → List Variable
  | [] => []
  | c :: cs => newGlobals (d.returned c) ++ (d.perform c).declared cs

/-- Nothing that is found is lost or changed. -/
structure Retains (d d' : Declarations) : Prop where
  lookup? {name : String} {v : Variable} : d.lookup? name = some v → d'.lookup? name = some v
  get? {id : VarId} {v : Variable} : d.get? id = some v → d'.get? id = some v
  record? {name : String} {r : Record} : d.record? name = some r → d'.record? name = some r

theorem Retains.trans {d d' d'' : Declarations} (h : d.Retains d') (h' : d'.Retains d'') :
    d.Retains d'' where
  lookup? hv := h'.lookup? (h.lookup? hv)
  get? hv := h'.get? (h.get? hv)
  record? hr := h'.record? (h.record? hr)

/-- The table is only ever added to at its ends. -/
theorem Grows.prefixes {d d' : Declarations} (h : Grows d d') :
    d.vars <+: d'.vars ∧ d.globals <+: d'.globals ∧ d.records <+: d'.records := by
  cases h with
  | global _ => exact ⟨List.prefix_append _ _, List.prefix_append _ _, List.prefix_rfl⟩
  | fields _ => exact ⟨List.prefix_append _ _, List.prefix_rfl, List.prefix_rfl⟩
  | record _ _ _ _ => exact ⟨List.prefix_append _ _, List.prefix_rfl, List.prefix_append _ _⟩

theorem get?_of_prefix {d d' : Declarations} (h : d.vars <+: d'.vars) {id : VarId} {v : Variable}
    (hv : d.get? id = some v) : d'.get? id = some v := by
  obtain ⟨hlt, rfl⟩ := List.getElem?_eq_some_iff.mp hv
  exact (List.prefix_iff_getElem?.mp h) _ hlt

/-- The fields whose ids a call uses up although it is refused. -/
def leftover (d : Declarations) : Declaration → List Field
  | .record name fs _ => if (d.record? name).isSome then [] else numbered d.nextId (accepted d.nextId [] fs)
  | _ => []

theorem settled_of_error {d : Declarations} {c : Checked (Variable × Declarations)} {e : Located Fault}
    (h : answer c = .error e) : d.settled c = d := by
  cases c with
  | error _ => rfl
  | ok p => cases h

/-- A refused typedef leaves its fields before the refused one behind, as variables that no name leads to.
Any other refused call leaves the table as it was. -/
theorem perform_of_refused {d : Declarations} {c : Declaration} {e : Located Fault}
    (h : d.returned c = .error e) : d.perform c = d.withFields (d.leftover c) := by
  cases c with
  | scalar n t l s => exact (settled_of_error h).trans (withFields_nil d).symm
  | channel n g l s => exact (settled_of_error h).trans (withFields_nil d).symm
  | recordVariable n r l s => exact (settled_of_error h).trans (withFields_nil d).symm
  | record n fs s =>
    obtain ⟨e, heq⟩ | ⟨-, -, -, heq⟩ := defineRecord_cases d n fs s
    · exact congrArg Prod.snd heq
    · rw [returned, heq] at h
      cases h

/-- Of three fields, the last of which has the name of the first, two leave their ids behind. -/
theorem perform_of_refused_third_field :
    let s := Span.point "" .first
    let c := Declaration.record "T" [⟨"a", .byte, none⟩, ⟨"b", .int, some 2⟩, ⟨"a", .byte, none⟩] s
    (∅ : Declarations).returned c = .error ⟨.duplicateField "T" "a", s⟩ ∧
      (∅ : Declarations).perform c =
        (∅ : Declarations).withFields [⟨0, "a", .byte, none⟩, ⟨1, "b", .int, some 2⟩] :=
  ⟨rfl, perform_of_refused rfl⟩

/-- A refused typedef shifts the id that the next variable gets. -/
theorem returned_after_refused_record :
    let s := Span.point "" .first
    let c := Declaration.record "T" [⟨"a", .byte, none⟩, ⟨"a", .byte, none⟩] s
    let x := Declaration.scalar "x" .byte none s
    (∅ : Declarations).returned c = .error ⟨.duplicateField "T" "a", s⟩ ∧
      (∅ : Declarations).perform c ≠ ∅ ∧
      (∅ : Declarations).returned x = .ok (.inl ⟨0, "x", .scalar .byte, none, none⟩) ∧
      ((∅ : Declarations).perform c).returned x = .ok (.inl ⟨1, "x", .scalar .byte, none, none⟩) :=
  ⟨rfl, by decide, rfl, rfl⟩

end Declarations
end Promela
