import QueryPlan.GraphQL.TypeText
import QueryPlan.Selection.Decode
import QueryPlan.Selection.Fragment

namespace QueryPlan.GraphQL

structure Occurrence where
  head : FieldHead
  selections : List Selection

/-- The occurrences of a response key in a selection set and in the fragments it spreads, each of
the `available` fragments at most once on a path. -/
def occurrences (bindings : Json.Object) (key : String) (available : List Fragment) :
    List Selection → List Occurrence
  | [] => []
  | .field head selections :: rest =>
    (if head.responseKey = key ∧ isSelected bindings head.directives then
      [⟨head, selections⟩] else []) ++
      occurrences bindings key available rest
  | .spread name directives :: rest =>
    (if isSelected bindings directives then
      match _h : fragment? available name with
      | some f => occurrences bindings key (withoutFragment available name) f.selections
      | none => []
    else []) ++ occurrences bindings key available rest
  | .inline _ directives selections :: rest =>
    (if isSelected bindings directives then
      occurrences bindings key available selections else []) ++
      occurrences bindings key available rest
termination_by selections => (available.length, sizeOf selections)
decreasing_by
  all_goals first
    | exact .left _ _ (withoutFragment_length_lt _h)
    | apply Prod.Lex.right
      simp only [List.cons.sizeOf_spec, Selection.field.sizeOf_spec, Selection.inline.sizeOf_spec]
      omega

/-- A field that answers a response key of an operation, with all it takes to resolve it. -/
structure RootField where
  name : String
  /-- The text of the declared type, empty if there is none. -/
  returnType : String
  parentType : String
  occurrences : List Occurrence
  fragments : List Fragment
  bindings : Json.Object
  schema : Schema

def Document.operation? (d : Document) : Option String → Option Operation
  | none => d.operations.head?
  | some name => d.operations.find? (·.name = some name)

def Schema.field? (s : Schema) (type field : String) : Option FieldDefinition :=
  (s.object? type).bind (·.field? field)

/-- The field that answers `key` in an operation, which may not have any occurrence. -/
def Document.rootField (d : Document) (schema : Schema) (bindings : Json.Object)
    (operation : Option String) (key : String) : RootField :=
  let operation := d.operation? operation
  let parentType := schema.rootType ((operation.map (·.kind)).getD .query)
  let occurrences :=
    (operation.map fun o => occurrences bindings key d.fragments o.selections).getD []
  let name := (occurrences.head?.map (·.head.name)).getD key
  { name, parentType, occurrences, bindings, schema
    returnType := ((schema.field? parentType name).map (·.type.text)).getD ""
    fragments := d.fragments }

end QueryPlan.GraphQL
