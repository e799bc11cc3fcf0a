import QueryPlan.Proofs.GraphQL.TypeText
import QueryPlan.Proofs.Selection.Arguments
import QueryPlan.Proofs.Selection.Walk

namespace QueryPlan.GraphQL

/-- A written field, the names of the types that it may be a field of, innermost first, and the
fragments that are being expanded around it. The types are the conditions of the fragments that
enclose it in its selection set, and the type of the field that has this selection set. -/
structure Site where
  occurrence : Occurrence
  types : List String
  path : List String

/-- The nearest of the types that is an object or interface type. -/
def Schema.scope (schema : Schema) (types : List String) : Option ObjectType :=
  types.findSome? schema.object?

def Site.definition? (schema : Schema) (s : Site) : Option FieldDefinition :=
  s.occurrence.head.definition? (schema.scope s.types)

section

variable {schema : Schema} {bindings : Json.Object} {fragments : List Fragment}
  {path types : List String}

theorem Schema.Unmarked.field? (unmarked : schema.Unmarked) {type field : String}
    {d : FieldDefinition} (declared : schema.field? type field = some d) : d.type.Unmarked := by
  obtain ⟨o, object, found⟩ := Option.bind_eq_some_iff.1 declared
  exact unmarked o (List.mem_of_find?_eq_some object) d (List.mem_of_find?_eq_some found)

theorem Schema.Unmarked.definition? (unmarked : schema.Unmarked) {s : Site} {d : FieldDefinition}
    (declared : s.definition? schema = some d) : d.type.Unmarked := by
  obtain ⟨o, found, field⟩ := Option.bind_eq_some_iff.1 declared
  obtain ⟨name, -, object⟩ := List.exists_of_findSome?_eq_some found
  exact unmarked o (List.mem_of_find?_eq_some object) d (List.mem_of_find?_eq_some field)

end

theorem Document.rootField_returnType (d : Document) (schema : Schema) (bindings : Json.Object)
    (operation : Option String) (key : String) :
    (d.rootField schema bindings operation key).returnType =
      ((d.rootField schema bindings operation key).definition?.map (·.type.text)).getD "" := rfl

namespace RootField

variable {r : RootField} {root : SelectedField}

end RootField

end QueryPlan.GraphQL

namespace QueryPlan.Sample

open GraphQL

def titles : Occurrence := ⟨⟨none, "title", [], []⟩, []⟩

end QueryPlan.Sample
