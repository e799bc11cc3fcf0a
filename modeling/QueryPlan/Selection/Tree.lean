import QueryPlan.Selection.Basic
import QueryPlan.Selection.Root

namespace QueryPlan.GraphQL

/-- The written arguments, and the declared defaults of those that are not supplied. -/
def argumentsOf (bindings : Json.Object) (head : FieldHead)
    (definition : Option FieldDefinition) : Json.Object :=
  let declared := (definition.map (·.arguments)).getD []
  declared.foldl
    (fun args input =>
      match input.default with
      | some default =>
        if args.contains input.name then args else args.insert input.name (default.decode [])
      | none => args)
    (decodeArguments bindings head.args)

/-- The type whose fields the selection set of a field of type `returnType` selects. -/
def scopeOfType (schema : Schema) (returnType : String) : Option ObjectType :=
  schema.object? (typeNameOfText returnType)

def describe (schema : Schema) (bindings : Json.Object) (head : FieldHead) (returnType : String)
    (definition : Option FieldDefinition) (fields : Option (List SelectedField)) :
    SelectedField where
  name := head.name
  aliasName := head.aliasName
  typeName := typeNameOfText returnType
  isList := isListText returnType
  args := argumentsOf bindings head definition
  directivesObject :=
    ((scopeOfType schema returnType).map fun o => decodeDirectives [] o.directives).getD []
  directivesField := (definition.map fun d => decodeDirectives [] d.directives).getD []
  fields := fields

def returnTypeOf (name : String) : Option FieldDefinition → String
  | some d => d.type.text
  | none => if name = "__typename" then "String!" else ""

/-- The fields of a selection set with its fragments spread in place. The type condition of a
fragment is the scope of its fields if it names an object or interface type. -/
def selectedFields (schema : Schema) (bindings : Json.Object) (available : List Fragment)
    (scope : Option ObjectType) : List Selection → List SelectedField
  | [] => []
  | .field head selections :: rest =>
    (if isSelected bindings head.directives then
      let definition := scope.bind (·.field? head.name)
      let returnType := returnTypeOf head.name definition
      [describe schema bindings head returnType definition
        (if selections.isEmpty then none
        else some (selectedFields schema bindings available (scopeOfType schema returnType)
          selections))]
    else []) ++ selectedFields schema bindings available scope rest
  | .spread name directives :: rest =>
    (if isSelected bindings directives then
      match _h : fragment? available name with
      | some f =>
        selectedFields schema bindings (withoutFragment available name)
          ((schema.object? f.condition).or scope) f.selections
      | none => []
    else []) ++ selectedFields schema bindings available scope rest
  | .inline condition directives selections :: rest =>
    (if isSelected bindings directives then
      selectedFields schema bindings available ((condition.bind schema.object?).or scope)
        selections
    else []) ++ selectedFields schema bindings available scope rest
termination_by selections => (available.length, sizeOf selections)
decreasing_by
  all_goals first
    | exact .left _ _ (withoutFragment_length_lt _h)
    | apply Prod.Lex.right
      simp only [List.cons.sizeOf_spec, Selection.field.sizeOf_spec, Selection.inline.sizeOf_spec]
      omega

namespace RootField

def definition? (r : RootField) : Option FieldDefinition := r.schema.field? r.parentType r.name

/-- The fields selected below one occurrence, if it has a selection set. -/
def fieldsOf (r : RootField) (o : Occurrence) : Option (List SelectedField) :=
  if o.selections.isEmpty then none
  else some (selectedFields r.schema r.bindings r.fragments (scopeOfType r.schema r.returnType)
    o.selections)

/-- The first occurrence, with the fields of all of them. -/
def tree? (r : RootField) : Option SelectedField :=
  match r.occurrences with
  | [] => none
  | first :: rest =>
    some (describe r.schema r.bindings first.head r.returnType r.definition?
      (rest.foldl
        (fun fields o =>
          match r.fieldsOf o with
          | some more => some (fields.getD [] ++ more)
          | none => fields)
        (r.fieldsOf first)))

end RootField

end QueryPlan.GraphQL
