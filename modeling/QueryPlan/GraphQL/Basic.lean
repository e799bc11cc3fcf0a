import QueryPlan.Json.Basic

namespace QueryPlan.GraphQL

inductive Value where
  | null
  | bool (b : Bool)
  | number (n : Json.Number)
  | string (s : String)
  | enumeration (name : String)
  | var (name : String)
  | list (items : List Value)
  | object (fields : List (String × Value))

structure Directive where
  name : String
  args : List (String × Value)

inductive TypeRef where
  | named (name : String)
  | list (inner : TypeRef)
  | nonNull (inner : TypeRef)

structure FieldHead where
  aliasName : Option String
  name : String
  args : List (String × Value)
  directives : List Directive

inductive Selection where
  | field (head : FieldHead) (selections : List Selection)
  | spread (fragment : String) (directives : List Directive)
  | inline (condition : Option String) (directives : List Directive)
      (selections : List Selection)

inductive OperationKind where
  | query | mutation | subscription
deriving DecidableEq

structure Operation where
  kind : OperationKind
  name : Option String
  selections : List Selection

structure Fragment where
  name : String
  condition : String
  selections : List Selection

structure Document where
  operations : List Operation
  fragments : List Fragment

def FieldHead.responseKey (f : FieldHead) : String := f.aliasName.getD f.name

structure InputDefinition where
  name : String
  default : Option Value

structure FieldDefinition where
  name : String
  arguments : List InputDefinition
  type : TypeRef
  directives : List Directive

structure ObjectType where
  name : String
  directives : List Directive
  fields : List FieldDefinition

structure RootTypes where
  query : Option String := none
  mutation : Option String := none
  subscription : Option String := none

/-- What a schema says of operations and of object and interface types. -/
structure Schema where
  roots : List RootTypes
  objects : List ObjectType

def RootTypes.type? (r : RootTypes) : OperationKind → Option String
  | .query => r.query
  | .mutation => r.mutation
  | .subscription => r.subscription

def OperationKind.defaultType : OperationKind → String
  | .query => "Query"
  | .mutation => "Mutation"
  | .subscription => "Subscription"

/-- The type of an operation: the first one that a `schema` definition names for it. -/
def Schema.rootType (s : Schema) (kind : OperationKind) : String :=
  (s.roots.findSome? (·.type? kind)).getD kind.defaultType

def Schema.object? (s : Schema) (name : String) : Option ObjectType :=
  s.objects.find? (·.name = name)

def ObjectType.field? (o : ObjectType) (name : String) : Option FieldDefinition :=
  o.fields.find? (·.name = name)

end QueryPlan.GraphQL
