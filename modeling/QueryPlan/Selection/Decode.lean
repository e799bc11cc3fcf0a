import QueryPlan.GraphQL.Basic

namespace QueryPlan.GraphQL

namespace Value

mutual

/-- The JSON value of a written value; a variable that is not bound is null. -/
def decode (bindings : Json.Object) : Value → Json
  | .null => .null
  | .bool b => .bool b
  | .number n => .num n
  | .string s => .str s
  | .enumeration name => .str name
  | .var name => (bindings.get? name).getD .null
  | .list items => .arr (decodeItems bindings items)
  | .object fields => .obj (Json.Object.ofList (decodeFields bindings fields))

def decodeItems (bindings : Json.Object) : List Value → List Json
  | [] => []
  | v :: vs => decode bindings v :: decodeItems bindings vs

def decodeFields (bindings : Json.Object) : List (String × Value) → List (String × Json)
  | [] => []
  | (k, v) :: fs => (k, decode bindings v) :: decodeFields bindings fs

end

/-- A variable that is not bound supplies no value for an argument. -/
def isSupplied (bindings : Json.Object) : Value → Bool
  | .var name => bindings.contains name
  | _ => true

end Value

def decodeArguments (bindings : Json.Object) (args : List (String × Value)) : Json.Object :=
  Json.Object.ofList (Value.decodeFields bindings (args.filter fun a => a.2.isSupplied bindings))

def decodeDirectives (bindings : Json.Object) (directives : List Directive) : Json.Object :=
  Json.Object.ofList (directives.map fun d => (d.name, .obj (decodeArguments bindings d.args)))

/-- `@skip` with a true condition and `@include` with a false one leave a selection out. -/
def Directive.excludes (bindings : Json.Object) (d : Directive) : Bool :=
  match d.name, (d.args.lookup "if").map (Value.decode bindings) with
  | "skip", some (.bool b) => b
  | "include", some (.bool b) => !b
  | _, _ => false

def isSelected (bindings : Json.Object) (directives : List Directive) : Bool :=
  directives.all (!·.excludes bindings)

end QueryPlan.GraphQL
