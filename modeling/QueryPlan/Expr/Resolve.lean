import QueryPlan.CompileError
import QueryPlan.Expr.Basic
import QueryPlan.Settings

namespace QueryPlan

/-- What an expression reads: associations by name, and fields as `Model.field`. -/
structure Reads where
  associations : List String := []
  fields : List String := []

instance : Append Reads := ⟨fun a b => ⟨a.associations ++ b.associations, a.fields ++ b.fields⟩⟩

structure CompiledExpr where
  expr : Expr
  reads : Reads := {}

/-- What becomes of a string in the place of a column that names none: a literal or an error. -/
inductive Strictness where
  | lenient | strict
deriving DecidableEq

/-- A letter or underscore, then letters, digits, underscores and dots, all of them ASCII. -/
def isFunctionName (name : String) : Bool :=
  match name.toList with
  | [] => false
  | c :: cs => (c.isAlpha || c == '_') && cs.all fun c => c.isAlphanum || c == '_' || c == '.'

/-- What stands before and after the first dot of a name. -/
def splitAtDot? (name : String) : Option (String × String) :=
  match name.toList.dropWhile (· != '.') with
  | [] => none
  | _ :: rest => some (String.ofList (name.toList.takeWhile (· != '.')), String.ofList rest)

/-- A field as it is reported to be read. -/
def qualifiedName (m : Model) (f : Field) : String := m.name ++ "." ++ f.name

/-- A model in the catalog its associations lead into. -/
structure Scope where
  catalog : Catalog
  model : Model

namespace Scope

/-- The column a name stands for: a field of the model, or after a dot one of an associated model. -/
def column? (s : Scope) (name : String) : Except CompileError (Option CompiledExpr) :=
  match splitAtDot? name with
  | none =>
    .ok ((s.model.field? name).map fun f =>
      ⟨.column none f.storageName, { fields := [qualifiedName s.model f] }⟩)
  | some (association, field) =>
    match s.model.association? association with
    | none => .ok none
    | some _ => do
      let (a, target) ← (s.catalog.target s.model association).mapError .catalog
      return (target.field? field).map fun f =>
        ⟨.column (some a.name) f.storageName, ⟨[a.name], [qualifiedName target f]⟩⟩

def compileName (s : Scope) (strictness : Strictness) (name : String) :
    Except CompileError CompiledExpr := do
  match ← s.column? name, strictness with
  | some e, _ => return e
  | none, .lenient => return ⟨.literal (.str name), {}⟩
  | none, .strict => throw (.unknownField s.model.name name)

def functionName : Option Json → Except CompileError String
  | some (.str name) =>
    if isFunctionName name then .ok name
    else .error (.malformedArgument "fn" s!"`{name}` is not a valid function name")
  | _ => .error (.malformedArgument "fn" "function call needs a string `fn`")

/-- No arguments if there are none, and a list of one for a value that is no list. -/
def argumentList : Option Json → List Json
  | none | some .null => []
  | some (.arr items) => items
  | some v => [v]

/-- A string in front is a name; `argument` compiles everything else. -/
def compileArguments (s : Scope) (strictness : Strictness)
    (argument : Json → Except CompileError CompiledExpr) :
    List Json → Except CompileError (List CompiledExpr)
  | .str name :: rest => do
    let first ← s.compileName strictness name
    let rest ← rest.mapM argument
    return first :: rest
  | args => args.mapM argument

/-- A call with at most `remaining` calls nested in one another, itself included. -/
def compileCall (s : Scope) (strictness : Strictness) (limit : UInt64) :
    Nat → Json.Object → Except CompileError CompiledExpr
  | 0, _ => .error (.depthLimitExceeded limit)
  | remaining + 1, call => do
    let function ← functionName (call.get? "fn")
    let args ← s.compileArguments strictness
      (fun v => match v with
        | .obj call => compileCall s strictness limit remaining call
        | v => .ok ⟨.literal v, {}⟩)
      (argumentList (call.get? "args"))
    return ⟨.call function (args.map (·.expr)), args.foldr (·.reads ++ ·) {}⟩

/-- A call, a column or a literal. -/
def compile (s : Scope) (settings : Settings) (strictness : Strictness) :
    Json → Except CompileError CompiledExpr
  | .obj call => s.compileCall strictness settings.maxDepth settings.maxDepth.toNat call
  | .str name => s.compileName strictness name
  | .arr _ => .error (.malformedArgument "expression" "expected a single expression, found a list")
  | v => .ok ⟨.literal v, {}⟩

end Scope

end QueryPlan
