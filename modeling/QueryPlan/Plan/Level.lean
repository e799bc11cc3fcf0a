import QueryPlan.Expr.Resolve
import QueryPlan.Filter.Argument
import QueryPlan.NameSet
import QueryPlan.Plan.Registry
import QueryPlan.Plan.Siblings

namespace QueryPlan

namespace Scope

mutual

/-- The columns of a grouping key resolved; a name that is no column stays as it is written. -/
def resolveKey (s : Scope) : Expr → Except CompileError CompiledExpr
  | .column none name => do return (← s.column? name).getD ⟨.column none name, {}⟩
  | .call function args => do
    let args ← resolveKeys s args
    return ⟨.call function (args.map (·.expr)), args.foldr (·.reads ++ ·) {}⟩
  | .column (some association) name => .ok ⟨.column (some association) name, {}⟩
  | .literal v => .ok ⟨.literal v, {}⟩

def resolveKeys (s : Scope) : List Expr → Except CompileError (List CompiledExpr)
  | [] => .ok []
  | e :: es => do
    let e ← resolveKey s e
    let es ← resolveKeys s es
    return e :: es

end

end Scope

namespace SelectedField

def stringArgument (f : SelectedField) (key : String) : Except CompileError String :=
  match f.args.get? key with
  | some (.str s) => .ok s
  | _ => .error (.malformedArgument (f.name ++ "." ++ key) "expected a string")

def stringArgument? (f : SelectedField) (key : String) : Except CompileError (Option String) :=
  match f.args.get? key with
  | none | some .null => .ok none
  | some (.str s) => .ok (some s)
  | some v => .error (.malformedArgument (f.name ++ "." ++ key)
      s!"expected a string, got {v.compact}")

end SelectedField

/-- A projected entry that is computed, with what it reads. -/
structure ComputedColumn where
  item : ProjectionItem
  reads : Reads

namespace Scope

/-- The column that an `_aggregation` field asks for: a function call. -/
def aggregateColumn (s : Scope) (settings : Settings) (f : SelectedField) :
    Except CompileError ComputedColumn := do
  let function ← f.stringArgument "fn"
  let aliasName ← f.stringArgument? "as"
  let args := (f.args.get? "args").toList.map fun v => ("args", v)
  let e ← s.compile settings .lenient (.obj (("fn", .str function) :: args))
  return ⟨.computed e.expr (aliasName.getD (defaultAlias function)), e.reads⟩

/-- The column that a `_col` field asks for: one of the model or of an associated model. -/
def relatedColumn (s : Scope) (settings : Settings) (f : SelectedField) :
    Except CompileError ComputedColumn := do
  let name ← f.stringArgument "name"
  let aliasName ← f.stringArgument? "as"
  let e ← s.compile settings .strict (.str name)
  return ⟨.computed e.expr (aliasName.getD (defaultAlias name)), e.reads⟩

end Scope

/-- What plans are made with. -/
structure Planner where
  catalog : Catalog
  settings : Settings

/-- A plan with the fields that it reads, as `Model.field`. -/
structure Level where
  descriptor : Descriptor
  touched : List String

/-- The joins made so far at a level, with the fields read at the joined levels. -/
structure Joined where
  registry : Registry := {}
  touched : List String := []

namespace Planner

/-- The projection of a level: the one asked for, or else the selected fields and the columns of
the joins; and the computed columns after it. -/
def projection (asked : Option Projection) (names : List String) (computed : List ProjectionItem) :
    Option Projection :=
  match asked with
  | some p => some (p.extend computed)
  | none =>
    if names.isEmpty && computed.isEmpty then none
    else some ((Projection.ofNames names).extend computed)

/-- A column-support join for an association that a level reads through. -/
def support (p : Planner) (model : Model) (registry : Registry) (aliasName : String) :
    Except CompileError Registry := do
  let (association, target) ← (p.catalog.target model aliasName).mapError .catalog
  return (registry.ensureColumnSupport target.name association.name).2

/-- The join of an expanded association, planned by `plan`. -/
def expand (p : Planner) (plan : Model → Json.Object → List SelectedField → Except CompileError Level)
    (model : Model) (joined : Joined) (e : Expansion) : Except CompileError Joined := do
  if !e.isConsistent then throw (.conflictingJoin e.name)
  let (_, target) ← (p.catalog.target model e.name).mapError .catalog
  let level ← plan target e.first.args e.children
  let registry ← joined.registry.attach
    ⟨target.name, e.name, level.descriptor.options, level.descriptor.joins⟩
  return ⟨registry, joined.touched ++ level.touched⟩

/-- The plan of a level with at most `remaining` levels of associations, itself included. -/
def level (p : Planner) : Nat → Model → Json.Object → List SelectedField →
    Except CompileError Level
  | 0, _, _, _ => .error (.depthLimitExceeded p.settings.maxDepth)
  | remaining + 1, model, args, fields => do
    let scope : Scope := ⟨p.catalog, model⟩
    let siblings := Siblings.of model fields
    let options ← Options.ofArguments model.fieldNames args
    let group ← scope.resolveKeys (options.group.getD [])
    let joined ← siblings.expansions.foldlM (p.expand (level p remaining) model) {}
    let aggregates ← (siblings.inRole .aggregate).mapM (scope.aggregateColumn p.settings)
    let related ← (siblings.inRole .relatedColumn).mapM (scope.relatedColumn p.settings)
    let computed := aggregates ++ related
    let reads := group.foldr (·.reads ++ ·) (computed.foldr (·.reads ++ ·) {})
    let registry ← (NameSet.ofList reads.associations).toList.foldlM (p.support model)
      joined.registry
    let names := (siblings.attributes ++ siblings.joinColumns).eraseDups
    return {
      descriptor := {
        options := { options with
          attributes := projection options.attributes names (computed.map (·.item))
          group := options.group.map fun _ => group.map (·.expr) }
        joins := registry.joins }
      touched := siblings.attributes.map (model.name ++ "." ++ ·) ++ joined.touched ++ reads.fields }

end Planner

end QueryPlan
