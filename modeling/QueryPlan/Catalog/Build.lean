import QueryPlan.Catalog.Basic
import QueryPlan.NameSet

namespace QueryPlan

/-- A field name that asks for a computed column. -/
def aggregationField : String := "_aggregation"

/-- A field name that asks for a column read through an association. -/
def relatedColumnField : String := "_col"

/-- The names that ask for computed columns, which no model may declare. -/
def isReserved (name : String) : Bool := name == aggregationField || name == relatedColumnField

/-- Why models make no catalog, or a catalog has no answer. -/
inductive CatalogError where
  | unknownModel (model : String)
  | missingTarget (target model association : String)
  | unknownAssociation (model association : String)
  | duplicateModel (model : String)
  | duplicateMember (model name : String)
  | unknownTarget (model association target : String)
  | unknownJoinKey (model association owner key : String)
  | reservedName (model name : String)
deriving DecidableEq

def CatalogError.message : CatalogError → String
  | .unknownModel model => s!"No model schema found for `{model}`"
  | .missingTarget target model association =>
    s!"No model schema found for `{target}\n  Context: While resolving association `{model}.{association}``"
  | .unknownAssociation model association =>
    s!"Model `{model}` declares no association named `{association}`"
  | .duplicateModel model => s!"Duplicate model `{model}` in catalog"
  | .duplicateMember model name =>
    s!"Model `{model}` declares `{name}` more than once (fields and associations share one namespace)"
  | .unknownTarget model association target =>
    s!"Association `{model}.{association}` targets unknown model `{target}`"
  | .unknownJoinKey model association owner key =>
    s!"Association `{model}.{association}` joins on `{owner}.{key}`, which is not a declared field"
  | .reservedName model name =>
    s!"Field `{model}.{name}` uses the reserved pseudo-field name `{name}`"

namespace Model

/-- Adds the name of a member to those `seen`, unless it is reserved or one of them. -/
def declare (m : Model) (seen : List String) (name : String) : Except CatalogError (List String) :=
  if isReserved name then .error (.reservedName m.name name)
  else if name ∈ seen then .error (.duplicateMember m.name name)
  else .ok (name :: seen)

/-- The join column is a field of `m`, and for one or many owned rows the foreign key one of the target. -/
def checkJoin (m : Model) (a : Association) (target : Model) : Except CatalogError Unit :=
  if (m.field? a.sourceColumn).isNone then
    .error (.unknownJoinKey m.name a.name m.name a.sourceColumn)
  else if (a.kind = .hasOne ∨ a.kind = .hasMany) ∧ (target.field? a.foreignKey).isNone then
    .error (.unknownJoinKey m.name a.name target.name a.foreignKey)
  else .ok ()

def checkAssociation (models : List Model) (m : Model) (seen : List String) (a : Association) :
    Except CatalogError (List String) := do
  let seen ← m.declare seen a.name
  match models.find? (·.name = a.target) with
  | none => throw (.unknownTarget m.name a.name a.target)
  | some target =>
    m.checkJoin a target
    return seen

/-- Members have names of their own, and associations lead to models they can be joined with. -/
def check (models : List Model) (m : Model) : Except CatalogError Unit := do
  let seen ← m.fields.foldlM (fun seen f => m.declare seen f.name) []
  let _ ← m.associations.foldlM (checkAssociation models m) seen
  return ()

end Model

/-- Models that were checked together. -/
structure Catalog where
  models : List Model
deriving DecidableEq

namespace Catalog

/-- Fails at the first model whose name is one of those `seen` before it. -/
def checkNames (seen : List String) : List Model → Except CatalogError Unit
  | [] => .ok ()
  | m :: ms =>
    if m.name ∈ seen then .error (.duplicateModel m.name) else checkNames (m.name :: seen) ms

def build (models : List Model) : Except CatalogError Catalog := do
  checkNames [] models
  models.forM (Model.check models)
  return ⟨models⟩

def model? (c : Catalog) (name : String) : Option Model := c.models.find? (·.name = name)

def model (c : Catalog) (name : String) : Except CatalogError Model :=
  match c.model? name with
  | some m => .ok m
  | none => .error (.unknownModel name)

/-- The association of `m` by that name, and the model it leads to. -/
def target (c : Catalog) (m : Model) (association : String) :
    Except CatalogError (Association × Model) :=
  match m.association? association with
  | none => .error (.unknownAssociation m.name association)
  | some a =>
    match c.model? a.target with
    | none => .error (.missingTarget a.target m.name a.name)
    | some t => .ok (a, t)

def modelNames (c : Catalog) : List String := (NameSet.ofList (c.models.map (·.name))).toList

def sortedModels (c : Catalog) : List Model := c.modelNames.filterMap c.model?

end Catalog

end QueryPlan
