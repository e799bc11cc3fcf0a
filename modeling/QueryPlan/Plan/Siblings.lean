import QueryPlan.Catalog.Build
import QueryPlan.Selection.Basic

namespace QueryPlan

/-- What a selected field is for the level of a model. -/
inductive Role where
  | expansion | attribute | aggregate | relatedColumn | ignored
deriving DecidableEq

/-- Associations are expanded if anything is selected below them; fields come before the two
reserved names. -/
def Model.role (m : Model) (f : SelectedField) : Role :=
  if (m.association? f.name).isSome && !f.children.isEmpty then .expansion
  else if (m.field? f.name).isSome then .attribute
  else if f.name = aggregationField then .aggregate
  else if f.name = relatedColumnField then .relatedColumn
  else .ignored

/-- The selections of one association among the fields of a level, the first one apart. -/
structure Expansion where
  first : SelectedField
  others : List SelectedField

namespace Expansion

def name (e : Expansion) : String := e.first.name

def selections (e : Expansion) : List SelectedField := e.first :: e.others

/-- What is selected below the association in all places. -/
def children (e : Expansion) : List SelectedField := e.selections.flatMap (·.children)

/-- All selections have the arguments of the first one. -/
def isConsistent (e : Expansion) : Bool := e.others.all (·.args.same e.first.args)

end Expansion

/-- The fields of a level, each once. -/
structure Siblings where
  model : Model
  fields : List SelectedField

namespace Siblings

def of (model : Model) (fields : List SelectedField) : Siblings :=
  ⟨model, fields.eraseDupsBy SelectedField.same⟩

def inRole (s : Siblings) (role : Role) : List SelectedField :=
  s.fields.filter (s.model.role · = role)

/-- The selected fields of the model in the order of their first selection. -/
def attributes (s : Siblings) : List String := ((s.inRole .attribute).map (·.name)).eraseDups

def named (name : String) (fields : List SelectedField) : List SelectedField :=
  fields.filter (·.name = name)

def notNamed (name : String) (fields : List SelectedField) : List SelectedField :=
  fields.filter (·.name ≠ name)

/-- Groups fields by name in the order in which the names come first. -/
def group : List SelectedField → List Expansion
  | [] => []
  | f :: fs => ⟨f, named f.name fs⟩ :: group (notNamed f.name fs)
termination_by fs => fs.length
decreasing_by exact Nat.lt_succ_of_le (List.length_filter_le _ _)

def expansions (s : Siblings) : List Expansion := group (s.inRole .expansion)

/-- The columns that the joins of the expanded associations read. -/
def joinColumns (s : Siblings) : List String :=
  s.expansions.filterMap fun e => (s.model.association? e.name).map (·.sourceColumn)

end Siblings

end QueryPlan
