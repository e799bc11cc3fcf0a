import QueryPlan.Catalog.Build
import QueryPlan.Json.Basic

namespace QueryPlan

/-- What a form or a table shows of a member of a model; only fields have a data type. -/
structure MemberMetadata where
  name : String
  type : String
  dataType : Option DataType
  allowNull : Bool
  isPrimaryKey : Option Bool
  isList : Bool
  sortable : Bool
  title : String
  description : Option String
deriving DecidableEq

structure ModelMetadata where
  name : String
  title : String
  primaryKey : Option String
  description : Option String
  members : List MemberMetadata
deriving DecidableEq

/-- A comment serves as title and as description. -/
def Field.metadata (f : Field) : MemberMetadata where
  name := f.name
  type := f.dataType.scalarName
  dataType := some f.dataType
  allowNull := f.allowNull
  isPrimaryKey := some f.primaryKey
  isList := false
  sortable := f.dataType.isSortable
  title := f.comment.getD f.name
  description := f.comment

def Association.metadata (a : Association) : MemberMetadata where
  name := a.name
  type := a.target
  dataType := none
  allowNull := true
  isPrimaryKey := none
  isList := a.kind.isToMany
  sortable := false
  title := a.name
  description := none

/-- Fields come before associations, both in the order of their declaration. -/
def Model.metadata (m : Model) : ModelMetadata where
  name := m.name
  title := m.comment.getD m.name
  primaryKey := m.primaryKey?.map (·.name)
  description := m.comment
  members := m.fields.map Field.metadata ++ m.associations.map Association.metadata

def Catalog.metadata (c : Catalog) (name : String) : Except CatalogError ModelMetadata :=
  (c.model name).map Model.metadata

def Catalog.metadataList (c : Catalog) : List ModelMetadata := c.sortedModels.map Model.metadata

def MemberMetadata.toJson (m : MemberMetadata) : Json :=
  .ofMembers [("name", some (.str m.name)), ("type", some (.str m.type)),
    ("dataType", m.dataType.map fun t => .str t.name), ("allowNull", some (.bool m.allowNull)),
    ("isPk", m.isPrimaryKey.map .bool), ("isList", some (.bool m.isList)),
    ("sortable", some (.bool m.sortable)), ("title", some (.str m.title)),
    ("description", m.description.map .str)]

def ModelMetadata.toJson (m : ModelMetadata) : Json :=
  .ofMembers [("name", some (.str m.name)), ("title", some (.str m.title)),
    ("pkName", m.primaryKey.map .str), ("description", m.description.map .str),
    ("fields", some (.arr (m.members.map MemberMetadata.toJson)))]

end QueryPlan
