import QueryPlan.Catalog.Build
import QueryPlan.Source

namespace QueryPlan

open Source

namespace Field

def read? {α : Type} [Source α] (v : α) : Option Field := do
  let ms ← members? ["name", "field", "type", "allow_null", "primary_key", "comment"] v
  return {
    name := ← required ms "name" text?
    column := ← optional ms "field" text?
    dataType := ← required ms "type" fun t => tag? t >>= DataType.ofName?
    allowNull := ← withDefault ms "allow_null" true flag?
    primaryKey := ← withDefault ms "primary_key" false flag?
    comment := ← optional ms "comment" text? }

def toJson (f : Field) : Json :=
  .ofMembers [("name", some (.str f.name)), ("field", f.column.map .str),
    ("type", some (.str f.dataType.name)), ("allow_null", some (.bool f.allowNull)),
    ("primary_key", some (.bool f.primaryKey)), ("comment", f.comment.map .str)]

end Field

namespace Association

/-- Join keys that are not given are `id`. -/
def read? {α : Type} [Source α] (v : α) : Option Association := do
  let ms ← members? ["as", "kind", "target", "foreign_key", "source_key", "target_key"] v
  return {
    name := ← required ms "as" text?
    kind := ← required ms "kind" fun k => tag? k >>= AssociationKind.ofName?
    target := ← required ms "target" text?
    foreignKey := ← required ms "foreign_key" text?
    sourceKey := ← withDefault ms "source_key" "id" text?
    targetKey := ← withDefault ms "target_key" "id" text? }

def toJson (a : Association) : Json :=
  .obj [("as", .str a.name), ("kind", .str a.kind.name), ("target", .str a.target),
    ("foreign_key", .str a.foreignKey), ("source_key", .str a.sourceKey),
    ("target_key", .str a.targetKey)]

end Association

namespace Model

def read? {α : Type} [Source α] (v : α) : Option Model := do
  let ms ← members? ["name", "table_name", "comment", "fields", "associations"] v
  return {
    name := ← required ms "name" text?
    tableName := ← optional ms "table_name" text?
    comment := ← optional ms "comment" text?
    fields := ← required ms "fields" (list? Field.read?)
    associations := ← withDefault ms "associations" [] (list? Association.read?) }

def toJson (m : Model) : Json :=
  .ofMembers [("name", some (.str m.name)), ("table_name", m.tableName.map .str),
    ("comment", m.comment.map .str), ("fields", some (.arr (m.fields.map Field.toJson))),
    ("associations", some (.arr (m.associations.map Association.toJson)))]

end Model

/-- The models of a catalog definition; its name is only a label. -/
def Catalog.readModels? {α : Type} [Source α] (v : α) : Option (List Model) := do
  let ms ← members? ["name", "models"] v
  let _ ← optional ms "name" (text? (α := α))
  required ms "models" (list? Model.read?)

end QueryPlan
