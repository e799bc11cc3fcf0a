import QueryPlan.Catalog.Record
import QueryPlan.Proofs.Json.ReadBack

namespace QueryPlan

open Source

/-- Each type is found under its own name, the one that has a second name included. -/
theorem DataType.ofName?_name (t : DataType) : ofName? t.name = some t := by
  cases t <;> rfl

theorem AssociationKind.ofName?_name (k : AssociationKind) : ofName? k.name = some k := by
  cases k <;> rfl

namespace Field

def members (f : Field) : List (String × Option Json) :=
  [("name", some (.str f.name)), ("field", f.column.map .str),
    ("type", some (.str f.dataType.name)), ("allow_null", some (.bool f.allowNull)),
    ("primary_key", some (.bool f.primaryKey)), ("comment", f.comment.map .str)]

theorem toJson_eq (f : Field) : f.toJson = .obj (Json.present f.members) := rfl

theorem read?_obj (ms : Json.Object) : read? (Json.obj ms) = (do
    return {
      name := ← required ms "name" text?
      column := ← Source.optional ms "field" text?
      dataType := ← required ms "type" fun t => tag? t >>= DataType.ofName?
      allowNull := ← withDefault ms "allow_null" true flag?
      primaryKey := ← withDefault ms "primary_key" false flag?
      comment := ← Source.optional ms "comment" text? }) := rfl

theorem read?_toJson (f : Field) : read? f.toJson = some f := by
  have distinct : (f.members.map (·.1)).Nodup := by simp [members]
  have written := Json.get?_written distinct
  rw [toJson_eq, read?_obj]
  generalize Json.present f.members = ms at written
  simp only [members, List.forall_mem_cons] at written
  obtain ⟨name, column, dataType, allowNull, primaryKey, comment, -⟩ := written
  have known : tag? (Json.str f.dataType.name) >>= DataType.ofName? = some f.dataType :=
    f.dataType.ofName?_name
  rw [required_eq name (Json.text?_str _), optional_eq column Json.text?_str fun _ => rfl,
    required_eq dataType known, withDefault_eq allowNull (Json.flag?_bool _),
    withDefault_eq primaryKey (Json.flag?_bool _), optional_eq comment Json.text?_str fun _ => rfl]
  rfl

end Field

namespace Association

def members (a : Association) : List (String × Option Json) :=
  [("as", some (.str a.name)), ("kind", some (.str a.kind.name)), ("target", some (.str a.target)),
    ("foreign_key", some (.str a.foreignKey)), ("source_key", some (.str a.sourceKey)),
    ("target_key", some (.str a.targetKey))]

theorem toJson_eq (a : Association) : a.toJson = .obj (Json.present a.members) := rfl

theorem read?_obj (ms : Json.Object) : read? (Json.obj ms) = (do
    return {
      name := ← required ms "as" text?
      kind := ← required ms "kind" fun k => tag? k >>= AssociationKind.ofName?
      target := ← required ms "target" text?
      foreignKey := ← required ms "foreign_key" text?
      sourceKey := ← withDefault ms "source_key" "id" text?
      targetKey := ← withDefault ms "target_key" "id" text? }) := rfl

theorem read?_toJson (a : Association) : read? a.toJson = some a := by
  have distinct : (a.members.map (·.1)).Nodup := by simp [members]
  have written := Json.get?_written distinct
  rw [toJson_eq, read?_obj]
  generalize Json.present a.members = ms at written
  simp only [members, List.forall_mem_cons] at written
  obtain ⟨name, kind, target, foreignKey, sourceKey, targetKey, -⟩ := written
  have known : tag? (Json.str a.kind.name) >>= AssociationKind.ofName? = some a.kind :=
    a.kind.ofName?_name
  rw [required_eq name (Json.text?_str _), required_eq kind known,
    required_eq target (Json.text?_str _), required_eq foreignKey (Json.text?_str _),
    withDefault_eq sourceKey (Json.text?_str _), withDefault_eq targetKey (Json.text?_str _)]
  rfl

end Association

namespace Model

def members (m : Model) : List (String × Option Json) :=
  [("name", some (.str m.name)), ("table_name", m.tableName.map .str),
    ("comment", m.comment.map .str), ("fields", some (.arr (m.fields.map Field.toJson))),
    ("associations", some (.arr (m.associations.map Association.toJson)))]

theorem toJson_eq (m : Model) : m.toJson = .obj (Json.present m.members) := rfl

theorem read?_obj (ms : Json.Object) : read? (Json.obj ms) = (do
    return {
      name := ← required ms "name" text?
      tableName := ← Source.optional ms "table_name" text?
      comment := ← Source.optional ms "comment" text?
      fields := ← required ms "fields" (list? Field.read?)
      associations := ← withDefault ms "associations" [] (list? Association.read?) }) := rfl

theorem read?_toJson (m : Model) : read? m.toJson = some m := by
  have distinct : (m.members.map (·.1)).Nodup := by simp [members]
  have written := Json.get?_written distinct
  rw [toJson_eq, read?_obj]
  generalize Json.present m.members = ms at written
  simp only [members, List.forall_mem_cons] at written
  obtain ⟨name, tableName, comment, fields, associations, -⟩ := written
  have hfields : list? Field.read? (Json.arr (m.fields.map Field.toJson)) = some m.fields :=
    list?_arr fun f _ => f.read?_toJson
  have hassociations : list? Association.read? (Json.arr (m.associations.map Association.toJson)) =
      some m.associations := list?_arr fun a _ => a.read?_toJson
  rw [required_eq name (Json.text?_str _), optional_eq tableName Json.text?_str fun _ => rfl,
    optional_eq comment Json.text?_str fun _ => rfl, required_eq fields hfields,
    withDefault_eq associations hassociations]
  rfl

end Model

end QueryPlan
