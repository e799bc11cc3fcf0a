import QueryPlan.Proofs.Catalog.ReadBack
import QueryPlan.Proofs.Selection.Same
import QueryPlan.Selection.Record

namespace QueryPlan

open Source

namespace SelectedField

theorem listToJson_eq_map (fs : List SelectedField) : listToJson fs = fs.map toJson := by
  induction fs with
  | nil => rw [listToJson, List.map_nil]
  | cons f fs ih => rw [listToJson, ih, List.map_cons]

/-- The members of the written form; a field without a selection set has no `fields`. -/
def members (f : SelectedField) : List (String × Option Json) :=
  [("name", some (.str f.name)), ("alias", f.aliasName.map .str),
    ("type", some (.str f.typeName)), ("isList", some (.bool f.isList)),
    ("args", some (.obj f.args)), ("directivesObject", some (.obj f.directivesObject)),
    ("directivesField", some (.obj f.directivesField)),
    ("fields", f.fields.map fun fs => .arr (fs.map toJson))]

theorem names_members (f : SelectedField) : f.members.map (·.1) = memberNames := rfl

theorem toJson_eq (f : SelectedField) : f.toJson = .obj (Json.present f.members) := by
  obtain ⟨name, aliasName, typeName, isList, args, directivesObject, directivesField, fields⟩ := f
  rw [toJson, Json.ofMembers_eq, members]
  cases fields with
  | none => rw [childrenToJson]; rfl
  | some fs => rw [childrenToJson, listToJson_eq_map]; rfl

theorem read?_obj (ms : Json.Object) : read? (.obj ms) = (do
    return ⟨← required ms "name" text?, ← Source.optional ms "alias" text?,
      ← required ms "type" text?, ← required ms "isList" flag?,
      ← withDefault ms "args" [] Json.ofObject?,
      ← withDefault ms "directivesObject" [] Json.ofObject?,
      ← withDefault ms "directivesField" [] Json.ofObject?,
      ← Source.optional ms "fields" (list? read?)⟩) := by
  rw [read?]
  simp only [Json.members?]
  refine bind_congr fun name => bind_congr fun aliasName => bind_congr fun typeName =>
    bind_congr fun isList => bind_congr fun args => bind_congr fun directivesObject =>
    bind_congr fun directivesField => ?_
  rw [Source.optional]
  cases hf : ms.lookup "fields" with
  | none => rfl
  | some v =>
    cases v with
    | arr items =>
      simp only [List.mapM_subtype, List.unattach_attach]
      change (items.mapM read?).bind _ = ((items.mapM read?).map some).bind _
      rw [Option.bind_map]
      rfl
    | _ => rfl

theorem read?_toJson (f : SelectedField) : read? f.toJson = some f := by
  induction f using SelectedField.induction with
  | field f ih =>
    have distinct : (f.members.map (·.1)).Nodup := by
      rw [names_members]
      decide
    have written := Json.get?_written distinct
    rw [toJson_eq, read?_obj]
    generalize Json.present f.members = ms at written
    simp only [members, List.forall_mem_cons] at written
    obtain ⟨name, aliasName, type, isList, args, directivesObject, directivesField, fields, -⟩ :=
      written
    have object : ∀ o : Json.Object, Json.ofObject? (.obj o) = some o := fun _ => rfl
    have hfields : Source.optional ms "fields" (list? read?) = some f.fields := by
      rw [Json.Object.get?] at fields
      rw [Source.optional, fields]
      cases hf : f.fields with
      | none => rfl
      | some fs =>
        have below : ∀ child ∈ fs, read? child.toJson = some child := by
          intro child mem
          apply ih
          rw [children, hf]
          exact mem
        change (list? read? (.arr (fs.map toJson))).map some = some (some fs)
        rw [list?_arr below]
        rfl
    rw [required_eq name (Json.text?_str _), optional_eq aliasName Json.text?_str fun _ => rfl,
      required_eq type (Json.text?_str _), required_eq isList (Json.flag?_bool _),
      withDefault_eq args (object _), withDefault_eq directivesObject (object _),
      withDefault_eq directivesField (object _), hfields]
    cases f
    rfl

end SelectedField

/-- What is written is read back as it was: every selected field with all that is selected below it,
and every model with its fields and associations. -/
theorem records_read_back :
    (∀ f : SelectedField, SelectedField.read? f.toJson = some f) ∧
      ∀ m : Model, Model.read? m.toJson = some m :=
  ⟨SelectedField.read?_toJson, Model.read?_toJson⟩

end QueryPlan
