import QueryPlan.Expr.Record
import QueryPlan.Proofs.Expr.Occurrence
import QueryPlan.Proofs.Json.ReadBack

namespace QueryPlan

open Source

namespace Expr

theorem listToJson_eq_map (es : List Expr) : listToJson es = es.map toJson := by
  induction es with
  | nil => rw [listToJson, List.map_nil]
  | cons e es ih => rw [listToJson, ih, List.map_cons]

theorem read?_literal (v : Json) : read? (.obj [("literal", v)]) = some (.literal v) := by
  rw [read?]
  rfl

theorem read?_column (ms : Json.Object) :
    read? (.obj [("col", .obj ms)]) = (do
      return .column (← Source.optional ms "association" text?)
        (← required ms "column" text?)) := by
  rw [read?]
  rfl

theorem read?_call (function : String) (args : List Json) :
    read? (.obj [("fn", .obj [("name", .str function), ("args", .arr args)])]) =
      (list? read? (.arr args)).map (.call function) := by
  rw [read?, Option.map_eq_bind]
  simp only [String.reduceEq, reduceIte, Json.members?, List.lookup_cons, String.reduceBEq,
    required, text?, Json.ofString?, Option.bind_eq_bind,
    Option.bind_some, List.mapM_subtype, List.unattach_attach, list?, items?, Json.ofArray?]
  rfl

/-- A literal may be any value, also one that looks like the written form of an expression. -/
theorem read?_toJson (e : Expr) : read? e.toJson = some e := by
  induction e using Expr.induction with
  | literal v => rw [toJson, read?_literal]
  | column via name =>
    have distinct :
        ([("association", via.map Json.str), ("column", some (.str name))].map (·.1)).Nodup := by
      simp
    have association := Json.get?_present distinct List.mem_cons_self
    have column := Json.get?_present distinct (List.mem_cons_of_mem _ List.mem_cons_self)
    rw [toJson, Json.ofMembers_eq, read?_column, required_eq column (Json.text?_str _),
      optional_eq association Json.text?_str (fun _ => rfl)]
    rfl
  | call function args ih =>
    rw [toJson, listToJson_eq_map, read?_call, list?_arr ih]
    rfl

end Expr

theorem ProjectionItem.read?_toJson (item : ProjectionItem) : read? item.toJson = some item := by
  cases item with
  | column name => rfl
  | computed expr aliasName =>
    rw [toJson, read?, Expr.read?_toJson]
    rfl

namespace Projection

/-- A list that was left out because it is empty is read as an empty one. -/
theorem withDefault_nonEmpty {α : Type} {read : Json → Option α} {write : α → Json}
    {ms : Json.Object} {name : String} {xs : List α}
    (written : ms.get? name = nonEmpty? (xs.map write))
    (readBack : ∀ x ∈ xs, read (write x) = some x) :
    withDefault ms name [] (list? read) = some xs := by
  rw [Json.Object.get?] at written
  rw [withDefault, written]
  cases xs with
  | nil => rfl
  | cons x xs => exact list?_arr readBack

theorem read?_toJson (p : Projection) : read? p.toJson = some p := by
  cases p with
  | columns items =>
    have hitems : (items.map ProjectionItem.toJson).mapM ProjectionItem.read? = some items :=
      list?_arr fun item _ => item.read?_toJson
    rw [toJson, read?, hitems]
    rfl
  | filtered added omitted =>
    have distinct : ([("include", nonEmpty? (added.map ProjectionItem.toJson)),
        ("exclude", nonEmpty? (omitted.map .str))].map (·.1)).Nodup := by
      simp
    have include' := Json.get?_present distinct List.mem_cons_self
    have exclude := Json.get?_present distinct (List.mem_cons_of_mem _ List.mem_cons_self)
    rw [toJson, Json.ofMembers_eq, read?,
      withDefault_nonEmpty include' fun item _ => item.read?_toJson,
      withDefault_nonEmpty exclude fun _ _ => rfl]
    rfl

theorem toJson_isNull (p : Projection) : p.toJson.isNull = false := by
  cases p <;> rfl

end Projection

end QueryPlan
