import QueryPlan.Descriptor.Record
import QueryPlan.Proofs.Expr.ReadBack

namespace QueryPlan

open Source

theorem OrderItem.read?_toJson (item : OrderItem) : read? item.toJson = some item := by
  obtain ⟨name, direction⟩ := item
  cases direction <;> rfl

namespace Options

def memberNames : List String :=
  ["attributes", "where", "having", "group", "order", "limit", "offset", "required", "right",
    "separate", "subQuery", "scope"]

/-- Options are read from any record that holds their members as they are written. -/
theorem read?_of_members {o : Options} {ms : Json.Object}
    (written : ∀ m ∈ o.members, ms.get? m.1 = m.2) : read? ms = some o := by
  simp only [members, List.forall_mem_cons] at written
  obtain ⟨attributes, filter, having', group, order, limit, offset, required, right, separate,
    subQuery, scope, -⟩ := written
  have predicate : ∀ p : Json.Object, Json.ofObject? (.obj p) = some p := fun _ => rfl
  have natural : ∀ n : UInt64, natural? (Json.ofNat n) = some n := Json.ofNatural?_ofNat
  have flag : ∀ b : Bool, flag? (Json.bool b) = some b := fun _ => rfl
  have keys : ∀ g : List Expr, list? Expr.read? (.arr (Expr.listToJson g)) = some g := by
    intro g
    rw [Expr.listToJson_eq_map]
    exact list?_arr fun key _ => key.read?_toJson
  have items : ∀ is : List OrderItem,
      list? OrderItem.read? (.arr (is.map OrderItem.toJson)) = some is :=
    fun is => list?_arr fun item _ => item.read?_toJson
  have names : ∀ ns : List String, list? text? (Json.arr (ns.map Json.str)) = some ns :=
    fun ns => list?_arr fun _ _ => rfl
  rw [read?, optional_eq attributes Projection.read?_toJson Projection.toJson_isNull,
    optional_eq filter predicate fun _ => rfl, optional_eq having' predicate fun _ => rfl,
    optional_eq group keys fun _ => rfl, optional_eq order items fun _ => rfl,
    optional_eq limit natural fun _ => rfl, optional_eq offset natural fun _ => rfl,
    optional_eq required flag fun _ => rfl, optional_eq right flag fun _ => rfl,
    optional_eq separate flag fun _ => rfl, optional_eq subQuery flag fun _ => rfl,
    optional_eq scope names fun _ => rfl]
  rfl

end Options

namespace Join

/-- Induction that takes the joins of a joined level together. -/
theorem induction {motive : Join → Prop} (join : ∀ j : Join, (∀ k ∈ j.joins, motive k) → motive j) :
    ∀ j, motive j := by
  intro j
  apply join j
  intro k mem
  exact induction join k
termination_by j => sizeOf j
decreasing_by
  obtain ⟨model, aliasName, options, joins⟩ := j
  have := List.sizeOf_lt_of_mem (show k ∈ joins from mem)
  simp only [Join.mk.sizeOf_spec]
  omega

theorem listToJson_eq_map (js : List Join) : listToJson js = js.map toJson := by
  induction js with
  | nil => rw [listToJson, List.map_nil]
  | cons j js ih => rw [listToJson, ih, List.map_cons]

theorem read?_obj (ms : Json.Object) :
    read? (.obj ms) = (do
      return ⟨← required ms "model" text?, ← required ms "as" text?, ← Options.read? ms,
        ← withDefault ms "include" [] (list? read?)⟩) := by
  rw [read?, withDefault]
  cases hi : ms.lookup "include" with
  | none => rfl
  | some v =>
    cases v with
    | arr joins =>
      simp only [List.mapM_subtype, List.unattach_attach]
      rfl
    | _ => simp [list?, items?, Json.ofArray?]

end Join

namespace Descriptor

/-- The members of the written form of a level, those that are missing included. -/
def members (d : Descriptor) : List (String × Option Json) :=
  d.options.members ++ [("include", Projection.nonEmpty? (d.joins.map Join.toJson))]

theorem names_members (d : Descriptor) :
    d.members.map (·.1) = Options.memberNames ++ ["include"] := rfl

theorem toJson_eq (d : Descriptor) : d.toJson = .obj (Json.present d.members) := by
  rw [toJson, Join.listToJson_eq_map, Json.ofMembers_eq]
  rfl

/-- A level is read from any record that holds its members as they are written, if its joins are
read from their written form. -/
theorem read_of_members {d : Descriptor} {ms : Json.Object}
    (written : ∀ m ∈ d.members, ms.get? m.1 = m.2)
    (readBack : ∀ j ∈ d.joins, Join.read? j.toJson = some j) :
    Options.read? ms = some d.options ∧
      withDefault ms "include" [] (list? Join.read?) = some d.joins := by
  obtain ⟨options, joins⟩ := List.forall_mem_append.1 written
  have include' := joins _ List.mem_cons_self
  exact ⟨Options.read?_of_members options, Projection.withDefault_nonEmpty include' readBack⟩

end Descriptor

namespace Join

def members (j : Join) : List (String × Option Json) :=
  ("model", some (.str j.model)) :: ("as", some (.str j.aliasName)) :: j.descriptor.members

theorem names_members (j : Join) :
    j.members.map (·.1) = "model" :: "as" :: (Options.memberNames ++ ["include"]) := rfl

theorem toJson_eq (j : Join) : j.toJson = .obj (Json.present j.members) := by
  obtain ⟨model, aliasName, options, joins⟩ := j
  rw [toJson, listToJson_eq_map, Json.ofMembers_eq, List.append_assoc]
  rfl

theorem read?_toJson (j : Join) : read? j.toJson = some j := by
  induction j using Join.induction with
  | join j ih =>
    have distinct : (j.members.map (·.1)).Nodup := by
      rw [names_members]
      decide
    have written : ∀ m ∈ j.members, (Json.present j.members).get? m.1 = m.2 :=
      Json.get?_written distinct
    obtain ⟨model, rest⟩ := List.forall_mem_cons.1 written
    obtain ⟨aliasName, level⟩ := List.forall_mem_cons.1 rest
    obtain ⟨options, joins⟩ := Descriptor.read_of_members level ih
    have hmodel : required (Json.present j.members) "model" text? = some j.model :=
      required_eq model rfl
    have haliasName : required (Json.present j.members) "as" text? = some j.aliasName :=
      required_eq aliasName rfl
    rw [toJson_eq, read?_obj, hmodel, haliasName, options, joins]
    cases j
    rfl

end Join

namespace Descriptor

theorem read?_toJson (d : Descriptor) : read? d.toJson = some d := by
  have distinct : (d.members.map (·.1)).Nodup := by
    rw [names_members]
    decide
  obtain ⟨options, joins⟩ := read_of_members (Json.get?_written distinct) fun j _ => j.read?_toJson
  have record : read? d.toJson = (do
      return ⟨← Options.read? (Json.present d.members),
        ← withDefault (Json.present d.members) "include" [] (list? Join.read?)⟩) := by
    rw [toJson_eq]
    rfl
  rw [record, options, joins]
  rfl

/-- What is written is read back as it was: every plan, and every join of one. -/
theorem written_read_back :
    (∀ d : Descriptor, read? d.toJson = some d) ∧ ∀ j : Join, Join.read? j.toJson = some j :=
  ⟨read?_toJson, Join.read?_toJson⟩

end Descriptor

end QueryPlan
