import QueryPlan.Catalog.Metadata
import QueryPlan.Proofs.Catalog.WellFormed
import QueryPlan.Proofs.Text.ByteOrder

namespace QueryPlan

/-- An entry of a list of metadata describes a model: its members are those of the model, and the
types of associations lead to entries of the list. -/
structure ModelMetadata.Describes (e : ModelMetadata) (entries : List ModelMetadata) (m : Model) :
    Prop where
  name : e.name = m.name
  members : e.members.map (·.name) = m.fields.map (·.name) ++ m.associations.map (·.name)
  distinct : (e.members.map (·.name)).Nodup
  unreserved : ∀ member ∈ e.members, member.name ≠ "_aggregation" ∧ member.name ≠ "_col"
  linked : ∀ member ∈ e.members, member.name ∈ m.associations.map (·.name) →
    ∃ target ∈ entries, target.name = member.type
  primaryKey :
    e.primaryKey = (e.members.find? (·.isPrimaryKey = some true)).map (·.name)

namespace Model

variable (m : Model)

theorem names_metadata : m.metadata.members.map (·.name) = m.memberNames := by
  rw [metadata, List.map_append, List.map_map, List.map_map]
  rfl

/-- The primary key is the first member that says so of itself. -/
theorem primaryKey_metadata : m.metadata.primaryKey =
    (m.metadata.members.find? (·.isPrimaryKey = some true)).map (·.name) := by
  have associations : (m.associations.map Association.metadata).find?
      (·.isPrimaryKey = some true) = none := by
    rw [List.find?_eq_none]
    intro member mem
    obtain ⟨a, -, rfl⟩ := List.mem_map.1 mem
    simp [Association.metadata]
  have flag : (fun f : Field => decide (f.metadata.isPrimaryKey = some true)) =
      fun f => f.primaryKey := by
    funext f
    simp [Field.metadata]
  have fields : (m.fields.map Field.metadata).find? (·.isPrimaryKey = some true) =
      m.primaryKey?.map Field.metadata := by
    rw [List.find?_map, primaryKey?, ← flag]
    rfl
  rw [metadata, List.find?_append, associations, fields, Option.or_none, Option.map_map]
  rfl

end Model

namespace Catalog

variable {models : List Model} {c : Catalog}

theorem mem_modelNames {name : String} : name ∈ c.modelNames ↔ ∃ m ∈ c.models, m.name = name := by
  rw [modelNames, NameSet.mem_ofList, List.mem_map]

theorem sortedModels_names (c : Catalog) : c.sortedModels.map (·.name) = c.modelNames := by
  have found : ∀ name ∈ c.modelNames, (c.model? name).map (·.name) = some name := by
    intro name mem
    obtain ⟨m, hm, rfl⟩ := mem_modelNames.1 mem
    cases h : c.model? m.name with
    | none =>
      have unnamed := List.find?_eq_none.1 h m hm
      simp at unnamed
    | some m' => rw [Option.map_some, (model?_some h).2]
  rw [sortedModels, List.map_filterMap, List.filterMap_congr found, List.filterMap_some]

theorem sortedModels_nodup (c : Catalog) : c.sortedModels.Nodup := by
  apply List.Nodup.of_map (·.name)
  rw [sortedModels_names]
  exact NameSet.nodup _

/-- Every model is listed once. -/
theorem sortedModels_perm (distinct : (c.models.map (·.name)).Nodup) :
    c.sortedModels.Perm c.models := by
  apply (List.perm_ext_iff_of_nodup c.sortedModels_nodup (distinct.of_map _)).2
  intro m
  rw [sortedModels, List.mem_filterMap]
  constructor
  · intro h
    obtain ⟨name, -, found⟩ := h
    exact (model?_some found).1
  · intro hm
    exact ⟨m.name, mem_modelNames.2 ⟨m, hm, rfl⟩, (model?_eq_some distinct).2 ⟨hm, rfl⟩⟩

theorem metadataList_names (c : Catalog) : c.metadataList.map (·.name) = c.modelNames := by
  rw [metadataList, List.map_map, ← sortedModels_names]
  rfl

theorem metadataList_sorted (c : Catalog) :
    (c.metadataList.map (·.name)).Pairwise fun a b => Text.bytes a < Text.bytes b := by
  rw [metadataList_names]
  exact (NameSet.sorted _).imp Text.bytes_lt

theorem WellFormed.linked (wellFormed : WellFormed models) {m : Model} (hm : m ∈ models)
    {member : MemberMetadata} (mem : member ∈ m.metadata.members)
    (association : member.name ∈ m.associations.map (·.name)) :
    ∃ t ∈ models, t.name = member.type := by
  rcases List.mem_append.1 mem with mem | mem
  · -- A field has no name of an association.
    obtain ⟨f, hf, rfl⟩ := List.mem_map.1 mem
    have disjoint := (List.nodup_append.1 (wellFormed.named m hm).distinct).2.2
    exact absurd rfl (disjoint f.name (List.mem_map_of_mem hf) f.name association)
  · obtain ⟨a, ha, rfl⟩ := List.mem_map.1 mem
    obtain ⟨t, ht, named, -⟩ := (wellFormed.joins m hm a ha).target
    exact ⟨t, ht, named⟩

theorem WellFormed.describes (wellFormed : WellFormed models) {m : Model} (hm : m ∈ models)
    {entries : List ModelMetadata} (complete : ∀ t ∈ models, t.metadata ∈ entries) :
    m.metadata.Describes entries m where
  name := rfl
  members := m.names_metadata
  distinct := by
    rw [m.names_metadata]
    exact (wellFormed.named m hm).distinct
  unreserved := by
    intro member mem
    have declared : member.name ∈ m.memberNames := by
      rw [← m.names_metadata]
      exact List.mem_map_of_mem mem
    exact (wellFormed.named m hm).unreserved _ declared
  linked := by
    intro member mem association
    obtain ⟨t, ht, named⟩ := wellFormed.linked hm mem association
    exact ⟨t.metadata, complete t ht, named⟩
  primaryKey := m.primaryKey_metadata

/-- The metadata of a catalog lists each of its models once, in the order of the bytes of their
names. All names and types in it lead somewhere: members have names of their own that ask for no
computed column, associations are of types in the list, and the primary key is a member. -/
theorem metadataList_closed (h : build models = .ok c) :
    (c.metadataList.map (·.name)).Pairwise (fun a b => Text.bytes a < Text.bytes b) ∧
      c.metadataList.Perm (models.map Model.metadata) ∧
      (∀ m ∈ models, c.metadata m.name = .ok m.metadata) ∧
      ∀ e ∈ c.metadataList, ∃ m ∈ models, e = m.metadata ∧ e.Describes c.metadataList m := by
  obtain ⟨rfl, wellFormed⟩ := build_eq_ok.1 h
  have listed : (Catalog.mk models).metadataList.Perm (models.map Model.metadata) :=
    (sortedModels_perm wellFormed.distinct).map _
  have complete : ∀ t ∈ models, t.metadata ∈ (Catalog.mk models).metadataList := by
    intro t ht
    exact listed.mem_iff.2 (List.mem_map_of_mem ht)
  have found : ∀ m ∈ models, (Catalog.mk models).metadata m.name = .ok m.metadata := by
    intro m hm
    rw [metadata, model_eq_ok.2 ((model?_eq_some wellFormed.distinct).2 ⟨hm, rfl⟩)]
    rfl
  have described : ∀ e ∈ (Catalog.mk models).metadataList, ∃ m ∈ models,
      e = m.metadata ∧ e.Describes (Catalog.mk models).metadataList m := by
    intro e he
    obtain ⟨m, hm, rfl⟩ := List.mem_map.1 (listed.mem_iff.1 he)
    exact ⟨m, hm, rfl, wellFormed.describes hm complete⟩
  exact ⟨metadataList_sorted _, listed, found, described⟩

end Catalog

namespace Sample

/-- An edge leads to a node, and its comment serves as its title. -/
def edge : Model where
  name := "Edge"
  tableName := none
  comment := some "Way"
  fields := [key "id", key "nodeId"]
  associations := [⟨"node", .belongsTo, "Node", "nodeId", "id", "id"⟩]

theorem graph_metadata :
    Catalog.build [node, edge] = .ok ⟨[node, edge]⟩ ∧
      (Catalog.mk [node, edge]).metadataList = [edge.metadata, node.metadata] ∧
      edge.metadata.Describes [edge.metadata, node.metadata] edge := by
  have built : Catalog.build [node, edge] = .ok ⟨[node, edge]⟩ := by decide
  have sorted : (Catalog.mk [node, edge]).metadataList = [edge.metadata, node.metadata] := by
    decide
  obtain ⟨-, -, -, described⟩ := Catalog.metadataList_closed built
  rw [sorted] at described
  obtain ⟨m, hm, same, describes⟩ := described _ List.mem_cons_self
  rcases List.mem_pair.1 hm with rfl | rfl
  · exact absurd (congrArg ModelMetadata.name same) (by decide)
  · exact ⟨built, sorted, describes⟩

end Sample

end QueryPlan
