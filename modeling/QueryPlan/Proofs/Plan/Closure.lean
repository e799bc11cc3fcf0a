import QueryPlan.Proofs.Plan.Stage

namespace QueryPlan

/-- Every association that a level of `m` reads through is declared and joined once, to its target,
and what is read there is a column of the target. -/
def Descriptor.Closed (c : Catalog) (m : Model) (d : Descriptor) : Prop :=
  ∀ e ∈ d.options.expressions, ∀ association column,
    Expr.Occurs (.column (some association) column) e →
      ∃ a t j, m.association? association = some a ∧ c.model? a.target = some t ∧
        d.joins.filter (·.aliasName = association) = [j] ∧ j.model = a.target ∧
        ∃ f ∈ t.fields, f.storageName = column

/-- The entries that a level projects apart from the computed columns that are requested. -/
def Stage.listed (s : Stage) : List ProjectionItem :=
  Planner.listed s.asked.attributes (Siblings.of s.model s.fields).columns

namespace LevelParts

variable {p : Planner} {remaining : Nat} {m : Model} {args : Json.Object}
  {fields : List SelectedField} {l : Level} (parts : LevelParts p remaining m args fields l)
include parts

theorem joined_once {association : String} {a : Association}
    (declared : m.association? association = some a)
    (qualifies : l.descriptor.options.Qualifies association) :
    ∃ j, l.descriptor.joins.filter (·.aliasName = association) = [j] ∧ j.model = a.target := by
  have joined := parts.mem_aliases.2 (.inr qualifies)
  obtain ⟨j, hj, rfl⟩ := List.mem_map.1 joined
  exact ⟨j, filter_eq_singleton parts.aliases_nodup hj, parts.join_model hj declared⟩

theorem closed : l.descriptor.Closed p.catalog m := by
  intro e he association column ho
  obtain ⟨a, t, f, declared, target, hf, hcolumn⟩ := parts.qualified_column he ho
  obtain ⟨j, hj, hmodel⟩ := parts.joined_once declared ⟨e, he, column, ho⟩
  exact ⟨a, t, j, declared, target, hj, hmodel, f, hf, hcolumn⟩

theorem computed_unqualified {c : ComputedColumn} (hc : c ∈ parts.computed) :
    ∃ e aliasName, c.item = .computed e aliasName ∧ ∀ column,
      Expr.Occurs (.column none column) e → ∃ f ∈ m.fields, f.storageName = column := by
  obtain ⟨e, aliasName, rfl, compiled⟩ := parts.computed_compiled hc
  exact ⟨e.expr, aliasName, rfl, fun _ ho => compiled.unqualified ho⟩

end LevelParts

theorem Stage.Planned.closed {p : Planner} {n : Nat} {l : Level} {s : Stage}
    (h : s.Planned p n l) (hl : l.descriptor.Closed p.catalog s.model) :
    s.plan.Closed p.catalog s.model := by
  intro e he association column ho
  rw [h.expressions] at he
  rw [h.joins]
  exact hl e he association column ho

namespace Planner

variable {p : Planner} {name : String} {m : Model} {args : Json.Object} {source : FieldSource}
  {q : CompiledQuery}

/-- At every level a plan joins what it reads, and what is computed for a request is computed of
columns of the level's model. -/
theorem compile_closed (hm : p.model name = .ok m) (h : p.compile m args source = .ok q) :
    (∀ n d, q.descriptor.HasLevel m.name n d →
      ∃ t, p.catalog.model? n = some t ∧ d.Closed p.catalog t) ∧
    ∀ s, (q.root m args source).Reaches p.catalog s →
      ∃ computed, s.plan.options.items = s.listed ++ computed ∧
        computed.length = s.requests.length ∧
        ∀ item ∈ computed, ∃ e aliasName, item = .computed e aliasName ∧ ∀ column,
          Expr.Occurs (.column none column) e → ∃ f ∈ s.model.fields, f.storageName = column := by
  refine ⟨?_, ?_⟩
  · intro n d hl
    rcases stage_of_hasLevel h hl with ⟨s, reached, rfl, rfl⟩ | ⟨⟨t, ht⟩, name, rfl⟩
    · have known := reached.known (model_known hm)
      obtain ⟨n, k, hs, ⟨parts⟩⟩ := parts_of_reached h reached
      exact ⟨s.model, known, hs.closed parts.closed⟩
    · refine ⟨t, ht, ?_⟩
      -- A join that only supports columns computes nothing.
      intro e he
      cases he
  · intro s reached
    obtain ⟨n, k, hs, ⟨parts⟩⟩ := parts_of_reached h reached
    refine ⟨parts.computed.map (·.item), ?_, ?_, ?_⟩
    · rw [hs.items, parts.items, Stage.listed, Stage.asked_eq parts]
    · rw [List.length_map, ← parts.computes.length_eq]
      rfl
    · intro item hi
      obtain ⟨c, hc, rfl⟩ := List.mem_map.1 hi
      exact parts.computed_unqualified hc

end Planner

namespace Sample

def ownerInitials : SelectedField :=
  { selected "_aggregation" with
    args := [("fn", .str "LEFT"), ("args", .arr [.str "owner.name", Json.ofNat 1])] }

def ownerInitialsPlan : CompiledQuery where
  descriptor := {
    options := { attributes := some (.columns
      [.computed (.call "LEFT" [.column (some "owner") "user_name", .literal (Json.ofNat 1)])
        "_LEFT"]) }
    joins := [⟨"User", "owner", { attributes := some (.columns []) }, []⟩] }
  touchedFields := .ofList ["User.name"]

theorem ownerInitials_closed :
    planner.compile project [] (.fields [ownerInitials]) = .ok ownerInitialsPlan ∧
      ∃ t, planner.catalog.model? "Project" = some t ∧
        ownerInitialsPlan.descriptor.Closed planner.catalog t := by
  have compiled : planner.compile project [] (.fields [ownerInitials]) = .ok ownerInitialsPlan := by
    with_unfolding_all rfl
  have known : planner.model "Project" = .ok project := rfl
  have closed := Planner.compile_closed known compiled
  exact ⟨compiled, closed.1 "Project" ownerInitialsPlan.descriptor .root⟩

end Sample

end QueryPlan
