import QueryPlan.Proofs.Catalog.Members
import QueryPlan.Proofs.Expr.References
import QueryPlan.Proofs.Expr.SameReads
import QueryPlan.Proofs.Plan.Query
import QueryPlan.Proofs.Plan.Touched

namespace QueryPlan

namespace Query

/-- A field that a level reads on its own account: a declared one that is selected, one that a
column of a grouping key stands for, or one that is read by what a computed column is compiled to. -/
inductive Reads (p : Planner) (q : Query) : String → Prop where
  | field {f : SelectedField} (mem : f ∈ q.fields) (declared : (q.model.field? f.name).isSome) :
      Reads p q (q.model.name ++ "." ++ f.name)
  | key {key column : Expr} {name x : String} (mem : key ∈ q.groupKeys)
      (leaf : Expr.Occurs (.column none name) key)
      (refers : Scope.Refers ⟨p.catalog, q.model⟩ name column x) : Reads p q x
  | aggregate {f : SelectedField} {function x : String} {e : CompiledExpr} (mem : f ∈ q.fields)
      (named : f.name = "_aggregation") (asked : f.args.get? "fn" = some (.str function))
      (compiled : Scope.compile ⟨p.catalog, q.model⟩ p.settings .lenient
        (.obj (f.call function)) = .ok e)
      (reads : x ∈ e.reads.fields) : Reads p q x
  | relatedColumn {f : SelectedField} {name x : String} {e : CompiledExpr} (mem : f ∈ q.fields)
      (named : f.name = "_col") (asked : f.args.get? "name" = some (.str name))
      (compiled : Scope.compile ⟨p.catalog, q.model⟩ p.settings .strict (.str name) = .ok e)
      (reads : x ∈ e.reads.fields) : Reads p q x

end Query

namespace Siblings

variable {m : Model} {fields : List SelectedField} {f : SelectedField}

theorem mem_requests :
    f ∈ (of m fields).requests ↔ f ∈ fields.eraseDupsBy SelectedField.same ∧
      (m.role f = .aggregate ∨ m.role f = .relatedColumn) := by
  rw [requests, List.mem_append, inRole, inRole, List.mem_filter, List.mem_filter, ← and_or_left,
    decide_eq_true_iff, decide_eq_true_iff]
  rfl

/-- A computed column that is asked for twice is among the requests once. -/
theorem exists_request (hf : f ∈ fields)
    (asks : m.role f = .aggregate ∨ m.role f = .relatedColumn) :
    ∃ g ∈ (of m fields).requests, m.role g = m.role f ∧ (f = g ∨ f.same g) := by
  rcases mem_eraseDupsBy_or hf with hmem | ⟨g, hmem, hfg⟩
  · exact ⟨f, mem_requests.2 ⟨hmem, asks⟩, rfl, .inl rfl⟩
  · have hrole := Model.role_same (m := m) hfg
    rw [hrole] at asks
    exact ⟨g, mem_requests.2 ⟨hmem, asks⟩, hrole.symm, .inr hfg⟩

end Siblings

theorem Stage.Touches.reads {p : Planner} {q : Query} {plan : Descriptor} {x : String}
    (named : q.model.WellNamed) (h : Touches p ⟨q.model, q.args, q.fields, plan⟩ x) :
    q.Reads p x := by
  cases h with
  | selected mem own => exact .field mem (named.role_eq_attribute.1 own)
  | grouped mem occurs denotes hx =>
    obtain ⟨y, refers, only⟩ := denotes.refers
    rw [only, List.mem_singleton] at hx
    rw [hx]
    exact .key mem occurs refers
  | computed mem computes hx =>
    have hf := (eraseDupsBy_sublist _).subset (Siblings.mem_requests.1 mem).1
    rcases computes with ⟨hrole, hc⟩ | ⟨hrole, hc⟩
    · obtain ⟨function, asked, aliasName, -, e, compiled, rfl⟩ := Scope.aggregateColumn_eq_ok.1 hc
      have asked := SelectedField.stringArgument_eq_ok.1 asked
      exact .aggregate hf (named.role_eq_aggregate.1 hrole) asked compiled hx
    · obtain ⟨name, asked, aliasName, -, e, compiled, rfl⟩ := Scope.relatedColumn_eq_ok.1 hc
      have asked := SelectedField.stringArgument_eq_ok.1 asked
      exact .relatedColumn hf (named.role_eq_relatedColumn.1 hrole) asked compiled hx

namespace LevelParts

variable {p : Planner} {n : Nat} {q : Query} {l : Level} {f : SelectedField} {x : String}
  (parts : LevelParts p n q.model q.args q.fields l)
include parts

/-- A column that is asked for twice is computed once. -/
theorem exists_computed (hf : f ∈ q.fields)
    (asks : q.model.role f = .aggregate ∨ q.model.role f = .relatedColumn) :
    ∃ g ∈ (Siblings.of q.model q.fields).requests, ∃ c, (f = g ∨ f.same g) ∧
      q.model.role g = q.model.role f ∧ Scope.Computes ⟨p.catalog, q.model⟩ p.settings g c := by
  obtain ⟨g, hg, hrole, repeated⟩ := Siblings.exists_request hf asks
  obtain ⟨c, -, computes⟩ := exists_of_mem_left parts.computes hg
  exact ⟨g, hg, c, repeated, hrole, computes⟩

theorem touches_of_reads (named : q.model.WellNamed) {plan : Descriptor} (h : q.Reads p x) :
    Stage.Touches p ⟨q.model, q.args, q.fields, plan⟩ x := by
  cases h with
  | field mem declared => exact .selected mem (named.role_eq_attribute.2 declared)
  | key mem leaf refers =>
    obtain ⟨e, denotes, -, only⟩ := refers.denotes
    have hx : x ∈ e.reads.fields := by
      rw [only]
      exact List.mem_singleton_self x
    exact .grouped mem leaf denotes hx
  | aggregate mem hname asked compiled reads =>
    have role := named.role_eq_aggregate.2 hname
    have asked := SelectedField.stringArgument_eq_ok.2 asked
    obtain ⟨g, hg, c, repeated, hrole, computes⟩ := parts.exists_computed mem (.inl role)
    have hc := computes.aggregate (hrole.trans role)
    exact .computed hg computes (Scope.reads_aggregateColumn repeated asked compiled hc x reads)
  | relatedColumn mem hname asked compiled reads =>
    have role := named.role_eq_relatedColumn.2 hname
    have asked := SelectedField.stringArgument_eq_ok.2 asked
    obtain ⟨g, hg, c, repeated, hrole, computes⟩ := parts.exists_computed mem (.inr role)
    have hc := computes.related (hrole.trans role)
    exact .computed hg computes (Scope.reads_relatedColumn repeated asked compiled hc x reads)

/-- A level reports what it reads itself, and what is reported at the levels below it. -/
theorem mem_touched (named : q.model.WellNamed) :
    x ∈ l.touched ↔ q.Reads p x ∨ ∃ b ∈ parts.branches, x ∈ b.level.touched := by
  rw [Stage.mem_level_touched (s := ⟨q.model, q.args, q.fields, l.descriptor⟩) parts]
  exact or_congr_left ⟨fun touches => touches.reads named, parts.touches_of_reads named⟩

end LevelParts

namespace Query

variable {p : Planner} {n : Nat} {q : Query} {l : Level} {x : String}

/-- A planned level reports what is read at the levels that its query reaches. -/
theorem mem_touched (named : ∀ m ∈ p.catalog.models, m.WellNamed)
    (known : q.model ∈ p.catalog.models) (h : p.level n q.model q.args q.fields = .ok l) :
    x ∈ l.touched ↔ ∃ r, q.Reaches p.catalog r ∧ r.Reads p x := by
  induction n generalizing q l with
  | zero => cases h
  | succ n ih =>
    obtain ⟨_, hn, ⟨parts⟩⟩ := Planner.level_parts h
    cases hn
    rw [parts.mem_touched (named q.model known)]
    refine ⟨?_, ?_⟩
    · intro h'
      rcases h' with reads | ⟨b, hb, hx⟩
      · exact ⟨q, .here q, reads⟩
      · obtain ⟨r, hr, hl⟩ := parts.nested hb
        obtain ⟨t, reached, reads⟩ := (ih (nested?_known hr) hl).1 hx
        exact ⟨t, .nested hr reached, reads⟩
    · intro h'
      obtain ⟨t, reached, reads⟩ := h'
      cases reached with
      | here => exact .inl reads
      | nested hr reached =>
        obtain ⟨b, hb, -, hl⟩ := parts.branch_of_nested hr
        exact .inr ⟨b, hb, (ih (nested?_known hr) hl).2 ⟨t, reached, reads⟩⟩

end Query

def FieldSource.query (source : FieldSource) (m : Model) (args : Json.Object) : Query :=
  ⟨m, args, source.selected⟩

namespace Planner

variable {p : Planner} {models : List Model} {name : String} {m : Model} {args : Json.Object}
  {source : FieldSource} {q : CompiledQuery}

theorem model_mem (h : p.model name = .ok m) : m ∈ p.catalog.models :=
  (Catalog.model?_some (Catalog.model_eq_ok.1 (mapError_eq_ok.1 h))).1

/-- The reported fields are those that are read at the levels that a query reaches. -/
theorem compile_touchedFields (built : Catalog.build models = .ok p.catalog)
    (hm : p.model name = .ok m) (h : p.compile m args source = .ok q) (x : String) :
    x ∈ q.touchedFields.toList ↔
      ∃ r, (source.query m args).Reaches p.catalog r ∧ r.Reads p x := by
  have named := Catalog.build_wellNamed built
  obtain ⟨l, hp, ht⟩ := compile_planned h
  rw [ht, NameSet.mem_ofList]
  exact Query.mem_touched (q := source.query m args) named (model_mem hm) hp.level

end Planner

namespace Sample

def owner (field : String) : SelectedField :=
  { selected "owner" with fields := some [selected field] }

def highestId : SelectedField :=
  { selected "_aggregation" with args := [("fn", .str "MAX"), ("args", .str "id")] }

def ownerId : SelectedField :=
  { selected "_col" with args := [("name", .str "owner.id")] }

def byOwnerAge : Json.Object := [("groupBy", .str "owner.age")]

/-- Every way to read a field: by its name, by a grouping key, in an aggregate and through an
association. -/
def ownersByAge : Query :=
  ⟨project, byOwnerAge, [selected "title", owner "name", highestId, ownerId]⟩

def ownersByAgePlan : CompiledQuery where
  descriptor := {
    options := {
      attributes := some (.columns [.column "title", .column "ownerId",
        .computed (.call "MAX" [.column none "id"]) "_MAX",
        .computed (.column (some "owner") "id") "_owner.id"])
      group := some [.column (some "owner") "age"] }
    joins := [{
      model := "User"
      aliasName := "owner"
      options := { attributes := some (.columns [.column "name"]) }
      joins := [] }] }
  touchedFields := .ofList ["Project.title", "Project.id", "User.id", "User.age", "User.name"]

theorem ownersByAge_touched :
    planner.compile project byOwnerAge (.fields ownersByAge.fields) = .ok ownersByAgePlan ∧
      ∀ x, x ∈ ownersByAgePlan.touchedFields.toList ↔
        ∃ r, ownersByAge.Reaches planner.catalog r ∧ r.Reads planner x := by
  have compiled : planner.compile project byOwnerAge (.fields ownersByAge.fields) =
      .ok ownersByAgePlan := by
    with_unfolding_all rfl
  have known : planner.model "Project" = .ok project := rfl
  exact ⟨compiled, Planner.compile_touchedFields catalog_built known compiled⟩

end Sample

end QueryPlan
