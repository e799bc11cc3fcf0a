import QueryPlan.Proofs.Catalog.WellFormed
import QueryPlan.Proofs.Plan.Refusal
import QueryPlan.Proofs.Plan.Stage

namespace QueryPlan

/-- Every association leads to a model of the catalog. -/
def Catalog.Linked (c : Catalog) : Prop :=
  ∀ m ∈ c.models, ∀ a ∈ m.associations, ∃ t, c.model? a.target = some t

namespace Catalog

variable {models : List Model} {c : Catalog} {m : Model} {name : String}

theorem build_linked (h : build models = .ok c) : c.Linked := by
  obtain ⟨rfl, wellFormed⟩ := build_eq_ok.1 h
  intro m hm a ha
  obtain ⟨t, ht, named, -⟩ := (wellFormed.joins m hm a ha).target
  exact ⟨t, (model?_eq_some wellFormed.distinct).2 ⟨ht, named⟩⟩

theorem Linked.target_found (h : c.Linked) (hm : m ∈ c.models)
    (declared : (m.association? name).isSome) : ∃ a t, c.target m name = .ok (a, t) := by
  obtain ⟨a, ha⟩ := Option.isSome_iff_exists.1 declared
  have mem := (Model.association?_some ha).1
  obtain ⟨t, ht⟩ := h m hm a mem
  exact ⟨a, t, target_eq_ok.2 ⟨ha, ht⟩⟩

end Catalog

theorem CompileError.Refuses.ne_catalog {e : CompileError} {argument : String}
    {cause : CatalogError} (h : e.Refuses argument) : e ≠ .catalog cause := by
  obtain ⟨reason, rfl⟩ := h
  nofun

namespace Scope

variable {s : Scope} {strictness : Strictness} {settings : Settings} {cause : CatalogError}
  (linked : s.catalog.Linked) (known : s.model ∈ s.catalog.models)
include linked known

/-- A name is looked up behind an association only if that is declared, and then it has a target. -/
theorem column?_ne_error {e : CompileError} (name : String) : s.column? name ≠ .error e := by
  intro h
  unfold column? at h
  split at h
  · cases h
  · split at h
    · cases h
    · rename_i a declared
      have isDeclared := Option.isSome_of_eq_some declared
      obtain ⟨a, t, found⟩ := linked.target_found known isDeclared
      rw [found] at h
      exact absurd h pure_ne_error

theorem compileName_ne_catalog (name : String) :
    s.compileName strictness name ≠ .error (.catalog cause) := by
  intro h
  rcases bind_eq_error.1 h with h | ⟨found, -, h⟩
  · exact column?_ne_error linked known name h
  · split at h
    · exact absurd h pure_ne_error
    · exact absurd h pure_ne_error
    · cases throw_eq_error.1 h

theorem compileCall_ne_catalog {limit : UInt64} {n : Nat} (call : Json.Object) :
    s.compileCall strictness limit n call ≠ .error (.catalog cause) := by
  intro h
  rcases compileCall_eq_error h with refused | ⟨name, h⟩ | he
  · exact refused.ne_catalog rfl
  · exact compileName_ne_catalog linked known name h
  · cases he

theorem compile_ne_catalog (v : Json) :
    s.compile settings strictness v ≠ .error (.catalog cause) := by
  cases v with
  | obj call => exact compileCall_ne_catalog linked known call
  | str name => exact compileName_ne_catalog linked known name
  | _ => nofun

theorem resolveKey_ne_error {e : CompileError} (key : Expr) : s.resolveKey key ≠ .error e := by
  intro h
  induction key using Expr.induction generalizing e with
  | literal v => cases h
  | column via name =>
    cases via with
    | none =>
      rw [resolveKey] at h
      rcases bind_eq_error.1 h with h | ⟨found, -, h⟩
      · exact column?_ne_error linked known name h
      · exact absurd h pure_ne_error
    | some association => cases h
  | call function keys ih =>
    rw [resolveKey, resolveKeys_eq_mapM] at h
    rcases bind_eq_error.1 h with h | ⟨args, -, h⟩
    · obtain ⟨key, hkey, h⟩ := mapM_eq_error h
      exact ih key hkey h
    · exact absurd h pure_ne_error

theorem aggregateColumn_ne_catalog (f : SelectedField) :
    s.aggregateColumn settings f ≠ .error (.catalog cause) := by
  intro h
  rcases aggregateColumn_eq_error h with ⟨key, refused⟩ | ⟨function, h⟩
  · exact refused.ne_catalog rfl
  · exact compile_ne_catalog linked known _ h

theorem relatedColumn_ne_catalog (f : SelectedField) :
    s.relatedColumn settings f ≠ .error (.catalog cause) := by
  intro h
  rcases relatedColumn_eq_error h with ⟨key, refused⟩ | ⟨name, h⟩
  · exact refused.ne_catalog rfl
  · exact compileName_ne_catalog linked known name h

end Scope

/-- What is expanded is an association of the model. -/
theorem Siblings.declared_of_mem_expansions {m : Model} {fields : List SelectedField}
    {x : Expansion} (h : x ∈ (Siblings.of m fields).expansions) :
    (m.association? x.name).isSome := by
  have mem : x.first ∈ m.selectionsOf fields x.name := by
    rw [← selections_of_mem_expansions h]
    exact List.mem_cons_self
  have expands := (List.mem_filter.1 mem).2
  rw [Bool.and_eq_true, Model.expands, Bool.and_eq_true] at expands
  exact expands.1.1

namespace Planner

variable {p : Planner} {n : Nat} {q : Query} {cause : CatalogError}

/-- In a catalog whose associations lead to models no level fails for a look-up, nor do the levels
below it, whose models are in the catalog again. -/
theorem level_ne_catalog (linked : p.catalog.Linked) (known : q.model ∈ p.catalog.models) :
    p.level n q.model q.args q.fields ≠ .error (.catalog cause) := by
  induction n generalizing q with
  | zero => nofun
  | succ n ih =>
    intro h
    have inScope : (Scope.mk p.catalog q.model).model ∈ p.catalog.models := known
    cases level_refusal h with
    | arguments h =>
      obtain ⟨arg, -, refused⟩ := Options.withArguments_refuses h
      exact refused.ne_catalog rfl
    | key mem h => exact Scope.resolveKey_ne_error linked inScope _ h
    | target mem h =>
      have declared := Siblings.declared_of_mem_expansions mem
      obtain ⟨a, t, found⟩ := linked.target_found known declared
      rw [found] at h
      cases h
    | nested expands h => exact ih (Query.nested?_known expands) h
    | aggregate mem role h => exact Scope.aggregateColumn_ne_catalog linked inScope _ h
    | relatedColumn mem role h => exact Scope.relatedColumn_ne_catalog linked inScope _ h

variable {models : List Model} {name : String} {m : Model}

/-- Neither a plan nor an expression for a model of a built catalog fails for a look-up in it. -/
theorem lookups_found (built : Catalog.build models = .ok p.catalog)
    (hm : p.model name = .ok m) :
    (∀ args source cause, p.compile m args source ≠ .error (.catalog cause)) ∧
      ∀ settings strictness v cause,
        Scope.compile ⟨p.catalog, m⟩ settings strictness v ≠ .error (.catalog cause) := by
  have linked := Catalog.build_linked built
  have known := (Catalog.model?_some (model_known hm)).1
  constructor
  · intro args source cause h
    rcases bind_eq_error.1 h with h | ⟨l, -, h⟩
    · exact level_ne_catalog (q := ⟨m, args, source.selected⟩) linked known h
    · exact absurd h pure_ne_error
  · intro settings strictness v cause
    exact Scope.compile_ne_catalog linked known v

end Planner

namespace Sample

def strangerName : SelectedField :=
  { selected "_col" with args := [("name", .str "stranger.name")] }

/-- A column behind an association that is not declared is an unknown field. -/
theorem strangerName_ne_catalog :
    planner.compile project [] (.fields [strangerName]) =
        .error (.unknownField "Project" "stranger.name") ∧
      (∀ cause, planner.compile project [] (.fields [strangerName]) ≠ .error (.catalog cause)) ∧
      ∀ cause, Scope.compile ⟨planner.catalog, project⟩ planner.settings .strict
        (.str "stranger.name") ≠ .error (.catalog cause) := by
  have refused : planner.compile project [] (.fields [strangerName]) =
      .error (.unknownField "Project" "stranger.name") := by
    with_unfolding_all rfl
  have known : planner.model "Project" = .ok project := rfl
  obtain ⟨plans, expressions⟩ := Planner.lookups_found (p := planner) catalog_built known
  exact ⟨refused, plans [] _, expressions _ .strict _⟩

end Sample

end QueryPlan
