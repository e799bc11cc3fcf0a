import QueryPlan.Proofs.Plan.Height
import QueryPlan.Proofs.Plan.ReadFields
import QueryPlan.Proofs.Plan.Refusal

namespace QueryPlan

namespace SelectedField

variable {f : SelectedField} {function : String}

theorem callNesting_call :
    (Json.obj (f.call function)).callNesting = (Json.obj f.args).callNesting :=
  Json.callNesting_obj_congr get?_call

/-- A request that is made twice nests no more calls than it does the second time. -/
theorem callNesting_args_le {g : SelectedField} {n : Nat} (h : f.same g)
    (hg : (Json.obj g.args).callNesting ≤ n) : (Json.obj f.args).callNesting ≤ n :=
  Json.callNesting_obj_le_of_agrees (.of_same (same_args h)) hg

end SelectedField

namespace Scope

variable {s : Scope} {settings : Settings} {f : SelectedField} {limit : UInt64}

theorem callNesting_of_aggregateColumn {c : ComputedColumn}
    (h : s.aggregateColumn settings f = .ok c) :
    (Json.obj f.args).callNesting ≤ settings.maxDepth.toNat := by
  obtain ⟨function, -, -, -, e, he, -⟩ := aggregateColumn_eq_ok.1 h
  rw [← SelectedField.callNesting_call]
  exact callNesting_of_compileCall he

theorem callNesting_of_aggregateColumn_eq_error
    (h : s.aggregateColumn settings f = .error (.depthLimitExceeded limit)) :
    limit = settings.maxDepth ∧
      settings.maxDepth.toNat < (Json.obj f.args).callNesting := by
  rcases aggregateColumn_eq_error h with ⟨key, refused⟩ | ⟨function, h⟩
  · exact absurd rfl refused.ne_depthLimitExceeded
  · rw [← SelectedField.callNesting_call]
    exact callNesting_of_compileCall_eq_error h

end Scope

namespace Query

variable {c : Catalog} {q : Query} {limit : Nat}

/-- At no level that is reached is there an aggregate that nests more calls in one another. -/
def CallsWithin (c : Catalog) (limit : Nat) (q : Query) : Prop :=
  ∀ r, q.Reaches c r → ∀ f ∈ r.fields, f.name = "_aggregation" →
    (Json.obj f.args).callNesting ≤ limit

/-- Neither levels nor the calls of an aggregate are nested deeper. -/
structure Within (c : Catalog) (limit : Nat) (q : Query) : Prop where
  height : q.height c ≤ limit
  calls : q.CallsWithin c limit

theorem callsWithin_iff :
    q.CallsWithin c limit ↔
      (∀ f ∈ q.fields, f.name = "_aggregation" → (Json.obj f.args).callNesting ≤ limit) ∧
        ∀ association r, q.nested? c association = some r → r.CallsWithin c limit := by
  refine ⟨?_, ?_⟩
  · intro h
    exact ⟨h q (.here q), fun association r hr t reached => h t (.nested hr reached)⟩
  · intro h'
    obtain ⟨own, nested⟩ := h'
    intro t reached
    cases reached with
    | here => exact own
    | nested hr reached => exact nested _ _ hr t reached

end Query

theorem LevelParts.callNesting_le {p : Planner} {n : Nat} {q : Query} {l : Level}
    (parts : LevelParts p n q.model q.args q.fields l) (named : q.model.WellNamed)
    {f : SelectedField} (hf : f ∈ q.fields) (hname : f.name = "_aggregation") :
    (Json.obj f.args).callNesting ≤ p.settings.maxDepth.toNat := by
  have role := named.role_eq_aggregate.2 hname
  obtain ⟨g, -, c, repeated, hrole, computes⟩ := parts.exists_computed hf (.inl role)
  have hcalls := Scope.callNesting_of_aggregateColumn (computes.aggregate (hrole.trans role))
  rcases repeated with rfl | hfg
  · exact hcalls
  · exact SelectedField.callNesting_args_le hfg hcalls

namespace Planner

variable {p : Planner} {n : Nat} {q : Query} {l : Level}

/-- A planned level has at most as many levels as it may, and no deeper calls. -/
theorem level_within (named : ∀ m ∈ p.catalog.models, m.WellNamed)
    (known : q.model ∈ p.catalog.models) (h : p.level n q.model q.args q.fields = .ok l) :
    q.height p.catalog ≤ n ∧ q.CallsWithin p.catalog p.settings.maxDepth.toNat := by
  induction n generalizing q l with
  | zero => cases h
  | succ n ih =>
    obtain ⟨_, hn, ⟨parts⟩⟩ := level_parts h
    cases hn
    have below : ∀ association r, q.nested? p.catalog association = some r →
        r.height p.catalog ≤ n ∧ r.CallsWithin p.catalog p.settings.maxDepth.toNat := by
      intro association r hr
      obtain ⟨b, -, -, hl⟩ := parts.branch_of_nested hr
      exact ih (Query.nested?_known hr) hl
    have own : ∀ f ∈ q.fields, f.name = "_aggregation" →
        (Json.obj f.args).callNesting ≤ p.settings.maxDepth.toNat :=
      fun f hf hname => parts.callNesting_le (named q.model known) hf hname
    exact ⟨Query.height_le.2 fun association r hr => (below association r hr).1,
      Query.callsWithin_iff.2 ⟨own, fun association r hr => (below association r hr).2⟩⟩

/-- A level is refused for the depth only if levels or calls are nested too deep. -/
theorem level_exceeds {limit : UInt64}
    (h : p.level n q.model q.args q.fields = .error (.depthLimitExceeded limit)) :
    limit = p.settings.maxDepth ∧
      (n < q.height p.catalog ∨ ¬ q.CallsWithin p.catalog p.settings.maxDepth.toNat) := by
  induction n generalizing q with
  | zero =>
    cases h
    exact ⟨rfl, .inl (q.height_pos p.catalog)⟩
  | succ n ih =>
    cases level_refusal h with
    | arguments h =>
      obtain ⟨arg, -, refused⟩ := Options.withArguments_refuses h
      exact absurd rfl refused.ne_depthLimitExceeded
    | key mem h =>
      obtain ⟨cause, he⟩ := Scope.resolveKey_eq_error h
      cases he
    | nested expands h =>
      obtain ⟨hlimit, deep⟩ := ih h
      refine ⟨hlimit, deep.imp ?_ ?_⟩
      · intro hheight
        refine Nat.lt_of_not_le fun hle => ?_
        have hle' := Query.height_le.1 hle _ _ expands
        omega
      · intro hcalls within
        exact hcalls ((Query.callsWithin_iff.1 within).2 _ _ expands)
    | aggregate mem role h =>
      obtain ⟨hlimit, deep⟩ := Scope.callNesting_of_aggregateColumn_eq_error h
      have hname := Model.fits_of_role role
      refine ⟨hlimit, .inr fun within => ?_⟩
      have hle := (Query.callsWithin_iff.1 within).1 _ mem hname
      omega
    | relatedColumn mem role h =>
      rcases Scope.relatedColumn_eq_error h with ⟨key, refused⟩ | ⟨name, h⟩
      · exact absurd rfl refused.ne_depthLimitExceeded
      · rcases Scope.compileName_eq_error h with ⟨cause, he⟩ | he <;> cases he

variable {models : List Model} {name : String} {m : Model} {args : Json.Object}
  {source : FieldSource}

/-- What is planned is within the depth limit, what exceeds it is refused, and it is named as the
reason only where it is exceeded. -/
theorem compile_depthLimit (built : Catalog.build models = .ok p.catalog)
    (hm : p.model name = .ok m) :
    (∀ q, p.compile m args source = .ok q →
      (source.query m args).Within p.catalog p.settings.maxDepth.toNat) ∧
    (¬ (source.query m args).Within p.catalog p.settings.maxDepth.toNat →
      ∃ e, p.compile m args source = .error e) ∧
    ∀ limit, p.compile m args source = .error (.depthLimitExceeded limit) →
      limit = p.settings.maxDepth ∧
        ¬ (source.query m args).Within p.catalog p.settings.maxDepth.toNat := by
  have named := Catalog.build_wellNamed built
  have planned : ∀ q, p.compile m args source = .ok q →
      (source.query m args).Within p.catalog p.settings.maxDepth.toNat := by
    intro q h
    obtain ⟨l, hl, -⟩ := bind_eq_ok.1 h
    obtain ⟨height, calls⟩ := level_within (q := source.query m args) named (model_mem hm) hl
    exact ⟨height, calls⟩
  refine ⟨planned, ?_, ?_⟩
  · intro exceeds
    cases h : p.compile m args source with
    | error e => exact ⟨e, rfl⟩
    | ok q => exact absurd (planned q h) exceeds
  · intro limit h
    rcases bind_eq_error.1 h with h | ⟨l, -, h⟩
    · obtain ⟨hlimit, deep⟩ := level_exceeds (q := source.query m args) h
      refine ⟨hlimit, fun within => ?_⟩
      rcases deep with hheight | hcalls
      · exact absurd within.height (Nat.not_le.2 hheight)
      · exact hcalls within.calls
    · exact absurd h pure_ne_error

end Planner

namespace Sample

def shallow : Planner := ⟨planner.catalog, { planner.settings with maxDepth := 1 }⟩

theorem owner_exceeds :
    shallow.compile project [] (.fields [owner "name"]) = .error (.depthLimitExceeded 1) ∧
      ¬ (Query.mk project [] [owner "name"]).Within shallow.catalog 1 := by
  have refused : shallow.compile project [] (.fields [owner "name"]) =
      .error (.depthLimitExceeded 1) := by
    with_unfolding_all rfl
  have known : shallow.model "Project" = .ok project := rfl
  have exceeds := (Planner.compile_depthLimit (p := shallow) catalog_built known).2.2 1 refused
  exact ⟨refused, exceeds.2⟩

end Sample

end QueryPlan
