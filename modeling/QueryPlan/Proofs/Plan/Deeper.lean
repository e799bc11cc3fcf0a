import QueryPlan.Proofs.DepthGate
import QueryPlan.Proofs.Plan.ComputedColumn
import QueryPlan.Proofs.Plan.Stage

namespace QueryPlan

namespace Scope

variable {s : Scope} {settings settings' : Settings}

theorem aggregateColumn_gates (hle : settings.maxDepth.toNat ≤ settings'.maxDepth.toNat)
    (f : SelectedField) : Gates (s.aggregateColumn settings f) (s.aggregateColumn settings' f) := by
  refine (Gates.refl _).bind fun function => ?_
  refine (Gates.refl _).bind fun aliasName => ?_
  exact (compile_gates hle _).bind fun e => .refl _

theorem relatedColumn_gates (hle : settings.maxDepth.toNat ≤ settings'.maxDepth.toNat)
    (f : SelectedField) : Gates (s.relatedColumn settings f) (s.relatedColumn settings' f) := by
  refine (Gates.refl _).bind fun name => ?_
  refine (Gates.refl _).bind fun aliasName => ?_
  exact (compile_gates hle _).bind fun e => .refl _

end Scope

namespace Planner

variable {c : Catalog} {settings settings' : Settings} {m : Model}

theorem expand_gates
    {plan plan' : Model → Json.Object → List SelectedField → Except CompileError Level}
    (h : ∀ m args fields, Gates (plan m args fields) (plan' m args fields)) (joined : Joined)
    (e : Expansion) :
    Gates (expand ⟨c, settings⟩ plan m joined e) (expand ⟨c, settings'⟩ plan' m joined e) := by
  unfold expand
  split
  · exact .refl _
  · refine (Gates.refl _).bind fun target => ?_
    exact (h _ _ _).bind fun level => .refl _

/-- A larger depth changes a level only if it was refused for being nested too deep. -/
theorem level_gates (hle : settings.maxDepth.toNat ≤ settings'.maxDepth.toNat) {n k : Nat}
    (hn : n ≤ k) (m : Model) (args : Json.Object) (fields : List SelectedField) :
    Gates (level ⟨c, settings⟩ n m args fields) (level ⟨c, settings'⟩ k m args fields) := by
  induction n generalizing k m args fields with
  | zero => exact .refused settings.maxDepth _
  | succ n ih =>
    obtain ⟨k, rfl⟩ := Nat.exists_eq_add_of_lt hn
    rw [level, level]
    refine (Gates.refl _).bind fun options => ?_
    refine (Gates.refl _).bind fun group => ?_
    have expansions : ∀ joined e,
        Gates (expand ⟨c, settings⟩ (level ⟨c, settings⟩ n) m joined e)
          (expand ⟨c, settings'⟩ (level ⟨c, settings'⟩ (n + k)) m joined e) :=
      expand_gates fun m args fields => ih (by omega) m args fields
    refine (Gates.foldlM expansions).bind fun joined => ?_
    refine (Gates.mapM fun f _ => Scope.aggregateColumn_gates hle f).bind fun aggregates => ?_
    refine (Gates.mapM fun f _ => Scope.relatedColumn_gates hle f).bind fun related => ?_
    exact .refl _

variable {args : Json.Object} {source : FieldSource}

/-- With a larger depth limit a query has the same plan or is refused for the same reason, unless
it was refused for being nested too deep. -/
theorem compile_maxDepth {depth : UInt64} (hle : settings.maxDepth ≤ depth)
    (h : ∀ limit, compile ⟨c, settings⟩ m args source ≠ .error (.depthLimitExceeded limit)) :
    compile ⟨c, { settings with maxDepth := depth }⟩ m args source =
      compile ⟨c, settings⟩ m args source := by
  have hle' := UInt64.le_iff_toNat_le.1 hle
  have gates : Gates (compile ⟨c, settings⟩ m args source)
      (compile ⟨c, { settings with maxDepth := depth }⟩ m args source) :=
    (level_gates hle' hle' m args source.selected).bind fun level => .refl _
  exact gates.eq h

end Planner

namespace Sample

def tight : Settings := { planner.settings with maxDepth := 2 }

/-- The longest title, a call in the call of another function. -/
def longestTitle : SelectedField :=
  { selected "_aggregation" with
    args := [("fn", .str "MAX"), ("args", .obj [("fn", .str "LENGTH"), ("args", .str "title")])] }

def titledProjects : SelectedField :=
  { selected "projects" with
    fields := some [selected "title", longestTitle] }

def titledProjectsPlan : CompiledQuery where
  descriptor := {
    options := { attributes := some (.columns [.column "id"]) }
    joins := [{
      model := "Project"
      aliasName := "projects"
      options := { attributes := some (.columns [.column "title",
        .computed (.call "MAX" [.call "LENGTH" [.column none "title"]]) "_MAX"]) }
      joins := [] }] }
  touchedFields := .ofList ["Project.title"]

/-- Both the levels and the calls are as deep as they may be. -/
theorem titledProjects_maxDepth :
    Planner.compile ⟨planner.catalog, { tight with maxDepth := 1 }⟩ user []
        (.fields [titledProjects]) = .error (.depthLimitExceeded 1) ∧
      Planner.compile ⟨planner.catalog, tight⟩ user [] (.fields [titledProjects]) =
        .ok titledProjectsPlan ∧
      Planner.compile ⟨planner.catalog, { tight with maxDepth := 32 }⟩ user []
        (.fields [titledProjects]) = .ok titledProjectsPlan := by
  have refused : Planner.compile ⟨planner.catalog, { tight with maxDepth := 1 }⟩ user []
      (.fields [titledProjects]) = .error (.depthLimitExceeded 1) := by
    with_unfolding_all rfl
  have compiled : Planner.compile ⟨planner.catalog, tight⟩ user []
      (.fields [titledProjects]) = .ok titledProjectsPlan := by
    with_unfolding_all rfl
  have deeper : tight.maxDepth ≤ 32 := by decide
  have planned : ∀ limit, Planner.compile ⟨planner.catalog, tight⟩ user []
      (.fields [titledProjects]) ≠ .error (.depthLimitExceeded limit) := by
    intro limit exceeded
    rw [compiled] at exceeded
    cases exceeded
  exact ⟨refused, compiled, (Planner.compile_maxDepth deeper planned).trans compiled⟩

end Sample

end QueryPlan
