import QueryPlan.Proofs.Expr.References
import QueryPlan.Proofs.Plan.CatalogLookups

namespace QueryPlan

namespace Json

variable {v : Json} {call : Object}

/-- The function that a call names is one that may be called. -/
def Object.NamesFunction (call : Object) : Prop :=
  ∃ function, call.get? "fn" = some (.str function) ∧ IsFunctionName function

/-- The calls of a value name functions, and at most `n` of them are nested in one another: a path
to a call leads through as many others as it has indices. -/
def CallsAllowed (v : Json) (n : Nat) : Prop :=
  ∀ path (call : Object), v.valueAt path = some (.obj call) → call.NamesFunction ∧ path.length < n

theorem callsAllowed_of_ne_obj (noCall : ∀ call, v ≠ .obj call) (n : Nat) : v.CallsAllowed n := by
  intro path call found
  cases path with
  | nil =>
    cases noCall call (Option.some.inj found)
  | cons i path =>
    rw [valueAt, callArguments_of_ne_obj noCall] at found
    cases found

theorem not_callsAllowed_zero : ¬ (obj call).CallsAllowed 0 := by
  intro h
  cases (h [] call rfl).2

theorem callsAllowed_succ {n : Nat} :
    (obj call).CallsAllowed (n + 1) ↔
      call.NamesFunction ∧ ∀ v ∈ (obj call).callArguments, v.CallsAllowed n := by
  constructor
  · intro h
    constructor
    · exact (h [] call rfl).1
    intro v hv path inner found
    obtain ⟨i, hi⟩ := List.getElem?_of_mem hv
    have below : (obj call).valueAt (i :: path) = some (.obj inner) := by
      rw [valueAt, hi, Option.bind_some, found]
    obtain ⟨named, within⟩ := h (i :: path) inner below
    exact ⟨named, Nat.lt_of_succ_lt_succ within⟩
  · intro h path inner found
    obtain ⟨named, below⟩ := h
    cases path with
    | nil =>
      cases found
      exact ⟨named, Nat.zero_lt_succ n⟩
    | cons i path =>
      obtain ⟨v, hv, found⟩ := Option.bind_eq_some_iff.1 found
      obtain ⟨named, within⟩ := below v (List.mem_of_getElem? hv) path inner found
      exact ⟨named, Nat.succ_lt_succ within⟩

end Json

namespace Scope

variable {s : Scope} {strictness : Strictness} {limit : UInt64} {n : Nat} {settings : Settings}

theorem functionName_accepts {given : Option Json} :
    (∃ function, functionName given = .ok function) ↔
      ∃ function, given = some (.str function) ∧ IsFunctionName function := by
  constructor
  · intro h
    obtain ⟨function, h⟩ := h
    exact ⟨function, functionName_given h, isFunctionName_iff.1 (functionName_accepted h)⟩
  · intro h
    obtain ⟨function, rfl, named⟩ := h
    exact ⟨function, if_pos (isFunctionName_iff.2 named)⟩

/-- Arguments are accepted if each of them is, where every name is. -/
theorem compileArguments_accepts {argument : Json → Except CompileError CompiledExpr}
    (names : ∀ name, ∃ e, s.compileName strictness name = .ok e)
    (strings : ∀ name, ∃ e, argument (.str name) = .ok e) (values : List Json) :
    (∃ args, s.compileArguments strictness argument values = .ok args) ↔
      ∀ v ∈ values, ∃ e, argument v = .ok e := by
  unfold compileArguments
  split
  · rename_i name rest
    rw [List.forall_mem_cons, ← exists_mapM_eq_ok]
    constructor
    · intro h
      obtain ⟨args, h⟩ := h
      obtain ⟨first, -, h⟩ := bind_eq_ok.1 h
      obtain ⟨more, h, -⟩ := bind_eq_ok.1 h
      exact ⟨strings name, more, h⟩
    · intro h
      obtain ⟨-, more, h⟩ := h
      obtain ⟨first, hf⟩ := names name
      exact ⟨first :: more, bind_eq_ok.2 ⟨first, hf, bind_eq_ok.2 ⟨more, h, rfl⟩⟩⟩
  · exact exists_mapM_eq_ok

/-- What an argument is compiled to that is no name in front of the others. -/
def compileArgument (s : Scope) (strictness : Strictness) (limit : UInt64) (n : Nat) :
    Json → Except CompileError CompiledExpr
  | .obj call => s.compileCall strictness limit n call
  | v => .ok ⟨.literal v, {}⟩

theorem compileArgument_of_ne_obj {v : Json} (noCall : ∀ call, v ≠ .obj call) :
    s.compileArgument strictness limit n v = .ok ⟨.literal v, {}⟩ := by
  cases v with
  | obj call => cases noCall call rfl
  | _ => rfl

theorem compileCall_succ (call : Json.Object) :
    s.compileCall strictness limit (n + 1) call = (do
      let function ← functionName (call.get? "fn")
      let args ← s.compileArguments strictness (s.compileArgument strictness limit n)
        (Json.obj call).callArguments
      return ⟨.call function (args.map (·.expr)), args.foldr (·.reads ++ ·) {}⟩) := by
  rw [Json.callArguments_obj]
  rfl

theorem compileCall_accepts (names : ∀ name, ∃ e, s.compileName strictness name = .ok e)
    {call : Json.Object} :
    (∃ e, s.compileCall strictness limit n call = .ok e) ↔ (Json.obj call).CallsAllowed n := by
  induction n generalizing call with
  | zero =>
    constructor
    · intro h
      obtain ⟨e, h⟩ := h
      cases h
    · intro h
      cases Json.not_callsAllowed_zero h
  | succ n ih =>
    have each (v : Json) :
        (∃ e, s.compileArgument strictness limit n v = .ok e) ↔ v.CallsAllowed n := by
      cases v with
      | obj inner => exact ih
      | _ =>
        constructor
        · intro _
          apply Json.callsAllowed_of_ne_obj
          nofun
        · intro _
          exact ⟨_, rfl⟩
    have strings (name : String) : ∃ e, s.compileArgument strictness limit n (.str name) = .ok e :=
      ⟨_, rfl⟩
    have arguments := compileArguments_accepts names strings (Json.obj call).callArguments
    simp only [each] at arguments
    rw [Json.callsAllowed_succ, ← arguments, Json.Object.NamesFunction, ← functionName_accepts]
    constructor
    · intro h
      obtain ⟨e, h⟩ := h
      obtain ⟨function, hf, h⟩ := bind_eq_ok.1 h
      obtain ⟨args, ha, -⟩ := bind_eq_ok.1 h
      exact ⟨⟨function, hf⟩, args, ha⟩
    · intro h
      obtain ⟨⟨function, hf⟩, args, ha⟩ := h
      exact ⟨_, bind_eq_ok.2 ⟨function, hf, bind_eq_ok.2 ⟨args, ha, rfl⟩⟩⟩

theorem compileName_lenient (linked : s.catalog.Linked) (known : s.model ∈ s.catalog.models)
    (name : String) : ∃ e, s.compileName .lenient name = .ok e := by
  cases hc : s.column? name with
  | error e => cases column?_ne_error linked known name hc
  | ok found =>
    cases found with
    | none => exact ⟨_, bind_eq_ok.2 ⟨none, hc, rfl⟩⟩
    | some e => exact ⟨e, bind_eq_ok.2 ⟨some e, hc, rfl⟩⟩

variable {models : List Model} {c : Catalog} {name : String} {m : Model}

/-- Where unknown names are taken for literals, everything is accepted but lists and values with a
call that names no function or is nested too deep. -/
theorem compile_accepts_iff (built : Catalog.build models = .ok c) (hm : c.model name = .ok m)
    (settings : Settings) (v : Json) :
    (∃ e, compile ⟨c, m⟩ settings .lenient v = .ok e) ↔
      (∀ items, v ≠ .arr items) ∧ v.CallsAllowed settings.maxDepth.toNat := by
  have linked := Catalog.build_linked built
  have known := (Catalog.model?_some (Catalog.model_eq_ok.1 hm)).1
  have names := compileName_lenient (s := ⟨c, m⟩) linked known
  cases v with
  | obj call =>
    rw [and_iff_right nofun]
    exact compileCall_accepts names
  | arr items =>
    constructor
    · intro h
      obtain ⟨e, h⟩ := h
      cases h
    · intro h
      cases h.1 items rfl
  | str text =>
    have noCall : ∀ call, Json.str text ≠ .obj call := nofun
    exact iff_of_true (names text) ⟨nofun, Json.callsAllowed_of_ne_obj noCall _⟩
  | null | bool | num =>
    constructor
    · intro _
      constructor
      · nofun
      · apply Json.callsAllowed_of_ne_obj
        nofun
    · intro _
      exact ⟨_, rfl⟩

end Scope

namespace Sample

/-- A call in another one, with an object in a list that is no call. -/
def tagged : Json :=
  .obj [("fn", .str "CONCAT"), ("args", .arr [.str "title", .arr [.obj [("tag", .null)]],
    .obj [("fn", .str "tags.first"), ("args", .arr [.str "id"])]])]

theorem tagged_accepted :
    Catalog.build [user, project] = .ok planner.catalog ∧
      planner.catalog.model "Project" = .ok project ∧
      tagged.CallsAllowed 2 ∧ ¬ tagged.CallsAllowed 1 := by
  have known : planner.catalog.model "Project" = .ok project := rfl
  have accepts (depth : UInt64) :=
    Scope.compile_accepts_iff catalog_built known { planner.settings with maxDepth := depth } tagged
  have accepted : tagged.CallsAllowed 2 := ((accepts 2).1 ⟨_, by with_unfolding_all rfl⟩).2
  have deeper : ¬ tagged.CallsAllowed 1 := by
    intro allowed
    obtain ⟨e, compiled⟩ := (accepts 1).2 ⟨nofun, allowed⟩
    have refused : Scope.compile ⟨planner.catalog, project⟩ { planner.settings with maxDepth := 1 }
        .lenient tagged = .error (.depthLimitExceeded 1) := by
      with_unfolding_all rfl
    cases refused.symm.trans compiled
  exact ⟨catalog_built, known, accepted, deeper⟩

end Sample

end QueryPlan
