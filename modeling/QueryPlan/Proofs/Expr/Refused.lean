import QueryPlan.Expr.Resolve
import QueryPlan.Proofs.Filter.Refused

namespace QueryPlan.Scope

variable {s : Scope} {strictness : Strictness} {name : String} {e : CompileError}

theorem column?_eq_error (h : s.column? name = .error e) : ∃ cause, e = .catalog cause := by
  unfold column? at h
  split at h
  · cases h
  · split at h
    · cases h
    · rcases bind_eq_error.1 h with h | ⟨_, -, h⟩
      · obtain ⟨cause, -, rfl⟩ := mapError_eq_error.1 h
        exact ⟨cause, rfl⟩
      · exact absurd h pure_ne_error

/-- A name is refused for a catalog without an answer, or because it names no field. -/
theorem compileName_eq_error (h : s.compileName strictness name = .error e) :
    (∃ cause, e = .catalog cause) ∨ e = .unknownField s.model.name name := by
  rcases bind_eq_error.1 h with h | ⟨found, -, h⟩
  · exact .inl (column?_eq_error h)
  · split at h
    · exact absurd h pure_ne_error
    · exact absurd h pure_ne_error
    · exact .inr (throw_eq_error.1 h).symm

theorem functionName_refuses {v : Option Json} (h : functionName v = .error e) :
    e.Refuses "fn" := by
  unfold functionName at h
  split at h
  · split at h <;> cases h
    exact ⟨_, rfl⟩
  · cases h
    exact ⟨_, rfl⟩

theorem compileArguments_eq_error {argument : Json → Except CompileError CompiledExpr}
    {values : List Json} (h : s.compileArguments strictness argument values = .error e) :
    (∃ name, s.compileName strictness name = .error e) ∨ ∃ v ∈ values, argument v = .error e := by
  unfold compileArguments at h
  split at h
  · rename_i name rest
    rcases bind_eq_error.1 h with hname | ⟨first, -, h⟩
    · exact .inl ⟨name, hname⟩
    · rcases bind_eq_error.1 h with hrest | ⟨rest, -, h⟩
      · obtain ⟨v, hv, hargument⟩ := mapM_eq_error hrest
        exact .inr ⟨v, List.mem_cons_of_mem _ hv, hargument⟩
      · exact absurd h pure_ne_error
  · exact .inr (mapM_eq_error h)

/-- A call is refused for a function that it does not name, for a name, or for its depth. -/
theorem compileCall_eq_error {limit : UInt64} {n : Nat} {call : Json.Object}
    (h : s.compileCall strictness limit n call = .error e) :
    e.Refuses "fn" ∨ (∃ name, s.compileName strictness name = .error e) ∨
      e = .depthLimitExceeded limit := by
  induction n generalizing call with
  | zero =>
    cases h
    exact .inr (.inr rfl)
  | succ n ih =>
    rcases bind_eq_error.1 h with h | ⟨function, -, h⟩
    · exact .inl (functionName_refuses h)
    · rcases bind_eq_error.1 h with h | ⟨args, -, h⟩
      · rcases compileArguments_eq_error h with h | ⟨v, -, h⟩
        · exact .inr (.inl h)
        · cases v with
          | obj call => exact ih h
          | _ => cases h
      · exact absurd h pure_ne_error

end QueryPlan.Scope
