import QueryPlan.Proofs.Filter.Setting

namespace QueryPlan

variable {e : CompileError} {argument : String} {v : Json}

/-- The value of the argument by this name is refused. -/
def CompileError.Refuses (e : CompileError) (argument : String) : Prop :=
  ∃ reason, e = .malformedArgument argument reason

theorem CompileError.Refuses.ne_depthLimitExceeded {limit : UInt64} (h : e.Refuses argument) :
    e ≠ .depthLimitExceeded limit := by
  obtain ⟨reason, rfl⟩ := h
  nofun

theorem pageOfArgument_refuses (h : pageOfArgument argument v = .error e) :
    e.Refuses argument := by
  unfold pageOfArgument at h
  split at h
  · dsimp only at h
    split at h <;> cases h
    exact ⟨_, rfl⟩
  · split at h <;> cases h
    exact ⟨_, rfl⟩
  · cases h
    exact ⟨_, rfl⟩

theorem flagOfArgument_refuses (h : flagOfArgument argument v = .error e) :
    e.Refuses argument := by
  unfold flagOfArgument at h
  split at h <;> cases h
  exact ⟨_, rfl⟩

theorem scopeOfArgument_refuses (h : scopeOfArgument v = .error e) : e.Refuses "scope" := by
  unfold scopeOfArgument at h
  split at h
  · cases h
  · obtain ⟨item, -, h⟩ := mapM_eq_error h
    split at h <;> cases h
    exact ⟨_, rfl⟩
  · cases h
    exact ⟨_, rfl⟩

namespace OrderItem

theorem ofParts_refuses {name sort : Option Json} (h : ofParts name sort = .error e) :
    e.Refuses "order" := by
  unfold ofParts at h
  split at h
  · cases h
    exact ⟨_, rfl⟩
  · rw [map_eq_error] at h
    unfold directionOfArgument at h
    split at h
    · cases h
    · cases h
    · split at h <;> cases h
      exact ⟨_, rfl⟩
    · cases h
      exact ⟨_, rfl⟩

theorem ofArgument_refuses (h : ofArgument v = .error e) : e.Refuses "order" := by
  unfold ofArgument at h
  split at h
  · cases h
  · exact ofParts_refuses h
  · exact ofParts_refuses h
  · exact ofParts_refuses h
  · cases h
    exact ⟨_, rfl⟩

end OrderItem

theorem orderOfArgument_refuses (h : orderOfArgument v = .error e) : e.Refuses "order" := by
  unfold orderOfArgument at h
  split at h
  · obtain ⟨item, -, h⟩ := mapM_eq_error h
    exact OrderItem.ofArgument_refuses h
  · exact OrderItem.ofArgument_refuses (map_eq_error.1 h)

/-- An argument that is refused is the one that the error names. -/
theorem Setting.ofArgument_refuses {known : List String} {key : String}
    (h : ofArgument known key v = .error e) : e.Refuses key := by
  unfold ofArgument at h
  split at h
  · cases h
  · split at h
    · exact pageOfArgument_refuses (map_eq_error.1 h)
    · exact pageOfArgument_refuses (map_eq_error.1 h)
    · split at h <;> cases h
      exact ⟨_, rfl⟩
    · cases h
    · exact orderOfArgument_refuses (map_eq_error.1 h)
    · split at h <;> cases h
      exact ⟨_, rfl⟩
    · split at h <;> cases h
      exact ⟨_, rfl⟩
    · split at h <;> cases h
    · exact flagOfArgument_refuses (map_eq_error.1 h)
    · exact flagOfArgument_refuses (map_eq_error.1 h)
    · exact flagOfArgument_refuses (map_eq_error.1 h)
    · exact flagOfArgument_refuses (map_eq_error.1 h)
    · exact scopeOfArgument_refuses (map_eq_error.1 h)
    · cases h

namespace Options

variable {base : Options} {known : List String} {args : Json.Object}

theorem withArguments_refuses (h : withArguments base known args = .error e) :
    ∃ arg ∈ args, e.Refuses arg.1 := by
  obtain ⟨arg, harg, h⟩ := mapM_eq_error (withArguments_eq_error.1 h)
  exact ⟨arg, harg, Setting.ofArgument_refuses h⟩

end Options

end QueryPlan
