import QueryPlan.Proofs.Expr.Refused
import QueryPlan.Proofs.Expr.SameReads

namespace QueryPlan

/-- The greatest of some numbers, and zero if there are none. -/
def greatest (ns : List Nat) : Nat := ns.foldr max 0

theorem greatest_le {ns : List Nat} {n : Nat} : greatest ns ≤ n ↔ ∀ k ∈ ns, k ≤ n := by
  induction ns with
  | nil => simp [greatest]
  | cons k ns ih => rw [List.forall_mem_cons, ← ih, greatest, List.foldr_cons, Nat.max_le, greatest]

namespace Json

/-- How many calls are nested in one another by their `args`, that of an object itself counted. -/
def callNesting : Json → Nat
  | .obj call =>
    match _h : Object.get? call "args" with
    | some (.arr items) => 1 + greatest (items.attach.map fun v => callNesting v.1)
    | some v => 1 + callNesting v
    | none => 1
  | _ => 0
termination_by v => sizeOf v
decreasing_by
  · have := List.sizeOf_lt_of_mem v.2
    have := Object.sizeOf_lt_of_get? _h
    simp only [Json.arr.sizeOf_spec, Json.obj.sizeOf_spec] at *
    omega
  · have := Object.sizeOf_lt_of_get? _h
    simp only [Json.obj.sizeOf_spec]
    omega

theorem callNesting_obj_le {call : Object} {n : Nat} :
    (obj call).callNesting ≤ n + 1 ↔
      ∀ v ∈ Scope.argumentList (call.get? "args"), v.callNesting ≤ n := by
  rw [callNesting]
  split
  · rename_i items h
    rw [h, Scope.argumentList, Nat.add_comm, Nat.add_le_add_iff_right, greatest_le]
    simp
  · rename_i v hv h
    rw [h, Nat.add_comm, Nat.add_le_add_iff_right]
    cases v with
    | null => simp [Scope.argumentList, callNesting]
    | arr items => exact absurd rfl (hv items)
    | _ => simp [Scope.argumentList]
  · rename_i h
    simp [h, Scope.argumentList]

theorem callNesting_obj_pos (call : Object) : 0 < (obj call).callNesting := by
  rw [callNesting]
  split <;> omega

theorem callNesting_obj_congr {a b : Object} (h : a.get? "args" = b.get? "args") :
    (obj a).callNesting = (obj b).callNesting := by
  have hle : ∀ n, (obj a).callNesting ≤ n + 1 ↔ (obj b).callNesting ≤ n + 1 := by
    intro n
    rw [callNesting_obj_le, callNesting_obj_le, h]
  obtain ⟨n, hn⟩ := Nat.exists_eq_add_one.2 (callNesting_obj_pos a)
  obtain ⟨k, hk⟩ := Nat.exists_eq_add_one.2 (callNesting_obj_pos b)
  have hb := (hle n).1 (Nat.le_of_eq hn)
  have ha := (hle k).2 (Nat.le_of_eq hk)
  omega

theorem callNesting_of_ne_obj {v : Json} (h : ∀ call : Object, v ≠ .obj call) :
    v.callNesting = 0 := by
  cases v with
  | obj call => exact absurd rfl (h call)
  | _ => rw [callNesting]; exact nofun

/-- What the first object has as an argument, the second one has too. -/
theorem callNesting_obj_le_of_agrees {a b : Object} {n : Nat} (h : a.Agrees b)
    (hb : (obj b).callNesting ≤ n) : (obj a).callNesting ≤ n := by
  induction n generalizing a b with
  | zero => exact absurd hb (Nat.not_le.2 (callNesting_obj_pos b))
  | succ n ih =>
    rw [callNesting_obj_le] at hb ⊢
    intro v hv
    cases ha : a.get? "args" with
    | none =>
      rw [ha] at hv
      cases hv
    | some u =>
      obtain ⟨w, hw, hsame⟩ := h "args" u ha
      rw [ha] at hv
      obtain ⟨v', hv', hvv'⟩ := exists_of_mem_left (Scope.argumentList_same hsame) hv
      have hn := hb v' (hw ▸ hv')
      by_cases hcall : ∃ call : Object, v = .obj call
      · obtain ⟨call, rfl⟩ := hcall
        obtain ⟨call', rfl, hcall⟩ := same_obj.1 hvv'
        exact ih (.of_same hcall) hn
      · rw [callNesting_of_ne_obj fun call he => hcall ⟨call, he⟩]
        exact Nat.zero_le n

end Json

namespace Scope

variable {s : Scope} {strictness : Strictness} {limit l : UInt64}

theorem argument_of_compileArguments {argument : Json → Except CompileError CompiledExpr}
    {values : List Json} {args : List CompiledExpr}
    (h : s.compileArguments strictness argument values = .ok args) {call : Json.Object}
    (hv : .obj call ∈ values) : ∃ a, argument (.obj call) = .ok a := by
  unfold compileArguments at h
  split at h
  · rename_i name rest
    obtain ⟨first, -, h⟩ := bind_eq_ok.1 h
    obtain ⟨compiled, hr, -⟩ := bind_eq_ok.1 h
    have hne : Json.obj call ≠ .str name := nofun
    have hrest := List.mem_of_ne_of_mem hne hv
    obtain ⟨a, -, ha⟩ := exists_of_mem_left (mapM_eq_ok.1 hr) hrest
    exact ⟨a, ha⟩
  · obtain ⟨a, -, ha⟩ := exists_of_mem_left (mapM_eq_ok.1 h) hv
    exact ⟨a, ha⟩

theorem callNesting_of_compileCall {n : Nat} {call : Json.Object} {c : CompiledExpr}
    (h : s.compileCall strictness limit n call = .ok c) : (Json.obj call).callNesting ≤ n := by
  induction n generalizing call c with
  | zero => cases h
  | succ n ih =>
    obtain ⟨function, -, h⟩ := bind_eq_ok.1 h
    obtain ⟨args, ha, -⟩ := bind_eq_ok.1 h
    rw [Json.callNesting_obj_le]
    intro v hv
    by_cases hcall : ∃ call : Json.Object, v = .obj call
    · obtain ⟨call, rfl⟩ := hcall
      obtain ⟨a, ha⟩ := argument_of_compileArguments ha hv
      exact ih ha
    · rw [Json.callNesting_of_ne_obj fun call he => hcall ⟨call, he⟩]
      exact Nat.zero_le n

/-- A call is refused for its depth only if more calls are nested in it than are allowed. -/
theorem callNesting_of_compileCall_eq_error {n : Nat} {call : Json.Object}
    (h : s.compileCall strictness limit n call = .error (.depthLimitExceeded l)) :
    l = limit ∧ n < (Json.obj call).callNesting := by
  induction n generalizing call with
  | zero =>
    cases h
    exact ⟨rfl, Json.callNesting_obj_pos call⟩
  | succ n ih =>
    rcases bind_eq_error.1 h with h | ⟨function, -, h⟩
    · exact absurd rfl (functionName_refuses h).ne_depthLimitExceeded
    · rcases bind_eq_error.1 h with h | ⟨args, -, h⟩
      · rcases compileArguments_eq_error h with ⟨name, h⟩ | ⟨v, hv, h⟩
        · rcases compileName_eq_error h with ⟨cause, he⟩ | he <;> cases he
        · split at h
          · rename_i call'
            obtain ⟨hlimit, hdeep⟩ := ih h
            refine ⟨hlimit, Nat.lt_of_not_le fun hle => ?_⟩
            have hle := Json.callNesting_obj_le.1 hle (.obj call') hv
            omega
          · cases h
      · exact absurd h pure_ne_error

end Scope

end QueryPlan
