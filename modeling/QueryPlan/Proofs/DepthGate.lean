import QueryPlan.Expr.Resolve
import QueryPlan.Proofs.Traversal

namespace QueryPlan

variable {α β : Type}

/-- The second computation ends as the first one does, unless the first one is refused for being
nested too deep. -/
def Gates (x y : Except CompileError α) : Prop :=
  (∃ limit, x = .error (.depthLimitExceeded limit)) ∨ y = x

namespace Gates

variable {x y : Except CompileError α}

theorem refl (x : Except CompileError α) : Gates x x := .inr rfl

theorem refused (limit : UInt64) (y : Except CompileError α) :
    Gates (.error (.depthLimitExceeded limit)) y :=
  .inl ⟨limit, rfl⟩

theorem eq (h : Gates x y) (hx : ∀ limit, x ≠ .error (.depthLimitExceeded limit)) : y = x := by
  rcases h with ⟨limit, he⟩ | he
  · exact absurd he (hx limit)
  · exact he

theorem eq_ok (h : Gates x y) {a : α} (hx : x = .ok a) : y = .ok a := by
  rw [← hx]
  refine h.eq fun limit he => ?_
  rw [hx] at he
  cases he

theorem bind {f g : α → Except CompileError β} (h : Gates x y) (hfg : ∀ a, Gates (f a) (g a)) :
    Gates (x >>= f) (y >>= g) := by
  rcases h with ⟨limit, rfl⟩ | rfl
  · exact refused limit _
  · cases y with
    | error e => exact refl _
    | ok a => exact hfg a

theorem mapM {f g : α → Except CompileError β} {xs : List α} (h : ∀ a ∈ xs, Gates (f a) (g a)) :
    Gates (xs.mapM f) (xs.mapM g) := by
  induction xs with
  | nil => exact refl _
  | cons a xs ih =>
    obtain ⟨ha, hxs⟩ := List.forall_mem_cons.1 h
    rw [List.mapM_cons, List.mapM_cons]
    exact ha.bind fun b => (ih hxs).bind fun bs => refl _

theorem foldlM {f g : β → α → Except CompileError β} {xs : List α} {b : β}
    (h : ∀ b a, Gates (f b a) (g b a)) : Gates (xs.foldlM f b) (xs.foldlM g b) := by
  induction xs generalizing b with
  | nil => exact refl _
  | cons a xs ih =>
    rw [List.foldlM_cons, List.foldlM_cons]
    exact (h b a).bind fun b => ih

end Gates

namespace Scope

variable {s : Scope} {strictness : Strictness} {limit limit' : UInt64}

theorem compileArguments_gates {f g : Json → Except CompileError CompiledExpr}
    (h : ∀ v, Gates (f v) (g v)) (values : List Json) :
    Gates (s.compileArguments strictness f values) (s.compileArguments strictness g values) := by
  unfold compileArguments
  split
  · refine (Gates.refl _).bind fun first => ?_
    exact (Gates.mapM fun v _ => h v).bind fun rest => .refl _
  · exact Gates.mapM fun v _ => h v

theorem compileCall_gates {n k : Nat} (hle : n ≤ k) (call : Json.Object) :
    Gates (s.compileCall strictness limit n call) (s.compileCall strictness limit' k call) := by
  induction n generalizing k call with
  | zero => exact .refused limit _
  | succ n ih =>
    obtain ⟨k, rfl⟩ := Nat.exists_eq_add_of_lt hle
    rw [compileCall, compileCall]
    refine (Gates.refl _).bind fun function => ?_
    refine Gates.bind (compileArguments_gates (fun v => ?_) _) fun args => .refl _
    cases v with
    | obj call => exact ih (by omega) call
    | _ => exact .refl _

/-- A larger depth changes the result for an expression only if that was nested too deep. -/
theorem compile_gates {settings settings' : Settings}
    (hle : settings.maxDepth.toNat ≤ settings'.maxDepth.toNat) (v : Json) :
    Gates (s.compile settings strictness v) (s.compile settings' strictness v) := by
  cases v with
  | obj call => exact compileCall_gates hle call
  | _ => exact .refl _

end Scope

end QueryPlan
