import QueryPlan.Proofs.Plan.Columns

namespace QueryPlan

namespace Scope

variable {s : Scope} {key : Expr} {e : CompiledExpr}

theorem resolveKeys_eq_mapM (s : Scope) (keys : List Expr) :
    s.resolveKeys keys = keys.mapM s.resolveKey := by
  induction keys with
  | nil => rw [resolveKeys, List.mapM_nil]; rfl
  | cons key keys ih => rw [resolveKeys, ih, List.mapM_cons]

theorem resolveKeys_eq_ok {keys : List Expr} {es : List CompiledExpr} :
    s.resolveKeys keys = .ok es ↔ List.Forall₂ (fun key e => s.resolveKey key = .ok e) keys es := by
  rw [resolveKeys_eq_mapM, mapM_eq_ok]

theorem resolveKey_name {name : String} (h : s.resolveKey (.column none name) = .ok e) :
    s.Denotes name e ∨ s.column? name = .ok none ∧ e = ⟨.column none name, {}⟩ := by
  rw [resolveKey] at h
  obtain ⟨found, hc, h⟩ := bind_eq_ok.1 h
  cases pure_eq_ok.1 h
  cases found with
  | none => exact .inr ⟨hc, rfl⟩
  | some e => exact .inl (column?_eq_some.1 hc)

theorem resolveKey_call {function : String} {keys : List Expr}
    (h : s.resolveKey (.call function keys) = .ok e) :
    ∃ args, List.Forall₂ (fun key e => s.resolveKey key = .ok e) keys args ∧
      e = ⟨.call function (args.map (·.expr)), args.foldr (·.reads ++ ·) {}⟩ := by
  rw [resolveKey] at h
  obtain ⟨args, ha, h⟩ := bind_eq_ok.1 h
  exact ⟨args, resolveKeys_eq_ok.1 ha, (pure_eq_ok.1 h).symm⟩

/-- A key that reads nothing through an association as it is written is resolved soundly. -/
theorem resolveKey_resolved
    (hk : ∀ association name, ¬ Expr.Occurs (.column (some association) name) key)
    (h : s.resolveKey key = .ok e) : s.Resolved e := by
  induction key using Expr.induction generalizing e with
  | literal v =>
    cases h
    exact .literal v
  | column via name =>
    cases via with
    | none =>
      rcases resolveKey_name h with hd | ⟨-, rfl⟩
      · exact .column hd
      · exact .unknown name
    | some association => exact absurd .here (hk association name)
  | call function keys ih =>
    obtain ⟨args, ha, rfl⟩ := resolveKey_call h
    refine .call function fun a ha' => ?_
    obtain ⟨key, hkey, hr⟩ := exists_of_mem_right ha ha'
    exact ih key hkey (fun _ _ ho => hk _ _ (.argument hkey ho)) hr

theorem mem_fields_resolveKey (h : s.resolveKey key = .ok e) {field : String} :
    field ∈ e.reads.fields ↔
      ∃ name d, Expr.Occurs (.column none name) key ∧ s.Denotes name d ∧ field ∈ d.reads.fields := by
  induction key using Expr.induction generalizing e with
  | literal v =>
    cases h
    simp
  | column via name =>
    cases via with
    | none =>
      simp only [Expr.occurs_column, Expr.column.injEq, true_and]
      rcases resolveKey_name h with hd | ⟨hc, rfl⟩
      · constructor
        · intro hf
          exact ⟨name, e, rfl, hd, hf⟩
        · intro h'
          obtain ⟨_, d, rfl, hd', hf⟩ := h'
          have he := (column?_eq_some.2 hd).symm.trans (column?_eq_some.2 hd')
          cases he
          exact hf
      · constructor
        · intro hf
          cases hf
        · intro h'
          obtain ⟨_, d, rfl, hd, -⟩ := h'
          rw [column?_eq_some.2 hd] at hc
          cases hc
    | some association =>
      cases h
      simp
  | call function keys ih =>
    obtain ⟨args, ha, rfl⟩ := resolveKey_call h
    rw [mem_fields_call]
    refine ⟨?_, ?_⟩
    · intro h'
      obtain ⟨a, ha', hf⟩ := h'
      obtain ⟨key, hkey, hr⟩ := exists_of_mem_right ha ha'
      obtain ⟨name, d, ho, hd, hf⟩ := (ih key hkey hr).1 hf
      exact ⟨name, d, .argument hkey ho, hd, hf⟩
    · intro h'
      obtain ⟨name, d, ho, hd, hf⟩ := h'
      obtain ⟨key, hkey, ho⟩ := Expr.column_occurs_call.1 ho
      obtain ⟨a, ha', hr⟩ := exists_of_mem_left ha hkey
      exact ⟨a, ha', (ih key hkey hr).2 ⟨name, d, ho, hd, hf⟩⟩

theorem call_occurs_resolveKey (h : s.resolveKey key = .ok e) {function : String} :
    (∃ args, Expr.Occurs (.call function args) e.expr) ↔
      ∃ args, Expr.Occurs (.call function args) key := by
  induction key using Expr.induction generalizing e with
  | literal v =>
    cases h
    exact .rfl
  | column via name =>
    cases via with
    | none =>
      rcases resolveKey_name h with hd | ⟨-, rfl⟩
      · cases hd with
        | own => simp
        | through => simp
      · exact .rfl
    | some association =>
      cases h
      exact .rfl
  | call name keys ih =>
    obtain ⟨args, ha, rfl⟩ := resolveKey_call h
    refine ⟨?_, ?_⟩
    · intro h'
      obtain ⟨fargs, ho⟩ := h'
      rcases Expr.occurs_call.1 ho with he | ⟨a, ha', ho⟩
      · cases he
        exact ⟨keys, .here⟩
      · obtain ⟨c, hc, ho⟩ := occurs_of_mem_args ha' ho
        obtain ⟨key, hkey, hr⟩ := exists_of_mem_right ha hc
        obtain ⟨fargs, ho⟩ := (ih key hkey hr).1 ⟨fargs, ho⟩
        exact ⟨fargs, .argument hkey ho⟩
    · intro h'
      obtain ⟨fargs, ho⟩ := h'
      rcases Expr.occurs_call.1 ho with he | ⟨key, hkey, ho⟩
      · cases he
        exact ⟨_, .here⟩
      · obtain ⟨c, hc, hr⟩ := exists_of_mem_left ha hkey
        obtain ⟨fargs, ho⟩ := (ih key hkey hr).2 ⟨fargs, ho⟩
        exact ⟨fargs, .argument (List.mem_map_of_mem hc) ho⟩

end Scope

end QueryPlan
