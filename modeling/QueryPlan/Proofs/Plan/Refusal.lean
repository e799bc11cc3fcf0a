import QueryPlan.Proofs.Expr.Refused
import QueryPlan.Proofs.Plan.ComputedColumn
import QueryPlan.Proofs.Plan.Query

namespace QueryPlan

namespace SelectedField

variable {f : SelectedField} {key : String} {e : CompileError}

theorem stringArgument_refuses (h : f.stringArgument key = .error e) :
    e.Refuses (f.name ++ "." ++ key) := by
  unfold stringArgument at h
  split at h <;> cases h
  exact ⟨_, rfl⟩

theorem stringArgument?_refuses (h : f.stringArgument? key = .error e) :
    e.Refuses (f.name ++ "." ++ key) := by
  unfold stringArgument? at h
  split at h <;> cases h
  exact ⟨_, rfl⟩

end SelectedField

namespace Scope

variable {s : Scope} {settings : Settings} {f : SelectedField} {key : Expr} {e : CompileError}

theorem resolveKey_eq_error (h : s.resolveKey key = .error e) : ∃ cause, e = .catalog cause := by
  induction key using Expr.induction with
  | literal v => cases h
  | column via name =>
    cases via with
    | none =>
      rw [resolveKey] at h
      rcases bind_eq_error.1 h with h | ⟨found, -, h⟩
      · exact column?_eq_error h
      · exact absurd h pure_ne_error
    | some association => cases h
  | call function keys ih =>
    rw [resolveKey, resolveKeys_eq_mapM] at h
    rcases bind_eq_error.1 h with h | ⟨args, -, h⟩
    · obtain ⟨key, hkey, h⟩ := mapM_eq_error h
      exact ih key hkey h
    · exact absurd h pure_ne_error

/-- An aggregate is refused for an argument of its own, or else its call is. -/
theorem aggregateColumn_eq_error (h : s.aggregateColumn settings f = .error e) :
    (∃ key, e.Refuses (f.name ++ "." ++ key)) ∨
      ∃ function, s.compile settings .lenient (.obj (f.call function)) = .error e := by
  rcases bind_eq_error.1 h with h | ⟨function, -, h⟩
  · exact .inl ⟨_, SelectedField.stringArgument_refuses h⟩
  · rcases bind_eq_error.1 h with h | ⟨aliasName, -, h⟩
    · exact .inl ⟨_, SelectedField.stringArgument?_refuses h⟩
    · rcases bind_eq_error.1 h with h | ⟨compiled, -, h⟩
      · exact .inr ⟨function, h⟩
      · exact absurd h pure_ne_error

theorem relatedColumn_eq_error (h : s.relatedColumn settings f = .error e) :
    (∃ key, e.Refuses (f.name ++ "." ++ key)) ∨ ∃ name, s.compileName .strict name = .error e := by
  rcases bind_eq_error.1 h with h | ⟨name, -, h⟩
  · exact .inl ⟨_, SelectedField.stringArgument_refuses h⟩
  · rcases bind_eq_error.1 h with h | ⟨aliasName, -, h⟩
    · exact .inl ⟨_, SelectedField.stringArgument?_refuses h⟩
    · rcases bind_eq_error.1 h with h | ⟨compiled, -, h⟩
      · exact .inr ⟨name, h⟩
      · exact absurd h pure_ne_error

end Scope

/-- Why a level is refused below which at most `n` more may be nested. -/
inductive Query.Refusal (p : Planner) (n : Nat) (q : Query) : CompileError → Prop where
  | arguments {e : CompileError} (h : Options.ofArguments q.model.fieldNames q.args = .error e) :
      Refusal p n q e
  | key {k : Expr} {e : CompileError} (mem : k ∈ q.groupKeys)
      (h : Scope.resolveKey ⟨p.catalog, q.model⟩ k = .error e) : Refusal p n q e
  | conflict {x : Expansion} (mem : x ∈ (Siblings.of q.model q.fields).expansions)
      (h : x.isConsistent = false) : Refusal p n q (.conflictingJoin x.name)
  | target {x : Expansion} {cause : CatalogError}
      (mem : x ∈ (Siblings.of q.model q.fields).expansions)
      (h : p.catalog.target q.model x.name = .error cause) : Refusal p n q (.catalog cause)
  | nested {association : String} {r : Query} {e : CompileError}
      (expands : q.nested? p.catalog association = some r)
      (h : p.level n r.model r.args r.fields = .error e) : Refusal p n q e
  | aggregate {f : SelectedField} {e : CompileError} (mem : f ∈ q.fields)
      (role : q.model.role f = .aggregate)
      (h : Scope.aggregateColumn ⟨p.catalog, q.model⟩ p.settings f = .error e) : Refusal p n q e
  | relatedColumn {f : SelectedField} {e : CompileError} (mem : f ∈ q.fields)
      (role : q.model.role f = .relatedColumn)
      (h : Scope.relatedColumn ⟨p.catalog, q.model⟩ p.settings f = .error e) : Refusal p n q e

namespace Planner

variable {p : Planner} {n : Nat} {q : Query} {e : CompileError}

theorem expand_refusal {x : Expansion} {joined : Joined}
    (mem : x ∈ (Siblings.of q.model q.fields).expansions)
    (free : x.name ∉ joined.registry.aliases)
    (h : p.expand (p.level n) q.model joined x = .error e) : q.Refusal p n e := by
  unfold expand at h
  split at h
  · rename_i inconsistent
    rcases bind_eq_error.1 h with h | ⟨_, h, -⟩
    · rw [← throw_eq_error.1 h]
      exact .conflict mem (by simpa using inconsistent)
    · exact absurd h throw_ne_ok
  · rcases bind_eq_error.1 h with h | ⟨⟨a, t⟩, ht, h⟩
    · obtain ⟨cause, unknown, rfl⟩ := mapError_eq_error.1 h
      exact .target mem unknown
    · rcases bind_eq_error.1 h with h | ⟨level, -, h⟩
      · obtain ⟨declared, target⟩ := Catalog.target_eq_ok.1 (mapError_eq_ok.1 ht)
        obtain ⟨r, hr, hd⟩ := Query.exists_nested? mem declared target
        refine .nested hr ?_
        rw [level_eq_of_distinct hd]
        exact h
      · rcases bind_eq_error.1 h with h | ⟨registry, -, h⟩
        · exact absurd (Registry.attach_eq_error.1 h).1 free
        · exact absurd h pure_ne_error

/-- The joins of a level before an expansion of an association leave its alias free. -/
theorem alias_free {m : Model} {fields : List SelectedField}
    {plan : Model → Json.Object → List SelectedField → Except CompileError Level}
    {before after : List Expansion} {x : Expansion} {joined : Joined}
    (place : (Siblings.of m fields).expansions = before ++ x :: after)
    (h : before.foldlM (p.expand plan m) {} = .ok joined) :
    x.name ∉ joined.registry.aliases := by
  have nodup : ((Siblings.of m fields).expansions.map (·.name)).Nodup := by
    rw [Siblings.names_expansions]
    exact eraseDups_nodup _
  rw [place, List.map_append, List.map_cons] at nodup
  have disjoint := (List.nodup_append.1 nodup).2.2
  obtain ⟨bs, rfl, -, rfl⟩ := foldlM_expand h
  intro taken
  rw [Registry.aliases, List.nil_append, List.map_map] at taken
  apply disjoint x.name _ x.name List.mem_cons_self rfl
  rw [List.map_map]
  exact taken

/-- No expansion is refused because its association is joined already. -/
theorem foldlM_expand_refusal
    (h : (Siblings.of q.model q.fields).expansions.foldlM (p.expand (p.level n) q.model) {} =
      .error e) : q.Refusal p n e := by
  obtain ⟨before, x, after, joined, place, hbefore, hx⟩ := foldlM_eq_error h
  apply expand_refusal _ (alias_free place hbefore) hx
  rw [place]
  exact List.mem_append_right _ List.mem_cons_self

/-- A join that supports columns is made for every association that leads to a model. -/
theorem foldlM_support_ne_error {m : Model} {names : List String} {r : Registry}
    (lead : ∀ name ∈ names, ∃ a t, m.association? name = some a ∧
      p.catalog.model? a.target = some t) : names.foldlM (p.support m) r ≠ .error e := by
  intro h
  obtain ⟨before, name, after, r', hnames, -, h⟩ := foldlM_eq_error h
  have mem : name ∈ names := by
    rw [hnames]
    exact List.mem_append_right _ List.mem_cons_self
  obtain ⟨a, t, declared, target⟩ := lead name mem
  have found := Catalog.target_eq_ok.2 ⟨declared, target⟩
  rcases bind_eq_error.1 h with h | ⟨_, -, h⟩
  · rw [found] at h
    cases h
  · exact absurd h pure_ne_error

/-- A level that has some depth left is refused for one of its parts. -/
theorem level_refusal (h : p.level (n + 1) q.model q.args q.fields = .error e) :
    q.Refusal p n e := by
  rw [level] at h
  rcases bind_eq_error.1 h with h | ⟨options, ho, h⟩
  · exact .arguments h
  rcases bind_eq_error.1 h with h | ⟨group, hg, h⟩
  · rw [Scope.resolveKeys_eq_mapM] at h
    obtain ⟨key, hkey, h⟩ := mapM_eq_error h
    refine .key ?_ h
    rw [Query.groupKeys, ho]
    exact hkey
  rcases bind_eq_error.1 h with h | ⟨joined, -, h⟩
  · exact foldlM_expand_refusal h
  rcases bind_eq_error.1 h with h | ⟨aggregates, ha, h⟩
  · obtain ⟨f, hf, h⟩ := mapM_eq_error h
    exact .aggregate (Siblings.mem_of_mem_inRole hf) (Siblings.role_of_mem_inRole hf) h
  rcases bind_eq_error.1 h with h | ⟨related, hr, h⟩
  · obtain ⟨f, hf, h⟩ := mapM_eq_error h
    exact .relatedColumn (Siblings.mem_of_mem_inRole hf) (Siblings.role_of_mem_inRole hf) h
  rcases bind_eq_error.1 h with h | ⟨registry, -, h⟩
  · -- What is read is resolved by then, so that the joins for it cannot fail.
    have resolved := Scope.keys_resolved ho (Scope.resolveKeys_eq_ok.1 hg)
    have computes := computes_of_requests ha hr
    refine absurd h (foldlM_support_ne_error fun name mem => ?_)
    exact Scope.levelReads_lead resolved computes (NameSet.mem_ofList.1 mem)
  · exact absurd h pure_ne_error

end Planner

end QueryPlan
