import QueryPlan.Plan.Level
import QueryPlan.Proofs.Catalog.Lookup
import QueryPlan.Proofs.Traversal

namespace QueryPlan

namespace Registry

def aliases (r : Registry) : List String := r.joins.map (·.aliasName)

theorem contains_iff {r : Registry} {aliasName : String} :
    r.contains aliasName ↔ aliasName ∈ r.aliases := by
  simp [contains, get?, aliases, List.find?_isSome]

theorem attach_eq_ok {r r' : Registry} {j : Join} :
    r.attach j = .ok r' ↔ j.aliasName ∉ r.aliases ∧ r' = ⟨r.joins ++ [j]⟩ := by
  rw [attach]
  split
  · rename_i h
    simp [contains_iff.1 h]
  · rename_i h
    have hfree : j.aliasName ∉ r.aliases := fun hm => h (contains_iff.2 hm)
    simp [hfree, eq_comm]

theorem attach_eq_error {r : Registry} {j : Join} {e : CompileError} :
    r.attach j = .error e ↔ j.aliasName ∈ r.aliases ∧ e = .conflictingJoin j.aliasName := by
  rw [attach]
  split
  · rename_i h
    simp [contains_iff.1 h, eq_comm]
  · rename_i h
    have hfree : j.aliasName ∉ r.aliases := fun hm => h (contains_iff.2 hm)
    simp [hfree]

theorem ensureColumnSupport_joins {r : Registry} {model aliasName : String} :
    (r.ensureColumnSupport model aliasName).2.joins =
      if aliasName ∈ r.aliases then r.joins
      else r.joins ++ [Join.columnSupport model aliasName] := by
  rw [ensureColumnSupport]
  by_cases h : r.contains aliasName
  · rw [if_pos h, if_pos (contains_iff.1 h)]
  · rw [if_neg h, if_neg fun hm => h (contains_iff.2 hm)]

end Registry

/-- An expansion of a level, with what it leads to and the plan of the level below. -/
structure Branch where
  expansion : Expansion
  association : Association
  target : Model
  level : Level

namespace Branch

def join (b : Branch) : Join :=
  ⟨b.target.name, b.expansion.name, b.level.descriptor.options, b.level.descriptor.joins⟩

/-- The branch grows from a level of the model that is planned by `plan` below it. -/
structure Grows (p : Planner)
    (plan : Model → Json.Object → List SelectedField → Except CompileError Level) (m : Model)
    (b : Branch) : Prop where
  consistent : b.expansion.isConsistent
  declared : m.association? b.expansion.name = some b.association
  target : p.catalog.model? b.association.target = some b.target
  planned : plan b.target b.expansion.first.args b.expansion.children = .ok b.level

end Branch

namespace Planner

variable {p : Planner} {m : Model}
  {plan : Model → Json.Object → List SelectedField → Except CompileError Level}

/-- The branch that an expansion grows into. -/
def branch (p : Planner)
    (plan : Model → Json.Object → List SelectedField → Except CompileError Level) (m : Model)
    (e : Expansion) : Except CompileError Branch := do
  if !e.isConsistent then throw (.conflictingJoin e.name)
  let (association, target) ← (p.catalog.target m e.name).mapError .catalog
  let level ← plan target e.first.args e.children
  return ⟨e, association, target, level⟩

theorem branch_eq_ok {e : Expansion} {b : Branch} (h : p.branch plan m e = .ok b) :
    b.expansion = e ∧ b.Grows p plan m := by
  unfold branch at h
  split at h
  · obtain ⟨_, h, -⟩ := bind_eq_ok.1 h
    cases throw_ne_ok h
  · rename_i consistent
    obtain ⟨⟨a, t⟩, ht, h⟩ := bind_eq_ok.1 h
    obtain ⟨level, hl, h⟩ := bind_eq_ok.1 h
    obtain ⟨declared, target⟩ := Catalog.target_eq_ok.1 (mapError_eq_ok.1 ht)
    cases pure_eq_ok.1 h
    exact ⟨rfl, by simpa using consistent, declared, target, hl⟩

theorem expand_eq_branch (joined : Joined) (e : Expansion) :
    p.expand plan m joined e = p.branch plan m e >>= fun b =>
      (joined.registry.attach b.join).map (⟨·, joined.touched ++ b.level.touched⟩) := by
  rw [expand, branch]
  split
  · rfl
  · cases p.catalog.target m e.name with
    | error cause => rfl
    | ok found =>
      obtain ⟨a, t⟩ := found
      dsimp only [Except.mapError, bind, Except.bind]
      cases plan t e.first.args e.children with
      | error cause => rfl
      | ok level => rfl

/-- No two expansions of distinct associations conflict: they are joined in their order if each of
them grows into a branch. -/
theorem foldlM_expand_eq {es : List Expansion} {joined : Joined}
    (distinct : (joined.registry.aliases ++ es.map (·.name)).Nodup) :
    es.foldlM (p.expand plan m) joined = (es.mapM (p.branch plan m)).map fun bs =>
      ⟨⟨joined.registry.joins ++ bs.map (·.join)⟩,
        joined.touched ++ bs.flatMap (·.level.touched)⟩ := by
  induction es generalizing joined with
  | nil => simp [pure, Except.pure, Except.map]
  | cons e es ih =>
    rw [List.foldlM_cons, List.mapM_cons, expand_eq_branch]
    cases hb : p.branch plan m e with
    | error cause => rfl
    | ok b =>
      have hname : b.join.aliasName = e.name := congrArg Expansion.name (branch_eq_ok hb).1
      rw [List.map_cons, ← hname] at distinct
      have free : b.join.aliasName ∉ joined.registry.aliases := fun taken =>
        (List.nodup_append.1 distinct).2.2 _ taken _ List.mem_cons_self rfl
      have attached := Registry.attach_eq_ok.2 ⟨free, rfl⟩
      have more : Registry.aliases ⟨joined.registry.joins ++ [b.join]⟩ =
          joined.registry.aliases ++ [b.join.aliasName] := List.map_append
      rw [List.append_cons, ← more] at distinct
      have rest := @ih ⟨_, joined.touched ++ b.level.touched⟩ distinct
      simp only [bind, Except.bind, attached, Except.map]
      refine rest.trans ?_
      cases es.mapM (p.branch plan m) with
      | error cause => rfl
      | ok bs =>
        dsimp only [Except.map, bind, Except.bind, pure, Except.pure]
        rw [List.map_cons, List.flatMap_cons, List.append_assoc, List.append_assoc,
          List.singleton_append]

theorem expand_eq_ok {joined joined' : Joined} {e : Expansion}
    (h : p.expand plan m joined e = .ok joined') :
    ∃ b : Branch, b.expansion = e ∧ b.Grows p plan m ∧
      joined' = ⟨⟨joined.registry.joins ++ [b.join]⟩, joined.touched ++ b.level.touched⟩ := by
  rw [expand_eq_branch] at h
  obtain ⟨b, hb, h⟩ := bind_eq_ok.1 h
  obtain ⟨he, grows⟩ := branch_eq_ok hb
  obtain ⟨registry, hr, rfl⟩ := map_eq_ok.1 h
  obtain ⟨-, rfl⟩ := Registry.attach_eq_ok.1 hr
  exact ⟨b, he, grows, rfl⟩

theorem foldlM_expand {es : List Expansion} {joined joined' : Joined}
    (h : es.foldlM (p.expand plan m) joined = .ok joined') :
    ∃ bs : List Branch, bs.map (·.expansion) = es ∧ (∀ b ∈ bs, b.Grows p plan m) ∧
      joined' = ⟨⟨joined.registry.joins ++ bs.map (·.join)⟩,
        joined.touched ++ bs.flatMap (·.level.touched)⟩ := by
  induction es generalizing joined with
  | nil =>
    rw [List.foldlM_nil, pure_eq_ok] at h
    subst h
    exact ⟨[], rfl, List.forall_mem_nil _, by simp⟩
  | cons e es ih =>
    rw [List.foldlM_cons] at h
    obtain ⟨middle, he, h⟩ := bind_eq_ok.1 h
    obtain ⟨b, rfl, hb, rfl⟩ := expand_eq_ok he
    obtain ⟨bs, rfl, hbs, rfl⟩ := ih h
    refine ⟨b :: bs, rfl, List.forall_mem_cons.2 ⟨hb, hbs⟩, ?_⟩
    simp only [List.map_cons, List.flatMap_cons, List.append_assoc, List.singleton_append]

/-- A join that only supports columns read through an association of the model. -/
structure Supports (p : Planner) (m : Model) (j : Join) : Prop where
  columnSupport : j = Join.columnSupport j.model j.aliasName
  declared : ∃ a t, m.association? j.aliasName = some a ∧ p.catalog.model? a.target = some t ∧
    t.name = j.model

theorem support_eq_ok {r r' : Registry} {aliasName : String}
    (h : p.support m r aliasName = .ok r') :
    ∃ j : Join, j.aliasName = aliasName ∧ p.Supports m j ∧
      r'.joins = if aliasName ∈ r.aliases then r.joins else r.joins ++ [j] := by
  obtain ⟨⟨a, t⟩, ht, h⟩ := bind_eq_ok.1 h
  obtain ⟨declared, target⟩ := Catalog.target_eq_ok.1 (mapError_eq_ok.1 ht)
  have hname := (Model.association?_some declared).2
  cases pure_eq_ok.1 h
  refine ⟨Join.columnSupport t.name aliasName, rfl, ⟨rfl, a, t, declared, target, rfl⟩, ?_⟩
  rw [hname, Registry.ensureColumnSupport_joins]

/-- The names that are not joined yet get column-support joins in their order. -/
theorem foldlM_support {names : List String} {r r' : Registry} (hnodup : names.Nodup)
    (h : names.foldlM (p.support m) r = .ok r') :
    ∃ js : List Join, r'.joins = r.joins ++ js ∧ (∀ j ∈ js, p.Supports m j) ∧
      js.map (·.aliasName) = names.filter (· ∉ r.aliases) := by
  induction names generalizing r with
  | nil =>
    rw [List.foldlM_nil, pure_eq_ok] at h
    subst h
    exact ⟨[], by simp, List.forall_mem_nil _, rfl⟩
  | cons name names ih =>
    obtain ⟨hfresh, hrest⟩ := List.nodup_cons.1 hnodup
    rw [List.foldlM_cons] at h
    obtain ⟨middle, hs, hm⟩ := bind_eq_ok.1 h
    obtain ⟨js, hr, hjs, haliases⟩ := ih hrest hm
    obtain ⟨j, rfl, hj, hm⟩ := support_eq_ok hs
    by_cases hin : j.aliasName ∈ r.aliases
    · rw [if_pos hin] at hm
      refine ⟨js, by rw [hr, hm], hjs, ?_⟩
      rw [haliases, List.filter_cons_of_neg (by simpa using hin), Registry.aliases, hm,
        Registry.aliases]
    · rw [if_neg hin] at hm
      refine ⟨j :: js, by rw [hr, hm]; simp, List.forall_mem_cons.2 ⟨hj, hjs⟩, ?_⟩
      rw [List.map_cons, haliases, List.filter_cons_of_pos (by simpa using hin)]
      congr 1
      -- The alias just taken is none of the later names.
      refine List.filter_congr fun n hn' => ?_
      have hne : n ≠ j.aliasName := fun he => hfresh (he ▸ hn')
      simp [Registry.aliases, hm, hne]

end Planner

end QueryPlan
