import QueryPlan.Proofs.Matching
import QueryPlan.Proofs.Plan.Registration

namespace QueryPlan

namespace Registry

/-- What a registry is asked for: a join that has an association of its own, or one for columns. -/
inductive Request where
  | attach (join : Join)
  | support (model aliasName : String)

/-- The join that a request brings: a join for columns has an empty projection and nothing else. -/
def Request.join : Request → Join
  | .attach join => join
  | .support model aliasName => ⟨model, aliasName, { attributes := some (.columns []) }, []⟩

/-- A request that is refused leaves the registry as it was. -/
def step (r : Registry) : Request → Registry
  | .attach join => (r.attach join).toOption.getD r
  | .support model aliasName => (r.ensureColumnSupport model aliasName).2

def run (r : Registry) (requests : List Request) : Registry := requests.foldl step r

/-- Joins of the same alias, of which a registry has one at most. -/
def sameAlias (j j' : Join) : Bool := j.aliasName == j'.aliasName

variable {r : Registry} {aliasName : String}

theorem ensureColumnSupport_added {model : String} :
    (r.ensureColumnSupport model aliasName).1 = true ↔ aliasName ∉ r.aliases := by
  rw [ensureColumnSupport]
  by_cases taken : r.contains aliasName
  · simp [taken, contains_iff.1 taken]
  · have free : aliasName ∉ r.aliases := fun hm => taken (contains_iff.2 hm)
    simp [taken, free]

/-- A request appends its join under an alias that is free, and does nothing under one that is not. -/
theorem joins_step (r : Registry) (q : Request) :
    (r.step q).joins = if q.join.aliasName ∈ r.aliases then r.joins else r.joins ++ [q.join] := by
  cases q with
  | attach join =>
    by_cases taken : join.aliasName ∈ r.aliases
    · have refused := attach_eq_error.2 ⟨taken, rfl⟩
      rw [step, refused, Request.join, if_pos taken]
      rfl
    · have attached := attach_eq_ok.2 ⟨taken, rfl⟩
      rw [step, attached, Request.join, if_neg taken]
      rfl
  | support model aliasName => exact ensureColumnSupport_joins

theorem aliases_step (r : Registry) (q : Request) :
    (r.step q).aliases = if q.join.aliasName ∈ r.aliases then r.aliases
      else r.aliases ++ [q.join.aliasName] := by
  rw [aliases, joins_step]
  split
  · rfl
  · exact List.map_append

/-- What is registered at some point stays as it is and where it is. -/
theorem joins_run_prefix (r : Registry) (requests : List Request) :
    r.joins <+: (r.run requests).joins := by
  induction requests generalizing r with
  | nil => exact List.prefix_refl _
  | cons q requests ih =>
    have grown : r.joins <+: (r.step q).joins := by
      rw [joins_step]
      split
      · exact List.prefix_refl _
      · exact List.prefix_append _ _
    exact grown.trans (ih (r.step q))

/-- After what was there, the joins of the first requests of each alias that was free. -/
theorem joins_run (r : Registry) (requests : List Request) :
    (r.run requests).joins = r.joins ++
      ((requests.map (·.join)).filter (·.aliasName ∉ r.aliases)).eraseDupsBy sameAlias := by
  induction requests generalizing r with
  | nil => exact (List.append_nil _).symm
  | cons q requests ih =>
    have later := ih (r.step q)
    rw [aliases_step, joins_step] at later
    rw [List.map_cons]
    by_cases taken : q.join.aliasName ∈ r.aliases
    · rw [if_pos taken, if_pos taken] at later
      rw [List.filter_cons_of_neg (by simpa using taken)]
      exact later
    · rw [if_neg taken, if_neg taken] at later
      -- The later requests that are left are those of other aliases.
      have others : ((requests.map (·.join)).filter (·.aliasName ∉ r.aliases)).filter
            (fun j => sameAlias j q.join = false) =
          (requests.map (·.join)).filter
            (·.aliasName ∉ r.aliases ++ [q.join.aliasName]) := by
        rw [List.filter_filter]
        apply List.filter_congr
        intro j _
        simp [sameAlias, Bool.and_comm]
      rw [List.filter_cons_of_pos (by simpa using taken), List.eraseDupsBy_cons, others,
        List.append_cons]
      exact later

/-- A run from nothing keeps the first join that is brought under each alias. -/
theorem joins_run_empty (requests : List Request) :
    (run {} requests).joins = (requests.map (·.join)).eraseDupsBy sameAlias := by
  have all : (requests.map (·.join)).filter (·.aliasName ∉ aliases {}) =
      requests.map (·.join) := by
    apply List.filter_eq_self.2
    intro j _
    simp [aliases]
  rw [joins_run, all]
  rfl

theorem aliases_run_nodup (requests : List Request) : (run {} requests).aliases.Nodup := by
  rw [aliases, joins_run_empty, List.Nodup, List.pairwise_map]
  apply (eraseDupsBy_pairwise _).imp
  intro j j' distinct he
  rw [sameAlias, he, beq_self_eq_true] at distinct
  cases distinct

theorem get?_run (requests : List Request) (aliasName : String) :
    (run {} requests).get? aliasName =
      (requests.map (·.join)).find? (·.aliasName = aliasName) := by
  have alike : ∀ j j' : Join, sameAlias j j' →
      decide (j.aliasName = aliasName) = decide (j'.aliasName = aliasName) := by
    intro j j' same
    rw [eq_of_beq same]
  rw [get?, joins_run_empty, ← List.head?_filter, filter_eraseDupsBy alike, head?_eraseDupsBy,
    List.head?_filter]

/-- A registry has one join for each alias: that of the first request for the alias, in the order of
these requests. Whatever it has already, a request for an alias that is taken is refused or does
nothing, any other appends its join, and no request changes what is registered. -/
theorem run_registers (done rest : List Request) :
    (run {} done).aliases.Nodup ∧
    (run {} done).joins = (done.map (·.join)).eraseDupsBy sameAlias ∧
    (∀ aliasName, (run {} done).get? aliasName =
      (done.map (·.join)).find? (·.aliasName = aliasName)) ∧
    (∀ join r, (run {} done).attach join = .ok r ↔
      join.aliasName ∉ (run {} done).aliases ∧ r = ⟨(run {} done).joins ++ [join]⟩) ∧
    (∀ join e, (run {} done).attach join = .error e ↔
      join.aliasName ∈ (run {} done).aliases ∧ e = .conflictingJoin join.aliasName) ∧
    (∀ model aliasName, ((run {} done).ensureColumnSupport model aliasName).1 = true ↔
      aliasName ∉ (run {} done).aliases) ∧
    (∀ request, (run {} (done ++ [request])).joins =
      if request.join.aliasName ∈ (run {} done).aliases then (run {} done).joins
      else (run {} done).joins ++ [request.join]) ∧
    (run {} done).joins <+: (run {} (done ++ rest)).joins := by
  have later (more : List Request) : run {} (done ++ more) = (run {} done).run more :=
    List.foldl_append
  refine ⟨aliases_run_nodup done, joins_run_empty done, get?_run done, ?_, ?_, ?_, ?_, ?_⟩
  · intro join r
    exact attach_eq_ok
  · intro join e
    exact attach_eq_error
  · intro model aliasName
    exact ensureColumnSupport_added
  · intro request
    rw [later]
    exact joins_step _ request
  · rw [later]
    exact joins_run_prefix _ rest

/-- An alias that is joined for columns only is not joined again for a selected association. -/
example : (run {} [.support "User" "owner", .support "Project" "projects",
      .attach ⟨"User", "owner", {}, []⟩]).joins =
    [⟨"User", "owner", { attributes := some (.columns []) }, []⟩,
      ⟨"Project", "projects", { attributes := some (.columns []) }, []⟩] := by
  rfl

end Registry

end QueryPlan
