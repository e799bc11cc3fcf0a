import QueryPlan.Proofs.Filter.Setting
import QueryPlan.Proofs.Json.Object

namespace QueryPlan

open Json

namespace Setting

def having? : Setting → Option Object
  | .having p => some p
  | _ => none

variable {known : List String} {key : String} {v : Json} {s : Setting}

/-- What an argument adds to the predicates: a condition on a field, a filter or a condition on
groups. -/
structure Adds (known : List String) (key : String) (v : Json) (s : Setting) : Prop where
  condition : s.condition? =
    if key ∈ known ∧ key ∉ optionNames then some (key, v) else none
  filter : s.filter? = if key = "where" then v.ofObject?.map .obj else none
  having : s.having?.getD [] = if key = "having" then Operator.predicate (some v) else []

/-- An option other than the two that hold predicates. -/
theorem Adds.of_option (named : key ∈ optionNames ∧ key ≠ "where" ∧ key ≠ "having")
    (bare : s.condition? = none ∧ s.filter? = none ∧ s.having? = none) : Adds known key v s := by
  obtain ⟨listed, notFilter, notHaving⟩ := named
  obtain ⟨condition, filter, having⟩ := bare
  constructor
  · rw [condition, if_neg fun h => h.2 listed]
  · rw [filter, if_neg notFilter]
  · rw [having, if_neg notHaving]
    rfl

theorem ofArgument_adds (h : ofArgument known key v = .ok s) : Adds known key v s := by
  cases ofArgument_accepted h with
  | absent null other =>
    cases v with
    | null => exact ⟨by simp [condition?, other], by simp [filter?, ofObject?],
        by simp [having?, Operator.predicate]⟩
    | _ => cases null
  | filter fields => exact ⟨by simp [condition?, optionNames], rfl, rfl⟩
  | having v => exact ⟨by simp [condition?, optionNames], rfl, rfl⟩
  | group named _ =>
    rcases named with rfl | rfl
    · exact .of_option (by decide) ⟨rfl, rfl, rfl⟩
    · exact .of_option (by decide) ⟨rfl, rfl, rfl⟩
  | equals v field named =>
    have filter : "where" ≠ key := ne_of_mem_of_not_mem (by decide) named
    have having : "having" ≠ key := ne_of_mem_of_not_mem (by decide) named
    exact ⟨(if_pos ⟨field, named⟩).symm, (if_neg filter.symm).symm, (if_neg having.symm).symm⟩
  | ignored v other named =>
    have filter : "where" ≠ key := ne_of_mem_of_not_mem (by decide) named
    have having : "having" ≠ key := ne_of_mem_of_not_mem (by decide) named
    exact ⟨(if_neg fun h => other h.1).symm, (if_neg filter.symm).symm, (if_neg having.symm).symm⟩
  | _ => exact .of_option (by decide) ⟨rfl, rfl, rfl⟩

end Setting

namespace Operator

theorem keys_predicate_nodup (v : Option Json) : (predicate v).keys.Nodup := by
  unfold predicate
  split
  · exact Object.keys_ofList_nodup _
  · exact List.nodup_nil

theorem predicate_ofObject? (v : Json) :
    predicate (v.ofObject?.map .obj) = predicate (some v) := by
  cases v <;> rfl

end Operator

namespace Options

variable {base o : Options} {known : List String} {args : Object} {settings : List Setting}

/-- The settings are those of the arguments, one by one. -/
abbrev Read (known : List String) (args : Object) (settings : List Setting) : Prop :=
  List.Forall₂ (fun arg s => Setting.ofArgument known arg.1 arg.2 = .ok s) args settings

/-- The filter is that of the argument by its name, if that is an object. -/
theorem predicate_filter (distinct : args.keys.Nodup) (read : Read known args settings) :
    Operator.predicate (settings.findSome? Setting.filter?) =
      Operator.predicate (args.get? "where") := by
  induction read with
  | nil => rfl
  | @cons arg s args settings h _ ih =>
    obtain ⟨key, v⟩ := arg
    obtain ⟨fresh, distinct⟩ := List.nodup_cons.1 distinct
    have adds := (Setting.ofArgument_adds h).filter
    rw [List.findSome?_cons, Object.get?_cons, adds]
    by_cases hkey : key = "where"
    · rw [if_pos hkey, if_pos hkey]
      cases hv : v.ofObject?.map Json.obj with
      | none =>
        -- A null says nothing, and there is no second filter.
        have hnone : Object.get? args "where" = none := by
          rw [← hkey]
          exact Object.get?_eq_none.2 fresh
        have hrest := ih distinct
        rw [hnone] at hrest
        rw [← Operator.predicate_ofObject?, hv]
        exact hrest
      | some tree => rw [← Operator.predicate_ofObject? v, hv]
    · rw [if_neg hkey, if_neg hkey]
      exact ih distinct

/-- The conditions on fields are the arguments by the name of a known field. -/
theorem filterMap_condition (read : Read known args settings) :
    settings.filterMap Setting.condition? =
      args.filter fun arg => arg.1 ∈ known ∧ arg.1 ∉ Setting.optionNames := by
  induction read with
  | nil => rfl
  | @cons arg s args settings h _ ih =>
    have adds := (Setting.ofArgument_adds h).condition
    rw [List.filterMap_cons, List.filter_cons, adds, ih]
    by_cases hkey : arg.1 ∈ known ∧ arg.1 ∉ Setting.optionNames
    · rw [if_pos hkey, if_pos (by simpa using hkey)]
    · rw [if_neg hkey, if_neg (by simpa using hkey)]

/-- What the arguments ask a key of the filter to be bound to. -/
def asksWhere (known : List String) (args : Object) (key : String) : Option Json :=
  ((Operator.predicate (args.get? "where")).get? key).or
    (if key ∈ known ∧ key ∉ Setting.optionNames then args.get? key else none)

def asksHaving (args : Object) (key : String) : Option Json :=
  (Operator.predicate (args.get? "having")).get? key

theorem keys_conditions_nodup (settings : List Setting) : (conditions settings).keys.Nodup :=
  Object.keys_extend_nodup (Object.keys_ofList_nodup _) _

theorem get?_conditions (distinct : args.keys.Nodup) (read : Read known args settings)
    (key : String) : (conditions settings).get? key = asksWhere known args key := by
  have named : (Object.keys
      (args.filter fun arg => arg.1 ∈ known ∧ arg.1 ∉ Setting.optionNames)).Nodup :=
    distinct.sublist (List.filter_sublist.map _)
  rw [conditions, Object.get?_extend (Operator.keys_predicate_nodup _),
    predicate_filter distinct read, filterMap_condition read,
    Object.get?_ofList named, Object.get?_filter fun k => k ∈ known ∧ k ∉ Setting.optionNames]
  simp only [decide_eq_true_eq]
  rfl

/-- A merge adds the entries whose keys are free. -/
theorem mergePredicate_some (p : Object) {more : Object} (distinct : more.keys.Nodup) :
    mergePredicate (some p) more = p ++ more.filter fun e => !p.contains e.1 := by
  change more.foldl _ p = _
  induction more generalizing p with
  | nil => exact (List.append_nil p).symm
  | cons e more ih =>
    obtain ⟨fresh, distinct⟩ := List.nodup_cons.1 distinct
    rw [List.foldl_cons, ih _ distinct, List.filter_cons]
    by_cases bound : p.contains e.1
    · simp [bound]
    · have later : (more.filter fun e' => !Object.contains (p ++ [e]) e'.1) =
          more.filter fun e' => !p.contains e'.1 := by
        apply List.filter_congr
        intro e' he'
        have hne : e.1 ≠ e'.1 := fun he => fresh (List.mem_map.2 ⟨e', he', he.symm⟩)
        rw [Object.contains, Object.contains, Object.get?_append, Object.get?_cons, if_neg hne]
        simp [Object.get?]
      simp [bound, later]

theorem mergePredicate_extends (p : Option Object) {more : Object} (distinct : more.keys.Nodup) :
    Object.Extends (p.getD []) (mergePredicate p more) more.get? := by
  cases p with
  | none =>
    refine ⟨more, rfl, distinct, fun key v => ?_⟩
    rw [Object.mem_iff_get? distinct]
    exact (and_iff_right rfl).symm
  | some p =>
    refine ⟨_, mergePredicate_some p distinct, distinct.sublist (List.filter_sublist.map _), ?_⟩
    intro key v
    rw [List.mem_filter, Object.mem_iff_get? distinct, Option.getD_some, and_comm,
      Object.get?_eq_none, ← Object.contains_iff, Bool.not_eq_true', Bool.not_eq_true]

theorem mergePredicate_grows (p : Option Object) (more : Object) :
    p.getD [] <+: mergePredicate p more := by
  cases p with
  | none => exact List.nil_prefix
  | some p =>
    change p <+: more.foldl _ p
    induction more generalizing p with
    | nil => exact List.prefix_refl p
    | cons e more ih =>
      rw [List.foldl_cons]
      split
      · exact ih p
      · exact (List.prefix_append p [e]).trans (ih _)

theorem filter_apply (o : Options) (s : Setting) : (o.apply s).filter = o.filter := by
  cases s <;> rfl

theorem filter_foldl (o : Options) (settings : List Setting) :
    (settings.foldl apply o).filter = o.filter := by
  induction settings generalizing o with
  | nil => rfl
  | cons s settings ih => rw [List.foldl_cons, ih, filter_apply]

theorem having_apply (o : Options) (s : Setting) :
    (o.apply s).having = (s.having?.map (mergePredicate o.having)).or o.having := by
  cases s <;> rfl

theorem having_apply_grows (o : Options) (s : Setting) :
    o.having.getD [] <+: (o.apply s).having.getD [] := by
  rw [having_apply]
  cases s.having? with
  | none => exact List.prefix_refl _
  | some p => exact mergePredicate_grows o.having p

theorem having_foldl_grows (o : Options) (settings : List Setting) :
    o.having.getD [] <+: (settings.foldl apply o).having.getD [] := by
  induction settings generalizing o with
  | nil => exact List.prefix_refl _
  | cons s settings ih => exact (having_apply_grows o s).trans (ih (o.apply s))

theorem having_apply_extends {key : String} {v : Json} {s : Setting}
    (h : Setting.ofArgument known key v = .ok s) (o : Options) :
    Object.Extends (o.having.getD []) ((o.apply s).having.getD [])
      (if key = "having" then Operator.predicate (some v) else []).get? := by
  have adds := (Setting.ofArgument_adds h).having
  have distinct : (s.having?.getD []).keys.Nodup := by
    rw [adds]
    split
    · exact Operator.keys_predicate_nodup _
    · exact List.nodup_nil
  rw [← adds, having_apply]
  cases hs : s.having? with
  | none => exact .refl _ fun _ => rfl
  | some p =>
    rw [hs] at distinct
    exact mergePredicate_extends o.having distinct

/-- Only the argument by its name binds keys in the conditions on groups. -/
theorem having_foldl_extends (distinct : args.keys.Nodup) (read : Read known args settings)
    (o : Options) :
    Object.Extends (o.having.getD []) ((settings.foldl apply o).having.getD [])
      (asksHaving args) := by
  induction read generalizing o with
  | nil => exact .refl _ fun _ => rfl
  | @cons arg s args settings h _ ih =>
    obtain ⟨key, v⟩ := arg
    obtain ⟨fresh, distinct⟩ := List.nodup_cons.1 distinct
    have head := having_apply_extends h o
    have rest := ih distinct (o.apply s)
    rw [List.foldl_cons]
    by_cases hkey : key = "having"
    · have hnone : Object.get? args "having" = none := by
        rw [← hkey]
        exact Object.get?_eq_none.2 fresh
      have unasked : ∀ key, asksHaving args key = none := by
        intro key
        rw [asksHaving, hnone]
        rfl
      rw [rest.eq_of_unasked unasked]
      rw [if_pos hkey] at head
      apply head.congr
      intro k
      rw [asksHaving, Object.get?_cons, if_pos hkey]
    · rw [if_neg hkey] at head
      rw [head.eq_of_unasked fun _ => rfl] at rest
      apply rest.congr
      intro k
      rw [asksHaving, asksHaving, Object.get?_cons, if_neg hkey]

theorem having_withSettings (base : Options) (settings : List Setting) :
    (base.withSettings settings).having = (settings.foldl apply base).having := by
  rw [withSettings]
  split <;> rfl

theorem filter_withSettings (base : Options) (settings : List Setting) :
    (base.withSettings settings).filter = if (conditions settings).isEmpty then base.filter
      else some (mergePredicate base.filter (conditions settings)) := by
  rw [withSettings, filter_foldl]
  split
  · exact filter_foldl base settings
  · rfl

/-- The options that the arguments of a request make of others, in two steps: each setting is
applied, and then the conditions are merged. -/
theorem withArguments_eq_ok (h : withArguments base known args = .ok o) :
    ∃ settings, Read known args settings ∧ o.having = (settings.foldl apply base).having ∧
      o.filter = if (conditions settings).isEmpty then base.filter
        else some (mergePredicate base.filter (conditions settings)) := by
  rw [withArguments_eq_map] at h
  obtain ⟨settings, hs, rfl⟩ := map_eq_ok.1 h
  exact ⟨settings, mapM_eq_ok.1 hs, having_withSettings base settings,
    filter_withSettings base settings⟩

/-- A step binds exactly the free keys that its arguments ask for, in both predicates. -/
theorem withArguments_extends (distinct : args.keys.Nodup)
    (h : withArguments base known args = .ok o) :
    Object.Extends (base.filter.getD []) (o.filter.getD []) (asksWhere known args) ∧
      Object.Extends (base.having.getD []) (o.having.getD []) (asksHaving args) := by
  obtain ⟨settings, read, hhaving, hfilter⟩ := withArguments_eq_ok h
  constructor
  · have asked := get?_conditions distinct read
    rw [hfilter]
    by_cases hempty : (conditions settings).isEmpty
    · rw [if_pos hempty]
      apply Object.Extends.refl
      intro key
      rw [← asked, List.isEmpty_iff.1 hempty]
      rfl
    · rw [if_neg hempty]
      exact (mergePredicate_extends base.filter (keys_conditions_nodup settings)).congr asked
  · rw [hhaving]
    exact having_foldl_extends distinct read base

theorem withArguments_grows (h : withArguments base known args = .ok o) :
    base.filter.getD [] <+: o.filter.getD [] ∧ base.having.getD [] <+: o.having.getD [] := by
  obtain ⟨settings, -, hhaving, hfilter⟩ := withArguments_eq_ok h
  constructor
  · rw [hfilter]
    split
    · exact List.prefix_refl _
    · exact mergePredicate_grows base.filter _
  · rw [hhaving]
    exact having_foldl_grows base settings

/-- One request on top of the options: the known fields and the arguments. -/
structure Step where
  known : List String
  args : Object

/-- A step that is refused leaves the options as they were. -/
def step (o : Options) (s : Step) : Options := (withArguments o s.known s.args).toOption.getD o

def run (o : Options) (steps : List Step) : Options := steps.foldl step o

theorem step_grows (o : Options) (s : Step) :
    o.filter.getD [] <+: (o.step s).filter.getD [] ∧
      o.having.getD [] <+: (o.step s).having.getD [] := by
  rw [step]
  cases h : withArguments o s.known s.args with
  | error e => exact ⟨List.prefix_refl _, List.prefix_refl _⟩
  | ok o' => exact withArguments_grows h

theorem run_grows (o : Options) (steps : List Step) :
    o.filter.getD [] <+: (o.run steps).filter.getD [] ∧
      o.having.getD [] <+: (o.run steps).having.getD [] := by
  induction steps generalizing o with
  | nil => exact ⟨List.prefix_refl _, List.prefix_refl _⟩
  | cons s steps ih =>
    obtain ⟨filter, having⟩ := o.step_grows s
    obtain ⟨filter', having'⟩ := ih (o.step s)
    exact ⟨filter.trans filter', having.trans having'⟩

/-- What is bound in the filter or in the conditions on groups at some point of a run stays bound
as it is, and a step that succeeds binds exactly the free keys that its arguments ask for. -/
theorem run_keeps_predicates (start : Options) (done rest : List Step) :
    ((start.run done).filter.getD []).KeptIn ((start.run (done ++ rest)).filter.getD []) ∧
    ((start.run done).having.getD []).KeptIn ((start.run (done ++ rest)).having.getD []) ∧
    ∀ known args o, (Object.keys args).Nodup →
      withArguments (start.run done) known args = .ok o →
        Object.Extends ((start.run done).filter.getD []) (o.filter.getD [])
          (asksWhere known args) ∧
        Object.Extends ((start.run done).having.getD []) (o.having.getD [])
          (asksHaving args) := by
  have later : start.run (done ++ rest) = (start.run done).run rest := List.foldl_append
  obtain ⟨filter, having⟩ := (start.run done).run_grows rest
  rw [later]
  refine ⟨.of_grown filter, .of_grown having, ?_⟩
  intro known args o distinct h
  exact withArguments_extends distinct h

end Options

namespace Sample

/-- Rows of one tenant. -/
def tenant : Options := { filter := some [("tenant", Json.ofNat 1)] }

/-- A filter that binds one field which is a condition already, and one that is taken. -/
def adults : Options.Step where
  known := ["name", "age"]
  args := [("age", Json.ofNat 18), ("name", .obj [("_like", .str "A%")]),
    ("where", .obj [("age", .obj [("_gt", Json.ofNat 6)]), ("tenant", Json.ofNat 2)])]

def adultsOfTenant : Options :=
  { filter := some [("tenant", Json.ofNat 1), ("age", .obj [("$gt", Json.ofNat 6)]),
      ("name", .obj [("_like", .str "A%")])] }

theorem tenant_kept :
    Options.withArguments tenant adults.known adults.args = .ok adultsOfTenant ∧
    Object.Extends (tenant.filter.getD []) (adultsOfTenant.filter.getD [])
      (Options.asksWhere adults.known adults.args) ∧
    (tenant.filter.getD []).KeptIn ((tenant.run [adults, adults]).filter.getD []) := by
  have asked : Options.withArguments tenant adults.known adults.args = .ok adultsOfTenant := by
    with_unfolding_all rfl
  have distinct : (Object.keys adults.args).Nodup := by decide
  obtain ⟨kept, -, binds⟩ := Options.run_keeps_predicates tenant [] [adults, adults]
  exact ⟨asked, (binds adults.known adults.args adultsOfTenant distinct asked).1, kept⟩

end Sample

end QueryPlan
