import QueryPlan.Proofs.Filter.Predicates
import QueryPlan.Proofs.SameOutcome

namespace QueryPlan

open Json

namespace Setting

variable {known : List String} {key : String} {v : Json} {s : Setting}

/-- The option that a setting replaces or adds to; the filter is made of many settings at once. -/
def option? : Setting → Option String
  | .limit _ => some "limit"
  | .offset _ => some "offset"
  | .having _ => some "having"
  | .order _ => some "order"
  | .group _ => some "group"
  | .attributes _ => some "attributes"
  | .required _ => some "required"
  | .right _ => some "right"
  | .separate _ => some "separate"
  | .subQuery _ => some "subQuery"
  | .scope _ => some "scope"
  | .filter _ | .equals _ _ | .nothing => none

/-- The option that an argument is for. Only the grouping goes by two names. -/
def optionOf (key : String) : String := if key = "groupBy" then "group" else key

theorem option_of_accepted (h : Accepted known key v s) {name : String}
    (sets : s.option? = some name) : name = optionOf key := by
  cases h with
  | absent => cases sets
  | filter => cases sets
  | noAttributes => cases sets
  | equals => cases sets
  | ignored => cases sets
  | group named =>
    cases sets
    rcases named with rfl | rfl <;> rfl
  | _ =>
    cases sets
    rfl

end Setting

namespace Options

variable {base o : Options} {known : List String} {args args' : Object} {arg arg' : String × Json}
  {settings settings' : List Setting} {e : CompileError}

theorem ofArguments_single (known : List String) (arg : String × Json) :
    ofArguments known [arg] = (Setting.read known arg).map fun s => withSettings {} [s] := by
  rw [ofArguments, withArguments_eq_map, List.mapM_cons, List.mapM_nil]
  cases Setting.read known arg <;> rfl

theorem ofArguments_single_eq_error :
    ofArguments known [arg] = .error e ↔ Setting.read known arg = .error e := by
  rw [ofArguments_single, map_eq_error]

theorem exists_ofArguments_single :
    (∃ o, ofArguments known [arg] = .ok o) ↔ ∃ s, Setting.read known arg = .ok s := by
  rw [ofArguments_single]
  cases Setting.read known arg <;> simp [Except.map]

/-- Whatever the options are before, arguments are refused exactly if one of them is refused on its
own, and with the error of the first one that is. -/
theorem withArguments_refused_alone (base : Options) (known : List String) (args : Object) :
    ((∃ e, withArguments base known args = .error e) ↔
      ∃ arg ∈ args, ∃ e, ofArguments known [arg] = .error e) ∧
    ∀ e, withArguments base known args = .error e ↔
      ∃ before arg after, args = before ++ arg :: after ∧
        (∀ earlier ∈ before, ∃ o, ofArguments known [earlier] = .ok o) ∧
        ofArguments known [arg] = .error e := by
  constructor
  · simp only [withArguments_eq_error, exists_mapM_eq_error, ofArguments_single_eq_error]
  · intro e
    simp only [withArguments_eq_error, mapM_eq_error_iff, exists_ofArguments_single,
      ofArguments_single_eq_error]

/-- Settings of different options may change places. -/
theorem apply_comm {s t : Setting} (o : Options)
    (different : ∀ name, s.option? = some name → t.option? ≠ some name) :
    (o.apply s).apply t = (o.apply t).apply s := by
  cases s <;> cases t <;> try rfl
  -- What is left are two settings of one option.
  all_goals exact absurd rfl (different _ rfl)

/-- No option is set twice: names are distinct, and the two names of the grouping are not both
there. -/
structure SetOnce (args : Object) : Prop where
  distinct : args.keys.Nodup
  group : ¬ ("group" ∈ args.keys ∧ "groupBy" ∈ args.keys)

theorem SetOnce.optionOf_ne (once : SetOnce args) (mem : arg ∈ args) (mem' : arg' ∈ args)
    (ne : arg ≠ arg') : Setting.optionOf arg.1 ≠ Setting.optionOf arg'.1 := by
  have names : arg.1 ≠ arg'.1 := fun he => ne (List.inj_on_of_nodup_map once.distinct mem mem' he)
  have key : arg.1 ∈ args.keys := Object.mem_keys mem
  have key' : arg'.1 ∈ args.keys := Object.mem_keys mem'
  intro same
  rw [Setting.optionOf, Setting.optionOf] at same
  split at same
  · rename_i named
    rw [named] at key
    split at same
    · rename_i named'
      exact names (named.trans named'.symm)
    · rw [← same] at key'
      exact once.group ⟨key', key⟩
  · split at same
    · rename_i named'
      rw [named'] at key'
      rw [same] at key
      exact once.group ⟨key, key'⟩
    · exact names same

theorem foldl_apply_perm (once : SetOnce args) (reads : Read known args settings)
    (h : settings.Perm settings') (o : Options) :
    settings.foldl apply o = settings'.foldl apply o := by
  apply h.foldl_eq'
  intro s hs t ht o
  obtain ⟨arg, mem, hs⟩ := exists_of_mem_right reads hs
  obtain ⟨arg', mem', ht⟩ := exists_of_mem_right reads ht
  by_cases same : arg = arg'
  · subst same
    cases hs.symm.trans ht
    rfl
  · apply apply_comm
    intro name sets sets'
    apply once.optionOf_ne mem mem' same
    rw [← Setting.option_of_accepted (Setting.ofArgument_accepted hs) sets,
      ← Setting.option_of_accepted (Setting.ofArgument_accepted ht) sets']

theorem conditions_perm (distinct : args.keys.Nodup) (h : args.Perm args')
    (reads : Read known args settings) (reads' : Read known args' settings') :
    (conditions settings).Perm (conditions settings') := by
  have distinct' := Object.keys_nodup_perm distinct h
  apply Object.perm_of_get? (keys_conditions_nodup settings) (keys_conditions_nodup settings')
  intro key
  rw [get?_conditions distinct reads, get?_conditions distinct' reads', asksWhere, asksWhere,
    Object.get?_perm distinct h, Object.get?_perm distinct h]

theorem mergePredicate_perm (base : Option Object) {more more' : Object}
    (distinct : more.keys.Nodup) (h : more.Perm more') :
    (mergePredicate base more).Perm (mergePredicate base more') := by
  cases base with
  | none => exact h
  | some p =>
    rw [mergePredicate_some p distinct, mergePredicate_some p (Object.keys_nodup_perm distinct h)]
    exact (h.filter _).append_left p

/-- The same options, with the conditions on fields in whatever order. -/
structure Reordered (o o' : Options) : Prop where
  filter : Option.Rel List.Perm o.filter o'.filter
  others : { o with filter := none } = { o' with filter := none }

theorem withSettings_reordered (base : Options)
    (applied : settings.foldl apply base = settings'.foldl apply base)
    (conditions : (conditions settings).Perm (Options.conditions settings')) :
    (base.withSettings settings).Reordered (base.withSettings settings') := by
  have empty := conditions.isEmpty_eq
  rw [withSettings, withSettings, applied, empty]
  split
  · constructor
    · cases (settings'.foldl apply base).filter with
      | none => exact .none
      | some p => exact .some (.refl p)
    · rfl
  · constructor
    · exact .some (mergePredicate_perm _ (keys_conditions_nodup settings) conditions)
    · rfl

/-- The order in which arguments are given changes nothing but the order of the conditions on
fields. -/
theorem withArguments_perm (once : SetOnce args) (h : args.Perm args') (base : Options)
    (known : List String) :
    SameOutcome Reordered (withArguments base known args) (withArguments base known args') := by
  have settled := (SameOutcome.mapM_perm (f := Setting.read known) h).outcomes
  rw [withArguments_eq_map, withArguments_eq_map]
  apply settled.map
  rintro settings settings' ⟨read, read', perm⟩
  have reads := mapM_eq_ok.1 read
  have reads' := mapM_eq_ok.1 read'
  apply withSettings_reordered
  · exact foldl_apply_perm once reads perm base
  · exact conditions_perm once.distinct h reads reads'

end Options

namespace Sample

/-- A page of grouped rows, with a condition on a field that is filtered as well. -/
def groupedPage : Object :=
  [("name", .str "Ada"), ("limit", Json.ofNat 10), ("groupBy", .str "name"),
    ("where", .obj [("age", .obj [("_gt", Json.ofNat 6)])]), ("age", Json.ofNat 18)]

def groupedPageWhere (conditions : Object) : Options :=
  { filter := some (("tenant", Json.ofNat 1) :: conditions), limit := some 10,
    group := some [.column none "name"] }

theorem groupedPage_reversed :
    (Options.SetOnce groupedPage ∧ groupedPage.Perm groupedPage.reverse) ∧
    tenant.withArguments ["name", "age"] groupedPage = .ok (groupedPageWhere
      [("name", .str "Ada"), ("age", .obj [("$gt", Json.ofNat 6)])]) ∧
    tenant.withArguments ["name", "age"] groupedPage.reverse = .ok (groupedPageWhere
      [("age", .obj [("$gt", Json.ofNat 6)]), ("name", .str "Ada")]) ∧
    SameOutcome Options.Reordered (tenant.withArguments ["name", "age"] groupedPage)
      (tenant.withArguments ["name", "age"] groupedPage.reverse) := by
  have once : Options.SetOnce groupedPage := ⟨by decide, by decide⟩
  have perm : groupedPage.Perm groupedPage.reverse := (List.reverse_perm groupedPage).symm
  refine ⟨⟨once, perm⟩, ?_, ?_, Options.withArguments_perm once perm tenant ["name", "age"]⟩
  · with_unfolding_all rfl
  · with_unfolding_all rfl

end Sample

end QueryPlan
