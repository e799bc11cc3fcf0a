import QueryPlan.Proofs.Filter.Predicates
import QueryPlan.Proofs.Filter.Refused

namespace QueryPlan

open Json

namespace Setting

variable {known : List String} {arg : String × Json}

/-- A null for an option. -/
def isAbsent (arg : String × Json) : Bool := arg.1 ∈ optionNames && arg.2.isNull

/-- A null for an option that is looked at: a known field is named like the option, so that the null
is not skipped. Among the attributes it means nothing even then. -/
def Misread (known : List String) (arg : String × Json) : Prop :=
  isAbsent arg ∧ arg.1 ∈ known ∧ arg.1 ≠ "attributes"

instance : Decidable (Misread known arg) :=
  inferInstanceAs (Decidable (isAbsent arg ∧ arg.1 ∈ known ∧ arg.1 ≠ "attributes"))

theorem isAbsent_iff : isAbsent arg ↔ arg.1 ∈ optionNames ∧ arg.2 = .null := by
  obtain ⟨key, v⟩ := arg
  cases v <;> simp [isAbsent, isNull]

/-- A null asks for nothing unless it is misread. -/
theorem read_absent (absent : isAbsent arg) (h : ¬ Misread known arg) :
    read known arg = .ok .nothing := by
  obtain ⟨key, v⟩ := arg
  obtain ⟨-, rfl⟩ := isAbsent_iff.1 absent
  by_cases field : key ∈ known
  · have attributes : key = "attributes" := not_not.1 fun other => h ⟨absent, field, other⟩
    subst attributes
    simp [read, ofArgument, field, Projection.ofArgument?]
  · simp [read, ofArgument, field, isNull]

/-- A null that is misread is refused, or else it is an empty condition on groups. -/
theorem read_misread (h : Misread known arg) :
    (∃ e, read known arg = .error e) ∨ read known arg = .ok (.having []) := by
  obtain ⟨absent, field, other⟩ := h
  obtain ⟨key, v⟩ := arg
  obtain ⟨listed, rfl⟩ := isAbsent_iff.1 absent
  dsimp only at listed field other
  cases result : read known (key, .null) with
  | error e => exact .inl ⟨e, rfl⟩
  | ok s =>
    right
    cases ofArgument_accepted result with
    | absent _ unknown => exact absurd field unknown
    | having => rfl
    | attributes => exact absurd rfl other
    | noAttributes => exact absurd rfl other
    | equals _ _ unlisted => exact absurd listed unlisted
    | ignored _ _ unlisted => exact absurd listed unlisted
    | group _ taken => cases taken
    | _ taken => cases taken

/-- Conditions on groups come from the argument by their name alone. -/
theorem key_of_having {p : Object} (h : read known arg = .ok (.having p)) : arg.1 = "having" := by
  obtain ⟨key, v⟩ := arg
  cases ofArgument_accepted h
  rfl

/-- Whether anything is asked for. -/
def asks : Setting → Bool
  | .nothing => false
  | _ => true

end Setting

namespace Options

variable {base o : Options} {known : List String} {args args' : Object}

/-- The arguments without the nulls for options. -/
def given (args : Object) : Object := args.filter fun arg => !Setting.isAbsent arg

/-- The first argument that is refused is no null for an option. -/
def RefusesGiven (known : List String) (args : Object) : Prop :=
  ∃ before arg after e, args = before ++ arg :: after ∧
    (∀ a ∈ before, ∃ s, Setting.read known a = .ok s) ∧ Setting.read known arg = .error e ∧
      ¬ Setting.isAbsent arg

theorem foldl_apply_asks (o : Options) (settings : List Setting) :
    (settings.filter Setting.asks).foldl apply o = settings.foldl apply o := by
  rw [List.foldl_filter]
  congr 1
  funext o s
  cases s <;> rfl

theorem conditions_asks (settings : List Setting) :
    conditions (settings.filter Setting.asks) = conditions settings := by
  have kept : ∀ (α : Type) (part : Setting → Option α), part .nothing = none →
      (settings.filter Setting.asks).filterMap part = settings.filterMap part := by
    intro α part nothing
    rw [List.filterMap_filter]
    congr 1
    funext s
    cases s <;> simp [Setting.asks, nothing]
  rw [conditions, conditions, kept _ _ rfl, ← List.head?_filterMap, ← List.head?_filterMap,
    kept _ _ rfl]

theorem withSettings_asks (o : Options) (settings : List Setting) :
    o.withSettings (settings.filter Setting.asks) = o.withSettings settings := by
  rw [withSettings, withSettings, foldl_apply_asks, conditions_asks]

/-- Arguments that ask for the same have the same options, or are refused alike. -/
theorem withArguments_congr
    (h : (args.mapM (Setting.read known)).map (List.filter Setting.asks) =
      (args'.mapM (Setting.read known)).map (List.filter Setting.asks)) (base : Options) :
    withArguments base known args = withArguments base known args' := by
  have asked : ∀ args, withArguments base known args =
      ((args.mapM (Setting.read known)).map (List.filter Setting.asks)).map base.withSettings := by
    intro args
    rw [withArguments_eq_map]
    cases args.mapM (Setting.read known) with
    | error e => rfl
    | ok settings => exact congrArg Except.ok (withSettings_asks base settings).symm
  rw [asked, asked, h]

/-- Nulls that are not misread are left out without a trace. -/
theorem mapM_given (h : ∀ arg ∈ args, ¬ Setting.Misread known arg) :
    ((given args).mapM (Setting.read known)).map (List.filter Setting.asks) =
      (args.mapM (Setting.read known)).map (List.filter Setting.asks) := by
  induction args with
  | nil => rfl
  | cons arg args ih =>
    obtain ⟨own, rest⟩ := List.forall_mem_cons.1 h
    have same := ih rest
    rw [List.mapM_cons]
    by_cases absent : Setting.isAbsent arg
    · rw [given, List.filter_cons_of_neg (by simpa using absent), Setting.read_absent absent own]
      have skipped : ∀ rest : Except CompileError (List Setting),
          rest.map (List.filter Setting.asks) =
            (rest >>= fun rest => pure (.nothing :: rest)).map (List.filter Setting.asks) := by
        intro rest
        cases rest <;> rfl
      exact same.trans (skipped _)
    · rw [given, List.filter_cons_of_pos (by simpa using absent), List.mapM_cons]
      cases Setting.read known arg with
      | error e => rfl
      | ok s =>
        have added : ∀ rest : Except CompileError (List Setting),
            (rest >>= fun rest => pure (s :: rest)).map (List.filter Setting.asks) =
              (rest.map (List.filter Setting.asks)).map ([s].filter Setting.asks ++ ·) := by
          intro rest
          cases rest with
          | error e => rfl
          | ok rest => exact congrArg Except.ok (List.filter_append [s] rest)
        exact (added _).trans ((congrArg _ same).trans (added _).symm)

/-- The error of a given argument hides what the nulls after it are read as. -/
theorem RefusesGiven.withArguments_given (h : RefusesGiven known args) (base : Options) :
    withArguments base known (given args) = withArguments base known args := by
  obtain ⟨before, arg, after, e, rfl, passed, refused, present⟩ := h
  have whole : (before ++ arg :: after).mapM (Setting.read known) = .error e :=
    mapM_eq_error_iff.2 ⟨before, arg, after, rfl, passed, refused⟩
  have kept : (given (before ++ arg :: after)).mapM (Setting.read known) = .error e := by
    rw [given, List.filter_append, List.filter_cons_of_pos (by simpa using present)]
    apply mapM_eq_error_iff.2 ⟨_, arg, _, rfl, _, refused⟩
    intro a ha
    exact passed a (List.mem_of_mem_filter ha)
  apply withArguments_congr
  rw [whole, kept]

section

variable {arg other : String × Json} (distinct : args.keys.Nodup) (mem : arg ∈ args)
  (absent : Setting.isAbsent arg)
include distinct mem absent

theorem name_ne_of_given (h : other ∈ given args) : other.1 ≠ arg.1 := by
  intro sameName
  obtain ⟨mem', present⟩ := List.mem_filter.1 h
  have same : other = arg := List.inj_on_of_nodup_map distinct mem' mem sameName
  rw [same, absent] at present
  cases present

/-- An error for a null is gone with the null. -/
theorem withArguments_given_ne {e : CompileError} (refused : Setting.read known arg = .error e) :
    withArguments base known (given args) ≠ .error e := by
  intro h
  obtain ⟨other, hother, named⟩ := withArguments_refuses h
  obtain ⟨reason, rfl⟩ := Setting.ofArgument_refuses refused
  obtain ⟨reason', he⟩ := named
  injection he with sameName
  exact name_ne_of_given distinct mem absent hother sameName.symm

end

theorem having_foldl_isSome (o : Options) (settings : List Setting) :
    (settings.foldl apply o).having.isSome ↔
      o.having.isSome ∨ ∃ s ∈ settings, s.having?.isSome := by
  induction settings generalizing o with
  | nil => simp
  | cons s settings ih =>
    rw [List.foldl_cons, ih, having_apply]
    cases hs : s.having? <;> simp [hs]

/-- There are conditions on groups afterwards if some argument sets them, be they empty. -/
theorem having_isSome_iff (h : withArguments {} known args = .ok o) :
    o.having.isSome ↔ ∃ arg ∈ args, ∃ p, Setting.read known arg = .ok (.having p) := by
  obtain ⟨settings, reads, hhaving, -⟩ := withArguments_eq_ok h
  rw [hhaving, having_foldl_isSome]
  constructor
  · intro h
    rcases h with h | ⟨s, hs, h⟩
    · cases h
    · obtain ⟨arg, harg, read⟩ := exists_of_mem_right reads hs
      cases s with
      | having p => exact ⟨arg, harg, p, read⟩
      | _ => cases h
  · intro h
    obtain ⟨arg, harg, p, read⟩ := h
    obtain ⟨s, hs, read'⟩ := exists_of_mem_left reads harg
    have same := Except.ok.inj (read'.symm.trans read)
    rw [same] at hs
    exact .inr ⟨.having p, hs, rfl⟩

/-- If leaving the nulls out keeps an error, it was not the error of a null. -/
theorem RefusesGiven.of_error {e : CompileError} (distinct : args.keys.Nodup)
    (same : withArguments base known (given args) = withArguments base known args)
    (h : withArguments base known args = .error e) : RefusesGiven known args := by
  obtain ⟨before, arg, after, rfl, passed, refused⟩ :=
    mapM_eq_error_iff.1 (withArguments_eq_error.1 h)
  have mem : arg ∈ before ++ arg :: after := List.mem_append_right before List.mem_cons_self
  have present : ¬ Setting.isAbsent arg := by
    intro absent
    exact withArguments_given_ne distinct mem absent refused (same.trans h)
  exact ⟨before, arg, after, e, rfl, passed, refused, present⟩

/-- Only an empty condition on groups could be left out of arguments that are accepted, and options
that have none would show it. -/
theorem not_misread_of_ok {arg : String × Json} (distinct : args.keys.Nodup) (mem : arg ∈ args)
    (same : withArguments {} known (given args) = withArguments {} known args)
    (h : withArguments {} known args = .ok o) : ¬ Setting.Misread known arg := by
  intro misread
  rcases Setting.read_misread misread with ⟨e, refused⟩ | empty
  · obtain ⟨settings, reads, -⟩ := withArguments_eq_ok h
    obtain ⟨s, -, accepted⟩ := exists_of_mem_left reads mem
    cases refused.symm.trans accepted
  · have conditions := (having_isSome_iff h).2 ⟨arg, mem, [], empty⟩
    obtain ⟨other, hother, p, own⟩ := (having_isSome_iff (same.trans h)).1 conditions
    have named := (Setting.key_of_having own).trans (Setting.key_of_having empty).symm
    exact name_ne_of_given distinct mem misread.1 hother named

/-- Nulls for options change nothing exactly if none of them is misread, or another argument is
refused before any of them is. -/
theorem withArguments_given_iff (distinct : args.keys.Nodup) :
    (∀ base, withArguments base known (given args) = withArguments base known args) ↔
      RefusesGiven known args ∨ ∀ arg ∈ args, ¬ Setting.Misread known arg := by
  constructor
  · intro same
    cases h : withArguments {} known args with
    | error e => exact .inl (.of_error distinct (same {}) h)
    | ok o =>
      right
      intro arg mem
      exact not_misread_of_ok distinct mem (same {}) h
  · intro h base
    rcases h with h | h
    · exact h.withArguments_given base
    · exact withArguments_congr (mapM_given h) base

end Options

namespace Sample

/-- Nulls for options, one of which is also the name of a field, and one for another field. -/
def nulls : Object := [("limit", .null), ("attributes", .null), ("where", .null), ("name", .null)]

theorem nulls_skipped :
    nulls.keys.Nodup ∧ ∀ base : Options, base.withArguments ["attributes", "name"]
      (Options.given nulls) = base.withArguments ["attributes", "name"] nulls := by
  have distinct : nulls.keys.Nodup := by decide
  have skipped : ∀ arg ∈ nulls, ¬ Setting.Misread ["attributes", "name"] arg := by decide
  exact ⟨distinct, (Options.withArguments_given_iff distinct).2 (.inr skipped)⟩

/-- With a field that is named `order`, a null for the order is refused. -/
theorem nullOrder_refused :
    Options.withArguments {} ["order"] [("order", .null)] =
        .error (.malformedArgument "order" "unsupported order entry null") ∧
      Options.withArguments {} ["order"] (Options.given [("order", .null)]) = .ok {} := by
  constructor
  · with_unfolding_all rfl
  · rfl

end Sample

end QueryPlan
