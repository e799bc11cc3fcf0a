import QueryPlan.Proofs.Filter.Independence

namespace QueryPlan

open Json

namespace Setting

theorem not_absent {v : Json} (given : v ≠ .null) {known : List String} {key : String} :
    ¬ (v.isNull ∧ key ∉ known) := by
  cases v with
  | null => exact absurd rfl given
  | _ => exact fun absent => Bool.false_ne_true absent.1

/-- What sets an option makes no condition on a field and is no filter. -/
theorem bare_of_option {s : Setting} {name : String} (sets : s.option? = some name) :
    s.condition? = none ∧ s.filter? = none := by
  cases s with
  | filter => cases sets
  | equals => cases sets
  | _ => exact ⟨rfl, rfl⟩

end Setting

namespace Options

variable {base : Options} {known : List String} {before after : Object} {arg : String × Json}
  {s : Setting} {settings settings' : List Setting} {name : String} {e : CompileError}

theorem foldl_apply_comm (o : Options) (sets : s.option? = some name)
    (others : ∀ t ∈ settings, t.option? ≠ some name) :
    settings.foldl apply (o.apply s) = (settings.foldl apply o).apply s := by
  induction settings generalizing o with
  | nil => rfl
  | cons t settings ih =>
    obtain ⟨other, others⟩ := List.forall_mem_cons.1 others
    have swapped : (o.apply s).apply t = (o.apply t).apply s := by
      apply apply_comm
      intro name' sets'
      cases sets.symm.trans sets'
      exact other
    rw [List.foldl_cons, List.foldl_cons, swapped, ih (o.apply t) others]

theorem conditions_insert (sets : s.option? = some name) :
    conditions (settings ++ s :: settings') = conditions (settings ++ settings') := by
  obtain ⟨condition, filter⟩ := Setting.bare_of_option sets
  simp only [conditions, List.filterMap_append, List.filterMap_cons, condition,
    List.findSome?_append, List.findSome?_cons, filter]

theorem withSettings_insert (base : Options) (sets : s.option? = some name)
    (others : ∀ t ∈ settings', t.option? ≠ some name) :
    base.withSettings (settings ++ s :: settings') =
      (base.withSettings (settings ++ settings')).apply s := by
  rw [withSettings, withSettings, conditions_insert sets, List.foldl_append, List.foldl_append,
    List.foldl_cons, foldl_apply_comm _ sets others]
  split
  · rfl
  · cases s <;> rfl

/-- Wherever an argument stands among others, none of which after it is for the same option, it
makes this change to the options that the others ask for. -/
def AsksFor (arg : String × Json) (change : Options → Options) : Prop :=
  ∀ (base : Options) (known : List String) (before after : Object),
    (∀ other ∈ after, Setting.optionOf other.1 ≠ Setting.optionOf arg.1) →
      withArguments base known (before ++ arg :: after) =
        (withArguments base known (before ++ after)).map change

/-- Wherever an argument stands among others, it is refused with an error, unless one before it is
refused. -/
def RefusedWith (arg : String × Json) (e : CompileError) : Prop :=
  ∀ (base : Options) (known : List String) (before after : Object),
    withArguments base known (before ++ arg :: after) =
      withArguments base known before >>= fun _ => .error e

theorem asksFor_of_read (read : ∀ known, Setting.read known arg = .ok s)
    (sets : s.option? = some name) : AsksFor arg (·.apply s) := by
  intro base known before after others
  rw [withArguments_eq_map, withArguments_eq_map, List.mapM_append, List.mapM_append,
    List.mapM_cons, read]
  cases before.mapM (Setting.read known) with
  | error e => rfl
  | ok settings =>
    cases reads : after.mapM (Setting.read known) with
    | error e => rfl
    | ok settings' =>
      apply congrArg Except.ok
      apply withSettings_insert base sets
      intro t mem sets'
      obtain ⟨other, listed, read'⟩ := exists_of_mem_right (mapM_eq_ok.1 reads) mem
      apply others other listed
      rw [← Setting.option_of_accepted (Setting.ofArgument_accepted read') sets',
        ← Setting.option_of_accepted (Setting.ofArgument_accepted (read known)) sets]

theorem refusedWith_of_read (read : ∀ known, Setting.read known arg = .error e) :
    RefusedWith arg e := by
  intro base known before after
  rw [withArguments_eq_map, withArguments_eq_map, List.mapM_append, List.mapM_cons, read]
  cases before.mapM (Setting.read known) with
  | error e' => rfl
  | ok settings => rfl

theorem ofArguments_of_asksFor {change : Options → Options} (asks : AsksFor arg change)
    (known : List String) : ofArguments known [arg] = .ok (change {}) :=
  asks {} known [] [] (List.forall_mem_nil _)

theorem ofArguments_of_refusedWith (refused : RefusedWith arg e) (known : List String) :
    ofArguments known [arg] = .error e :=
  refused {} known [] []

/-- An argument sets an option to what it means, and one that means nothing is refused. -/
structure Understood {α : Type} (arg : String × Json) (sets : α → Options → Options)
    (means : α → Prop) (refusal : CompileError → Prop) : Prop where
  asks : ∀ a, AsksFor arg (sets a) ↔ means a
  refused : (∀ a, ¬ means a) → ∃ e, refusal e ∧ RefusedWith arg e

/-- An argument is understood as what its value is read as, if it says what the option is
afterwards. -/
theorem understood_of_read {α : Type} {setting : α → Setting} {sets : α → Options → Options}
    {means : α → Prop} {refusal : CompileError → Prop} (value : Except CompileError α)
    (read : ∀ known, Setting.read known arg = value.map setting)
    (option : ∀ a, (setting a).option? = some name)
    (applies : ∀ a o, o.apply (setting a) = sets a o)
    (shows : ∀ a b, sets a {} = sets b {} → a = b)
    (meaning : ∀ a, value = .ok a ↔ means a) (refuses : ∀ e, value = .error e → refusal e) :
    Understood arg sets means refusal := by
  cases value with
  | ok a =>
    have asks : AsksFor arg (sets a) := by
      rw [← funext (applies a)]
      exact asksFor_of_read read (option a)
    constructor
    · intro b
      rw [← meaning]
      constructor
      · intro asks'
        have same := (ofArguments_of_asksFor asks []).symm.trans (ofArguments_of_asksFor asks' [])
        rw [shows a b (Except.ok.inj same)]
      · rintro ⟨⟩
        exact asks
    · intro meaningless
      exact absurd ((meaning a).1 rfl) (meaningless a)
  | error e =>
    have refused : RefusedWith arg e := refusedWith_of_read read
    constructor
    · intro a
      rw [← meaning]
      constructor
      · intro asks
        have both := (ofArguments_of_asksFor asks []).symm.trans
          (ofArguments_of_refusedWith refused [])
        cases both
      · nofun
    · intro _
      exact ⟨e, refuses e rfl, refused⟩

end Options

end QueryPlan
