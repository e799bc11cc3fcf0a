import QueryPlan.Selection.Tree

namespace QueryPlan.GraphQL

/-- The fragments that are not being expanded on a path. -/
def spreadable (fragments : List Fragment) (path : List String) : List Fragment :=
  fragments.filter (·.name ∉ path)

section

variable {fragments : List Fragment} {path : List String} {name : String} {f : Fragment}

theorem spreadable_nil : spreadable fragments [] = fragments := by
  rw [spreadable, List.filter_eq_self]
  simp

theorem withoutFragment_spreadable :
    withoutFragment (spreadable fragments path) name = spreadable fragments (name :: path) := by
  rw [withoutFragment, spreadable, spreadable, List.filter_filter]
  apply List.filter_congr
  intro f _
  simp [not_or]

theorem fragment?_spreadable :
    fragment? (spreadable fragments path) name =
      if name ∈ path then none else fragment? fragments name := by
  rw [fragment?, spreadable, ← List.filter_reverse, List.find?_filter]
  by_cases active : name ∈ path
  · rw [if_pos active, List.find?_eq_none]
    intro f _
    simp only [decide_eq_true_eq, not_and]
    rintro inactive rfl
    exact inactive active
  · rw [if_neg active, fragment?]
    congr 1
    funext f
    by_cases hname : f.name = name
    · simp [hname, active]
    · simp [hname]

/-- The fragments that are left to a spread are those that are off the path by then. -/
theorem spread_spreadable {α : Type} (enter : List Fragment → Fragment → List α) :
    (match _h : fragment? (spreadable fragments path) name with
      | some f => enter (withoutFragment (spreadable fragments path) name) f
      | none => []) =
      if name ∈ path then []
      else match fragment? fragments name with
        | some f => enter (spreadable fragments (name :: path)) f
        | none => [] := by
  have found : fragment? (spreadable fragments path) name = _ := fragment?_spreadable
  rw [withoutFragment_spreadable]
  by_cases active : name ∈ path
  · rw [if_pos active] at found ⊢
    split
    · simp_all
    · rfl
  · rw [if_neg active] at found ⊢
    rw [← found]
    cases fragment? (spreadable fragments path) name <;> rfl

/-- What keeps the walk into fragments finite does not matter to what it meets there. -/
theorem spread_inactive {α : Type} (enter : Fragment → List α) :
    (if _active : name ∈ path then []
      else match _defined : fragment? fragments name with
        | some f => enter f
        | none => []) =
      if name ∈ path then []
      else match fragment? fragments name with
        | some f => enter f
        | none => [] := by
  by_cases active : name ∈ path
  · rw [dif_pos active, if_pos active]
  · rw [dif_neg active, if_neg active]
    cases fragment? fragments name <;> rfl

theorem spreadable_length_lt (inactive : name ∉ path) (h : fragment? fragments name = some f) :
    (spreadable fragments (name :: path)).length < (spreadable fragments path).length := by
  rw [← withoutFragment_spreadable]
  apply withoutFragment_length_lt (f := f)
  rw [fragment?_spreadable, if_neg inactive, h]

end

/-- Every spread is replaced by an inline fragment that has its directives, and the condition and
the replaced body of its fragment. In place of a fragment that is not defined, or that is being
expanded on the path, there is one without selections. -/
def inlineSpreads (fragments : List Fragment) (path : List String) :
    List Selection → List Selection
  | [] => []
  | .field head selections :: rest =>
    .field head (inlineSpreads fragments path selections) :: inlineSpreads fragments path rest
  | .inline condition directives selections :: rest =>
    .inline condition directives (inlineSpreads fragments path selections) ::
      inlineSpreads fragments path rest
  | .spread name directives :: rest =>
    (if _active : name ∈ path then .inline none directives []
    else match _defined : fragment? fragments name with
      | some f =>
        .inline (some f.condition) directives
          (inlineSpreads fragments (name :: path) f.selections)
      | none => .inline none directives []) :: inlineSpreads fragments path rest
termination_by selections => ((spreadable fragments path).length, sizeOf selections)
decreasing_by
  all_goals first
    | exact .left _ _ (spreadable_length_lt _active _defined)
    | apply Prod.Lex.right
      simp only [List.cons.sizeOf_spec, Selection.field.sizeOf_spec, Selection.inline.sizeOf_spec]
      omega

section

variable {schema : Schema} {bindings : Json.Object} {fragments : List Fragment}
  {path : List String} {scope : Option ObjectType}

theorem isEmpty_inlineSpreads (selections : List Selection) :
    (inlineSpreads fragments path selections).isEmpty = selections.isEmpty := by
  cases selections with
  | nil => rw [inlineSpreads]
  | cons s rest => cases s <;> rw [inlineSpreads] <;> rfl

/-- The fields that the spread of a fragment stands for. -/
def spreadFields (schema : Schema) (bindings : Json.Object) (fragments : List Fragment)
    (path : List String) (scope : Option ObjectType) (name : String) : List SelectedField :=
  if name ∈ path then []
  else match fragment? fragments name with
    | some f => selectedFields schema bindings (spreadable fragments (name :: path))
        ((schema.object? f.condition).or scope) f.selections
    | none => []

theorem selectedFields_spread (name : String) (directives : List Directive)
    (rest : List Selection) :
    selectedFields schema bindings (spreadable fragments path) scope
        (.spread name directives :: rest) =
      (if isSelected bindings directives then
        spreadFields schema bindings fragments path scope name else []) ++
        selectedFields schema bindings (spreadable fragments path) scope rest := by
  rw [selectedFields, spreadFields]
  congr 2
  exact spread_spreadable fun available f =>
    selectedFields schema bindings available ((schema.object? f.condition).or scope) f.selections

/-- Spreads may be replaced by inline fragments, after which no fragment has to be defined. -/
theorem selectedFields_inlineSpreads (others : List Fragment) (selections : List Selection) :
    selectedFields schema bindings others scope (inlineSpreads fragments path selections) =
      selectedFields schema bindings (spreadable fragments path) scope selections := by
  induction path, selections using inlineSpreads.induct fragments generalizing scope with
  | case1 path => rw [inlineSpreads, selectedFields, selectedFields]
  | case2 path head selections rest ih ihrest =>
    rw [inlineSpreads, selectedFields, selectedFields, isEmpty_inlineSpreads, ihrest]
    simp only [ih]
  | case3 path condition directives selections rest ih ihrest =>
    rw [inlineSpreads, selectedFields, selectedFields, ih, ihrest]
  | case4 path name directives rest ih ihrest =>
    rw [inlineSpreads, selectedFields_spread, spreadFields]
    by_cases active : name ∈ path
    · rw [dif_pos active, if_pos active, selectedFields, selectedFields, ihrest]
    · rw [dif_neg active, if_neg active]
      split
      · rename_i f defined
        rw [selectedFields, ihrest, ih active f defined, Option.bind_some]
        split <;> simp_all
      · rename_i undefined
        rw [selectedFields, selectedFields, ihrest, undefined]

end

end QueryPlan.GraphQL
