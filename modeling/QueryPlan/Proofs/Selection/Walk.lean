import QueryPlan.Proofs.Selection.Inlining

namespace QueryPlan.GraphQL

def Selection.directives : Selection → List Directive
  | .field head _ => head.directives
  | .spread _ directives => directives
  | .inline _ directives _ => directives

def FieldHead.definition? (head : FieldHead) (scope : Option ObjectType) :
    Option FieldDefinition :=
  scope.bind (·.field? head.name)

def FieldHead.returnType (head : FieldHead) (scope : Option ObjectType) : String :=
  returnTypeOf head.name (head.definition? scope)

/-- What a walk over a selection set gives: its fields, the fragments that were being expanded
each time it entered one, innermost first, and those that it leaves on the path. -/
structure Walk where
  fields : List SelectedField
  entered : List (List String)
  path : List String

/-- A walk that enters the fragments it meets, puts their names on the path, and takes them off
when it leaves. Only a name that is on the path already keeps it from entering a fragment. -/
inductive Walks (schema : Schema) (bindings : Json.Object) (fragments : List Fragment) :
    List String → Option ObjectType → List Selection → Walk → Prop
  | done {path : List String} {scope : Option ObjectType} :
      Walks schema bindings fragments path scope [] ⟨[], [], path⟩
  | excluded {path : List String} {scope : Option ObjectType} {s : Selection}
      {rest : List Selection} {after : Walk} :
      isSelected bindings s.directives = false →
      Walks schema bindings fragments path scope rest after →
      Walks schema bindings fragments path scope (s :: rest) after
  | field {path : List String} {scope : Option ObjectType} {head : FieldHead}
      {selections rest : List Selection} {below after : Walk} :
      isSelected bindings head.directives = true →
      Walks schema bindings fragments path (scopeOfType schema (head.returnType scope)) selections
        below →
      Walks schema bindings fragments below.path scope rest after →
      Walks schema bindings fragments path scope (.field head selections :: rest)
        ⟨describe schema bindings head (head.returnType scope) (head.definition? scope)
            (if selections.isEmpty then none else some below.fields) :: after.fields,
          below.entered ++ after.entered, after.path⟩
  | cycle {path : List String} {scope : Option ObjectType} {name : String}
      {directives : List Directive} {rest : List Selection} {after : Walk} :
      isSelected bindings directives = true →
      name ∈ path →
      Walks schema bindings fragments path scope rest after →
      Walks schema bindings fragments path scope (.spread name directives :: rest) after
  | undefined {path : List String} {scope : Option ObjectType} {name : String}
      {directives : List Directive} {rest : List Selection} {after : Walk} :
      isSelected bindings directives = true →
      name ∉ path →
      fragment? fragments name = none →
      Walks schema bindings fragments path scope rest after →
      Walks schema bindings fragments path scope (.spread name directives :: rest) after
  | spread {path : List String} {scope : Option ObjectType} {name : String}
      {directives : List Directive} {rest : List Selection} {f : Fragment} {below after : Walk} :
      isSelected bindings directives = true →
      name ∉ path →
      fragment? fragments name = some f →
      Walks schema bindings fragments (name :: path) ((schema.object? f.condition).or scope)
        f.selections below →
      Walks schema bindings fragments below.path.tail scope rest after →
      Walks schema bindings fragments path scope (.spread name directives :: rest)
        ⟨below.fields ++ after.fields, (name :: path) :: below.entered ++ after.entered,
          after.path⟩
  | inline {path : List String} {scope : Option ObjectType} {condition : Option String}
      {directives : List Directive} {selections rest : List Selection} {below after : Walk} :
      isSelected bindings directives = true →
      Walks schema bindings fragments path ((condition.bind schema.object?).or scope)
        selections below →
      Walks schema bindings fragments below.path scope rest after →
      Walks schema bindings fragments path scope (.inline condition directives selections :: rest)
        ⟨below.fields ++ after.fields, below.entered ++ after.entered, after.path⟩

section

variable {schema : Schema} {bindings : Json.Object} {fragments : List Fragment}
  {path : List String} {scope : Option ObjectType} {selections : List Selection} {w w' : Walk}

/-- A walk leaves the path as it found it. -/
theorem Walks.path_eq (h : Walks schema bindings fragments path scope selections w) :
    w.path = path := by
  induction h with
  | done => rfl
  | excluded _ _ ih => exact ih
  | field _ _ _ ihbelow ihafter => exact ihafter.trans ihbelow
  | cycle _ _ _ ih => exact ih
  | undefined _ _ _ _ ih => exact ih
  | spread _ _ _ _ _ ihbelow ihafter =>
    rw [ihbelow] at ihafter
    exact ihafter
  | inline _ _ _ ihbelow ihafter => exact ihafter.trans ihbelow

/-- No fragment is entered while it is being expanded. -/
theorem Walks.entered_nodup (h : Walks schema bindings fragments path scope selections w)
    (distinct : path.Nodup) : ∀ p ∈ w.entered, p.Nodup := by
  induction h with
  | done => simp
  | excluded _ _ ih => exact ih distinct
  | field _ below _ ihbelow ihafter =>
    rw [List.forall_mem_append]
    rw [below.path_eq] at ihafter
    exact ⟨ihbelow distinct, ihafter distinct⟩
  | cycle _ _ _ ih => exact ih distinct
  | undefined _ _ _ _ ih => exact ih distinct
  | spread _ inactive _ below _ ihbelow ihafter =>
    have longer := List.nodup_cons.2 ⟨inactive, distinct⟩
    rw [List.cons_append, List.forall_mem_cons, List.forall_mem_append]
    rw [below.path_eq] at ihafter
    exact ⟨longer, ihbelow longer, ihafter distinct⟩
  | inline _ below _ ihbelow ihafter =>
    rw [List.forall_mem_append]
    rw [below.path_eq] at ihafter
    exact ⟨ihbelow distinct, ihafter distinct⟩

theorem Walks.of_excluded {s : Selection}
    (h : Walks schema bindings fragments path scope (s :: selections) w)
    (unselected : isSelected bindings s.directives = false) :
    Walks schema bindings fragments path scope selections w := by
  cases h with
  | excluded _ after => exact after
  | field selected | cycle selected | undefined selected | spread selected | inline selected =>
    cases unselected.symm.trans selected

theorem Walks.unique (h : Walks schema bindings fragments path scope selections w)
    (h' : Walks schema bindings fragments path scope selections w') : w = w' := by
  induction h generalizing w' with
  | done => cases h'; rfl
  | excluded unselected _ ih => exact ih (h'.of_excluded unselected)
  | field selected _ _ ihbelow ihafter =>
    cases h' with
    | excluded unselected => cases unselected.symm.trans selected
    | field _ below after =>
      cases ihbelow below
      cases ihafter after
      rfl
  | cycle selected active _ ih =>
    cases h' with
    | excluded unselected => cases unselected.symm.trans selected
    | cycle _ _ after => exact ih after
    | undefined _ inactive | spread _ inactive => contradiction
  | undefined selected inactive undefined _ ih =>
    cases h' with
    | excluded unselected => cases unselected.symm.trans selected
    | cycle => contradiction
    | undefined _ _ _ after => exact ih after
    | spread _ _ defined => cases undefined.symm.trans defined
  | spread selected inactive defined _ _ ihbelow ihafter =>
    cases h' with
    | excluded unselected => cases unselected.symm.trans selected
    | cycle => contradiction
    | undefined _ _ undefined => cases defined.symm.trans undefined
    | spread _ _ defined' below after =>
      cases defined.symm.trans defined'
      cases ihbelow below
      cases ihafter after
      rfl
  | inline selected _ _ ihbelow ihafter =>
    cases h' with
    | excluded unselected => cases unselected.symm.trans selected
    | inline _ below after =>
      cases ihbelow below
      cases ihafter after
      rfl

theorem selectedFields_excluded {available : List Fragment} (s : Selection)
    (unselected : isSelected bindings s.directives = false) :
    selectedFields schema bindings available scope (s :: selections) =
      selectedFields schema bindings available scope selections := by
  cases s <;> rw [Selection.directives] at unselected <;> rw [selectedFields, unselected] <;> rfl

/-- Every walk ends: the fragments that are off the path become fewer with each one entered. -/
theorem exists_walks (scope : Option ObjectType) (selections : List Selection) :
    ∃ w, Walks schema bindings fragments path scope selections w ∧
      w.fields = selectedFields schema bindings (spreadable fragments path) scope selections := by
  induction path, selections using inlineSpreads.induct fragments generalizing scope with
  | case1 path => exact ⟨_, .done, by rw [selectedFields]⟩
  | case2 path head selections rest ih ihrest =>
    obtain ⟨after, hafter, fields⟩ := ihrest scope
    cases selected : isSelected bindings head.directives with
    | false =>
      rw [← selectedFields_excluded (.field head selections) selected] at fields
      exact ⟨after, .excluded selected hafter, fields⟩
    | true =>
      obtain ⟨below, hbelow, belowFields⟩ :=
        ih (scopeOfType schema (head.returnType scope))
      rw [← hbelow.path_eq] at hafter
      refine ⟨_, .field selected hbelow hafter, ?_⟩
      rw [selectedFields, if_pos selected, belowFields, fields]
      rfl
  | case3 path condition directives selections rest ih ihrest =>
    obtain ⟨after, hafter, fields⟩ := ihrest scope
    cases selected : isSelected bindings directives with
    | false =>
      rw [← selectedFields_excluded (.inline condition directives selections) selected] at fields
      exact ⟨after, .excluded selected hafter, fields⟩
    | true =>
      obtain ⟨below, hbelow, belowFields⟩ :=
        ih ((condition.bind schema.object?).or scope)
      rw [← hbelow.path_eq] at hafter
      refine ⟨_, .inline selected hbelow hafter, ?_⟩
      rw [selectedFields, if_pos selected, belowFields, fields]
  | case4 path name directives rest ih ihrest =>
    obtain ⟨after, hafter, fields⟩ := ihrest scope
    cases selected : isSelected bindings directives with
    | false =>
      rw [← selectedFields_excluded (.spread name directives) selected] at fields
      exact ⟨after, .excluded selected hafter, fields⟩
    | true =>
      rw [selectedFields_spread, if_pos selected, spreadFields]
      by_cases active : name ∈ path
      · rw [if_pos active]
        exact ⟨after, .cycle selected active hafter, fields⟩
      · cases defined : fragment? fragments name with
        | none =>
          rw [if_neg active]
          exact ⟨after, .undefined selected active defined hafter, fields⟩
        | some f =>
          obtain ⟨below, hbelow, belowFields⟩ :=
            ih active f defined ((schema.object? f.condition).or scope)
          have left : below.path.tail = path := by rw [hbelow.path_eq, List.tail_cons]
          rw [← left] at hafter
          refine ⟨_, .spread selected active defined hbelow hafter, ?_⟩
          rw [if_neg active, belowFields, fields]

end

/-- The selection set of the occurrence with its spreads replaced. -/
def Occurrence.inlined (fragments : List Fragment) (o : Occurrence) : Occurrence where
  head := o.head
  selections := inlineSpreads fragments [] o.selections

namespace RootField

/-- The walk over the selection set of an occurrence, which no fragment is being expanded around. -/
def Walks (r : RootField) (o : Occurrence) : Walk → Prop :=
  GraphQL.Walks r.schema r.bindings r.fragments [] (scopeOfType r.schema r.returnType)
    o.selections

/-- The root field with the spreads of each occurrence replaced, and other fragments defined. -/
def inlined (r : RootField) (others : List Fragment) : RootField :=
  { r with occurrences := r.occurrences.map (·.inlined r.fragments), fragments := others }

variable {r : RootField} {others : List Fragment} {o : Occurrence}

theorem fieldsOf_inlined :
    (r.inlined others).fieldsOf (o.inlined r.fragments) = r.fieldsOf o := by
  rw [fieldsOf, fieldsOf, Occurrence.inlined, isEmpty_inlineSpreads]
  rw [inlined, selectedFields_inlineSpreads, spreadable_nil]

theorem tree?_inlined : (r.inlined others).tree? = r.tree? := by
  have replaced : (r.inlined others).occurrences = r.occurrences.map (·.inlined r.fragments) := rfl
  rw [tree?, tree?, replaced]
  cases r.occurrences with
  | nil => rfl
  | cons first rest =>
    simp only [List.map_cons, List.foldl_map, fieldsOf_inlined]
    rfl

theorem exists_walk (r : RootField) (o : Occurrence) : ∃ w, r.Walks o w ∧
    r.fieldsOf o = if o.selections.isEmpty then none else some w.fields := by
  obtain ⟨w, h, fields⟩ := exists_walks (scopeOfType r.schema r.returnType) o.selections
  rw [spreadable_nil] at fields
  exact ⟨w, h, by rw [fieldsOf, fields]⟩

/-- The walk over an occurrence ends, has one outcome, gives the fields of the occurrence and never
enters a fragment inside of itself. The tree stays as it is where the spreads are replaced, whatever
fragments are defined then. -/
theorem fragments_transparent (r : RootField) :
    (∀ o, ∃ w, (∀ w', r.Walks o w' ↔ w' = w) ∧
      r.fieldsOf o = (if o.selections.isEmpty then none else some w.fields) ∧
      ∀ path ∈ w.entered, path.Nodup) ∧
    ∀ others, (r.inlined others).tree? = r.tree? := by
  constructor
  · intro o
    obtain ⟨w, h, fields⟩ := r.exists_walk o
    have only : ∀ w', r.Walks o w' ↔ w' = w := by
      intro w'
      constructor
      · intro h'
        exact h'.unique h
      · rintro rfl
        exact h
    exact ⟨w, only, fields, h.entered_nodup List.nodup_nil⟩
  · intro others
    exact tree?_inlined

end RootField

end QueryPlan.GraphQL

namespace QueryPlan.Sample

open GraphQL

def ringed : Occurrence := ⟨⟨none, "user", [], []⟩, [.spread "Ring" []]⟩

/-- A field with a fragment that spreads itself, and below a field as well. -/
def ring : RootField where
  name := "user"
  returnType := "User"
  parentType := "Query"
  occurrences := [ringed]
  fragments := [⟨"Ring", "User", [.field ⟨none, "friend", [], []⟩ [.spread "Ring" []],
    .spread "Ring" [], .field ⟨none, "id", [], []⟩ []]⟩]
  bindings := []
  schema := ⟨[], []⟩

theorem ring_entered_once :
    (∃ w, (∀ w', ring.Walks ringed w' ↔ w' = w) ∧ w.entered = [["Ring"]] ∧
      w.fields.map (·.name) = ["friend", "id"]) ∧
      (ring.inlined []).tree? = ring.tree? := by
  have body : Walks ring.schema ring.bindings ring.fragments ["Ring"] none
      [.field ⟨none, "friend", [], []⟩ [.spread "Ring" []], .spread "Ring" [],
        .field ⟨none, "id", [], []⟩ []] _ :=
    .field rfl (.cycle rfl (by decide) .done) (.cycle rfl (by decide) (.field rfl .done .done))
  have walk : ring.Walks ringed _ := .spread rfl (by decide) rfl body .done
  obtain ⟨walks, transparent⟩ := ring.fragments_transparent
  obtain ⟨w, only, -, -⟩ := walks ringed
  obtain rfl := (only _).1 walk
  exact ⟨⟨_, only, rfl, rfl⟩, transparent []⟩

end QueryPlan.Sample
