import QueryPlan.Proofs.Selection.Walk

namespace QueryPlan.GraphQL

/-- A written field that a walk turns into a field at its top: the scope in which its definition is
looked up, and the fragments that are being expanded around it, innermost first. -/
structure Place where
  occurrence : Occurrence
  scope : Option ObjectType
  path : List String

/-- The written fields that the walk over a selection set turns into fields at its top. -/
def places (schema : Schema) (bindings : Json.Object) (fragments : List Fragment)
    (path : List String) (scope : Option ObjectType) : List Selection → List Place
  | [] => []
  | .field head selections :: rest =>
    (if isSelected bindings head.directives then [⟨⟨head, selections⟩, scope, path⟩] else []) ++
      places schema bindings fragments path scope rest
  | .inline condition directives selections :: rest =>
    (if isSelected bindings directives then
      places schema bindings fragments path ((condition.bind schema.object?).or scope) selections
    else []) ++ places schema bindings fragments path scope rest
  | .spread name directives :: rest =>
    (if isSelected bindings directives then
      if _active : name ∈ path then []
      else match _defined : fragment? fragments name with
        | some f => places schema bindings fragments (name :: path)
            ((schema.object? f.condition).or scope) f.selections
        | none => []
    else []) ++ places schema bindings fragments path scope rest
termination_by selections => ((spreadable fragments path).length, sizeOf selections)
decreasing_by
  all_goals first
    | exact .left _ _ (spreadable_length_lt _active _defined)
    | apply Prod.Lex.right
      simp only [List.cons.sizeOf_spec, Selection.field.sizeOf_spec, Selection.inline.sizeOf_spec]
      omega

namespace Place

def responseKey (p : Place) : String := p.occurrence.head.responseKey

/-- The field that the written one is turned into. -/
def field (schema : Schema) (bindings : Json.Object) (fragments : List Fragment) (p : Place) :
    SelectedField :=
  let head := p.occurrence.head
  let returnType := head.returnType p.scope
  describe schema bindings head returnType (head.definition? p.scope)
    (if p.occurrence.selections.isEmpty then none
    else some (selectedFields schema bindings (spreadable fragments p.path)
      (scopeOfType schema returnType) p.occurrence.selections))

end Place

section

variable {schema : Schema} {bindings : Json.Object} {fragments : List Fragment}
  {path : List String} {key : String}

theorem places_spread (scope : Option ObjectType) (name : String) (directives : List Directive)
    (rest : List Selection) :
    places schema bindings fragments path scope (.spread name directives :: rest) =
      (if isSelected bindings directives then
        if name ∈ path then []
        else match fragment? fragments name with
          | some f => places schema bindings fragments (name :: path)
              ((schema.object? f.condition).or scope) f.selections
          | none => []
      else []) ++ places schema bindings fragments path scope rest := by
  rw [places]
  congr 2
  exact spread_inactive fun f => places schema bindings fragments (name :: path)
    ((schema.object? f.condition).or scope) f.selections

theorem occurrences_spread (name : String) (directives : List Directive)
    (rest : List Selection) :
    occurrences bindings key (spreadable fragments path) (.spread name directives :: rest) =
      (if isSelected bindings directives then
        if name ∈ path then []
        else match fragment? fragments name with
          | some f => occurrences bindings key (spreadable fragments (name :: path)) f.selections
          | none => []
      else []) ++ occurrences bindings key (spreadable fragments path) rest := by
  rw [occurrences]
  congr 2
  exact spread_spreadable fun available f => occurrences bindings key available f.selections

/-- Each field at the top of a walk is made from one written field. -/
theorem selectedFields_eq_map (scope : Option ObjectType) (selections : List Selection) :
    selectedFields schema bindings (spreadable fragments path) scope selections =
      (places schema bindings fragments path scope selections).map
        (·.field schema bindings fragments) := by
  induction path, scope, selections using places.induct schema fragments with
  | case1 path scope => rw [selectedFields, places, List.map_nil]
  | case2 path scope head selections rest ihrest =>
    rw [selectedFields, places, ihrest, List.map_append]
    congr 1
    split <;> rfl
  | case3 path scope condition directives selections rest ih ihrest =>
    rw [selectedFields, places, ih, ihrest, List.map_append]
    congr 1
    split <;> rfl
  | case4 path scope name directives rest ih ihrest =>
    rw [selectedFields_spread, places_spread, ihrest, List.map_append, spreadFields]
    congr 1
    by_cases active : name ∈ path
    · rw [if_pos active, if_pos active]
      split <;> rfl
    · rw [if_neg active, if_neg active]
      cases defined : fragment? fragments name with
      | none => split <;> rfl
      | some f =>
        simp only [ih active f defined]
        split <;> rfl

/-- The occurrences of a response key are the written fields of a walk that answer it. -/
theorem occurrences_eq_filter (scope : Option ObjectType) (selections : List Selection) :
    occurrences bindings key (spreadable fragments path) selections =
      ((places schema bindings fragments path scope selections).filter
        (·.responseKey = key)).map (·.occurrence) := by
  induction path, scope, selections using places.induct schema fragments with
  | case1 path scope => rw [occurrences, places, List.filter_nil, List.map_nil]
  | case2 path scope head selections rest ihrest =>
    rw [occurrences, places, ihrest, List.filter_append, List.map_append]
    congr 1
    by_cases answers : head.responseKey = key <;>
      cases isSelected bindings head.directives <;> simp [Place.responseKey, answers]
  | case3 path scope condition directives selections rest ih ihrest =>
    rw [occurrences, places, ih, ihrest, List.filter_append, List.map_append]
    congr 1
    split <;> rfl
  | case4 path scope name directives rest ih ihrest =>
    rw [occurrences_spread, places_spread, ihrest, List.filter_append, List.map_append]
    congr 1
    by_cases active : name ∈ path
    · rw [if_pos active, if_pos active]
      split <;> rfl
    · rw [if_neg active, if_neg active]
      cases defined : fragment? fragments name with
      | none => split <;> rfl
      | some f =>
        simp only [ih active f defined]
        split <;> rfl

end

/-- What answers a response key at the root of an operation are the fields of that key among those
that the walk over the selection set of the operation makes, in the order of the walk and as often
as they are made. -/
theorem Document.rootField_occurrences {d : Document} {operation : Option String} {o : Operation}
    (h : d.operation? operation = some o) (schema : Schema) (bindings : Json.Object)
    (key : String) (scope : Option ObjectType) :
    (d.rootField schema bindings operation key).occurrences =
        ((places schema bindings d.fragments [] scope o.selections).filter
          (·.responseKey = key)).map (·.occurrence) ∧
      selectedFields schema bindings d.fragments scope o.selections =
        (places schema bindings d.fragments [] scope o.selections).map
          (·.field schema bindings d.fragments) := by
  have collected : (d.rootField schema bindings operation key).occurrences =
      occurrences bindings key d.fragments o.selections := by
    rw [rootField, h]
    rfl
  rw [collected, ← occurrences_eq_filter, ← selectedFields_eq_map, spreadable_nil]
  exact ⟨rfl, rfl⟩

end QueryPlan.GraphQL

namespace QueryPlan.Sample

open GraphQL

def people (directives : List Directive) : FieldHead := ⟨some "people", "users", [], directives⟩

/-- Two fields of one response key, one of them in a fragment that spreads itself and that is spread
twice, and two fields that are left out. -/
def crowd : Operation where
  kind := .query
  name := none
  selections := [.spread "Roots" [], .field (people [⟨"skip", [("if", .bool true)]⟩]) [],
    .inline none [⟨"include", [("if", .var "deep")]⟩] [.field (people []) []],
    .field ⟨none, "user", [], []⟩ [], .spread "Roots" []]

def crowdRoots : Fragment where
  name := "Roots"
  condition := "Query"
  selections := [.spread "Roots" [], .field (people []) [.field ⟨none, "name", [], []⟩ []]]

def crowdDocument : Document := ⟨[crowd], [crowdRoots]⟩

def crowdPlace : Place where
  occurrence := ⟨people [], [.field ⟨none, "name", [], []⟩ []]⟩
  scope := none
  path := ["Roots"]

theorem crowd_occurrences :
    crowdDocument.operation? none = some crowd ∧
      places ⟨[], []⟩ [("deep", .bool false)] crowdDocument.fragments [] none crowd.selections =
        [crowdPlace, ⟨⟨⟨none, "user", [], []⟩, []⟩, none, []⟩, crowdPlace] ∧
      (crowdDocument.rootField ⟨[], []⟩ [("deep", .bool false)] none "people").occurrences =
        [crowdPlace.occurrence, crowdPlace.occurrence] := by
  have made : places ⟨[], []⟩ [("deep", .bool false)] crowdDocument.fragments [] none
      crowd.selections =
        [crowdPlace, ⟨⟨⟨none, "user", [], []⟩, []⟩, none, []⟩, crowdPlace] := by
    have roots : fragment? crowdDocument.fragments "Roots" = some crowdRoots := rfl
    simp [places, places_spread, crowd, roots, crowdRoots, crowdPlace, people, isSelected,
      Directive.excludes, Value.decode, Json.Object.get?, Schema.object?]
  have found : crowdDocument.operation? none = some crowd := rfl
  obtain ⟨occurrences, -⟩ := Document.rootField_occurrences found ⟨[], []⟩
    [("deep", .bool false)] "people" none
  refine ⟨found, made, ?_⟩
  rw [occurrences, made]
  rfl

end QueryPlan.Sample
