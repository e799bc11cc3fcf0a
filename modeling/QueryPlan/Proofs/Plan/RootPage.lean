import QueryPlan.Proofs.Plan.Stage
import QueryPlan.Proofs.Selection.Annotation

namespace QueryPlan

namespace GraphQL

/-- The schema declares the field, and of a list type. -/
def RootField.declaresList (r : RootField) : Bool := r.definition?.any (·.type.isList)

/-- A field answers with a list if its declared type is one. -/
theorem RootField.isListText_eq {r : RootField} (unmarked : r.schema.Unmarked)
    (typed : r.returnType = (r.definition?.map (·.type.text)).getD "") :
    isListText r.returnType = r.declaresList := by
  rw [typed, declaresList]
  cases declared : r.definition? with
  | none => rfl
  | some f => exact (unmarked.field? declared).isListText_eq

end GraphQL

/-- The limit that arguments set, if they set one. -/
def Model.askedLimit (m : Model) (args : Json.Object) : Option UInt64 :=
  (Options.ofArguments m.fieldNames args).toOption.bind (·.limit)

def CompiledQuery.withLimit (q : CompiledQuery) (limit : Option UInt64) : CompiledQuery :=
  { q with descriptor := { q.descriptor with options := { q.descriptor.options with limit } } }

namespace Planner

variable {p : Planner} {m : Model} {args : Json.Object}

theorem level_limit {n : Nat} {fields : List SelectedField} {l : Level}
    (h : p.level n m args fields = .ok l) : l.descriptor.options.limit = m.askedLimit args := by
  obtain ⟨n, rfl, ⟨parts⟩⟩ := level_parts h
  rw [parts.descriptor_options, Model.askedLimit, parts.options_eq]
  rfl

/-- The source of the selected fields matters only for the default limit. -/
theorem compile_source (p : Planner) (m : Model) (args : Json.Object) (source : FieldSource) :
    p.compile m args source =
      (p.compile m args (.fields source.selected)).map fun q =>
        if source.isList ∧ m.askedLimit args = none then q.withLimit p.settings.defaultLimit
        else q := by
  rw [compile, compile_fields]
  cases hl : p.level p.settings.maxDepth.toNat m args source.selected with
  | error e => rfl
  | ok l =>
    rw [← level_limit hl]
    change Except.ok (l.query.withLimit (if source.isList then
      l.descriptor.options.limit.or p.settings.defaultLimit else l.descriptor.options.limit)) = _
    rw [Except.map, Except.map]
    congr 1
    by_cases paged : source.isList ∧ l.descriptor.options.limit = none
    · rw [if_pos paged, if_pos paged.1, paged.2, Option.none_or]
    · have kept : (if source.isList then l.descriptor.options.limit.or p.settings.defaultLimit
          else l.descriptor.options.limit) = l.descriptor.options.limit := by
        split
        · rename_i list
          obtain ⟨n, hn⟩ := Option.ne_none_iff_exists'.1 fun none => paged ⟨list, none⟩
          rw [hn, Option.some_or]
        · rfl
      rw [if_neg paged, kept]
      rfl

/-- A field of a request is planned as the fields that are selected below it, with the default limit
if it is declared to be a list and its arguments set none. -/
theorem compile_rootField {schema : GraphQL.Schema} (unmarked : schema.Unmarked)
    {d : GraphQL.Document} {bindings : Json.Object} {operation : Option String} {key : String}
    {r : GraphQL.RootField} (resolved : r = d.rootField schema bindings operation key)
    (p : Planner) (m : Model) (args : Json.Object) :
    p.compile m args (.root r) =
      (p.compile m args (.fields ((r.tree?.map (·.children)).getD []))).map fun q =>
        if r.declaresList ∧ m.askedLimit args = none then q.withLimit p.settings.defaultLimit
        else q := by
  subst resolved
  have list := (d.rootField schema bindings operation key).isListText_eq unmarked
    (d.rootField_returnType schema bindings operation key)
  rw [compile_source, FieldSource.isList, list]
  rfl

end Planner

namespace Sample

open GraphQL

def projectsSchema : Schema where
  roots := []
  objects := [⟨"Query", [], [⟨"projects", [], .nonNull (.list (.named "Project")), []⟩]⟩]

def projectsDocument : Document where
  operations := [⟨.query, none, [.field ⟨none, "projects", [], []⟩
    [.field ⟨none, "title", [], []⟩ []]]⟩]
  fragments := []

def projectsText : String := "type Query \x7b projects: [Project]! \x7d"

theorem projectsText_parsed : Schema.parse? projectsText = some projectsSchema := by
  have lexed : Token.ofText? projectsText = some [.name "type", .name "Query", .punctuator '\x7b',
      .name "projects", .punctuator ':', .punctuator '[', .name "Project", .punctuator ']',
      .punctuator '!', .punctuator '\x7d'] := by
    decide +kernel
  rw [Schema.parse?, lexed]
  with_unfolding_all rfl

def projectsField : RootField := projectsDocument.rootField projectsSchema [] none "projects"

theorem projects_paged :
    Schema.parse? projectsText = some projectsSchema ∧ projectsSchema.Unmarked ∧
      projectsField.declaresList ∧
      (planner.compile project [] (.root projectsField)).map (·.descriptor.options.limit) =
        .ok (some 20) := by
  have unmarked : projectsSchema.Unmarked := (Schema.parse?_named projectsText_parsed).unmarked
  have list : projectsField.declaresList := by cbv
  have children : (projectsField.tree?.map (·.children)).getD [] =
      [{ name := "title", typeName := "", isList := false }] := by
    cbv
  refine ⟨projectsText_parsed, unmarked, list, ?_⟩
  rw [Planner.compile_rootField unmarked (r := projectsField) rfl, children]
  simp only [list]
  with_unfolding_all rfl

end Sample

end QueryPlan
