import QueryPlan.Proofs.Selection.Same
import QueryPlan.Selection.Tree

namespace QueryPlan

namespace SelectedField

variable {view : Json.Object → Json.Object}

mutual

/-- The field with its arguments, and those of all that is selected below it, seen through `view`. -/
def mapArgs (view : Json.Object → Json.Object) : SelectedField → SelectedField
  | ⟨name, aliasName, typeName, isList, args, directivesObject, directivesField, fields⟩ =>
    ⟨name, aliasName, typeName, isList, view args, directivesObject, directivesField,
      mapArgsBelow view fields⟩

def mapArgsBelow (view : Json.Object → Json.Object) :
    Option (List SelectedField) → Option (List SelectedField)
  | none => none
  | some fs => some (mapArgsList view fs)

def mapArgsList (view : Json.Object → Json.Object) : List SelectedField → List SelectedField
  | [] => []
  | f :: fs => mapArgs view f :: mapArgsList view fs

end

theorem mapArgsList_eq_map (fs : List SelectedField) :
    mapArgsList view fs = fs.map (mapArgs view) := by
  induction fs with
  | nil => rfl
  | cons f fs ih => rw [mapArgsList, List.map_cons, ih]

theorem mapArgs_eq (f : SelectedField) :
    f.mapArgs view =
      { f with args := view f.args, fields := f.fields.map (List.map (mapArgs view)) } := by
  obtain ⟨name, aliasName, typeName, isList, args, directivesObject, directivesField, fields⟩ := f
  cases fields with
  | none => rfl
  | some fs => rw [mapArgs, mapArgsBelow, mapArgsList_eq_map, Option.map_some]

theorem mapArgs_id (f : SelectedField) : f.mapArgs id = f := by
  induction f using SelectedField.induction with
  | field f ih =>
    have below : f.fields.map (List.map (mapArgs id)) = f.fields := by
      cases hf : f.fields with
      | none => rfl
      | some fs =>
        have mapped : fs.map (mapArgs id) = fs.map id := by
          apply List.map_congr_left
          intro child mem
          apply ih
          rw [children, hf]
          exact mem
        rw [Option.map_some, mapped, List.map_id]
    rw [mapArgs_eq, below]
    cases f
    rfl

end SelectedField

namespace GraphQL

/-- A change to all selections of a document: what is not kept, by its directives, is replaced by an
inline fragment without selections; directives and arguments of fields are replaced elsewhere. -/
structure Rewriting where
  keeps : List Directive → Bool
  directives : List Directive → List Directive
  arguments : List (String × Value) → List (String × Value)

namespace Rewriting

def head (r : Rewriting) (head : FieldHead) : FieldHead :=
  { head with args := r.arguments head.args, directives := r.directives head.directives }

mutual

def selection (r : Rewriting) : Selection → Selection
  | .field head below =>
    if r.keeps head.directives then .field (r.head head) (selections r below)
    else .inline none [] []
  | .spread name directives =>
    if r.keeps directives then .spread name (r.directives directives) else .inline none [] []
  | .inline condition directives below =>
    if r.keeps directives then .inline condition (r.directives directives) (selections r below)
    else .inline none [] []

def selections (r : Rewriting) : List Selection → List Selection
  | [] => []
  | s :: rest => selection r s :: selections r rest

end

def occurrence (r : Rewriting) (o : Occurrence) : Occurrence :=
  ⟨r.head o.head, r.selections o.selections⟩

def fragment (r : Rewriting) (f : Fragment) : Fragment :=
  { f with selections := r.selections f.selections }

def operation (r : Rewriting) (o : Operation) : Operation :=
  { o with selections := r.selections o.selections }

def document (r : Rewriting) (d : Document) : Document :=
  ⟨d.operations.map r.operation, d.fragments.map r.fragment⟩

/-- The change makes no difference where the variables are bound by `after` instead of `before`, as
long as arguments are only seen through `view`. -/
structure Neutral (r : Rewriting) (before after : Json.Object) (view : Json.Object → Json.Object) :
    Prop where
  kept : ∀ directives, r.keeps directives →
    isSelected after (r.directives directives) = isSelected before directives
  dropped : ∀ directives, r.keeps directives = false → isSelected before directives = false
  arguments : ∀ head definition, view (argumentsOf after (r.head head) definition) =
    view (argumentsOf before head definition)

section

variable {r : Rewriting} {fragments : List Fragment} {name : String}

theorem isEmpty_selections (selections : List Selection) :
    (r.selections selections).isEmpty = selections.isEmpty := by
  cases selections <;> rfl

theorem fragment?_map :
    fragment? (fragments.map r.fragment) name = (fragment? fragments name).map r.fragment := by
  rw [fragment?, fragment?, ← List.map_reverse, List.find?_map]
  rfl

theorem withoutFragment_map :
    withoutFragment (fragments.map r.fragment) name =
      (withoutFragment fragments name).map r.fragment := by
  rw [withoutFragment, withoutFragment, List.filter_map]
  rfl

/-- A spread leads to the changed fragment where it led to the fragment before. -/
theorem spread_map {α : Type} (enter : List Fragment → Fragment → List α) :
    (match _h : fragment? (fragments.map r.fragment) name with
      | some f => enter (withoutFragment (fragments.map r.fragment) name) f
      | none => []) =
      match fragment? fragments name with
      | some f => enter ((withoutFragment fragments name).map r.fragment) (r.fragment f)
      | none => [] := by
  have found : fragment? (fragments.map r.fragment) name = _ := fragment?_map
  rw [withoutFragment_map]
  cases defined : fragment? fragments name with
  | none =>
    rw [defined, Option.map_none] at found
    split <;> simp_all
  | some f =>
    rw [defined, Option.map_some] at found
    split <;> simp_all

theorem operation?_document (d : Document) (operation : Option String) :
    (r.document d).operation? operation = (d.operation? operation).map r.operation := by
  cases operation with
  | none => exact List.head?_map
  | some name => exact List.find?_map

end

section

variable {r : Rewriting} {before after : Json.Object} {view : Json.Object → Json.Object}
  {schema : Schema} {key : String}

theorem occurrences_blank (available : List Fragment) (rest : List Selection) :
    occurrences after key available (.inline none [] [] :: rest) =
      occurrences after key available rest := by
  rw [occurrences, occurrences, ite_self, List.nil_append]

theorem selectedFields_blank (available : List Fragment) (scope : Option ObjectType)
    (rest : List Selection) :
    selectedFields schema after available scope (.inline none [] [] :: rest) =
      selectedFields schema after available scope rest := by
  rw [selectedFields, selectedFields, ite_self, List.nil_append]

theorem occurrences_rewritten (h : r.Neutral before after view) (available : List Fragment)
    (selections : List Selection) :
    occurrences after key (available.map r.fragment) (r.selections selections) =
      (occurrences before key available selections).map r.occurrence := by
  induction available, selections using occurrences.induct with
  | case1 available => rw [Rewriting.selections, occurrences, occurrences, List.map_nil]
  | case2 available head selections rest ihrest =>
    rw [Rewriting.selections, selection]
    cases keeps : r.keeps head.directives with
    | false =>
      rw [if_neg (by simp), occurrences_blank, occurrences, h.dropped _ keeps, ihrest]
      simp
    | true =>
      have selected : isSelected after (r.head head).directives = _ := h.kept _ keeps
      have answers : (r.head head).responseKey = head.responseKey := rfl
      rw [if_pos rfl, occurrences, occurrences, selected, answers, ihrest, List.map_append]
      congr 1
      split <;> rfl
  | case3 available name directives rest ih ihrest =>
    rw [Rewriting.selections, selection]
    cases keeps : r.keeps directives with
    | false =>
      rw [if_neg (by simp), occurrences_blank, occurrences, h.dropped _ keeps, ihrest]
      simp
    | true =>
      rw [if_pos rfl, occurrences, occurrences, h.kept _ keeps, ihrest, List.map_append]
      congr 1
      split
      · refine (spread_map fun available f => occurrences after key available f.selections).trans ?_
        cases defined : fragment? available name with
        | none => rfl
        | some f => exact ih f defined
      · rfl
  | case4 available condition directives selections rest ih ihrest =>
    rw [Rewriting.selections, selection]
    cases keeps : r.keeps directives with
    | false =>
      rw [if_neg (by simp), occurrences_blank, occurrences, h.dropped _ keeps, ihrest]
      simp
    | true =>
      rw [if_pos rfl, occurrences, occurrences, h.kept _ keeps, ih, ihrest, List.map_append]
      congr 1
      split <;> rfl

open SelectedField in
theorem describe_rewritten (h : r.Neutral before after view) {head : FieldHead}
    {returnType : String} {definition : Option FieldDefinition}
    {fields fields' : Option (List SelectedField)}
    (below : fields'.map (List.map (mapArgs view)) = fields.map (List.map (mapArgs view))) :
    (describe schema after (r.head head) returnType definition fields').mapArgs view =
      (describe schema before head returnType definition fields).mapArgs view := by
  rw [mapArgs_eq, mapArgs_eq]
  simp only [describe, h.arguments, below]
  rfl

open SelectedField in
theorem selectedFields_rewritten (h : r.Neutral before after view) (available : List Fragment)
    (scope : Option ObjectType) (selections : List Selection) :
    (selectedFields schema after (available.map r.fragment) scope (r.selections selections)).map
        (mapArgs view) =
      (selectedFields schema before available scope selections).map (mapArgs view) := by
  induction available, scope, selections using selectedFields.induct schema with
  | case1 available scope => rw [Rewriting.selections, selectedFields, selectedFields]
  | case2 available scope head below rest ih ihrest =>
    rw [Rewriting.selections, selection]
    cases keeps : r.keeps head.directives with
    | false =>
      rw [if_neg (by simp), selectedFields_blank, selectedFields, h.dropped _ keeps, ihrest]
      simp
    | true =>
      have selected : isSelected after (r.head head).directives = _ := h.kept _ keeps
      have named : (r.head head).name = head.name := rfl
      rw [if_pos rfl, selectedFields, selectedFields, selected, named, List.map_append,
        List.map_append, ihrest, isEmpty_selections]
      congr 1
      split
      · refine congrArg (fun f => [f]) (describe_rewritten h ?_)
        split
        · rfl
        · exact congrArg some ih
      · rfl
  | case3 available scope name directives rest ih ihrest =>
    rw [Rewriting.selections, selection]
    cases keeps : r.keeps directives with
    | false =>
      rw [if_neg (by simp), selectedFields_blank, selectedFields, h.dropped _ keeps, ihrest]
      simp
    | true =>
      rw [if_pos rfl, selectedFields, selectedFields, h.kept _ keeps, List.map_append,
        List.map_append, ihrest]
      congr 1
      split
      · have entered := @spread_map r available name _ fun available f =>
          selectedFields schema after available ((schema.object? f.condition).or scope) f.selections
        refine (congrArg (List.map (mapArgs view)) entered).trans ?_
        cases defined : fragment? available name with
        | none => rfl
        | some f => exact ih f defined
      · rfl
  | case4 available scope condition directives below rest ih ihrest =>
    rw [Rewriting.selections, selection]
    cases keeps : r.keeps directives with
    | false =>
      rw [if_neg (by simp), selectedFields_blank, selectedFields, h.dropped _ keeps, ihrest]
      simp
    | true =>
      rw [if_pos rfl, selectedFields, selectedFields, h.kept _ keeps, List.map_append,
        List.map_append, ihrest]
      congr 1
      split
      · exact ih
      · rfl

end

end Rewriting

namespace RootField

open Rewriting SelectedField

variable {r : Rewriting} {before after : Json.Object} {view : Json.Object → Json.Object}

/-- The root field where a document has been changed and its variables are bound otherwise. -/
def rewritten (root : RootField) (r : Rewriting) (after : Json.Object) : RootField :=
  { root with
    occurrences := root.occurrences.map r.occurrence
    fragments := root.fragments.map r.fragment
    bindings := after }

theorem fieldsOf_rewritten {root : RootField} (h : r.Neutral root.bindings after view)
    (o : Occurrence) :
    ((root.rewritten r after).fieldsOf (r.occurrence o)).map (List.map (mapArgs view)) =
      (root.fieldsOf o).map (List.map (mapArgs view)) := by
  have empty : (r.occurrence o).selections.isEmpty = o.selections.isEmpty :=
    isEmpty_selections o.selections
  rw [fieldsOf, fieldsOf, empty]
  split
  · rfl
  · exact congrArg some (selectedFields_rewritten h root.fragments _ o.selections)

/-- The fields below all occurrences, as far as any of them has a selection set. -/
theorem foldl_fieldsOf_rewritten {root : RootField} (h : r.Neutral root.bindings after view)
    (occurrences : List Occurrence) {fields fields' : Option (List SelectedField)}
    (start : fields'.map (List.map (mapArgs view)) = fields.map (List.map (mapArgs view))) :
    ((occurrences.map r.occurrence).foldl
        (fun fields o =>
          match (root.rewritten r after).fieldsOf o with
          | some more => some (fields.getD [] ++ more)
          | none => fields) fields').map (List.map (mapArgs view)) =
      (occurrences.foldl
        (fun fields o =>
          match root.fieldsOf o with
          | some more => some (fields.getD [] ++ more)
          | none => fields) fields).map (List.map (mapArgs view)) := by
  induction occurrences generalizing fields fields' with
  | nil => exact start
  | cons o occurrences ih =>
    rw [List.map_cons, List.foldl_cons, List.foldl_cons]
    apply ih
    have more := fieldsOf_rewritten h o
    cases hbefore : root.fieldsOf o with
    | none =>
      rw [hbefore, Option.map_none, Option.map_eq_none_iff] at more
      rw [more]
      exact start
    | some new =>
      rw [hbefore] at more
      obtain ⟨new', hafter, hnew⟩ := Option.map_eq_some_iff.1 more
      rw [hafter]
      cases fields <;> cases fields' <;> simp_all

theorem tree?_rewritten {root : RootField} (h : r.Neutral root.bindings after view) :
    (root.rewritten r after).tree?.map (mapArgs view) = root.tree?.map (mapArgs view) := by
  have rewritten : (root.rewritten r after).occurrences = root.occurrences.map r.occurrence := rfl
  rw [tree?, tree?, rewritten]
  cases root.occurrences with
  | nil => rfl
  | cons first rest =>
    refine congrArg some (describe_rewritten h ?_)
    exact foldl_fieldsOf_rewritten h rest (fieldsOf_rewritten h first)

end RootField

namespace Rewriting

variable {r : Rewriting} {before after : Json.Object} {view : Json.Object → Json.Object}

theorem rootField_document (h : r.Neutral before after view) (d : Document) (schema : Schema)
    (operation : Option String) (key : String) :
    (r.document d).rootField schema after operation key =
      (d.rootField schema before operation key).rewritten r after := by
  rw [Document.rootField, Document.rootField, RootField.rewritten, operation?_document]
  cases d.operation? operation with
  | none => rfl
  | some o =>
    have collected : occurrences after key (r.document d).fragments
        (r.operation o).selections = _ := occurrences_rewritten h d.fragments o.selections
    simp only [Option.map_some, Option.getD_some, collected, List.head?_map, Option.map_map]
    rfl

/-- A neutral change leaves the tree as it is, as far as arguments are seen. -/
theorem tree?_document (h : r.Neutral before after view) (d : Document) (schema : Schema)
    (operation : Option String) (key : String) :
    ((r.document d).rootField schema after operation key).tree?.map (·.mapArgs view) =
      (d.rootField schema before operation key).tree?.map (·.mapArgs view) := by
  rw [rootField_document h]
  exact RootField.tree?_rewritten h

end Rewriting

end GraphQL

end QueryPlan
