import QueryPlan.Plan.Aggregate
import QueryPlan.Proofs.Filter.Understood
import QueryPlan.Proofs.Plan.Stage

namespace QueryPlan

open Json

/-- The member of one name on its own. -/
def Json.Object.only (o : Object) (key : String) : Object := ((o.get? key).map (key, ·)).toList

namespace Options

variable {v : Json}

/-- An object is taken for a filter, and what it asks for are the conditions of its tree. -/
theorem ofArguments_where (known : List String) (fields : Object) :
    ∃ o, ofArguments known [("where", .obj fields)] = .ok o ∧
      o.filter.getD [] = Operator.predicate (some (.obj fields)) := by
  have read : Setting.read known ("where", .obj fields) = .ok (.filter (.obj fields)) :=
    if_neg (Setting.not_absent Json.noConfusion)
  have own : conditions [.filter (.obj fields)] = Operator.predicate (some (.obj fields)) :=
    Object.ofList_eq_self (Operator.keys_predicate_nodup _)
  refine ⟨withSettings {} [.filter (.obj fields)], ?_, ?_⟩
  · rw [ofArguments_single, read]
    rfl
  · rw [filter_withSettings, own]
    split
    · rename_i empty
      exact (List.isEmpty_iff.1 empty).symm
    · rfl

/-- What a query takes for a filter where no field is called so. -/
def IsFilter (v : Json) : Prop := v = .null ∨ ∃ fields, v = .obj fields

theorem ofArguments_where_refused (known : List String) (other : ¬ IsFilter v) :
    ofArguments known [("where", v)] =
      .error (.malformedArgument "where" s!"expected an object, got {v.compact}") := by
  rw [ofArguments_single_eq_error]
  cases v with
  | null => exact absurd (.inl rfl) other
  | obj fields => exact absurd (.inr ⟨fields, rfl⟩) other
  | _ => exact if_neg (Setting.not_absent Json.noConfusion)

end Options

namespace Operator

theorem predicate_eq_nil {v : Json} (other : ∀ fields, v ≠ .obj fields) :
    predicate (some v) = [] := by
  cases v with
  | obj fields => exact absurd rfl (other fields)
  | _ => rfl

end Operator

namespace Aggregate

variable {model : Model} {args : Object} {a : Aggregate} {v : Json}

theorem filter_eq (h : compile model args = .ok a) :
    a.filter = Operator.predicate (args.get? "where") := by
  obtain ⟨function, -, h⟩ := bind_eq_ok.1 h
  obtain ⟨column, -, h⟩ := bind_eq_ok.1 h
  cases h
  rfl

/-- A query that is given the same filter and nothing else is accepted, and is filtered by the same
conditions. -/
def FilteredLikeQuery (a : Aggregate) (args : Object) : Prop :=
  ∃ o, Options.ofArguments [] (args.only "where") = .ok o ∧ a.filter = o.filter.getD []

theorem filteredLikeQuery (h : compile model args = .ok a)
    (filters : ∀ v, args.get? "where" = some v → Options.IsFilter v) :
    a.FilteredLikeQuery args := by
  rw [FilteredLikeQuery, filter_eq h, Object.only]
  cases given : args.get? "where" with
  | none => exact ⟨{}, rfl, rfl⟩
  | some v =>
    rcases filters v given with rfl | ⟨fields, rfl⟩
    · exact ⟨{}, rfl, rfl⟩
    · obtain ⟨o, accepted, same⟩ := Options.ofArguments_where [] fields
      exact ⟨o, accepted, same.symm⟩

/-- What a query refuses as a filter is no condition of an aggregate. -/
theorem unfiltered (h : compile model args = .ok a) (given : args.get? "where" = some v)
    (other : ¬ Options.IsFilter v) :
    a.filter = [] ∧ Options.ofArguments [] (args.only "where") =
      .error (.malformedArgument "where" s!"expected an object, got {v.compact}") := by
  rw [filter_eq h, Object.only, given]
  constructor
  · exact Operator.predicate_eq_nil fun fields he => other (.inr ⟨fields, he⟩)
  · exact Options.ofArguments_where_refused [] other

/-- An aggregate has the conditions of a query with the same filter exactly if its filter is absent,
a null or an object. Otherwise the query is refused, and the aggregate is of all rows. -/
theorem compile_filteredLikeQuery_iff (h : compile model args = .ok a) :
    (a.FilteredLikeQuery args ↔ ∀ v, args.get? "where" = some v → Options.IsFilter v) ∧
      (¬ a.FilteredLikeQuery args → a.filter = [] ∧ ∃ reason,
        Options.ofArguments [] (args.only "where") =
          .error (.malformedArgument "where" reason)) := by
  by_cases filters : ∀ v, args.get? "where" = some v → Options.IsFilter v
  · have alike := filteredLikeQuery h filters
    exact ⟨iff_of_true alike filters, fun differs => absurd alike differs⟩
  · obtain ⟨v, hv⟩ := not_forall.1 filters
    obtain ⟨given, other⟩ := Classical.not_imp.1 hv
    obtain ⟨empty, refused⟩ := unfiltered h given other
    constructor
    · refine iff_of_false ?_ filters
      rintro ⟨o, accepted, -⟩
      cases accepted.symm.trans refused
    · intro _
      exact ⟨empty, _, refused⟩

end Aggregate

namespace Sample

/-- Adult users, counted. -/
def adultCount : Object :=
  [("fn", .str "count"), ("where", .obj [("age", .obj [("_gt", Json.ofNat 17)])])]

def adultCounted : Aggregate :=
  ⟨.count, "*", [("age", .obj [("$gt", Json.ofNat 17)])], "float"⟩

theorem adultCounted_filteredLikeQuery :
    Aggregate.compile user adultCount = .ok adultCounted ∧
      adultCounted.FilteredLikeQuery adultCount := by
  have counted : Aggregate.compile user adultCount = .ok adultCounted := by
    with_unfolding_all rfl
  have filters : ∀ v, Object.get? adultCount "where" = some v → Options.IsFilter v := by
    rintro v ⟨⟩
    exact .inr ⟨_, rfl⟩
  exact ⟨counted, (Aggregate.compile_filteredLikeQuery_iff counted).1.2 filters⟩

/-- A filter that is a text. -/
def textCount : Object := [("fn", .str "count"), ("where", .str "age > 17")]

/-- All users are counted, though a query with this filter is refused. -/
theorem textCount_not_filteredLikeQuery :
    ∃ a, Aggregate.compile user textCount = .ok a ∧ a.filter = [] ∧
      ¬ a.FilteredLikeQuery textCount := by
  refine ⟨⟨.count, "*", [], "float"⟩, ?_, rfl, ?_⟩
  · with_unfolding_all rfl
  · rintro ⟨o, accepted, -⟩
    cases accepted

end Sample

end QueryPlan
