import QueryPlan.GraphQL.Basic

namespace QueryPlan.GraphQL

def fragment? (fragments : List Fragment) (name : String) : Option Fragment :=
  fragments.reverse.find? (·.name = name)

/-- The fragments of other names, which are those that may still be spread inside of it. -/
def withoutFragment (fragments : List Fragment) (name : String) : List Fragment :=
  fragments.filter (·.name ≠ name)

theorem withoutFragment_length_lt {fragments : List Fragment} {name : String} {f : Fragment}
    (h : fragment? fragments name = some f) :
    (withoutFragment fragments name).length < fragments.length := by
  have hmem := List.mem_of_find?_eq_some h
  have hname := List.find?_some h
  refine List.length_filter_lt_length_iff_exists.2 ⟨f, List.mem_reverse.1 hmem, ?_⟩
  simpa using hname

end QueryPlan.GraphQL
