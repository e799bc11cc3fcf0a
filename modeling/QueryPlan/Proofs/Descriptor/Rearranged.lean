import QueryPlan.Proofs.Expr.Plain
import QueryPlan.Proofs.Filter.Plain

namespace QueryPlan

/-- The same entries are projected, in whatever order. -/
inductive Projection.Rearranged : Projection → Projection → Prop where
  | columns {items items' : List ProjectionItem}
      (h : (items.map (·.plain)).Perm (items'.map (·.plain))) :
      Rearranged (.columns items) (.columns items')
  | filtered {added added' : List ProjectionItem} {omitted : List String}
      (h : (added.map (·.plain)).Perm (added'.map (·.plain))) :
      Rearranged (.filtered added omitted) (.filtered added' omitted)

/-- The options are equal, apart from the order in which entries are projected. Of equal argument
objects one is taken, and as values are compared, the zeros in them may have either sign. -/
structure Options.Rearranged (o o' : Options) : Prop where
  attributes : Option.Rel Projection.Rearranged o.attributes o'.attributes
  filter : o.filter.map Json.Object.plain = o'.filter.map Json.Object.plain
  having : o.having.map Json.Object.plain = o'.having.map Json.Object.plain
  group : o.group = o'.group
  order : o.order = o'.order
  limit : o.limit = o'.limit
  offset : o.offset = o'.offset
  required : o.required = o'.required
  right : o.right = o'.right
  separate : o.separate = o'.separate
  subQuery : o.subQuery = o'.subQuery
  scope : o.scope = o'.scope

/-- Joins of one model under one alias, equal apart from the order of what is projected and joined at
all their levels. -/
inductive Join.Rearranged : Join → Join → Prop where
  | intro {model aliasName : String} {options options' : Options} {joins joins' : List Join}
      (same : options.Rearranged options') (matched : Multiset.Rel Rearranged ↑joins ↑joins') :
      Rearranged ⟨model, aliasName, options, joins⟩ ⟨model, aliasName, options', joins'⟩

/-- The plans are equal, apart from the order of what is projected and joined at all levels. -/
structure Descriptor.Rearranged (d d' : Descriptor) : Prop where
  options : d.options.Rearranged d'.options
  joins : Multiset.Rel Join.Rearranged ↑d.joins ↑d'.joins

theorem Join.Rearranged.aliasName_eq {j j' : Join} (h : j.Rearranged j') :
    j.aliasName = j'.aliasName := by
  cases h
  rfl

theorem Join.columnSupport_rearranged (model aliasName : String) :
    (columnSupport model aliasName).Rearranged (columnSupport model aliasName) := by
  refine .intro ?_ .zero
  constructor
  · exact .some (.columns (.refl _))
  all_goals rfl

theorem Projection.extend_rearranged (p : Projection) {more more' : List ProjectionItem}
    (h : (more.map (·.plain)).Perm (more'.map (·.plain))) :
    (p.extend more).Rearranged (p.extend more') := by
  cases p with
  | columns listed =>
    refine .columns ?_
    rw [List.map_append, List.map_append]
    exact h.append_left _
  | filtered added omitted =>
    refine .filtered ?_
    rw [List.map_append, List.map_append]
    exact h.append_left _

theorem Planner.projection_rearranged (asked : Option Projection) {names names' : List String}
    {computed computed' : List ProjectionItem} (hnames : names.Perm names')
    (hcomputed : (computed.map (·.plain)).Perm (computed'.map (·.plain))) :
    Option.Rel Projection.Rearranged (projection asked names computed)
      (projection asked names' computed') := by
  cases asked with
  | some p => exact .some (p.extend_rearranged hcomputed)
  | none =>
    have empty : (names.isEmpty && computed.isEmpty) = (names'.isEmpty && computed'.isEmpty) := by
      have same := hcomputed.isEmpty_eq
      rw [List.isEmpty_map, List.isEmpty_map] at same
      rw [hnames.isEmpty_eq, same]
    rw [projection, projection, empty]
    split
    · exact .none
    · refine .some (.columns ?_)
      rw [List.map_append, List.map_append, List.map_map, List.map_map]
      exact (hnames.map _).append hcomputed

end QueryPlan
