import QueryPlan.Expr.Basic

namespace QueryPlan

inductive SortDirection where
  | ascending | descending
deriving DecidableEq

namespace SortDirection

def name : SortDirection → String
  | .ascending => "asc"
  | .descending => "desc"

def ofName? (s : String) : Option SortDirection :=
  if s = "asc" then some .ascending else if s = "desc" then some .descending else none

/-- The direction a name stands for in whatever case its ASCII letters are. -/
def parse? (s : String) : Option SortDirection := ofName? s.toLower

end SortDirection

structure OrderItem where
  name : String
  direction : SortDirection
deriving DecidableEq

/-- The find options of one level of a plan, each absent or given. -/
structure Options where
  attributes : Option Projection := none
  filter : Option Json.Object := none
  having : Option Json.Object := none
  group : Option (List Expr) := none
  order : Option (List OrderItem) := none
  limit : Option UInt64 := none
  offset : Option UInt64 := none
  required : Option Bool := none
  right : Option Bool := none
  separate : Option Bool := none
  subQuery : Option Bool := none
  scope : Option (List String) := none

/-- The join of an associated model under an alias, with the options and joins of its own level. -/
structure Join where
  model : String
  aliasName : String
  options : Options
  joins : List Join

/-- A plan: the options of the root level and its joins. -/
structure Descriptor where
  options : Options := {}
  joins : List Join := []

/-- The plan of the joined level. -/
def Join.descriptor (j : Join) : Descriptor := ⟨j.options, j.joins⟩

/-- A join that projects nothing and only lets a computed column read through it. -/
def Join.columnSupport (model aliasName : String) : Join :=
  ⟨model, aliasName, { attributes := some (.columns []) }, []⟩

/-- The first join under an alias. -/
def Descriptor.join? (d : Descriptor) (aliasName : String) : Option Join :=
  d.joins.find? (·.aliasName = aliasName)

end QueryPlan
