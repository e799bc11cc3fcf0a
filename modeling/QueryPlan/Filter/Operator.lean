import QueryPlan.Json.Basic

namespace QueryPlan.Operator

/-- The comparison, matching, range, logical and reference operators. -/
def names : List String :=
  ["eq", "ne", "gte", "gt", "lte", "lt", "not", "is", "in", "notIn", "between", "notBetween",
    "like", "notLike", "iLike", "notILike", "startsWith", "endsWith", "substring", "regexp",
    "notRegexp", "iRegexp", "notIRegexp", "match", "overlap", "contains", "contained", "adjacent",
    "strictLeft", "strictRight", "noExtendRight", "noExtendLeft", "any", "all", "values", "and",
    "or", "col", "placeholder"]

/-- Operators as a request spells them, with the spelling in a plan. -/
def spellings : List (String × String) := names.map fun n => ("_" ++ n, "$" ++ n)

def native? (token : String) : Option String := spellings.lookup token

/-- The key of a plan for a key of a request. -/
def rename (key : String) : String := (native? key).getD key

mutual

/-- `rename` on every key at every depth. Keys that become equal are one member, as in `Object.ofList`. -/
def translate : Json → Json
  | .obj fields => .obj (Json.Object.ofList (translateMembers fields))
  | .arr items => .arr (translateItems items)
  | .null => .null
  | .bool b => .bool b
  | .num n => .num n
  | .str s => .str s

def translateItems : List Json → List Json
  | [] => []
  | v :: vs => translate v :: translateItems vs

def translateMembers : List (String × Json) → List (String × Json)
  | [] => []
  | (k, v) :: fs => (rename k, translate v) :: translateMembers fs

end

/-- The predicate of a tree; anything but an object is no condition. -/
def predicate : Option Json → Json.Object
  | some (.obj fields) => Json.Object.ofList (translateMembers fields)
  | _ => []

end QueryPlan.Operator
