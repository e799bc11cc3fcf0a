import QueryPlan.Json.Basic

namespace QueryPlan

/-- Loosely typed values that typed ones are read from. -/
class Source (α : Type) where
  /-- The value stands for the absence of one. -/
  isNull : α → Bool
  text? : α → Option String
  /-- The name of an alternative that carries no value. -/
  tag? : α → Option String
  flag? : α → Option Bool
  natural? : α → Option UInt64
  items? : α → Option (List α)
  /-- The members of a record of the given members, and perhaps others. -/
  members? : List String → α → Option (List (String × α))

namespace Source

variable {α β : Type} [Source α]

/-- The members of a record as found in a value. -/
abbrev Members (α : Type) := List (String × α)

def required (members : Members α) (name : String) (read : α → Option β) : Option β := do
  read (← members.lookup name)

/-- A missing member and one that stands for absence read alike. -/
def optional (members : Members α) (name : String) (read : α → Option β) : Option (Option β) :=
  match members.lookup name with
  | none => some none
  | some v => if isNull v then some none else (read v).map some

def withDefault (members : Members α) (name : String) (default : β) (read : α → Option β) :
    Option β :=
  match members.lookup name with
  | none => some default
  | some v => read v

def list? (read : α → Option β) (v : α) : Option (List β) := do
  (← items? v).mapM read

end Source

namespace Json

def ofTag? : Json → Option String
  | .str s => some s
  | .obj [(tag, .null)] => some tag
  | _ => none

def ofNatural? : Json → Option UInt64
  | .num (.int n _) => if 0 ≤ n then some (UInt64.ofNat n.toNat) else none
  | _ => none

/-- A record is an object, or the list of its members' values in their order. -/
def members? (names : List String) : Json → Option Object
  | .obj fields => some fields
  | .arr items => if items.length ≤ names.length then some (names.zip items) else none
  | _ => none

instance : Source Json where
  isNull := isNull
  text? := ofString?
  tag? := ofTag?
  flag? := ofBool?
  natural? := ofNatural?
  items? := ofArray?
  members? := members?

end Json

end QueryPlan
