import QueryPlan.Number.Double

namespace QueryPlan

/-- A number is an integer of at most 64 bits or a binary64 number. -/
inductive Json.Number where
  | int (n : Int) (inRange : -9223372036854775808 ≤ n ∧ n < 18446744073709551616)
  | float (x : Double)
deriving DecidableEq

/-- A JSON value; objects keep the order of their members. -/
inductive Json where
  | null
  | bool (b : Bool)
  | num (n : Json.Number)
  | str (s : String)
  | arr (items : List Json)
  | obj (fields : List (String × Json))

namespace Json

abbrev Object := List (String × Json)

namespace Object

def get? (o : Object) (key : String) : Option Json := List.lookup key o

def contains (o : Object) (key : String) : Bool := (o.get? key).isSome

/-- A new value keeps the place of the member it replaces, a new member goes to the end. -/
def insert : Object → String → Json → Object
  | [], key, value => [(key, value)]
  | (k, v) :: rest, key, value =>
    if k = key then (key, value) :: rest else (k, v) :: insert rest key value

/-- All of `entries` inserted in turn: a repeated name keeps its first place and last value. -/
def extend (o : Object) (entries : List (String × Json)) : Object :=
  entries.foldl (fun o e => insert o e.1 e.2) o

def ofList (entries : List (String × Json)) : Object := extend [] entries

theorem get?_cons (k : String) (v : Json) (o : Object) (key : String) :
    get? ((k, v) :: o) key = if k = key then some v else get? o key := by
  by_cases h : k = key
  · simp [get?, h]
  · have : (key == k) = false := by simpa using fun e => h e.symm
    simp [get?, List.lookup_cons, h, this]

theorem sizeOf_lt_of_get? {o : Object} {key : String} {v : Json} (h : get? o key = some v) :
    sizeOf v < sizeOf o := by
  induction o with
  | nil => simp [get?] at h
  | cons e o ih =>
    obtain ⟨k, w⟩ := e
    rw [get?_cons] at h
    split at h
    · cases h; simp only [List.cons.sizeOf_spec, Prod.mk.sizeOf_spec]; omega
    · have := ih h; simp only [List.cons.sizeOf_spec]; omega

end Object

def ofString? : Json → Option String
  | .str s => some s
  | _ => none

def ofBool? : Json → Option Bool
  | .bool b => some b
  | _ => none

def ofArray? : Json → Option (List Json)
  | .arr items => some items
  | _ => none

def ofObject? : Json → Option Object
  | .obj fields => some fields
  | _ => none

def isNull : Json → Bool
  | .null => true
  | _ => false

def ofNat (n : UInt64) : Json :=
  .num (.int n.toNat ⟨by omega, by have := n.toNat_lt; omega⟩)

def ofMembers (members : List (String × Option Json)) : Json :=
  .obj (members.filterMap fun m => m.2.map (m.1, ·))

/-- Two numbers are the same only within their class; the two zeros of binary64 are the same. -/
def Number.same : Number → Number → Bool
  | .int m _, .int n _ => m == n
  | .float x, .float y => x.same y
  | _, _ => false

mutual

/-- Equality of values, for objects in whatever order their members are. -/
def same : Json → Json → Bool
  | .null, .null => true
  | .bool a, .bool b => a == b
  | .num m, .num n => m.same n
  | .str s, .str t => s == t
  | .arr xs, .arr ys => sameItems xs ys
  | .obj fs, .obj gs => fs.length == gs.length && sameMembers fs gs
  | _, _ => false

def sameItems : List Json → List Json → Bool
  | [], [] => true
  | x :: xs, y :: ys => same x y && sameItems xs ys
  | _, _ => false

/-- Every member of the first object has the same value in the second. -/
def sameMembers : List (String × Json) → List (String × Json) → Bool
  | [], _ => true
  | (k, v) :: fs, gs =>
    (match Object.get? gs k with
      | some w => same v w
      | none => false) && sameMembers fs gs

end

/-- Equality of objects in whatever order their members are. -/
def Object.same (a b : Object) : Bool := a.length == b.length && sameMembers a b

end Json

end QueryPlan
