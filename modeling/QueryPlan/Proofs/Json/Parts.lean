import QueryPlan.Proofs.Json.Object

namespace QueryPlan.Json

mutual

/-- The value and all values inside of it have a property. -/
def everyPart (p : Json → Bool) : Json → Bool
  | .null => p .null
  | .bool b => p (.bool b)
  | .num n => p (.num n)
  | .str s => p (.str s)
  | .arr items => p (.arr items) && everyItem p items
  | .obj fields => p (.obj fields) && everyMember p fields

def everyItem (p : Json → Bool) : List Json → Bool
  | [] => true
  | v :: vs => everyPart p v && everyItem p vs

def everyMember (p : Json → Bool) : List (String × Json) → Bool
  | [] => true
  | (_, v) :: fs => everyPart p v && everyMember p fs

end

mutual

/-- The value with each number and each object in it replaced, objects from the innermost on. -/
def rebuild (number : Number → Number) (object : Object → Object) : Json → Json
  | .null => .null
  | .bool b => .bool b
  | .num n => .num (number n)
  | .str s => .str s
  | .arr items => .arr (rebuildItems number object items)
  | .obj fields => .obj (object (rebuildMembers number object fields))

def rebuildItems (number : Number → Number) (object : Object → Object) : List Json → List Json
  | [] => []
  | v :: vs => rebuild number object v :: rebuildItems number object vs

def rebuildMembers (number : Number → Number) (object : Object → Object) :
    List (String × Json) → List (String × Json)
  | [] => []
  | (k, v) :: fs => (k, rebuild number object v) :: rebuildMembers number object fs

end

def isScalar : Json → Bool
  | .arr _ | .obj _ => false
  | _ => true

/-- A step into an object or a list. -/
inductive Step where
  | member (key : String)
  | item (i : Nat)

def child? : Json → Step → Option Json
  | .obj fields, .member key => Object.get? fields key
  | .arr items, .item i => items[i]?
  | _, _ => none

/-- The part of a value that a path leads to. -/
def partAt (v : Json) : List Step → Option Json
  | [] => some v
  | step :: path => (v.child? step).bind (partAt · path)

section

variable {p : Json → Bool}

theorem everyPart_arr {items : List Json} :
    (arr items).everyPart p ↔ p (.arr items) ∧ ∀ v ∈ items, v.everyPart p := by
  have each : everyItem p items ↔ ∀ v ∈ items, v.everyPart p := by
    induction items with
    | nil => simp [everyItem]
    | cons v vs ih => rw [everyItem, Bool.and_eq_true, ih, List.forall_mem_cons]
  rw [everyPart, Bool.and_eq_true, each]

theorem everyPart_obj {fields : Object} :
    (obj fields).everyPart p ↔ p (.obj fields) ∧ ∀ e ∈ fields, e.2.everyPart p := by
  have each : everyMember p fields ↔ ∀ e ∈ fields, e.2.everyPart p := by
    induction fields with
    | nil => simp [everyMember]
    | cons e fs ih => rw [everyMember, Bool.and_eq_true, ih, List.forall_mem_cons]
  rw [everyPart, Bool.and_eq_true, each]

end

section

variable (number : Number → Number) (object : Object → Object)

theorem rebuild_arr (items : List Json) :
    (arr items).rebuild number object = .arr (items.map (rebuild number object)) := by
  have each : rebuildItems number object items = items.map (rebuild number object) := by
    induction items with
    | nil => rfl
    | cons v vs ih => rw [rebuildItems, ih, List.map_cons]
  rw [rebuild, each]

theorem rebuild_obj (fields : Object) :
    (obj fields).rebuild number object =
      .obj (object (fields.mapValues (rebuild number object))) := by
  have each : rebuildMembers number object fields = fields.mapValues (rebuild number object) := by
    induction fields with
    | nil => rfl
    | cons e fs ih => rw [rebuildMembers, ih]; rfl
  rw [rebuild, each]

end

end QueryPlan.Json
