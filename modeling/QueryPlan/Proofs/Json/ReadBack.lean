import QueryPlan.Proofs.Json.Object
import QueryPlan.Source

namespace QueryPlan

open Source

namespace Json

variable {members : List (String × Option Json)} {name : String} {v : Option Json}

/-- The members that are there, in their order. -/
def present (members : List (String × Option Json)) : Object :=
  members.filterMap fun m => m.2.map (m.1, ·)

theorem ofMembers_eq (members : List (String × Option Json)) :
    ofMembers members = .obj (present members) := rfl

theorem present_cons_none (name : String) (members : List (String × Option Json)) :
    present ((name, none) :: members) = present members := rfl

theorem present_cons_some (name : String) (w : Json) (members : List (String × Option Json)) :
    present ((name, some w) :: members) = (name, w) :: present members := rfl

theorem keys_present_subset (members : List (String × Option Json)) :
    (present members).keys ⊆ members.map (·.1) := by
  intro key mem
  obtain ⟨⟨_, w⟩, he, rfl⟩ := List.mem_map.1 mem
  obtain ⟨m, hm, hw⟩ := List.mem_filterMap.1 he
  obtain ⟨_, -, hpair⟩ := Option.map_eq_some_iff.1 hw
  cases hpair
  exact List.mem_map_of_mem hm

/-- Under a name of its own a member is found exactly if it is there. -/
theorem get?_present (distinct : (members.map (·.1)).Nodup) (mem : (name, v) ∈ members) :
    (present members).get? name = v := by
  induction members with
  | nil => cases mem
  | cons m members ih =>
    obtain ⟨k, w⟩ := m
    obtain ⟨fresh, hrest⟩ := List.nodup_cons.1 distinct
    rcases List.mem_cons.1 mem with he | htail
    · cases he
      cases v with
      | none =>
        rw [present_cons_none, Object.get?_eq_none]
        exact fun hk => fresh (keys_present_subset members hk)
      | some w => rw [present_cons_some, Object.get?_cons, if_pos rfl]
    · have hname : name ∈ members.map (·.1) := List.mem_map_of_mem htail
      have hne : k ≠ name := fun he => fresh (he ▸ hname)
      cases w with
      | none => rw [present_cons_none, ih hrest htail]
      | some w => rw [present_cons_some, Object.get?_cons, if_neg hne, ih hrest htail]

/-- Members with names of their own are found as they were written. -/
theorem get?_written (distinct : (members.map (·.1)).Nodup) :
    ∀ m ∈ members, (present members).get? m.1 = m.2 :=
  fun _ mem => get?_present distinct mem

theorem text?_str (s : String) : text? (str s) = some s := rfl

theorem flag?_bool (b : Bool) : flag? (bool b) = some b := rfl

theorem ofNatural?_ofNat (n : UInt64) : ofNatural? (ofNat n) = some n := by
  rw [ofNat, ofNatural?, if_pos (Int.natCast_nonneg _), Int.toNat_natCast, UInt64.ofNat_toNat]

end Json

section

variable {α : Type} {read : Json → Option α} {write : α → Json} {ms : Json.Object} {name : String}

theorem list?_arr {xs : List α} (h : ∀ x ∈ xs, read (write x) = some x) :
    list? read (.arr (xs.map write)) = some xs := by
  change (xs.map write).mapM read = some xs
  induction xs with
  | nil => rfl
  | cons x xs ih =>
    obtain ⟨hx, hxs⟩ := List.forall_mem_cons.1 h
    rw [List.map_cons, List.mapM_cons, hx, ih hxs]
    rfl

theorem required_eq {v : Json} {x : α} (written : ms.get? name = some v)
    (readBack : read v = some x) : required ms name read = some x := by
  change (ms.get? name).bind read = some x
  rw [written]
  exact readBack

/-- A member that may be missing is read back if its written form does not stand for absence. -/
theorem optional_eq {x : Option α} (written : ms.get? name = x.map write)
    (readBack : ∀ y, read (write y) = some y) (given : ∀ y, (write y).isNull = false) :
    Source.optional ms name read = some x := by
  rw [Json.Object.get?] at written
  rw [Source.optional, written]
  cases x with
  | none => rfl
  | some y =>
    change (if (write y).isNull then _ else (read (write y)).map some) = _
    rw [given y, readBack y]
    rfl

/-- A member that is always written is read back, whatever stands in for one that is missing. -/
theorem withDefault_eq {v : Json} {x default : α} (written : ms.get? name = some v)
    (readBack : read v = some x) : withDefault ms name default read = some x := by
  rw [Json.Object.get?] at written
  rw [withDefault, written]
  exact readBack

end

end QueryPlan
