import QueryPlan.Json.Basic
import QueryPlan.Proofs.Traversal

namespace QueryPlan

theorem Double.same_trans {x y z : Double} (h : x.same y) (h' : y.same z) : x.same z := by
  rw [Double.same, Bool.or_eq_true, beq_iff_eq, Bool.and_eq_true] at *
  rcases h with rfl | ⟨hx, hy⟩
  · exact h'
  · rcases h' with rfl | ⟨-, hz⟩
    · exact .inr ⟨hx, hy⟩
    · exact .inr ⟨hx, hz⟩

namespace Json

/-- Induction that takes the items of a list, and the members of an object, together. -/
theorem induction {motive : Json → Prop} (null : motive .null) (bool : ∀ b, motive (.bool b))
    (num : ∀ n, motive (.num n)) (str : ∀ s, motive (.str s))
    (arr : ∀ items, (∀ v ∈ items, motive v) → motive (.arr items))
    (obj : ∀ fields : Object, (∀ key, ∀ v, (key, v) ∈ fields → motive v) → motive (.obj fields)) :
    ∀ v, motive v
  | .null => null
  | .bool b => bool b
  | .num n => num n
  | .str s => str s
  | .arr items => arr items fun v _ => induction null bool num str arr obj v
  | .obj fields => obj fields fun _ v _ => induction null bool num str arr obj v
termination_by v => sizeOf v
decreasing_by
  · rename_i mem
    have := List.sizeOf_lt_of_mem mem
    simp only [Json.arr.sizeOf_spec]
    omega
  · rename_i mem
    have := List.sizeOf_lt_of_mem mem
    simp only [Prod.mk.sizeOf_spec] at this
    simp only [Json.obj.sizeOf_spec]
    omega

namespace Object

variable {a b c : Object} {key : String} {v : Json}

theorem mem_of_get? (h : a.get? key = some v) : (key, v) ∈ a := by
  induction a with
  | nil => cases h
  | cons e a ih =>
    obtain ⟨k, w⟩ := e
    rw [get?_cons] at h
    split at h
    · rename_i hk
      cases h
      rw [hk]
      exact List.mem_cons_self
    · exact List.mem_cons_of_mem _ (ih h)

/-- What the first object has under a name, the second one has too. -/
def Agrees (a b : Object) : Prop :=
  ∀ key v, a.get? key = some v → ∃ w, b.get? key = some w ∧ v.same w

end Object

theorem sameItems_iff {xs ys : List Json} :
    sameItems xs ys ↔ List.Forall₂ (fun x y => x.same y) xs ys := by
  induction xs generalizing ys with
  | nil => cases ys <;> simp [sameItems]
  | cons x xs ih => cases ys <;> simp [sameItems, ih]

theorem sameMembers_iff {a b : Object} :
    sameMembers a b ↔ ∀ key v, (key, v) ∈ a → ∃ w, b.get? key = some w ∧ v.same w := by
  induction a with
  | nil => simp [sameMembers]
  | cons e a ih =>
    obtain ⟨k, v⟩ := e
    rw [sameMembers, Bool.and_eq_true, ih]
    refine ⟨?_, ?_⟩
    · intro h'
      obtain ⟨hv, ha⟩ := h'
      intro key w hw
      rcases List.mem_cons.1 hw with he | hw
      · cases he
        split at hv
        · rename_i w hb
          exact ⟨w, hb, hv⟩
        · cases hv
      · exact ha key w hw
    · intro h
      obtain ⟨w, hb, hv⟩ := h k v List.mem_cons_self
      refine ⟨?_, fun key u hu => h key u (List.mem_cons_of_mem _ hu)⟩
      rw [hb]
      exact hv

variable {u v w : Json}

theorem same_null : null.same v ↔ v = .null := by
  cases v <;> simp [same]

theorem same_bool {b : Bool} : (bool b).same v ↔ v = .bool b := by
  cases v with
  | bool c =>
    rw [same, beq_iff_eq, bool.injEq]
    exact eq_comm
  | _ => simp [same]

theorem same_num {n : Number} : (num n).same v ↔ ∃ m, v = .num m ∧ n.same m := by
  cases v <;> simp [same]

theorem same_str {s : String} : (str s).same v ↔ v = .str s := by
  cases v with
  | str t =>
    rw [same, beq_iff_eq, str.injEq]
    exact eq_comm
  | _ => simp [same]

theorem same_arr {items : List Json} :
    (arr items).same v ↔ ∃ more, v = .arr more ∧ List.Forall₂ (fun x y => x.same y) items more := by
  cases v <;> simp [same, sameItems_iff]

theorem same_obj {fields : Object} :
    (obj fields).same v ↔ ∃ more : Object, v = .obj more ∧ fields.same more := by
  cases v <;> simp [same, Object.same]

theorem Object.Agrees.of_same {a b : Object} (h : a.same b) : a.Agrees b := by
  intro key v hv
  rw [Object.same, Bool.and_eq_true] at h
  exact sameMembers_iff.1 h.2 key v (mem_of_get? hv)

theorem Number.same_trans {k m n : Number} (h : k.same m) (h' : m.same n) : k.same n := by
  cases k with
  | int k hk =>
    cases m with
    | int m hm =>
      rw [Number.same, beq_iff_eq] at h
      subst h
      exact h'
    | float y => cases h
  | float x =>
    cases m with
    | int m hm => cases h
    | float y =>
      cases n with
      | int n hn => cases h'
      | float z => exact Double.same_trans h h'

/-- Equality apart from the order of members is passed on, whether or not names repeat. -/
theorem same_trans (h : u.same v) (h' : v.same w) : u.same w := by
  induction u using Json.induction generalizing v w with
  | null =>
    rw [same_null.1 h] at h'
    exact h'
  | bool b =>
    rw [same_bool.1 h] at h'
    exact h'
  | num n =>
    obtain ⟨m, rfl, hm⟩ := same_num.1 h
    obtain ⟨k, rfl, hk⟩ := same_num.1 h'
    exact same_num.2 ⟨k, rfl, Number.same_trans hm hk⟩
  | str s =>
    rw [same_str.1 h] at h'
    exact h'
  | arr items ih =>
    obtain ⟨ys, rfl, hy⟩ := same_arr.1 h
    obtain ⟨zs, rfl, hz⟩ := same_arr.1 h'
    exact same_arr.2 ⟨zs, rfl, forall₂_trans hy hz fun x hx y z => ih x hx⟩
  | obj fields ih =>
    obtain ⟨b, rfl, hb⟩ := same_obj.1 h
    obtain ⟨c, rfl, hc⟩ := same_obj.1 h'
    rw [Object.same, Bool.and_eq_true, beq_iff_eq] at hb hc
    refine same_obj.2 ⟨c, rfl, ?_⟩
    rw [Object.same, Bool.and_eq_true, beq_iff_eq]
    refine ⟨hb.1.trans hc.1, sameMembers_iff.2 fun key x hx => ?_⟩
    obtain ⟨y, hy, hxy⟩ := sameMembers_iff.1 hb.2 key x hx
    obtain ⟨z, hz, hyz⟩ := sameMembers_iff.1 hc.2 key y (Object.mem_of_get? hy)
    exact ⟨z, hz, ih key x hx hxy hyz⟩

theorem Object.same_trans {a b c : Object} (h : a.same b) (h' : b.same c) : a.same c := by
  have hc : (obj a).same (.obj c) :=
    Json.same_trans (same_obj.2 ⟨b, rfl, h⟩) (same_obj.2 ⟨c, rfl, h'⟩)
  obtain ⟨_, he, hs⟩ := same_obj.1 hc
  cases he
  exact hs

end Json

end QueryPlan
