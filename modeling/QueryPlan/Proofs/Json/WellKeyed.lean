import Mathlib.Data.List.Perm.Subperm
import QueryPlan.Proofs.Json.Parts

namespace QueryPlan.Json

/-- Every object has each of its names once, as all objects do that are read. -/
def wellKeyed : Json → Bool :=
  everyPart fun
    | .obj fields => decide (Object.keys fields).Nodup
    | _ => true

def Object.wellKeyed (o : Object) : Bool := (obj o).wellKeyed

variable {v w : Json} {items : List Json} {a b : Object}

theorem wellKeyed_arr : (arr items).wellKeyed ↔ ∀ v ∈ items, v.wellKeyed := by
  rw [wellKeyed, everyPart_arr]
  simp only [true_and]

theorem Object.wellKeyed_iff : a.wellKeyed ↔ a.keys.Nodup ∧ ∀ e ∈ a, e.2.wellKeyed := by
  rw [Object.wellKeyed, Json.wellKeyed, everyPart_obj, decide_eq_true_iff]

theorem Double.same_refl (x : Double) : x.same x := by
  rw [Double.same, beq_self_eq_true, Bool.true_or]

theorem Double.same_symm {x y : Double} (h : x.same y) : y.same x := by
  rw [Double.same, Bool.or_eq_true, beq_iff_eq, Bool.and_eq_true] at *
  exact h.imp Eq.symm And.symm

theorem Number.same_refl (n : Number) : n.same n := by
  cases n with
  | int n _ => exact beq_self_eq_true n
  | float x => exact Double.same_refl x

theorem Number.same_symm {m n : Number} (h : m.same n) : n.same m := by
  cases m with
  | int m _ =>
    cases n with
    | int n _ => exact beq_iff_eq.2 (beq_iff_eq.1 h).symm
    | float y => cases h
  | float x =>
    cases n with
    | int n _ => cases h
    | float y => exact Double.same_symm h

theorem same_refl (h : v.wellKeyed) : v.same v := by
  induction v using Json.induction with
  | null => rfl
  | bool b => exact same_bool.2 rfl
  | num n => exact same_num.2 ⟨n, rfl, Number.same_refl n⟩
  | str s => exact same_str.2 rfl
  | arr items ih =>
    refine same_arr.2 ⟨items, rfl, List.forall₂_same.2 fun v mem => ?_⟩
    exact ih v mem (wellKeyed_arr.1 h v mem)
  | obj fields ih =>
    obtain ⟨distinct, members⟩ := Object.wellKeyed_iff.1 h
    refine same_obj.2 ⟨fields, rfl, ?_⟩
    rw [Object.same, Bool.and_eq_true, beq_iff_eq]
    refine ⟨rfl, sameMembers_iff.2 fun key v mem => ?_⟩
    exact ⟨v, (Object.mem_iff_get? distinct).1 mem, ih key v mem (members _ mem)⟩

theorem Object.same_refl (h : a.wellKeyed) : a.same a := by
  obtain ⟨_, he, hs⟩ := same_obj.1 (Json.same_refl (v := .obj a) h)
  cases he
  exact hs

/-- An object that has as many names as another, and all of its names, has no others. -/
theorem Object.keys_perm (ha : a.keys.Nodup) (length : a.length = b.length)
    (subset : a.keys ⊆ b.keys) : a.keys.Perm b.keys := by
  apply (List.subperm_of_subset ha subset).perm_of_length_le
  rw [keys, keys, List.length_map, List.length_map]
  exact Nat.le_of_eq length.symm

theorem same_symm (hv : v.wellKeyed) (hw : w.wellKeyed) (h : v.same w) : w.same v := by
  induction v using Json.induction generalizing w with
  | null =>
    rw [same_null.1 h]
    rfl
  | bool b =>
    rw [same_bool.1 h]
    exact same_bool.2 rfl
  | num n =>
    obtain ⟨m, rfl, hm⟩ := same_num.1 h
    exact same_num.2 ⟨n, rfl, Number.same_symm hm⟩
  | str s =>
    rw [same_str.1 h]
    exact same_str.2 rfl
  | arr items ih =>
    obtain ⟨more, rfl, hs⟩ := same_arr.1 h
    rw [wellKeyed_arr] at hv hw
    refine same_arr.2 ⟨items, rfl, List.Forall₂.flip ?_⟩
    refine forall₂_mono hs fun v mem w mem' hsame => ?_
    exact ih v mem (hv v mem) (hw w mem') hsame
  | obj fields ih =>
    obtain ⟨more, rfl, hs⟩ := same_obj.1 h
    obtain ⟨distinct, members⟩ := Object.wellKeyed_iff.1 hv
    obtain ⟨distinct', members'⟩ := Object.wellKeyed_iff.1 hw
    rw [Object.same, Bool.and_eq_true, beq_iff_eq] at hs
    obtain ⟨length, hs⟩ := hs
    rw [sameMembers_iff] at hs
    refine same_obj.2 ⟨fields, rfl, ?_⟩
    rw [Object.same, Bool.and_eq_true, beq_iff_eq]
    refine ⟨length.symm, sameMembers_iff.2 fun key w mem => ?_⟩
    have subset : Object.keys fields ⊆ Object.keys more := by
      intro key mem
      obtain ⟨e, he, rfl⟩ := List.mem_map.1 mem
      obtain ⟨w, hw, -⟩ := hs e.1 e.2 he
      exact Object.mem_keys (Object.mem_of_get? hw)
    have key_mem := (Object.keys_perm distinct length subset).mem_iff.2 (Object.mem_keys mem)
    obtain ⟨⟨_, v⟩, hv', rfl⟩ := List.mem_map.1 key_mem
    obtain ⟨w', hw', hsame⟩ := hs _ v hv'
    rw [(Object.mem_iff_get? distinct').1 mem] at hw'
    cases hw'
    refine ⟨v, (Object.mem_iff_get? distinct).1 hv', ?_⟩
    exact ih _ v hv' (members _ hv') (members' _ mem) hsame

theorem Object.same_symm (ha : a.wellKeyed) (hb : b.wellKeyed) (h : a.same b) : b.same a := by
  have whole := Json.same_symm (v := .obj a) (w := .obj b) ha hb (same_obj.2 ⟨b, rfl, h⟩)
  obtain ⟨_, he, hs⟩ := same_obj.1 whole
  cases he
  exact hs

end QueryPlan.Json
