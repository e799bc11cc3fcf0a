import Mathlib.Data.List.Sort
import QueryPlan.Proofs.Json.WellKeyed

namespace QueryPlan.Json

/-- The entries in the order of their keys; entries of one key keep their order. -/
def Object.byKey (o : Object) : Object := o.insertionSort fun a b => a.1 ≤ b.1

/-- The value with the members of each object in it in the order of their keys. -/
def sortKeys : Json → Json := rebuild id Object.byKey

/-- The object with its members in the order of their keys, and so at every depth. -/
def Object.sortKeys (o : Object) : Object := (o.mapValues Json.sortKeys).byKey

theorem sortKeys_arr (items : List Json) : (arr items).sortKeys = .arr (items.map sortKeys) :=
  rebuild_arr id Object.byKey items

theorem sortKeys_obj (fields : Object) : (obj fields).sortKeys = .obj fields.sortKeys :=
  rebuild_obj id Object.byKey fields

theorem ofBool?_sortKeys (v : Json) : v.sortKeys.ofBool? = v.ofBool? := by
  cases v <;> rfl

namespace Object

variable {a b : Object}

theorem byKey_perm (o : Object) : o.byKey.Perm o := List.perm_insertionSort _ o

theorem byKey_pairwise (o : Object) : o.byKey.Pairwise fun a b => a.1 ≤ b.1 := by
  have : Std.Total fun a b : String × Json => a.1 ≤ b.1 := ⟨fun a b => String.le_total a.1 b.1⟩
  have : IsTrans (String × Json) fun a b => a.1 ≤ b.1 := ⟨fun _ _ _ => String.le_trans⟩
  exact List.pairwise_insertionSort _ o

/-- Sorted by key, objects with the same members are one. -/
theorem byKey_eq_of_perm (distinct : a.keys.Nodup) (h : a.Perm b) : a.byKey = b.byKey := by
  refine List.Perm.eq_of_pairwise ?_ (byKey_pairwise a) (byKey_pairwise b)
    ((byKey_perm a).trans (h.trans (byKey_perm b).symm))
  intro e e' mem mem' le le'
  have hk : e.1 = e'.1 := String.le_antisymm le le'
  have he := (mem_iff_get? distinct).1 ((byKey_perm a).mem_iff.1 mem)
  have mem'' : (e'.1, e'.2) ∈ a := h.mem_iff.2 ((byKey_perm b).mem_iff.1 mem')
  have he' := (mem_iff_get? distinct).1 mem''
  rw [hk, he'] at he
  exact Prod.ext hk (Option.some.inj he).symm

theorem sortKeys_ofList_congr (h : a.mapValues Json.sortKeys = b.mapValues Json.sortKeys) :
    (ofList a).sortKeys = (ofList b).sortKeys := by
  rw [sortKeys, sortKeys, mapValues_ofList, mapValues_ofList, h]

end Object

end QueryPlan.Json
