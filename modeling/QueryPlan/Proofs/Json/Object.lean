import QueryPlan.Proofs.FirstSeen
import QueryPlan.Proofs.Json.Same

namespace QueryPlan.Json.Object

variable {a b o entries : Object} {key : String} {v : Json}

def keys (o : Object) : List String := o.map (·.1)

theorem keys_cons (k : String) (w : Json) (o : Object) : keys ((k, w) :: o) = k :: o.keys := rfl

theorem get?_eq_none : o.get? key = none ↔ key ∉ o.keys := by
  induction o with
  | nil => simp [get?, keys]
  | cons e o ih =>
    obtain ⟨k, w⟩ := e
    rw [get?_cons]
    by_cases hk : k = key
    · simp [hk, keys]
    · rw [if_neg hk, ih]
      simp [keys, Ne.symm hk]

theorem contains_iff : o.contains key ↔ key ∈ o.keys := by
  rw [contains, Option.isSome_iff_ne_none, Ne, get?_eq_none, not_not]

theorem mem_keys (h : (key, v) ∈ o) : key ∈ o.keys := List.mem_map_of_mem h

theorem get?_append (a b : Object) (key : String) :
    get? (a ++ b) key = (a.get? key).or (b.get? key) := by
  induction a with
  | nil => rfl
  | cons e a ih =>
    obtain ⟨k, w⟩ := e
    rw [List.cons_append, get?_cons, get?_cons, ih]
    split <;> rfl

theorem mem_iff_get? (distinct : o.keys.Nodup) : (key, v) ∈ o ↔ o.get? key = some v := by
  constructor
  · intro mem
    induction o with
    | nil => cases mem
    | cons e o ih =>
      obtain ⟨k, w⟩ := e
      obtain ⟨fresh, distinct⟩ := List.nodup_cons.1 distinct
      rw [get?_cons]
      rcases List.mem_cons.1 mem with he | mem
      · cases he
        exact if_pos rfl
      · have hne : k ≠ key := fun he => fresh (he ▸ mem_keys mem)
        rw [if_neg hne]
        exact ih distinct mem
  · exact mem_of_get?

theorem keys_nodup_perm (distinct : a.keys.Nodup) (h : a.Perm b) : b.keys.Nodup :=
  (h.map Prod.fst).nodup_iff.1 distinct

/-- The order of entries with keys of their own is of no account to look-ups. -/
theorem get?_perm (distinct : a.keys.Nodup) (h : a.Perm b) (key : String) :
    a.get? key = b.get? key := by
  have distinct' := keys_nodup_perm distinct h
  apply Option.ext
  intro v
  rw [← mem_iff_get? distinct, ← mem_iff_get? distinct']
  exact h.mem_iff

theorem perm_of_get? (ha : a.keys.Nodup) (hb : b.keys.Nodup) (h : ∀ key, a.get? key = b.get? key) :
    a.Perm b := by
  apply (List.perm_ext_iff_of_nodup (ha.of_map _) (hb.of_map _)).2
  intro e
  obtain ⟨key, v⟩ := e
  rw [mem_iff_get? ha, mem_iff_get? hb, h]

theorem get?_insert (o : Object) (k : String) (w : Json) (key : String) :
    (o.insert k w).get? key = if k = key then some w else o.get? key := by
  induction o with
  | nil => rw [insert, get?_cons]
  | cons e o ih =>
    obtain ⟨k', w'⟩ := e
    rw [insert]
    by_cases hk : k' = k
    · subst hk
      rw [if_pos rfl, get?_cons, get?_cons]
      split <;> rfl
    · rw [if_neg hk, get?_cons, ih, get?_cons]
      by_cases hkey : k' = key
      · have hne : k ≠ key := fun he => hk (hkey.trans he.symm)
        rw [if_pos hkey, if_neg hne, if_pos hkey]
      · rw [if_neg hkey, if_neg hkey]

theorem keys_insert (o : Object) (k : String) (w : Json) :
    (o.insert k w).keys = if k ∈ o.keys then o.keys else o.keys ++ [k] := by
  induction o with
  | nil => rfl
  | cons e o ih =>
    obtain ⟨k', w'⟩ := e
    rw [insert]
    by_cases hk : k' = k
    · simp [keys, hk]
    · have hne : k ≠ k' := Ne.symm hk
      rw [if_neg hk]
      rw [keys_cons, keys_cons, ih]
      by_cases hmem : k ∈ keys o
      · rw [if_pos hmem, if_pos (List.mem_cons_of_mem k' hmem)]
      · have fresh : k ∉ k' :: keys o := List.not_mem_cons_of_ne_of_not_mem hne hmem
        rw [if_neg hmem, if_neg fresh, List.cons_append]

theorem extend_cons (o : Object) (e : String × Json) (entries : Object) :
    o.extend (e :: entries) = (o.insert e.1 e.2).extend entries := rfl

/-- Every key keeps the place where it first stands. -/
theorem keys_extend (distinct : o.keys.Nodup) (entries : Object) :
    (o.extend entries).keys = (o.keys ++ entries.keys).eraseDups := by
  rw [← foldl_add_eq_eraseDups distinct]
  clear distinct
  induction entries generalizing o with
  | nil => rfl
  | cons e entries ih =>
    rw [extend_cons, ih, keys_insert]
    rfl

theorem keys_extend_nodup (distinct : o.keys.Nodup) (entries : List (String × Json)) :
    (o.extend entries).keys.Nodup := by
  rw [keys_extend distinct]
  exact eraseDups_nodup _

theorem keys_ofList_nodup (entries : List (String × Json)) : (ofList entries).keys.Nodup :=
  keys_extend_nodup (o := []) List.nodup_nil entries

/-- Of the entries of one key the last counts, and it goes over what is there. -/
theorem get?_extend_last (o entries : Object) (key : String) :
    (o.extend entries).get? key = (get? entries.reverse key).or (o.get? key) := by
  induction entries generalizing o with
  | nil => rfl
  | cons e entries ih =>
    obtain ⟨k, w⟩ := e
    rw [extend_cons, ih, get?_insert, List.reverse_cons, get?_append, Option.or_assoc, get?_cons]
    congr 1
    split <;> rfl

/-- New entries with keys of their own go over those that are there. -/
theorem get?_extend (distinct : entries.keys.Nodup) (o : Object) (key : String) :
    (o.extend entries).get? key = (entries.get? key).or (o.get? key) := by
  rw [get?_extend_last, ← get?_perm distinct entries.reverse_perm.symm]

theorem get?_ofList (distinct : entries.keys.Nodup) (key : String) :
    (ofList entries).get? key = entries.get? key := by
  rw [ofList, get?_extend distinct]
  exact Option.or_none

theorem get?_filter (p : String → Bool) (o : Object) (key : String) :
    get? (o.filter fun e => p e.1) key = if p key then o.get? key else none := by
  induction o with
  | nil => exact (ite_self _).symm
  | cons e o ih =>
    obtain ⟨k, w⟩ := e
    rw [List.filter_cons, get?_cons]
    by_cases hk : k = key
    · subst hk
      cases hp : p k with
      | false => rw [if_neg (by simp), ih, hp, if_neg (by simp), if_neg (by simp)]
      | true => rw [if_pos rfl, get?_cons, if_pos rfl, if_pos rfl, if_pos rfl]
    · rw [if_neg hk, ← ih]
      cases p k with
      | false => rfl
      | true => rw [if_pos rfl, get?_cons, if_neg hk]

theorem mem_of_mem_insert {e : String × Json} (h : e ∈ o.insert key v) :
    e = (key, v) ∨ e ∈ o := by
  induction o with
  | nil => exact .inl (List.mem_singleton.1 h)
  | cons e' o ih =>
    rw [insert] at h
    split at h
    · exact (List.mem_cons.1 h).imp_right (List.mem_cons_of_mem e')
    · rcases List.mem_cons.1 h with rfl | h
      · exact .inr List.mem_cons_self
      · exact (ih h).imp_right (List.mem_cons_of_mem e')

theorem mem_of_mem_extend {e : String × Json} (h : e ∈ o.extend entries) :
    e ∈ o ∨ e ∈ entries := by
  induction entries generalizing o with
  | nil => exact .inl h
  | cons e' entries ih =>
    rcases ih h with h | h
    · rcases mem_of_mem_insert h with rfl | h
      · exact .inr List.mem_cons_self
      · exact .inl h
    · exact .inr (List.mem_cons_of_mem e' h)

/-- Entries may replace others, but they are not changed. -/
theorem mem_of_mem_ofList {e : String × Json} (h : e ∈ ofList entries) : e ∈ entries :=
  (mem_of_mem_extend h).resolve_left List.not_mem_nil

section

variable (f : Json → Json)

/-- The object with each of its values changed. -/
def mapValues (f : Json → Json) (o : Object) : Object := o.map fun e => (e.1, f e.2)

theorem keys_mapValues (o : Object) : (o.mapValues f).keys = o.keys := List.map_map

theorem get?_mapValues (o : Object) (key : String) :
    (o.mapValues f).get? key = (o.get? key).map f := by
  induction o with
  | nil => rfl
  | cons e o ih =>
    obtain ⟨k, w⟩ := e
    have step : mapValues f ((k, w) :: o) = (k, f w) :: mapValues f o := rfl
    rw [step, get?_cons, get?_cons, ih]
    split <;> rfl

theorem contains_mapValues (o : Object) (key : String) :
    (o.mapValues f).contains key = o.contains key := by
  rw [contains, contains, get?_mapValues, Option.isSome_map]

theorem mapValues_insert (o : Object) (key : String) (v : Json) :
    (o.insert key v).mapValues f = (o.mapValues f).insert key (f v) := by
  induction o with
  | nil => rfl
  | cons e o ih =>
    obtain ⟨k, w⟩ := e
    have step : mapValues f ((k, w) :: o) = (k, f w) :: mapValues f o := rfl
    rw [step, insert, insert, ← ih]
    split <;> rfl

theorem mapValues_extend (o entries : Object) :
    (o.extend entries).mapValues f = (o.mapValues f).extend (entries.mapValues f) := by
  induction entries generalizing o with
  | nil => rfl
  | cons e entries ih =>
    rw [extend_cons, ih, mapValues_insert]
    rfl

theorem mapValues_ofList (entries : Object) :
    (ofList entries).mapValues f = ofList (entries.mapValues f) :=
  mapValues_extend f [] entries

end

theorem insert_fresh (fresh : key ∉ o.keys) : o.insert key v = o ++ [(key, v)] := by
  induction o with
  | nil => rfl
  | cons e o ih =>
    obtain ⟨k, w⟩ := e
    rw [keys_cons, List.mem_cons, not_or] at fresh
    rw [insert, if_neg (Ne.symm fresh.1), ih fresh.2, List.cons_append]

theorem extend_eq_append (distinct : (keys (o ++ entries)).Nodup) :
    o.extend entries = o ++ entries := by
  induction entries generalizing o with
  | nil => exact (List.append_nil o).symm
  | cons e entries ih =>
    have fresh : e.1 ∉ o.keys := by
      rw [keys, List.map_append, List.map_cons] at distinct
      exact fun mem => (List.nodup_append.1 distinct).2.2 e.1 mem e.1 List.mem_cons_self rfl
    rw [extend_cons, insert_fresh fresh, ih, List.append_assoc, List.singleton_append]
    rwa [List.append_assoc, List.singleton_append]

/-- Entries with keys of their own are taken over as they are. -/
theorem ofList_eq_self (distinct : entries.keys.Nodup) : ofList entries = entries :=
  extend_eq_append (o := []) distinct

/-- Every entry keeps its place, and every key its value. -/
structure KeptIn (a b : Object) : Prop where
  place : ∀ (i : Nat) (e : String × Json), a[i]? = some e → b[i]? = some e
  value : ∀ key v, a.get? key = some v → b.get? key = some v

theorem KeptIn.of_grown (h : a <+: b) : a.KeptIn b := by
  obtain ⟨added, rfl⟩ := h
  constructor
  · intro i e he
    have hi := (List.getElem?_eq_some_iff.1 he).1
    rw [List.getElem?_append_left hi]
    exact he
  · intro key v hv
    rw [get?_append, hv]
    rfl

/-- Everything stays as it is, and exactly the keys that are asked for and not bound yet are bound
after it, each of them once. -/
def Extends (before after : Object) (asked : String → Option Json) : Prop :=
  ∃ added : Object, after = before ++ added ∧ added.keys.Nodup ∧
    ∀ key v, (key, v) ∈ added ↔ before.get? key = none ∧ asked key = some v

theorem Extends.refl (o : Object) {asked : String → Option Json}
    (h : ∀ key, asked key = none) : o.Extends o asked := by
  refine ⟨[], (List.append_nil o).symm, .nil, ?_⟩
  simp [h]

theorem Extends.eq_of_unasked {asked : String → Option Json} (h : a.Extends b asked)
    (unasked : ∀ key, asked key = none) : b = a := by
  obtain ⟨added, rfl, -, hmem⟩ := h
  have hnil : added = [] := by
    apply List.eq_nil_iff_forall_not_mem.2
    intro e he
    have asks := ((hmem e.1 e.2).1 he).2
    rw [unasked] at asks
    cases asks
  rw [hnil]
  exact List.append_nil a

theorem Extends.congr {asked asked' : String → Option Json} (h : a.Extends b asked)
    (he : ∀ key, asked key = asked' key) : a.Extends b asked' := by
  obtain rfl : asked = asked' := funext he
  exact h

end QueryPlan.Json.Object
