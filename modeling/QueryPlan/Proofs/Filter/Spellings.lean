import QueryPlan.Proofs.Filter.Translation

namespace QueryPlan.Operator

open Json

variable {fields t : Object} {v w : Json} {path : List Step}

/-- Every key is renamed in its place, and each value is substituted likewise. -/
inductive Substituted : Json → Json → Prop where
  | scalar {v : Json} (h : v.isScalar) : Substituted v v
  | arr {items items' : List Json} (h : List.Forall₂ Substituted items items') :
      Substituted (.arr items) (.arr items')
  | obj {fields fields' : Object} (keys : fields'.keys = fields.keys.map rename)
      (values : List.Forall₂ Substituted (fields.map (·.2)) (fields'.map (·.2))) :
      Substituted (.obj fields) (.obj fields')

/-- No object has both spellings of an operator, at any depth. -/
def spelledOnce : Json → Bool :=
  everyPart fun
    | .obj fields => decide <| ∀ name ∈ names,
        ¬ ("_" ++ name ∈ Object.keys fields ∧ "$" ++ name ∈ Object.keys fields)
    | _ => true

/-- Different keys become equal only if they are the two spellings of an operator. -/
theorem spellings_of_rename_eq {key key' : String} (ne : key ≠ key')
    (h : rename key = rename key') :
    ∃ name ∈ names, (key = "_" ++ name ∧ key' = "$" ++ name) ∨
      (key' = "_" ++ name ∧ key = "$" ++ name) := by
  cases hk : native? key with
  | none =>
    rw [rename_of_native? hk] at h
    cases hk' : native? key' with
    | none =>
      rw [rename_of_native? hk'] at h
      exact absurd h ne
    | some symbol' =>
      obtain ⟨name, mem, rfl, rfl⟩ := native?_eq_some hk'
      rw [rename_of_eq_some hk'] at h
      exact ⟨name, mem, .inr ⟨rfl, h⟩⟩
  | some symbol =>
    obtain ⟨name, mem, rfl, rfl⟩ := native?_eq_some hk
    rw [rename_of_eq_some hk] at h
    cases hk' : native? key' with
    | none =>
      rw [rename_of_native? hk'] at h
      exact ⟨name, mem, .inl ⟨rfl, h.symm⟩⟩
    | some symbol' =>
      obtain ⟨name', -, rfl, rfl⟩ := native?_eq_some hk'
      rw [rename_of_eq_some hk', String.append_right_inj] at h
      rw [h] at ne
      exact absurd rfl ne

theorem apart_iff (distinct : fields.keys.Nodup) :
    Apart fields ↔
      ∀ name ∈ names, ¬ ("_" ++ name ∈ fields.keys ∧ "$" ++ name ∈ fields.keys) := by
  rw [Apart, List.nodup_map_iff_inj_on distinct]
  constructor
  · rintro apart name mem ⟨token, symbol⟩
    have same : rename ("_" ++ name) = rename ("$" ++ name) := by
      rw [rename_of_eq_some (native?_token mem), rename_of_native? (native?_symbol name)]
    exact symbol_ne_token name name (apart _ token _ symbol same).symm
  · intro once key mem key' mem' same
    by_contra ne
    obtain ⟨name, listed, ⟨rfl, rfl⟩ | ⟨rfl, rfl⟩⟩ := spellings_of_rename_eq ne same
    · exact once name listed ⟨mem, mem'⟩
    · exact once name listed ⟨mem', mem⟩

theorem spelledOnce_arr {items : List Json} :
    spelledOnce (.arr items) ↔ ∀ v ∈ items, spelledOnce v := by
  rw [spelledOnce, everyPart_arr]
  simp only [true_and]

theorem spelledOnce_obj (distinct : fields.keys.Nodup) :
    spelledOnce (.obj fields) ↔ Apart fields ∧ ∀ e ∈ fields, spelledOnce e.2 := by
  rw [apart_iff distinct, spelledOnce, everyPart_obj, decide_eq_true_iff]

theorem translate_substituted (keyed : v.wellKeyed) (once : spelledOnce v) :
    Substituted v (translate v) := by
  induction v using Json.induction with
  | arr items ih =>
    rw [wellKeyed_arr] at keyed
    rw [spelledOnce_arr] at once
    rw [translate_arr]
    apply Substituted.arr
    rw [List.forall₂_map_right_iff, List.forall₂_same]
    intro v mem
    exact ih v mem (keyed v mem) (once v mem)
  | obj fields ih =>
    obtain ⟨distinct, keyed⟩ := Object.wellKeyed_iff.1 keyed
    obtain ⟨apart, once⟩ := (spelledOnce_obj distinct).1 once
    rw [translate_obj, translated_of_apart apart]
    apply Substituted.obj
    · rw [Object.keys, Object.keys, List.map_map, List.map_map]
      rfl
    · rw [List.map_map, List.forall₂_map_left_iff, List.forall₂_map_right_iff, List.forall₂_same]
      intro e mem
      exact ih e.1 e.2 mem (keyed e mem) (once e mem)
  | null => exact .scalar rfl
  | bool b => exact .scalar rfl
  | num n => exact .scalar rfl
  | str s => exact .scalar rfl

theorem Substituted.items {items items' : List Json} (h : Substituted (.arr items) (.arr items')) :
    List.Forall₂ Substituted items items' := by
  cases h with
  | scalar h => cases h
  | arr h => exact h

theorem Substituted.members {fields' : Object} (h : Substituted (.obj fields) (.obj fields')) :
    fields'.keys = fields.keys.map rename ∧
      List.Forall₂ Substituted (fields.map (·.2)) (fields'.map (·.2)) := by
  cases h with
  | scalar h => cases h
  | obj keys values => exact ⟨keys, values⟩

theorem spelledOnce_of_substituted (keyed : v.wellKeyed) (h : Substituted v (translate v)) :
    spelledOnce v := by
  induction v using Json.induction with
  | arr items ih =>
    rw [wellKeyed_arr] at keyed
    rw [translate_arr] at h
    have each := h.items
    rw [List.forall₂_map_right_iff, List.forall₂_same] at each
    rw [spelledOnce_arr]
    intro v mem
    exact ih v mem (keyed v mem) (each v mem)
  | obj fields ih =>
    obtain ⟨distinct, keyed⟩ := Object.wellKeyed_iff.1 keyed
    rw [translate_obj] at h
    obtain ⟨keys, values⟩ := h.members
    have apart : Apart fields := by
      rw [Apart, ← keys]
      exact Object.keys_ofList_nodup _
    rw [translated_of_apart apart, List.map_map, List.forall₂_map_left_iff,
      List.forall₂_map_right_iff, List.forall₂_same] at values
    rw [spelledOnce_obj distinct]
    constructor
    · exact apart
    · intro e mem
      exact ih e.1 e.2 mem (keyed e mem) (values e mem)
  | _ => rfl

/-- An object in which two keys become equal loses an entry. -/
theorem length_translated_lt (h : ¬ Apart fields) : (translated fields).length < fields.length := by
  have distinct : (translated fields).keys.Nodup := Object.keys_ofList_nodup _
  have subset : (translated fields).keys ⊆ fields.keys.map rename := by
    intro key mem
    obtain ⟨e, he, rfl⟩ := List.mem_map.1 mem
    obtain ⟨e', mem', rfl⟩ := mem_translated he
    exact List.mem_map_of_mem (Object.mem_keys mem')
  have sub := List.subperm_of_subset distinct subset
  have length : (translated fields).keys.length < (fields.keys.map rename).length := by
    apply Nat.lt_of_not_le
    intro le
    exact h ((sub.perm_of_length_le le).nodup_iff.1 distinct)
  rwa [List.length_map, Object.keys, Object.keys, List.length_map, List.length_map] at length

/-- An object at the end of a path has become one with fewer entries. -/
structure Lost (v : Json) (path : List Step) (fields : Object) : Prop where
  found : v.partAt path = some (.obj fields)
  kept : (translate v).partAt (path.map renameStep) = some (.obj (translated fields))
  fewer : (translated fields).length < fields.length

theorem Lost.cons {step : Step} (h : Lost w path fields)
    (apart : v.ofObject?.all fun fields => decide (Apart fields)) (next : v.child? step = some w) :
    Lost v (step :: path) fields := by
  constructor
  · rw [partAt, next]
    exact h.found
  · rw [List.map_cons, partAt, child?_translate apart next]
    exact h.kept
  · exact h.fewer

/-- The outermost object with both spellings of an operator loses an entry in its place. -/
theorem exists_lost (keyed : v.wellKeyed) (h : ¬ spelledOnce v) :
    ∃ path fields, Lost v path fields := by
  induction v using Json.induction with
  | arr items ih =>
    rw [wellKeyed_arr] at keyed
    rw [spelledOnce_arr] at h
    push Not at h
    obtain ⟨v, mem, twice⟩ := h
    obtain ⟨path, fields, lost⟩ := ih v mem (keyed v mem) twice
    obtain ⟨i, hi⟩ := List.getElem?_of_mem mem
    exact ⟨.item i :: path, fields, lost.cons rfl hi⟩
  | obj fields ih =>
    obtain ⟨distinct, keyed⟩ := Object.wellKeyed_iff.1 keyed
    by_cases apart : Apart fields
    · rw [spelledOnce_obj distinct] at h
      push Not at h
      obtain ⟨e, mem, twice⟩ := h apart
      obtain ⟨path, lost, h⟩ := ih e.1 e.2 mem (keyed e mem) twice
      have next := (Object.mem_iff_get? distinct).1 mem
      exact ⟨.member e.1 :: path, lost, h.cons (decide_eq_true apart) next⟩
    · exact ⟨[], fields, rfl, congrArg some (translate_obj fields), length_translated_lt apart⟩
  | _ => exact absurd rfl h

/-- The predicate of an object is the object with its keys renamed in their places, exactly if no
object in it has both spellings of an operator. Otherwise some object has fewer entries in it. -/
theorem translated_substituted_iff (keyed : t.wellKeyed) :
    (Substituted (.obj t) (.obj (translated t)) ↔ spelledOnce (.obj t)) ∧
      (¬ spelledOnce (.obj t) → ∃ path fields, Lost (.obj t) path fields) := by
  constructor
  · rw [← translate_obj]
    exact ⟨spelledOnce_of_substituted keyed, translate_substituted keyed⟩
  · exact exists_lost keyed

end QueryPlan.Operator

namespace QueryPlan.Sample

/-- Both spellings of operators, but never in one object. -/
def mixed : Json.Object :=
  [("age", .obj [("_gt", Json.ofNat 6), ("$lt", Json.ofNat 60)]),
    ("$or", .arr [.obj [("age", .obj [("$gt", Json.ofNat 80)])], .str "_or"])]

theorem mixed_substituted :
    mixed.wellKeyed ∧ Operator.spelledOnce (.obj mixed) ∧
      Operator.Substituted (.obj mixed) (.obj (Operator.translated mixed)) := by
  have keyed : mixed.wellKeyed := by decide
  have once : Operator.spelledOnce (.obj mixed) := by decide
  exact ⟨keyed, once, (Operator.translated_substituted_iff keyed).1.2 once⟩

/-- Both spellings of one operator in one object. -/
def bothSpellings : Json.Object :=
  [("age", .obj [("_gt", Json.ofNat 6), ("$gt", Json.ofNat 60)])]

theorem bothSpellings_lost :
    bothSpellings.wellKeyed ∧
    Operator.translated bothSpellings = [("age", .obj [("$gt", Json.ofNat 60)])] ∧
    ¬ Operator.Substituted (.obj bothSpellings) (.obj (Operator.translated bothSpellings)) := by
  refine ⟨by decide, by rfl, ?_⟩
  intro h
  have once := Operator.spelledOnce_of_substituted (v := .obj bothSpellings) (by decide) h
  revert once
  decide

end QueryPlan.Sample
