import QueryPlan.Filter.Operator
import QueryPlan.Proofs.Json.WellKeyed

namespace QueryPlan.Operator

open Json

variable {key token symbol name : String} {fields t : Object} {v w : Json} {path : List Step}

theorem translateItems_eq_map (items : List Json) :
    translateItems items = items.map translate := by
  induction items with
  | nil => rfl
  | cons v vs ih => rw [translateItems, ih, List.map_cons]

theorem translateMembers_eq_map (fields : Object) :
    translateMembers fields = fields.map fun e => (rename e.1, translate e.2) := by
  induction fields with
  | nil => rfl
  | cons e fs ih => rw [translateMembers, ih, List.map_cons]

theorem translate_arr (items : List Json) :
    translate (.arr items) = .arr (items.map translate) := by
  rw [translate, translateItems_eq_map]

/-- The predicate of an object. -/
abbrev translated (t : Object) : Object := predicate (some (.obj t))

theorem translate_obj (fields : Object) : translate (.obj fields) = .obj (translated fields) := by
  rw [translate, translated, predicate]

theorem mem_translated {e : String × Json} (h : e ∈ translated fields) :
    ∃ e' ∈ fields, e = (rename e'.1, translate e'.2) := by
  have mem := Object.mem_of_mem_ofList h
  rw [translateMembers_eq_map] at mem
  obtain ⟨e', mem', he⟩ := List.mem_map.1 mem
  exact ⟨e', mem', he.symm⟩

theorem native?_eq_some (h : native? token = some symbol) :
    ∃ name ∈ names, token = "_" ++ name ∧ symbol = "$" ++ name := by
  obtain ⟨before, after, he, -⟩ := List.lookup_eq_some_iff.1 h
  have mem : (token, symbol) ∈ spellings := by
    rw [he]
    exact List.mem_append_right before List.mem_cons_self
  obtain ⟨name, hn, he⟩ := List.mem_map.1 mem
  cases he
  exact ⟨name, hn, rfl, rfl⟩

theorem symbol_ne_token (name name' : String) : "$" ++ name ≠ "_" ++ name' := by
  intro h
  have first := congrArg (fun s => s.toList.head?) h
  simp at first

/-- A symbol of a plan is no token. -/
theorem native?_symbol (name : String) : native? ("$" ++ name) = none := by
  cases h : native? ("$" ++ name) with
  | none => rfl
  | some symbol =>
    obtain ⟨name', -, he, -⟩ := native?_eq_some h
    exact absurd he (symbol_ne_token name name')

theorem native?_token (h : name ∈ names) : native? ("_" ++ name) = some ("$" ++ name) := by
  cases hn : native? ("_" ++ name) with
  | none =>
    have mem : ("_" ++ name, "$" ++ name) ∈ spellings := List.mem_map_of_mem h
    simpa using List.lookup_eq_none_iff.1 hn _ mem
  | some symbol =>
    obtain ⟨name', -, he, rfl⟩ := native?_eq_some hn
    rw [(String.append_right_inj "_").1 he]

theorem rename_of_native? (h : native? key = none) : rename key = key := by
  rw [rename, h]
  rfl

theorem rename_of_eq_some (h : native? key = some symbol) : rename key = symbol := by
  rw [rename, h]
  rfl

/-- What a key is renamed to is no token. -/
theorem native?_rename (key : String) : native? (rename key) = none := by
  cases h : native? key with
  | none =>
    rw [rename_of_native? h]
    exact h
  | some symbol =>
    obtain ⟨name, -, -, rfl⟩ := native?_eq_some h
    rw [rename_of_eq_some h]
    exact native?_symbol name

/-- A property of all scalars and lists, and of objects with renamed keys, holds of all parts of a
translation. -/
theorem everyPart_translate {p : Json → Bool} (other : ∀ v : Json, v.ofObject? = none → p v)
    (object : ∀ fields : Object, p (.obj (translated fields))) (v : Json) :
    (translate v).everyPart p := by
  induction v using Json.induction with
  | arr items ih =>
    rw [translate_arr, everyPart_arr]
    constructor
    · exact other _ rfl
    · exact List.forall_mem_map.2 ih
  | obj fields ih =>
    rw [translate_obj, everyPart_obj]
    constructor
    · exact object fields
    · intro e mem
      obtain ⟨e', mem', rfl⟩ := mem_translated mem
      exact ih e'.1 e'.2 mem'
  | null => exact other _ rfl
  | bool b => exact other _ rfl
  | num n => exact other _ rfl
  | str s => exact other _ rfl

/-- No key of an object is a token, at any depth. -/
def isNative : Json → Bool :=
  everyPart fun
    | .obj fields => fields.all fun e => (native? e.1).isNone
    | _ => true

theorem isNative_arr {items : List Json} : isNative (.arr items) ↔ ∀ v ∈ items, isNative v := by
  rw [isNative, everyPart_arr]
  simp only [true_and]

theorem isNative_obj :
    isNative (.obj fields) ↔ (∀ e ∈ fields, native? e.1 = none) ∧ ∀ e ∈ fields, isNative e.2 := by
  rw [isNative, everyPart_obj, List.all_eq_true]
  simp only [Option.isNone_iff_eq_none]

theorem translate_isNative (v : Json) : isNative (translate v) := by
  apply everyPart_translate
  · intro v other
    cases v with
    | obj fields => cases other
    | _ => rfl
  · intro fields
    apply List.all_eq_true.2
    intro e mem
    obtain ⟨e', -, rfl⟩ := mem_translated mem
    exact Option.isNone_iff_eq_none.2 (native?_rename e'.1)

theorem translate_wellKeyed (v : Json) : (translate v).wellKeyed := by
  apply everyPart_translate
  · intro v other
    cases v with
    | obj fields => cases other
    | _ => rfl
  · intro fields
    exact decide_eq_true (Object.keys_ofList_nodup _)

theorem translate_eq_self (keyed : v.wellKeyed) (native : isNative v) : translate v = v := by
  induction v using Json.induction with
  | arr items ih =>
    rw [wellKeyed_arr] at keyed
    rw [isNative_arr] at native
    have same : items.map translate = items.map id :=
      List.map_congr_left fun v mem => ih v mem (keyed v mem) (native v mem)
    rw [translate_arr, same, List.map_id]
  | obj fields ih =>
    obtain ⟨distinct, keyed⟩ := Object.wellKeyed_iff.1 keyed
    obtain ⟨symbols, native⟩ := isNative_obj.1 native
    have same : fields.map (fun e => (rename e.1, translate e.2)) = fields.map id := by
      apply List.map_congr_left
      intro e mem
      have value := ih e.1 e.2 mem (keyed e mem) (native e mem)
      rw [rename_of_native? (symbols e mem), value]
      rfl
    rw [translate, translateMembers_eq_map, same, List.map_id, Object.ofList_eq_self distinct]
  | _ => rfl

/-- No two keys become equal. -/
def Apart (fields : Object) : Prop := (fields.keys.map rename).Nodup

instance (fields : Object) : Decidable (Apart fields) :=
  inferInstanceAs (Decidable (fields.keys.map rename).Nodup)

theorem keys_translateMembers (fields : Object) :
    Object.keys (translateMembers fields) = fields.keys.map rename := by
  rw [translateMembers_eq_map, Object.keys, Object.keys, List.map_map, List.map_map]
  rfl

/-- Entries whose keys stay apart keep their places. -/
theorem translated_of_apart (apart : Apart fields) :
    translated fields = fields.map fun e => (rename e.1, translate e.2) := by
  have distinct : (Object.keys (translateMembers fields)).Nodup := by
    rw [keys_translateMembers]
    exact apart
  rw [translated, predicate, Object.ofList_eq_self distinct, translateMembers_eq_map]

theorem get?_translated (apart : Apart fields) (h : Object.get? fields key = some v) :
    Object.get? (translated fields) (rename key) = some (translate v) := by
  apply (Object.mem_iff_get? (Object.keys_ofList_nodup _)).1
  change _ ∈ translated fields
  rw [translated_of_apart apart]
  exact List.mem_map_of_mem (f := fun e => (rename e.1, translate e.2)) (Object.mem_of_get? h)

/-- The step of a translation for a step of what is translated. -/
def renameStep : Step → Step
  | .member key => .member (rename key)
  | .item i => .item i

/-- No object that the path goes through has two keys that become equal. -/
def apartAlong (v : Json) : List Step → Bool
  | [] => true
  | step :: path =>
    (v.ofObject?.all fun fields => decide (Apart fields)) &&
      (v.child? step).all fun w => apartAlong w path

theorem child?_translate {step : Step} (apart : v.ofObject?.all fun fields => decide (Apart fields))
    (h : v.child? step = some w) : (translate v).child? (renameStep step) = some (translate w) := by
  cases v with
  | obj fields =>
    cases step with
    | member key => exact get?_translated (of_decide_eq_true apart) h
    | item i => cases h
  | arr items =>
    cases step with
    | member key => cases h
    | item i =>
      rw [translate_arr, renameStep, child?, List.getElem?_map]
      exact congrArg (Option.map translate) h
  | _ => cases h

/-- Along a path on which keys stay apart, every part is translated in its place. -/
theorem partAt_translate (apart : apartAlong v path) (h : v.partAt path = some w) :
    (translate v).partAt (path.map renameStep) = some (translate w) := by
  induction path generalizing v with
  | nil =>
    cases h
    rfl
  | cons step path ih =>
    obtain ⟨u, hu, h⟩ := Option.bind_eq_some_iff.1 h
    rw [apartAlong, hu, Bool.and_eq_true, Option.all_some] at apart
    rw [List.map_cons, partAt, child?_translate apart.1 hu]
    exact ih apart.2 h

theorem translate_scalar (h : v.isScalar) : translate v = v := by
  cases v with
  | arr items => cases h
  | obj fields => cases h
  | _ => rfl

/-- The predicate of an object is in a normal form that is reached at once: no key is a token, a
further translation changes nothing, and what is in this form stays as it is. Scalars and lists are
found under the renamed keys that lead to them. -/
theorem translated_normal (keyed : t.wellKeyed) :
    isNative (.obj (translated t)) ∧
    translated (translated t) = translated t ∧
    (translated t = t ↔ isNative (.obj t)) ∧
    ∀ path v, (obj t).partAt path = some v → apartAlong (.obj t) path →
      (v.isScalar → (obj (translated t)).partAt (path.map renameStep) = some v) ∧
      ∀ items, v = .arr items → ∃ items' : List Json, items'.length = items.length ∧
        (obj (translated t)).partAt (path.map renameStep) = some (.arr items') := by
  have native : isNative (.obj (translated t)) := translate_isNative (.obj t)
  refine ⟨native, ?_, ?_, ?_⟩
  · exact Json.obj.inj (translate_eq_self (translate_wellKeyed (.obj t)) native)
  · constructor
    · intro same
      rw [same] at native
      exact native
    · intro native
      exact Json.obj.inj (translate_eq_self keyed native)
  · intro path v h apart
    have found := partAt_translate apart h
    rw [translate_obj] at found
    constructor
    · intro scalar
      rw [translate_scalar scalar] at found
      exact found
    · rintro items rfl
      rw [translate_arr] at found
      exact ⟨items.map translate, List.length_map _, found⟩

end QueryPlan.Operator

namespace QueryPlan.Sample

/-- Strings that are spelled like operators, lists in lists, and an object with both spellings. -/
def boats : Json.Object :=
  [("id", .obj [("_or", .arr [.str "1", .arr [.str "_or", .obj [("_like", .str "Boat%")]]])]),
    ("age", .obj [("_gt", Json.ofNat 6), ("$gt", Json.ofNat 60)])]

/-- The way to a string in a list in a list. -/
def boatsPath : List Json.Step := [.member "id", .member "_or", .item 1, .item 0]

theorem boats_normal :
    boats.wellKeyed ∧ (Json.obj boats).partAt boatsPath = some (.str "_or") ∧
    Operator.apartAlong (.obj boats) boatsPath ∧
    Operator.isNative (.obj (Operator.translated boats)) ∧
    (Json.obj (Operator.translated boats)).partAt
      [.member "id", .member "$or", .item 1, .item 0] = some (.str "_or") := by
  have keyed : boats.wellKeyed := by decide
  have found : (Json.obj boats).partAt boatsPath = some (.str "_or") := by rfl
  have apart : Operator.apartAlong (.obj boats) boatsPath := by decide
  obtain ⟨native, -, -, parts⟩ := Operator.translated_normal keyed
  exact ⟨keyed, found, apart, native, (parts boatsPath (.str "_or") found apart).1 rfl⟩

end QueryPlan.Sample
