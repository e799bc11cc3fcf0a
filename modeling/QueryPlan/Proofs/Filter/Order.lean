import QueryPlan.Proofs.Filter.Refused
import QueryPlan.Proofs.Filter.Understood

namespace QueryPlan

open Json

theorem SortDirection.parse?_eq_some {s : String} {d : SortDirection} :
    parse? s = some d ↔ s.toLower = d.name := by
  rw [parse?, ofName?]
  cases d with
  | ascending => simp [name]
  | descending =>
    have other : ("desc" : String) ≠ "asc" := by decide
    constructor
    · intro h
      split at h
      · cases h
      · split at h
        · assumption
        · cases h
    · intro h
      rw [name] at h
      rw [h, if_neg other, if_pos rfl]

namespace OrderItem

/-- The directions that may be asked for: none, a null or a name in whatever case its ASCII letters
are. -/
inductive Directed : Option Json → SortDirection → Prop where
  | absent : Directed none .ascending
  | null : Directed (some .null) .ascending
  | ascending {s : String} (h : s.toLower = "asc") : Directed (some (.str s)) .ascending
  | descending {s : String} (h : s.toLower = "desc") : Directed (some (.str s)) .descending

/-- The entries of an order: a name, a list of a name and at most a direction, or an object that
holds them. -/
inductive Entry : Json → OrderItem → Prop where
  | name (s : String) : Entry (.str s) ⟨s, .ascending⟩
  | single (s : String) : Entry (.arr [.str s]) ⟨s, .ascending⟩
  | pair (s : String) {sort : Json} {d : SortDirection} (direction : Directed (some sort) d) :
      Entry (.arr [.str s, sort]) ⟨s, d⟩
  | object {fields : Object} {s : String} {d : SortDirection}
      (name : fields.get? "name" = some (.str s)) (direction : Directed (fields.get? "sort") d) :
      Entry (.obj fields) ⟨s, d⟩

variable {name sort : Option Json} {v : Json} {d : SortDirection} {item : OrderItem}

theorem directionOfArgument_eq_ok : directionOfArgument sort = .ok d ↔ Directed sort d := by
  constructor
  · intro h
    unfold directionOfArgument at h
    split at h
    · cases h
      exact .absent
    · cases h
      exact .null
    · split at h <;> cases h
      rename_i parsed
      have named := SortDirection.parse?_eq_some.1 parsed
      cases d with
      | ascending => exact .ascending named
      | descending => exact .descending named
    · cases h
  · intro h
    cases h with
    | absent => rfl
    | null => rfl
    | ascending named =>
      have parsed := (SortDirection.parse?_eq_some (d := .ascending)).2 named
      rw [directionOfArgument, parsed]
    | descending named =>
      have parsed := (SortDirection.parse?_eq_some (d := .descending)).2 named
      rw [directionOfArgument, parsed]

theorem ofParts_eq_ok :
    ofParts name sort = .ok item ↔ name = some (.str item.name) ∧ Directed sort item.direction := by
  rw [ofParts]
  constructor
  · intro h
    split at h
    · cases h
    · rename_i s named
      obtain ⟨d, hd, rfl⟩ := map_eq_ok.1 h
      obtain ⟨v, rfl, text⟩ := Option.bind_eq_some_iff.1 named
      cases v with
      | str t =>
        cases text
        exact ⟨rfl, directionOfArgument_eq_ok.1 hd⟩
      | _ => cases text
  · rintro ⟨rfl, direction⟩
    exact map_eq_ok.2 ⟨item.direction, directionOfArgument_eq_ok.2 direction, rfl⟩

theorem ofArgument_eq_ok : ofArgument v = .ok item ↔ Entry v item := by
  constructor
  · intro h
    obtain ⟨name, direction⟩ := item
    unfold ofArgument at h
    split at h
    · cases h
      exact .name _
    · obtain ⟨named, directed⟩ := ofParts_eq_ok.1 h
      cases named
      cases directed
      exact .single name
    · obtain ⟨named, directed⟩ := ofParts_eq_ok.1 h
      cases named
      exact .pair name directed
    · obtain ⟨named, directed⟩ := ofParts_eq_ok.1 h
      exact .object named directed
    · cases h
  · intro h
    cases h with
    | name s => rfl
    | single s =>
      rw [ofArgument, ofParts_eq_ok]
      exact ⟨rfl, .absent⟩
    | pair s direction =>
      rw [ofArgument, ofParts_eq_ok]
      exact ⟨rfl, direction⟩
    | object name direction =>
      rw [ofArgument, ofParts_eq_ok]
      exact ⟨name, direction⟩

/-- The orders that may be asked for: a list of entries, or one entry that is no list. -/
inductive Entries : Json → List OrderItem → Prop where
  | list {vs : List Json} {items : List OrderItem} (h : List.Forall₂ Entry vs items) :
      Entries (.arr vs) items
  | one {v : Json} {item : OrderItem} (single : ∀ vs, v ≠ .arr vs) (h : Entry v item) :
      Entries v [item]

end OrderItem

open OrderItem

variable {v : Json} {items : List OrderItem}

theorem orderOfArgument_single (single : ∀ vs, v ≠ .arr vs) :
    orderOfArgument v = (OrderItem.ofArgument v).map ([·]) := by
  cases v with
  | arr vs => cases single vs rfl
  | _ => rfl

theorem orderOfArgument_list {vs : List Json} :
    orderOfArgument (.arr vs) = .ok items ↔ List.Forall₂ Entry vs items := by
  rw [orderOfArgument, mapM_eq_ok]
  simp only [ofArgument_eq_ok]

theorem orderOfArgument_eq_ok : orderOfArgument v = .ok items ↔ Entries v items := by
  constructor
  · intro h
    by_cases listed : ∃ vs, v = .arr vs
    · obtain ⟨vs, rfl⟩ := listed
      exact .list (orderOfArgument_list.1 h)
    · have single : ∀ vs, v ≠ .arr vs := fun vs he => listed ⟨vs, he⟩
      rw [orderOfArgument_single single] at h
      obtain ⟨item, entry, rfl⟩ := map_eq_ok.1 h
      exact .one single (ofArgument_eq_ok.1 entry)
  · intro h
    cases h with
    | list h => exact orderOfArgument_list.2 h
    | one single h =>
      rw [orderOfArgument_single single, ofArgument_eq_ok.2 h]
      rfl

theorem Setting.read_order (given : v ≠ .null) (known : List String) :
    read known ("order", v) = (orderOfArgument v).map .order :=
  if_neg (not_absent given)

/-- An order is what its entries say, in turn, and is refused by its name if they are none. -/
theorem order_understood (given : v ≠ .null) :
    Options.Understood ("order", v) (fun items o => { o with order := some items }) (Entries v)
      (·.Refuses "order") := by
  apply Options.understood_of_read (orderOfArgument v) (Setting.read_order given)
  · exact fun items => rfl
  · exact fun items o => rfl
  · exact fun items items' h => Option.some.inj (congrArg Options.order h)
  · exact fun items => orderOfArgument_eq_ok
  · exact fun e => orderOfArgument_refuses

namespace Sample

/-- Entries of all shapes. -/
def byAge : Json :=
  .arr [.obj [("sort", .str "DESC"), ("name", .str "age")], .arr [.str "name", .null],
    .arr [.str "id"], .str "title"]

def byAgeItems : List OrderItem :=
  [⟨"age", .descending⟩, ⟨"name", .ascending⟩, ⟨"id", .ascending⟩, ⟨"title", .ascending⟩]

theorem byAge_understood :
    byAge ≠ .null ∧ Entries byAge byAgeItems ∧
      Options.AsksFor ("order", byAge) fun o => { o with order := some byAgeItems } := by
  have descending : "DESC".toLower = "desc" := by
    with_unfolding_all rfl
  have entries : Entries byAge byAgeItems := by
    apply Entries.list
    refine .cons ?_ (.cons ?_ (.cons ?_ (.cons ?_ .nil)))
    · exact .object rfl (.descending descending)
    · exact .pair "name" .null
    · exact .single "id"
    · exact .name "title"
  have given : byAge ≠ .null := Json.noConfusion
  exact ⟨given, entries, ((order_understood given).asks byAgeItems).2 entries⟩

end Sample

end QueryPlan
