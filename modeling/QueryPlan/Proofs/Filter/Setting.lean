import QueryPlan.Filter.Argument
import QueryPlan.Proofs.Traversal

namespace QueryPlan

namespace Setting

/-- The names of the options. No argument by one of them is a condition on a field. -/
def optionNames : List String :=
  ["limit", "offset", "where", "having", "order", "group", "groupBy", "attributes", "required",
    "right", "separate", "subQuery", "scope"]

/-- What an argument that is not refused asks for, by its name and value. -/
inductive Accepted (known : List String) : String → Json → Setting → Prop where
  | absent {key : String} {v : Json} (null : v.isNull) (other : key ∉ known) :
      Accepted known key v .nothing
  | limit {v : Json} {n : UInt64} (h : pageOfArgument "limit" v = .ok n) :
      Accepted known "limit" v (.limit n)
  | offset {v : Json} {n : UInt64} (h : pageOfArgument "offset" v = .ok n) :
      Accepted known "offset" v (.offset n)
  | filter (fields : Json.Object) : Accepted known "where" (.obj fields) (.filter (.obj fields))
  | having (v : Json) : Accepted known "having" v (.having (Operator.predicate (some v)))
  | order {v : Json} {items : List OrderItem} (h : orderOfArgument v = .ok items) :
      Accepted known "order" v (.order items)
  | group {key : String} {v : Json} {keys : List Expr} (named : key = "group" ∨ key = "groupBy")
      (h : groupOfArgument? v = some keys) : Accepted known key v (.group keys)
  | attributes {v : Json} {p : Projection} (h : Projection.ofArgument? v = some p) :
      Accepted known "attributes" v (.attributes p)
  | noAttributes (v : Json) : Accepted known "attributes" v .nothing
  | required {v : Json} {b : Bool} (h : flagOfArgument "required" v = .ok b) :
      Accepted known "required" v (.required b)
  | right {v : Json} {b : Bool} (h : flagOfArgument "right" v = .ok b) :
      Accepted known "right" v (.right b)
  | separate {v : Json} {b : Bool} (h : flagOfArgument "separate" v = .ok b) :
      Accepted known "separate" v (.separate b)
  | subQuery {v : Json} {b : Bool} (h : flagOfArgument "subQuery" v = .ok b) :
      Accepted known "subQuery" v (.subQuery b)
  | scope {v : Json} {names : List String} (h : scopeOfArgument v = .ok names) :
      Accepted known "scope" v (.scope names)
  | equals {key : String} (v : Json) (field : key ∈ known) (named : key ∉ optionNames) :
      Accepted known key v (.equals key v)
  | ignored {key : String} (v : Json) (other : key ∉ known) (named : key ∉ optionNames) :
      Accepted known key v .nothing

/-- What an argument asks for, by its name and value. -/
abbrev read (known : List String) (arg : String × Json) : Except CompileError Setting :=
  ofArgument known arg.1 arg.2

variable {known : List String} {key : String} {v : Json} {s : Setting}

theorem ofArgument_accepted (h : ofArgument known key v = .ok s) : Accepted known key v s := by
  unfold ofArgument at h
  split at h
  · rename_i absent
    cases h
    exact .absent absent.1 absent.2
  · split at h
    · obtain ⟨n, hn, rfl⟩ := map_eq_ok.1 h
      exact .limit hn
    · obtain ⟨n, hn, rfl⟩ := map_eq_ok.1 h
      exact .offset hn
    · split at h <;> cases h
      exact .filter _
    · cases h
      exact .having v
    · obtain ⟨items, hi, rfl⟩ := map_eq_ok.1 h
      exact .order hi
    · split at h <;> cases h
      rename_i hk
      exact .group (.inl rfl) hk
    · split at h <;> cases h
      rename_i hk
      exact .group (.inr rfl) hk
    · split at h
      · rename_i hp
        cases h
        split
        · exact .noAttributes v
        · exact .attributes hp
      · cases h
        exact .noAttributes v
    · obtain ⟨b, hb, rfl⟩ := map_eq_ok.1 h
      exact .required hb
    · obtain ⟨b, hb, rfl⟩ := map_eq_ok.1 h
      exact .right hb
    · obtain ⟨b, hb, rfl⟩ := map_eq_ok.1 h
      exact .separate hb
    · obtain ⟨b, hb, rfl⟩ := map_eq_ok.1 h
      exact .subQuery hb
    · obtain ⟨names, hs, rfl⟩ := map_eq_ok.1 h
      exact .scope hs
    · have named : key ∉ optionNames := by simp_all [optionNames]
      cases h
      split
      · rename_i field
        exact .equals v field named
      · rename_i other
        exact .ignored v other named

end Setting

namespace Options

variable {base : Options} {known : List String} {args : Json.Object} {e : CompileError}

/-- The options with settings applied in turn, and then the conditions on fields. -/
def withSettings (base : Options) (settings : List Setting) : Options :=
  let options := settings.foldl apply base
  if (conditions settings).isEmpty then options
  else { options with filter := some (mergePredicate options.filter (conditions settings)) }

/-- All arguments are read before the first of them is applied. -/
theorem withArguments_eq_map (base : Options) (known : List String) (args : Json.Object) :
    withArguments base known args = (args.mapM (Setting.read known)).map (withSettings base) := by
  rw [withArguments]
  cases args.mapM (Setting.read known) with
  | error e => rfl
  | ok settings =>
    simp only [bind, Except.bind, Except.map, withSettings]
    split <;> rfl

theorem withArguments_eq_error :
    withArguments base known args = .error e ↔ args.mapM (Setting.read known) = .error e := by
  rw [withArguments_eq_map, map_eq_error]

end Options

end QueryPlan
