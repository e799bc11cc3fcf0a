import QueryPlan.Plan.Compile
import QueryPlan.Proofs.Plan.LevelJoins

namespace QueryPlan

/-- The levels of a plan, each with the name of its model. -/
inductive Descriptor.HasLevel (name : String) (d : Descriptor) : String → Descriptor → Prop where
  | root : HasLevel name d name d
  | join {n : String} {l : Descriptor} {j : Join} (h : HasLevel name d n l) (mem : j ∈ l.joins) :
      HasLevel name d j.model j.descriptor

/-- A level that is planned for selected fields, with its plan. -/
structure Stage where
  model : Model
  args : Json.Object
  fields : List SelectedField
  plan : Descriptor

namespace Stage

variable {c : Catalog} {root s s' s'' : Stage} {p : Planner} {remaining : Nat} {l : Level}

/-- The options that the arguments of a level ask for. -/
def asked (s : Stage) : Options := (Options.ofArguments s.model.fieldNames s.args).toOption.getD {}

/-- The selections of a level that ask for computed columns. -/
def requests (s : Stage) : List SelectedField := (Siblings.of s.model s.fields).requests

/-- The levels that the expansions of a level lead to, itself included. -/
inductive Reaches (c : Catalog) (root : Stage) : Stage → Prop where
  | here : Reaches c root root
  | expand {s : Stage} {name : String} {first : SelectedField} {others : List SelectedField}
      {a : Association} {t : Model} {j : Join} (h : Reaches c root s)
      (selected : s.model.selectionsOf s.fields name = first :: others)
      (declared : s.model.association? name = some a) (target : c.model? a.target = some t)
      (joined : j ∈ s.plan.joins) (named : j.aliasName = name) :
      Reaches c root ⟨t, first.args, (first :: others).flatMap (·.children), j.descriptor⟩

theorem Reaches.trans (h : Reaches c s s') (h' : Reaches c s' s'') : Reaches c s s'' := by
  induction h' with
  | here => exact h
  | expand _ selected declared target joined named ih =>
    exact .expand ih selected declared target joined named

/-- The plan of the level is the one that `p` makes within a depth, up to the limit of its rows. -/
structure Planned (p : Planner) (remaining : Nat) (l : Level) (s : Stage) : Prop where
  level : p.level remaining s.model s.args s.fields = .ok l
  joins : s.plan.joins = l.descriptor.joins
  options : ∃ limit, s.plan.options = { l.descriptor.options with limit }

namespace Planned

variable (h : Planned p remaining l s)
include h

theorem parts :
    ∃ n, remaining = n + 1 ∧ Nonempty (LevelParts p n s.model s.args s.fields l) :=
  Planner.level_parts h.level

theorem items : s.plan.options.items = l.descriptor.options.items := by
  obtain ⟨limit, ho⟩ := h.options
  rw [ho]
  rfl

theorem attributes : s.plan.options.attributes = l.descriptor.options.attributes := by
  obtain ⟨limit, ho⟩ := h.options
  rw [ho]

theorem group : s.plan.options.group = l.descriptor.options.group := by
  obtain ⟨limit, ho⟩ := h.options
  rw [ho]

theorem expressions : s.plan.options.expressions = l.descriptor.options.expressions := by
  rw [Options.expressions, h.items, h.group]
  rfl

theorem qualifies {association : String} :
    s.plan.options.Qualifies association ↔ l.descriptor.options.Qualifies association := by
  rw [Options.Qualifies, h.expressions]
  rfl

end Planned

theorem asked_eq (parts : LevelParts p remaining s.model s.args s.fields l) :
    s.asked = parts.options := by
  rw [asked, parts.options_eq]
  rfl

/-- The join of an expanded association comes from the branch of its selections. -/
theorem Planned.branch {n : Nat} (parts : LevelParts p n s.model s.args s.fields l)
    (h : Planned p (n + 1) l s) {name : String} {first : SelectedField}
    {others : List SelectedField} {a : Association} {t : Model} {j : Join}
    (selected : s.model.selectionsOf s.fields name = first :: others)
    (declared : s.model.association? name = some a) (target : p.catalog.model? a.target = some t)
    (joined : j ∈ s.plan.joins) (named : j.aliasName = name) :
    ∃ b ∈ parts.branches, b.expansion = ⟨first, others⟩ ∧ b.target = t ∧ j = b.join := by
  obtain ⟨b, hb, he, hn⟩ := parts.branch_of_selections selected
  have grows := parts.grows b hb
  have ha : b.association = a := by
    have h' := grows.declared
    rw [hn, declared] at h'
    exact (Option.some.inj h').symm
  have ht : b.target = t := by
    have h' := grows.target
    rw [ha, target] at h'
    exact (Option.some.inj h').symm
  have hj : j = b.join := by
    rw [h.joins] at joined
    exact parts.join_unique joined (parts.join_mem hb) (named.trans hn.symm)
  exact ⟨b, hb, he, ht, hj⟩

/-- Expanding an association of a planned level leads to a level that is planned below it. -/
theorem Planned.expand {n : Nat} (parts : LevelParts p n s.model s.args s.fields l)
    (h : Planned p (n + 1) l s) {name : String} {first : SelectedField}
    {others : List SelectedField} {a : Association} {t : Model} {j : Join}
    (selected : s.model.selectionsOf s.fields name = first :: others)
    (declared : s.model.association? name = some a) (target : p.catalog.model? a.target = some t)
    (joined : j ∈ s.plan.joins) (named : j.aliasName = name) :
    ∃ b ∈ parts.branches, b.target = t ∧ Planned p n b.level
      ⟨t, first.args, (first :: others).flatMap (·.children), j.descriptor⟩ := by
  obtain ⟨b, hb, he, ht, rfl⟩ := Planned.branch parts h selected declared target joined named
  have hl := (parts.grows b hb).planned
  rw [he, ht] at hl
  exact ⟨b, hb, ht, hl, rfl, ⟨_, rfl⟩⟩

/-- Every level that is reached is planned, and what it reads is read above it. -/
theorem Reaches.planned (h : Reaches p.catalog root s) (hp : Planned p remaining l root) :
    ∃ n k, Planned p n k s ∧ k.touched ⊆ l.touched := by
  induction h with
  | here => exact ⟨remaining, l, hp, List.Subset.refl _⟩
  | expand _ selected declared target joined named ih =>
    obtain ⟨n, k, hs, hsub⟩ := ih
    obtain ⟨n, rfl, ⟨parts⟩⟩ := hs.parts
    obtain ⟨b, hb, -, hchild⟩ := Planned.expand parts hs selected declared target joined named
    refine ⟨n, b.level, hchild, fun x hx => hsub ?_⟩
    rw [parts.touched]
    exact List.mem_append_left _ (List.mem_append_right _ (List.mem_flatMap.2 ⟨b, hb, hx⟩))

theorem Reaches.parts (h : Reaches p.catalog root s) (hp : Planned p remaining l root) :
    ∃ n k, Planned p (n + 1) k s ∧ Nonempty (LevelParts p n s.model s.args s.fields k) ∧
      k.touched ⊆ l.touched := by
  obtain ⟨_, k, hs, hsub⟩ := h.planned hp
  obtain ⟨n, rfl, parts⟩ := hs.parts
  exact ⟨n, k, hs, parts, hsub⟩

def ofBranch (b : Branch) : Stage :=
  ⟨b.target, b.expansion.first.args, b.expansion.children, b.join.descriptor⟩

theorem Planned.ofBranch {n : Nat} (parts : LevelParts p n s.model s.args s.fields l)
    {b : Branch} (hb : b ∈ parts.branches) : Planned p n b.level (ofBranch b) :=
  ⟨(parts.grows b hb).planned, rfl, ⟨_, rfl⟩⟩

theorem Reaches.ofBranch {n : Nat} (parts : LevelParts p n s.model s.args s.fields l)
    (h : Planned p (n + 1) l s) {b : Branch} (hb : b ∈ parts.branches) :
    Reaches p.catalog s (ofBranch b) := by
  have grows := parts.grows b hb
  have he : b.expansion ∈ (Siblings.of s.model s.fields).expansions := by
    rw [← parts.expansions]
    exact List.mem_map_of_mem hb
  have selected := Siblings.selections_of_mem_expansions he
  have joined : b.join ∈ s.plan.joins := by
    rw [h.joins]
    exact parts.join_mem hb
  exact .expand .here selected.symm grows.declared grows.target joined rfl

theorem Reaches.known (h : Reaches c root s) (hr : c.model? root.model.name = some root.model) :
    c.model? s.model.name = some s.model := by
  cases h with
  | here => exact hr
  | expand _ _ _ target _ _ =>
    exact Catalog.model?_name target

theorem Reaches.hasLevel (h : Reaches p.catalog root s) (hp : Planned p remaining l root) :
    root.plan.HasLevel root.model.name s.model.name s.plan := by
  induction h with
  | here => exact .root
  | @expand s name first others a t j reached selected declared target joined named ih =>
    obtain ⟨n, k, hs, ⟨parts⟩, -⟩ := reached.parts hp
    have hj := joined
    rw [hs.joins] at hj
    have hmodel : j.model = t.name := by
      rw [(Catalog.model?_some target).2]
      apply parts.join_model hj
      rw [named]
      exact declared
    rw [← hmodel]
    exact .join ih joined

/-- A level of the plan is planned for an expansion, or only supports columns. -/
theorem of_hasLevel (hp : Planned p remaining l root) {n : String} {d : Descriptor}
    (h : root.plan.HasLevel root.model.name n d) :
    (∃ s, root.Reaches p.catalog s ∧ s.model.name = n ∧ s.plan = d) ∨
      (∃ t, p.catalog.model? n = some t) ∧ ∃ name, d = (Join.columnSupport n name).descriptor := by
  induction h with
  | root => exact .inl ⟨root, .here, rfl, rfl⟩
  | @join n d j _ mem ih =>
    rcases ih with ⟨s, reached, rfl, rfl⟩ | ⟨-, name, rfl⟩
    · obtain ⟨n, k, hs, ⟨parts⟩, -⟩ := reached.parts hp
      have hj := mem
      rw [hs.joins, parts.joins] at hj
      rcases List.mem_append.1 hj with hj | hj
      · obtain ⟨b, hb, rfl⟩ := List.mem_map.1 hj
        have child := Reaches.ofBranch parts hs hb
        exact .inl ⟨ofBranch b, reached.trans child, rfl, rfl⟩
      · obtain ⟨columnSupport, a, t, -, target, hname⟩ := parts.supports j hj
        have ht := Catalog.model?_name target
        rw [hname] at ht
        exact .inr ⟨⟨t, ht⟩, j.aliasName, congrArg Join.descriptor columnSupport⟩
    · cases mem

end Stage

def CompiledQuery.root (q : CompiledQuery) (m : Model) (args : Json.Object)
    (source : FieldSource) : Stage :=
  ⟨m, args, source.selected, q.descriptor⟩

def Level.query (l : Level) : CompiledQuery := ⟨l.descriptor, .ofList l.touched⟩

namespace Planner

variable {p : Planner} {name : String} {m : Model} {args : Json.Object} {source : FieldSource}
  {q : CompiledQuery}

theorem model_known (h : p.model name = .ok m) : p.catalog.model? m.name = some m := by
  have hm := Catalog.model_eq_ok.1 (mapError_eq_ok.1 h)
  exact Catalog.model?_name hm

theorem compile_fields (p : Planner) (m : Model) (args : Json.Object)
    (fields : List SelectedField) :
    p.compile m args (.fields fields) =
      (p.level p.settings.maxDepth.toNat m args fields).map (·.query) := by
  rw [compile, FieldSource.selected]
  cases p.level p.settings.maxDepth.toNat m args fields with
  | error e => rfl
  | ok l => rfl

theorem compile_planned (h : p.compile m args source = .ok q) :
    ∃ l, (q.root m args source).Planned p p.settings.maxDepth.toNat l ∧
      q.touchedFields = NameSet.ofList l.touched := by
  obtain ⟨l, hl, h⟩ := bind_eq_ok.1 h
  cases pure_eq_ok.1 h
  exact ⟨l, ⟨hl, rfl, ⟨_, rfl⟩⟩, rfl⟩

theorem parts_of_reached (h : p.compile m args source = .ok q) {s : Stage}
    (reached : (q.root m args source).Reaches p.catalog s) :
    ∃ n k, s.Planned p (n + 1) k ∧ Nonempty (LevelParts p n s.model s.args s.fields k) := by
  obtain ⟨l, hp, -⟩ := compile_planned h
  obtain ⟨n, k, hs, parts, -⟩ := reached.parts hp
  exact ⟨n, k, hs, parts⟩

theorem hasLevel_of_reached (h : p.compile m args source = .ok q) {s : Stage}
    (reached : (q.root m args source).Reaches p.catalog s) :
    q.descriptor.HasLevel m.name s.model.name s.plan := by
  obtain ⟨l, hp, -⟩ := compile_planned h
  exact reached.hasLevel hp

theorem stage_of_hasLevel (h : p.compile m args source = .ok q) {n : String} {d : Descriptor}
    (hl : q.descriptor.HasLevel m.name n d) :
    (∃ s, (q.root m args source).Reaches p.catalog s ∧ s.model.name = n ∧ s.plan = d) ∨
      (∃ t, p.catalog.model? n = some t) ∧ ∃ name, d = (Join.columnSupport n name).descriptor := by
  obtain ⟨l, hp, -⟩ := compile_planned h
  exact Stage.of_hasLevel hp hl

end Planner

namespace Sample

def field (name : String) : Field := ⟨name, none, .string, true, false, none⟩

def user : Model where
  name := "User"
  tableName := none
  comment := none
  fields := [field "id", { field "name" with column := some "user_name" }, field "age"]
  associations := [⟨"projects", .hasMany, "Project", "ownerId", "id", "id"⟩]

def project : Model where
  name := "Project"
  tableName := none
  comment := none
  fields := [field "id", field "title", field "ownerId"]
  associations := [⟨"owner", .belongsTo, "User", "ownerId", "id", "id"⟩]

/-- Users own projects, and the name of a user is stored under another name. -/
def planner : Planner := ⟨⟨[user, project]⟩, .default⟩

theorem catalog_built : Catalog.build [user, project] = .ok planner.catalog := by decide

def selected (name : String) : SelectedField := { name, typeName := "String", isList := false }

end Sample

end QueryPlan
