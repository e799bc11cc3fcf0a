import QueryPlan.Proofs.Filter.Asked
import QueryPlan.Proofs.Plan.ComputedColumn
import QueryPlan.Proofs.Plan.GroupKeys
import QueryPlan.Proofs.Plan.Registration
import QueryPlan.Proofs.Plan.Selections

namespace QueryPlan

namespace Siblings

/-- The fields that ask for computed columns: aggregates before related columns. -/
def requests (s : Siblings) : List SelectedField := s.inRole .aggregate ++ s.inRole .relatedColumn

/-- The columns that a level projects on its own account. -/
def columns (s : Siblings) : List String := (s.attributes ++ s.joinColumns).eraseDups

end Siblings

namespace Scope

variable {s : Scope} {settings : Settings} {f : SelectedField} {c : ComputedColumn}

def Computes (s : Scope) (settings : Settings) (f : SelectedField) (c : ComputedColumn) : Prop :=
  s.model.role f = .aggregate ∧ s.aggregateColumn settings f = .ok c ∨
    s.model.role f = .relatedColumn ∧ s.relatedColumn settings f = .ok c

theorem Computes.aggregate (h : s.Computes settings f c) (role : s.model.role f = .aggregate) :
    s.aggregateColumn settings f = .ok c := by
  rcases h with ⟨-, h⟩ | ⟨other, -⟩
  · exact h
  · cases role.symm.trans other

theorem Computes.related (h : s.Computes settings f c) (role : s.model.role f = .relatedColumn) :
    s.relatedColumn settings f = .ok c := by
  rcases h with ⟨other, -⟩ | ⟨-, h⟩
  · cases role.symm.trans other
  · exact h

theorem Computes.compiled (h : s.Computes settings f c) :
    ∃ e aliasName, c = ⟨.computed e.expr aliasName, e.reads⟩ ∧ s.Compiled e := by
  rcases h with ⟨-, h⟩ | ⟨-, h⟩
  · obtain ⟨function, -, aliasName, -, e, he, rfl⟩ := aggregateColumn_eq_ok.1 h
    exact ⟨e, _, rfl, compile_compiled he⟩
  · obtain ⟨name, -, aliasName, -, e, he, rfl⟩ := relatedColumn_eq_ok.1 h
    exact ⟨e, _, rfl, compile_compiled he⟩

end Scope

def levelReads (group : List CompiledExpr) (computed : List ComputedColumn) : Reads :=
  group.foldr (·.reads ++ ·) (computed.foldr (·.reads ++ ·) {})

section

variable {group : List CompiledExpr} {computed : List ComputedColumn} {name : String}

theorem mem_associations_levelReads :
    name ∈ (levelReads group computed).associations ↔
      (∃ e ∈ group, name ∈ e.reads.associations) ∨ ∃ c ∈ computed, name ∈ c.reads.associations := by
  simp [levelReads, Reads.associations_foldr]

theorem mem_fields_levelReads :
    name ∈ (levelReads group computed).fields ↔
      (∃ e ∈ group, name ∈ e.reads.fields) ∨ ∃ c ∈ computed, name ∈ c.reads.fields := by
  simp [levelReads, Reads.fields_foldr]

variable {s : Scope}

/-- What the arguments of a level ask to group by is resolved soundly. -/
theorem Scope.keys_resolved {known : List String} {args : Json.Object} {options : Options}
    (asked : Options.ofArguments known args = .ok options)
    (keys : List.Forall₂ (fun key e => s.resolveKey key = .ok e) (options.group.getD []) group) :
    ∀ e ∈ group, s.Resolved e := by
  intro e he
  obtain ⟨key, hkey, hr⟩ := exists_of_mem_right keys he
  have mem : key ∈ options.expressions := List.mem_append_right _ hkey
  have unqualified := ((Options.ofArguments_asked asked).of_mem mem).not_qualified
  exact resolveKey_resolved unqualified hr

/-- The associations that are read lead to models of the catalog. -/
theorem Scope.levelReads_lead {settings : Settings} {requests : List SelectedField}
    (resolved : ∀ e ∈ group, s.Resolved e)
    (computes : List.Forall₂ (s.Computes settings) requests computed)
    (h : name ∈ (levelReads group computed).associations) :
    ∃ a t, s.model.association? name = some a ∧ s.catalog.model? a.target = some t := by
  have read : ∃ e, s.Resolved e ∧ name ∈ e.reads.associations := by
    rcases mem_associations_levelReads.1 h with ⟨e, he, hname⟩ | ⟨c, hc, hname⟩
    · exact ⟨e, resolved e he, hname⟩
    · obtain ⟨f, -, hf⟩ := exists_of_mem_right computes hc
      obtain ⟨e, aliasName, rfl, compiled⟩ := hf.compiled
      exact ⟨e, compiled.resolved, hname⟩
  obtain ⟨e, he, hname⟩ := read
  obtain ⟨column, ho⟩ := he.mem_associations hname
  obtain ⟨-, a, t, f, declared, target, -⟩ := he.qualified ho
  exact ⟨a, t, declared, target⟩

end

/-- The parts that a planned level is put together from. -/
structure LevelParts (p : Planner) (remaining : Nat) (m : Model) (args : Json.Object)
    (fields : List SelectedField) (l : Level) where
  options : Options
  group : List CompiledExpr
  branches : List Branch
  computed : List ComputedColumn
  support : List Join
  options_eq : Options.ofArguments m.fieldNames args = .ok options
  keys : List.Forall₂ (fun key e => Scope.resolveKey ⟨p.catalog, m⟩ key = .ok e)
    (options.group.getD []) group
  expansions : branches.map (·.expansion) = (Siblings.of m fields).expansions
  grows : ∀ b ∈ branches, b.Grows p (p.level remaining) m
  computes : List.Forall₂ (Scope.Computes ⟨p.catalog, m⟩ p.settings)
    (Siblings.of m fields).requests computed
  supports : ∀ j ∈ support, p.Supports m j
  support_aliases : support.map (·.aliasName) =
    (NameSet.ofList (levelReads group computed).associations).toList.filter
      (· ∉ branches.map (·.expansion.name))
  descriptor_options : l.descriptor.options = { options with
    attributes := Planner.projection options.attributes (Siblings.of m fields).columns
      (computed.map (·.item))
    group := options.group.map fun _ => group.map (·.expr) }
  joins : l.descriptor.joins = branches.map (·.join) ++ support
  touched : l.touched = (Siblings.of m fields).attributes.map (m.name ++ "." ++ ·) ++
    branches.flatMap (·.level.touched) ++ (levelReads group computed).fields

namespace Planner

variable {p : Planner} {remaining : Nat} {m : Model} {args : Json.Object}
  {fields : List SelectedField} {l : Level}

theorem computes_of_requests {aggregates related : List ComputedColumn}
    (ha : ((Siblings.of m fields).inRole .aggregate).mapM
      (Scope.aggregateColumn ⟨p.catalog, m⟩ p.settings) = .ok aggregates)
    (hr : ((Siblings.of m fields).inRole .relatedColumn).mapM
      (Scope.relatedColumn ⟨p.catalog, m⟩ p.settings) = .ok related) :
    List.Forall₂ (Scope.Computes ⟨p.catalog, m⟩ p.settings) (Siblings.of m fields).requests
      (aggregates ++ related) := by
  have aggregate := (List.forall₂_and_left _ _).2
    ⟨fun f hf => Siblings.role_of_mem_inRole hf, mapM_eq_ok.1 ha⟩
  have relatedColumn := (List.forall₂_and_left _ _).2
    ⟨fun f hf => Siblings.role_of_mem_inRole hf, mapM_eq_ok.1 hr⟩
  exact List.rel_append (aggregate.imp fun _ _ => Or.inl) (relatedColumn.imp fun _ _ => Or.inr)

/-- A level that is planned within a depth is put together from parts planned below it. -/
theorem level_parts (h : p.level remaining m args fields = .ok l) :
    ∃ n, remaining = n + 1 ∧ Nonempty (LevelParts p n m args fields l) := by
  cases remaining with
  | zero => cases h
  | succ n =>
    refine ⟨n, rfl, ?_⟩
    rw [level] at h
    obtain ⟨options, ho, h⟩ := bind_eq_ok.1 h
    obtain ⟨group, hg, h⟩ := bind_eq_ok.1 h
    obtain ⟨joined, hj, h⟩ := bind_eq_ok.1 h
    obtain ⟨aggregates, ha, h⟩ := bind_eq_ok.1 h
    obtain ⟨related, hr, h⟩ := bind_eq_ok.1 h
    obtain ⟨registry, hs, h⟩ := bind_eq_ok.1 h
    have hl := pure_eq_ok.1 h
    obtain ⟨branches, hb, hgrows, rfl⟩ := foldlM_expand hj
    obtain ⟨support, hjoins, hsupports, haliases⟩ := foldlM_support (NameSet.nodup _) hs
    subst hl
    exact ⟨{
      options, group, branches, support
      computed := aggregates ++ related
      options_eq := ho
      keys := Scope.resolveKeys_eq_ok.1 hg
      expansions := hb
      grows := hgrows
      computes := computes_of_requests ha hr
      supports := hsupports
      support_aliases := by
        rw [haliases, Registry.aliases, List.nil_append, List.map_map]
        rfl
      descriptor_options := rfl
      joins := by simpa only [List.nil_append] using hjoins
      touched := by simp only [List.nil_append]; rfl }⟩

/-- The entries that are projected whether or not any column is computed. -/
def listed (asked : Option Projection) (names : List String) : List ProjectionItem :=
  (asked.map (·.items)).getD (names.map .column)

theorem items_projection (asked : Option Projection) (names : List String)
    (computed : List ProjectionItem) :
    ((projection asked names computed).map (·.items)).getD [] = listed asked names ++ computed := by
  cases asked with
  | some projection =>
    cases projection with
    | columns items => rfl
    | filtered added omitted => rfl
  | none =>
    rw [projection]
    split
    · rename_i h
      obtain ⟨hn, hc⟩ : names = [] ∧ computed = [] := by simpa using h
      subst hn hc
      rfl
    · rfl

theorem computed_mem_listed {asked : Option Projection} {names : List String} {e : Expr}
    {aliasName : String} :
    .computed e aliasName ∈ listed asked names ↔
      .computed e aliasName ∈ (asked.map (·.items)).getD [] := by
  cases asked with
  | some projection => exact .rfl
  | none => simp [listed]

end Planner

namespace LevelParts

variable {p : Planner} {remaining : Nat} {m : Model} {args : Json.Object}
  {fields : List SelectedField} {l : Level} (parts : LevelParts p remaining m args fields l)
include parts

theorem items :
    l.descriptor.options.items =
      Planner.listed parts.options.attributes (Siblings.of m fields).columns ++
        parts.computed.map (·.item) := by
  rw [Options.items, parts.descriptor_options]
  exact Planner.items_projection _ _ _

theorem group_keys : l.descriptor.options.group.getD [] = parts.group.map (·.expr) := by
  rw [parts.descriptor_options]
  have hk := parts.keys
  cases hg : parts.options.group with
  | none =>
    rw [hg] at hk
    rw [List.forall₂_nil_left_iff.1 hk]
    rfl
  | some keys => rfl

theorem asked : parts.options.Asked := Options.ofArguments_asked parts.options_eq

theorem mem_group {key : Expr} (h : key ∈ parts.options.group.getD []) :
    key ∈ parts.options.expressions :=
  List.mem_append_right _ h

theorem group_resolved {e : CompiledExpr} (he : e ∈ parts.group) :
    Scope.Resolved ⟨p.catalog, m⟩ e :=
  Scope.keys_resolved parts.options_eq parts.keys e he

theorem computed_compiled {c : ComputedColumn} (hc : c ∈ parts.computed) :
    ∃ e aliasName, c = ⟨.computed e.expr aliasName, e.reads⟩ ∧
      Scope.Compiled ⟨p.catalog, m⟩ e := by
  obtain ⟨f, -, hf⟩ := exists_of_mem_right parts.computes hc
  exact hf.compiled

/-- An expression of a level is asked for as it stands, a grouping key, or a computed column. -/
theorem mem_expressions {e : Expr} (he : e ∈ l.descriptor.options.expressions) :
    e ∈ parts.options.expressions ∧ e.Asked ∨ (∃ key ∈ parts.group, key.expr = e) ∨
      ∃ c ∈ parts.computed, ∃ aliasName, c.item = .computed e aliasName := by
  rcases Options.mem_expressions.1 he with ⟨aliasName, hi⟩ | hg
  · rw [parts.items] at hi
    rcases List.mem_append.1 hi with hi | hi
    · have hasked : e ∈ parts.options.expressions := by
        exact Options.mem_expressions.2 (.inl ⟨aliasName, Planner.computed_mem_listed.1 hi⟩)
      exact .inl ⟨hasked, parts.asked.of_mem hasked⟩
    · obtain ⟨c, hc, hi⟩ := List.mem_map.1 hi
      exact .inr (.inr ⟨c, hc, aliasName, hi⟩)
  · rw [parts.group_keys] at hg
    exact .inr (.inl (List.mem_map.1 hg))

end LevelParts

end QueryPlan
