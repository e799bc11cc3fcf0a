import QueryPlan.Proofs.Descriptor.Rearranged
import QueryPlan.Proofs.Plan.Closure
import QueryPlan.Proofs.Plan.Interchange
import QueryPlan.Proofs.Plan.ReadFields
import QueryPlan.Proofs.Selection.WellKeyed

namespace QueryPlan

theorem NameSet.ofList_congr {names names' : List String} (h : ∀ x, x ∈ names ↔ x ∈ names') :
    ofList names = ofList names' := by
  have same : ∀ s t : NameSet, (∀ x, x ∈ s.toList ↔ x ∈ t.toList) → s = t := by
    intro s t hst
    have perm : s.toList.Perm t.toList := (List.perm_ext_iff_of_nodup s.nodup t.nodup).2 hst
    have lists := perm.eq_of_pairwise (fun x y _ _ hxy hyx => absurd hyx (String.lt_asymm hxy))
      s.sorted t.sorted
    cases s
    cases t
    cases lists
    rfl
  apply same
  intro x
  rw [mem_ofList, mem_ofList, h]

/-- Two queries that select the same fields, in whatever order. Equal argument objects have all their
members in the same order. -/
structure Query.Rearranged (q r : Query) : Prop where
  model : q.model = r.model
  args : q.args.plain = r.args.plain
  fields : q.fields.Perm r.fields
  wellKeyed : ∀ f ∈ q.fields, f.wellKeyed
  ordered : SelectedField.Ordered q.fields

namespace Query.Rearranged

variable {q r : Query} (h : q.Rearranged r)
include h

theorem inRole (role : Role) : (q.inRole role).Perm (r.inRole role) := by
  rw [Query.inRole, Query.inRole, ← h.model]
  exact h.fields.filter _

theorem selections (association : String) :
    (q.selections association).Perm (r.selections association) := by
  rw [Query.selections, Query.selections, ← h.model]
  exact h.fields.filter _

theorem expanded : (q.model.expanded q.fields).Perm (r.model.expanded r.fields) := by
  rw [Model.expanded, Model.expanded, ← h.model]
  exact eraseDups_perm ((h.fields.filter _).map _)

theorem attributes :
    (Siblings.of q.model q.fields).attributes.Perm (Siblings.of r.model r.fields).attributes := by
  rw [Siblings.attributes, Siblings.attributes, Siblings.names_inRole, Siblings.names_inRole]
  exact eraseDups_perm ((h.inRole .attribute).map _)

theorem columns :
    (Siblings.of q.model q.fields).columns.Perm (Siblings.of r.model r.fields).columns := by
  have joinColumns : (Siblings.of q.model q.fields).joinColumns.Perm
      (Siblings.of r.model r.fields).joinColumns := by
    have expanded := h.expanded
    rw [Siblings.joinColumns_of, Siblings.joinColumns_of]
    rw [← h.model] at expanded ⊢
    exact expanded.filterMap _
  exact eraseDups_perm (h.attributes.append joinColumns)

/-- Two fields of the query that are equal have arguments that only differ in signs of zeros. -/
theorem args_plain_eq {f g : SelectedField} (hf : f ∈ q.fields) (hg : g ∈ q.fields)
    (same : f.args.same g.args) : f.args.plain = g.args.plain :=
  SelectedField.args_plain_eq h.ordered hf hg (h.wellKeyed g hg) same

/-- The same fields ask for columns in a role, if each of them is taken once. -/
theorem requests (role : Role) :
    Multiset.Rel (fun f g : SelectedField => f.args.plain = g.args.plain)
      ↑((Siblings.of q.model q.fields).inRole role)
      ↑((Siblings.of r.model r.fields).inRole role) := by
  have mem {f : SelectedField} (hf : f ∈ q.inRole role) : f ∈ q.fields := List.mem_of_mem_filter hf
  have matched := eraseDupsBy_rel (h.inRole role)
    (fun f hf => SelectedField.same_refl (h.wellKeyed f (mem hf)))
    (fun f hf g hg =>
      SelectedField.same_symm (h.wellKeyed f (mem hf)) (h.wellKeyed g (mem hg)))
    (fun _ _ _ => SelectedField.same_trans)
  rw [Query.inRole_siblings, Query.inRole_siblings]
  refine matched.mono fun f hf g hg same => ?_
  have hf' := mem ((eraseDupsBy_sublist _).subset hf)
  have hg' := h.fields.mem_iff.2 (List.mem_of_mem_filter ((eraseDupsBy_sublist _).subset hg))
  exact h.args_plain_eq hf' hg' (SelectedField.same_args same)

theorem isConsistent {e e' : Expansion} (he : e ∈ (Siblings.of q.model q.fields).expansions)
    (he' : e' ∈ (Siblings.of r.model r.fields).expansions) (named : e.name = e'.name) :
    e.isConsistent = e'.isConsistent := by
  rw [Query.isConsistent_of_expansion he, Query.isConsistent_of_expansion he', ← named]
  exact Json.Object.agree_perm ((h.selections e.name).map _) (Query.args_wellKeyed h.wellKeyed)

/-- What an association is expanded to by selections that agree on its arguments. -/
theorem nested {e e' : Expansion} (he : e ∈ (Siblings.of q.model q.fields).expansions)
    (he' : e' ∈ (Siblings.of r.model r.fields).expansions) (named : e.name = e'.name)
    (consistent : e.isConsistent) (t : Model) :
    Query.Rearranged ⟨t, e.first.args, (q.selections e.name).flatMap (·.children)⟩
      ⟨t, e'.first.args, (r.selections e'.name).flatMap (·.children)⟩ := by
  have perm := h.selections e.name
  have first : e.first ∈ q.selections e.name := List.mem_of_head? (Query.first_of_expansion he)
  have first' : e'.first ∈ q.selections e.name := by
    rw [perm.mem_iff, named]
    exact List.mem_of_head? (Query.first_of_expansion he')
  rw [Query.isConsistent_of_expansion he,
    Json.Object.agree_iff (Query.args_wellKeyed h.wellKeyed)] at consistent
  rw [← named]
  have below : ∀ f ∈ SelectedField.everyFieldOf ((q.selections e.name).flatMap (·.children)),
      f ∈ SelectedField.everyFieldOf q.fields := by
    intro f hf
    obtain ⟨child, hchild, hf⟩ := SelectedField.mem_everyFieldOf.1 hf
    obtain ⟨g, hg, hchild⟩ := List.mem_flatMap.1 hchild
    exact SelectedField.child_mem_everyFieldOf (Query.mem_of_selections hg)
      (SelectedField.mem_everyFieldOf.2 ⟨child, hchild, hf⟩)
  constructor
  · rfl
  · apply h.args_plain_eq (Query.mem_of_selections first) (Query.mem_of_selections first')
    exact consistent _ (List.mem_map_of_mem first) _ (List.mem_map_of_mem first')
  · exact perm.flatMap_right _
  · intro child hchild
    obtain ⟨f, hf, hchild⟩ := List.mem_flatMap.1 hchild
    have keyed := SelectedField.wellKeyed_iff.1 (h.wellKeyed f (Query.mem_of_selections hf))
    exact keyed.2.2.2 child hchild
  · intro f hf g hg
    exact h.ordered f (below f hf) g (below g hg)

end Query.Rearranged

/-- What is planned of a level for fields in another order. -/
structure Level.Rearranged (l l' : Level) : Prop where
  descriptor : l.descriptor.Rearranged l'.descriptor
  touched : ∀ x, x ∈ l.touched ↔ x ∈ l'.touched

structure Branch.Rearranged (b b' : Branch) : Prop where
  join : b.join.Rearranged b'.join
  touched : ∀ x, x ∈ b.level.touched ↔ x ∈ b'.level.touched

structure Joined.Rearranged (j j' : Joined) : Prop where
  joins : Multiset.Rel Join.Rearranged ↑j.registry.joins ↑j'.registry.joins
  touched : ∀ x, x ∈ j.touched ↔ x ∈ j'.touched

theorem Registry.mem_aliases_congr {r r' : Registry}
    (h : Multiset.Rel Join.Rearranged ↑r.joins ↑r'.joins) (aliasName : String) :
    aliasName ∈ r.aliases ↔ aliasName ∈ r'.aliases := by
  have names := perm_map_of_rel (h.mono fun _ _ _ _ h => h.aliasName_eq)
  exact names.mem_iff

namespace Planner

variable {p : Planner} {n : Nat} {q r : Query}

section Step

variable (ih : ∀ q r : Query, q.Rearranged r → SameOutcome Level.Rearranged
  (p.level n q.model q.args q.fields) (p.level n r.model r.args r.fields))
include ih

theorem branch_rearranged (h : q.Rearranged r) {e e' : Expansion}
    (he : e ∈ (Siblings.of q.model q.fields).expansions)
    (he' : e' ∈ (Siblings.of r.model r.fields).expansions) (named : e.name = e'.name) :
    SameOutcome Branch.Rearranged (p.branch (p.level n) q.model e)
      (p.branch (p.level n) r.model e') := by
  rw [branch, branch, ← h.isConsistent he he' named, ← named, ← h.model]
  split
  · exact .error _ _
  · rename_i consistent
    refine (SameOutcome.refl (fun _ => rfl) _).bind ?_
    rintro ⟨a, t⟩ _ rfl
    have below := ih _ _ (h.nested he he' named (by simpa using consistent) t)
    -- Among the merged children the expansion keeps the first of equal ones, and which one that is
    -- depends on the order. The level planned below it does not.
    rw [← level_of_expansion he, ← level_of_expansion he'] at below
    refine below.bind fun l l' hl => .ok ⟨?_, hl.touched⟩
    rw [Branch.join, Branch.join, named]
    exact .intro hl.descriptor.options hl.descriptor.joins

theorem joined_rearranged (h : q.Rearranged r) :
    SameOutcome Joined.Rearranged
      ((Siblings.of q.model q.fields).expansions.foldlM (p.expand (p.level n) q.model) {})
      ((Siblings.of r.model r.fields).expansions.foldlM (p.expand (p.level n) r.model) {}) := by
  have distinct (q : Query) :
      (Registry.aliases {} ++ (Siblings.of q.model q.fields).expansions.map (·.name)).Nodup := by
    rw [Siblings.names_expansions]
    exact eraseDups_nodup _
  have names : Multiset.Rel (fun e e' : Expansion => e.name = e'.name)
      ↑(Siblings.of q.model q.fields).expansions ↑(Siblings.of r.model r.fields).expansions := by
    apply rel_coe_map
    rw [Siblings.names_expansions, Siblings.names_expansions]
    exact h.expanded
  have branches := SameOutcome.mapM_rel names fun e he e' he' named =>
    branch_rearranged ih h he he' named
  rw [foldlM_expand_eq (distinct q), foldlM_expand_eq (distinct r)]
  refine branches.map fun bs bs' hbs => ⟨?_, fun x => ?_⟩
  · dsimp only
    rw [List.nil_append, List.nil_append, ← Multiset.map_coe, ← Multiset.map_coe, Multiset.rel_map]
    exact hbs.mono fun _ _ _ _ hb => hb.join
  · dsimp only
    rw [List.nil_append, List.nil_append, List.mem_flatMap, List.mem_flatMap]
    exact exists_mem_iff_of_rel hbs fun _ _ hb => hb.touched x

end Step

theorem support_rearranged {m : Model} {names : List String} {r r' : Registry}
    (h : Multiset.Rel Join.Rearranged ↑r.joins ↑r'.joins) :
    SameOutcome (fun r r' : Registry => Multiset.Rel Join.Rearranged ↑r.joins ↑r'.joins)
      (names.foldlM (p.support m) r) (names.foldlM (p.support m) r') := by
  refine SameOutcome.foldlM h fun name r r' h => ?_
  refine (SameOutcome.refl (fun _ => rfl) _).bind ?_
  rintro ⟨a, t⟩ _ rfl
  refine .ok ?_
  rw [Registry.ensureColumnSupport_joins, Registry.ensureColumnSupport_joins]
  simp only [Registry.mem_aliases_congr h]
  split
  · exact h
  · rw [← Multiset.coe_add, ← Multiset.coe_add]
    exact h.add (.cons (Join.columnSupport_rearranged t.name a.name) .zero)

theorem levelReads_congr {group : List CompiledExpr} {computed computed' : List ComputedColumn}
    (h : Multiset.Rel (fun c c' : ComputedColumn => c.plain = c'.plain) ↑computed ↑computed')
    (x : String) :
    (x ∈ (levelReads group computed).associations ↔
      x ∈ (levelReads group computed').associations) ∧
    (x ∈ (levelReads group computed).fields ↔ x ∈ (levelReads group computed').fields) := by
  have reads (c c' : ComputedColumn) (hc : c.plain = c'.plain) : c.reads = c'.reads := by
    have : c.plain.reads = c'.plain.reads := congrArg ComputedColumn.reads hc
    exact this
  rw [mem_associations_levelReads, mem_associations_levelReads, mem_fields_levelReads,
    mem_fields_levelReads]
  constructor
  · refine or_congr_right (exists_mem_iff_of_rel h fun c c' hc => ?_)
    rw [reads c c' hc]
  · refine or_congr_right (exists_mem_iff_of_rel h fun c c' hc => ?_)
    rw [reads c c' hc]

theorem options_rearranged {o o' : Options} (h : o.plain = o'.plain) {names names' : List String}
    {computed computed' : List ProjectionItem} (hnames : names.Perm names')
    (hcomputed : (computed.map (·.plain)).Perm (computed'.map (·.plain))) (keys : List Expr) :
    Options.Rearranged
      { o with
        attributes := projection o.attributes names computed
        group := o.group.map fun _ => keys }
      { o' with
        attributes := projection o'.attributes names' computed'
        group := o'.group.map fun _ => keys } := by
  simp only [Options.plain, Options.mk.injEq] at h
  obtain ⟨attributes, filter, having, group, others⟩ := h
  obtain ⟨order, limit, offset, required, right, separate, subQuery, scope⟩ := others
  rw [← attributes, ← group]
  exact ⟨projection_rearranged o.attributes hnames hcomputed, filter, having, rfl, order, limit,
    offset, required, right, separate, subQuery, scope⟩

theorem level_rearranged (h : q.Rearranged r) (n : Nat) :
    SameOutcome Level.Rearranged (p.level n q.model q.args q.fields)
      (p.level n r.model r.args r.fields) := by
  induction n generalizing q r with
  | zero => exact .error _ _
  | succ n ih =>
    have joined := joined_rearranged (fun q r h => ih h) h
    have aggregates := SameOutcome.mapM_rel (h.requests .aggregate) fun f _ g _ hfg =>
      Scope.aggregateColumn_congr ⟨p.catalog, q.model⟩ p.settings hfg
    have related := SameOutcome.mapM_rel (h.requests .relatedColumn) fun f _ g _ hfg =>
      Scope.relatedColumn_congr ⟨p.catalog, q.model⟩ p.settings hfg
    have columns := h.columns
    have attributes := h.attributes
    rw [level, level]
    rw [← h.model] at joined aggregates related columns attributes ⊢
    refine (Options.ofArguments_congr h.args _).bind fun o o' ho => ?_
    have group : o.plain.group = o'.plain.group := congrArg Options.group ho
    change o.group = o'.group at group
    refine SameOutcome.bind (R := Eq) ?_ ?_
    · rw [group]
      exact .refl (fun _ => rfl) _
    rintro keys _ rfl
    refine joined.bind fun joined joined' hjoined => ?_
    refine aggregates.bind fun aggregates aggregates' ha => ?_
    refine related.bind fun related related' hr => ?_
    have computed : Multiset.Rel (fun c c' : ComputedColumn => c.plain = c'.plain)
        ↑(aggregates ++ related) ↑(aggregates' ++ related') := by
      rw [← Multiset.coe_add, ← Multiset.coe_add]
      exact ha.add hr
    have names : NameSet.ofList (levelReads keys (aggregates ++ related)).associations =
        NameSet.ofList (levelReads keys (aggregates' ++ related')).associations :=
      NameSet.ofList_congr fun x => (levelReads_congr computed x).1
    unfold levelReads at names
    dsimp only
    rw [names]
    refine (support_rearranged hjoined.joins).bind fun registry registry' hs => .ok ?_
    constructor
    · refine ⟨options_rearranged ho columns ?_ _, hs⟩
      rw [List.map_map, List.map_map]
      exact perm_map_of_rel (computed.mono fun c _ c' _ hc => congrArg ComputedColumn.item hc)
    · intro x
      simp only [List.mem_append]
      exact or_congr (or_congr (attributes.map _).mem_iff (hjoined.touched x))
        (levelReads_congr computed x).2

/-- The order of the fields only affects order: what is planned for them in another order fails as
well, or else is planned alike, with the same fields reported as read. -/
theorem compile_rearranged (p : Planner) (m : Model) (args : Json.Object)
    {fs gs : List SelectedField} (perm : fs.Perm gs) (wellKeyed : ∀ f ∈ fs, f.wellKeyed)
    (ordered : SelectedField.Ordered fs) :
    SameOutcome
      (fun q r : CompiledQuery =>
        q.touchedFields = r.touchedFields ∧ q.descriptor.Rearranged r.descriptor)
      (p.compile m args (.fields fs)) (p.compile m args (.fields gs)) := by
  have rearranged : Query.Rearranged ⟨m, args, fs⟩ ⟨m, args, gs⟩ :=
    ⟨rfl, rfl, perm, wellKeyed, ordered⟩
  refine (level_rearranged rearranged _).bind fun l l' hl => .ok ?_
  exact ⟨NameSet.ofList_congr hl.touched, hl.descriptor.options, hl.descriptor.joins⟩

end Planner

namespace Sample

/-- An owner above some age. -/
def olderOwner (field : String) : SelectedField :=
  { owner field with
    args := [("where", .obj [("age", .obj [("_gt", .ofNat 6)])]), ("required", .bool true)] }

/-- Two selections of one association with columns between them, one of which is computed. -/
def olderOwners : List SelectedField :=
  [olderOwner "name", selected "title", ownerInitials, olderOwner "age"]

def olderOwnersPlan : CompiledQuery where
  descriptor := {
    options := { attributes := some (.columns [.column "title", .column "ownerId",
      .computed (.call "LEFT" [.column (some "owner") "user_name", .literal (Json.ofNat 1)])
        "_LEFT"]) }
    joins := [{
      model := "User"
      aliasName := "owner"
      options := {
        attributes := some (.columns [.column "name", .column "age"])
        filter := some [("age", .obj [("$gt", Json.ofNat 6)])]
        required := some true }
      joins := [] }] }
  touchedFields := .ofList ["Project.title", "User.age", "User.name"]

theorem olderOwners_reversed :
    olderOwners.Perm olderOwners.reverse ∧ (∀ f ∈ olderOwners, f.wellKeyed) ∧
      SelectedField.Ordered olderOwners ∧
      ∃ r, planner.compile project [] (.fields olderOwners.reverse) = .ok r ∧
        olderOwnersPlan.touchedFields = r.touchedFields ∧
        olderOwnersPlan.descriptor.Rearranged r.descriptor := by
  have perm : olderOwners.Perm olderOwners.reverse := olderOwners.reverse_perm.symm
  have wellKeyed : ∀ f ∈ olderOwners, f.wellKeyed := by decide
  have ordered : SelectedField.Ordered olderOwners := by decide
  have compiled : planner.compile project [] (.fields olderOwners) = .ok olderOwnersPlan := by
    with_unfolding_all rfl
  have same := planner.compile_rearranged project [] perm wellKeyed ordered
  rw [compiled] at same
  refine ⟨perm, wellKeyed, ordered, ?_⟩
  cases reversed : planner.compile project [] (.fields olderOwners.reverse) with
  | error e =>
    rw [reversed] at same
    cases same
  | ok r =>
    rw [reversed] at same
    cases same with
    | ok h => exact ⟨r, rfl, h⟩

end Sample

end QueryPlan
