import Mathlib.Data.List.Duplicate
import QueryPlan.Proofs.Catalog.Members

namespace QueryPlan

/-- What a join of the association needs: its source column is a field of the declaring model, and
the foreign key one of the target if that is where it is kept. -/
structure Association.Joins (models : List Model) (m : Model) (a : Association) : Prop where
  source : a.joinKey ∈ m.fieldNames
  target : ∃ t ∈ models, t.name = a.target ∧
    (a.kind = .hasOne ∨ a.kind = .hasMany → a.foreignKey ∈ t.fieldNames)

/-- Models that make a catalog. -/
structure Catalog.WellFormed (models : List Model) : Prop where
  distinct : (models.map (·.name)).Nodup
  named : ∀ m ∈ models, m.WellNamed
  joins : ∀ m ∈ models, ∀ a ∈ m.associations, a.Joins models m

/-- The models have the fault that the error names. -/
inductive CatalogError.Defect (models : List Model) : CatalogError → Prop where
  | duplicateModel {name : String} (twice : List.Duplicate name (models.map (·.name))) :
      Defect models (.duplicateModel name)
  | reservedName {m : Model} {name : String} (mem : m ∈ models) (declared : name ∈ m.memberNames)
      (reserved : name = "_aggregation" ∨ name = "_col") : Defect models (.reservedName m.name name)
  | duplicateMember {m : Model} {name : String} (mem : m ∈ models)
      (twice : List.Duplicate name m.memberNames) : Defect models (.duplicateMember m.name name)
  | unknownTarget {m : Model} {a : Association} (mem : m ∈ models) (declared : a ∈ m.associations)
      (unknown : ∀ t ∈ models, t.name ≠ a.target) :
      Defect models (.unknownTarget m.name a.name a.target)
  | unknownSource {m : Model} {a : Association} (mem : m ∈ models) (declared : a ∈ m.associations)
      (missing : a.joinKey ∉ m.fieldNames) :
      Defect models (.unknownJoinKey m.name a.name m.name a.joinKey)
  | unknownForeignKey {m t : Model} {a : Association} (mem : m ∈ models)
      (declared : a ∈ m.associations) (kind : a.kind = .hasOne ∨ a.kind = .hasMany)
      (target : t ∈ models) (named : t.name = a.target) (missing : a.foreignKey ∉ t.fieldNames) :
      Defect models (.unknownJoinKey m.name a.name t.name a.foreignKey)

theorem duplicate_append {α : Type} {x : α} {before : List α} (after : List α) (h : x ∈ before) :
    List.Duplicate x (before ++ x :: after) := by
  have hbefore : [x].Sublist before := List.singleton_sublist.2 h
  have hafter : [x].Sublist (x :: after) := List.singleton_sublist.2 List.mem_cons_self
  exact List.duplicate_iff_sublist.2 (hbefore.append hafter)

namespace Catalog

variable {models order : List Model} {c : Catalog} {e : CatalogError}

theorem model?_eq_some (distinct : (c.models.map (·.name)).Nodup) {name : String} {m : Model} :
    c.model? name = some m ↔ m ∈ c.models ∧ m.name = name := by
  constructor
  · intro h
    exact model?_some h
  · rintro ⟨hm, rfl⟩
    cases h : c.model? m.name with
    | none =>
      have hne := List.find?_eq_none.1 h m hm
      simp at hne
    | some m' =>
      obtain ⟨hm', hname⟩ := model?_some h
      rw [List.inj_on_of_nodup_map distinct hm' hm hname]

/-- A fault that an error names keeps the models from making a catalog. -/
theorem WellFormed.no_defect (h : WellFormed models) : ¬ e.Defect models := by
  intro defect
  cases defect with
  | duplicateModel twice => exact twice.not_nodup h.distinct
  | reservedName mem declared reserved =>
    obtain ⟨not_aggregate, not_related⟩ := (h.named _ mem).unreserved _ declared
    exact reserved.elim not_aggregate not_related
  | duplicateMember mem twice => exact twice.not_nodup (h.named _ mem).distinct
  | unknownTarget mem declared unknown =>
    obtain ⟨t, ht, hname, -⟩ := (h.joins _ mem _ declared).target
    exact unknown t ht hname
  | unknownSource mem declared missing => exact missing (h.joins _ mem _ declared).source
  | unknownForeignKey mem declared kind target named missing =>
    obtain ⟨t, ht, hname, hkey⟩ := (h.joins _ mem _ declared).target
    have same := List.inj_on_of_nodup_map h.distinct ht target (hname.trans named.symm)
    subst same
    exact missing (hkey kind)

end Catalog

namespace Model

variable {models : List Model} {m : Model} {a : Association} {seen seen' : List String}
  {e : CatalogError}

theorem field?_isNone {name : String} : (m.field? name).isNone ↔ name ∉ m.fieldNames := by
  rw [Option.isNone_iff_eq_none, field?, List.find?_eq_none, fieldNames, List.mem_map]
  simp

theorem declare_eq_error {name : String} (h : m.declare seen name = .error e) :
    (name = "_aggregation" ∨ name = "_col") ∧ e = .reservedName m.name name ∨
      name ∈ seen ∧ e = .duplicateMember m.name name := by
  rw [declare] at h
  split at h
  · rename_i reserved
    cases h
    exact .inl ⟨isReserved_iff.1 reserved, rfl⟩
  · split at h
    · rename_i taken
      cases h
      exact .inr ⟨taken, rfl⟩
    · cases h

/-- A member is refused for its name only if that is reserved or the name of an earlier member. -/
theorem declare_defect (hm : m ∈ models) {name : String} {before after : List String}
    (members : m.memberNames = before ++ name :: after) (passed : ∀ n ∈ seen, n ∈ before)
    (h : m.declare seen name = .error e) : e.Defect models := by
  rcases declare_eq_error h with ⟨reserved, rfl⟩ | ⟨taken, rfl⟩
  · have declared : name ∈ m.memberNames := by
      rw [members]
      exact List.mem_append_right _ List.mem_cons_self
    exact .reservedName hm declared reserved
  · have twice : List.Duplicate name m.memberNames := by
      rw [members]
      exact duplicate_append after (passed name taken)
    exact .duplicateMember hm twice

theorem checkJoin_defect {t : Model} (hm : m ∈ models) (ha : a ∈ m.associations)
    (ht : t ∈ models) (named : t.name = a.target) (h : m.checkJoin a t = .error e) :
    e.Defect models := by
  rw [checkJoin, a.sourceColumn_eq] at h
  split at h
  · rename_i missing
    cases h
    exact .unknownSource hm ha (field?_isNone.1 missing)
  · split at h
    · rename_i missing
      cases h
      exact .unknownForeignKey hm ha missing.1 ht named (field?_isNone.1 missing.2)
    · cases h

theorem checkAssociation_defect (hm : m ∈ models) (ha : a ∈ m.associations)
    {before after : List String} (members : m.memberNames = before ++ a.name :: after)
    (passed : ∀ n ∈ seen, n ∈ before) (h : m.checkAssociation models seen a = .error e) :
    e.Defect models := by
  rcases bind_eq_error.1 h with h | ⟨declared, -, h⟩
  · exact declare_defect hm members passed h
  · split at h
    · rename_i unknown
      have hne : ∀ t ∈ models, t.name ≠ a.target := by simpa using unknown
      rw [← throw_eq_error.1 h]
      exact .unknownTarget hm ha hne
    · rename_i t target
      have ht := List.mem_of_find?_eq_some target
      have named : t.name = a.target := by simpa using List.find?_some target
      rcases bind_eq_error.1 h with h | ⟨-, -, h⟩
      · exact checkJoin_defect hm ha ht named h
      · exact absurd h pure_ne_error

/-- A model is refused for a fault that it has. -/
theorem check_defect (hm : m ∈ models) (h : m.check models = .error e) : e.Defect models := by
  rcases bind_eq_error.1 h with h | ⟨seen, hf, h⟩
  · obtain ⟨before, f, after, seen, hfields, hbefore, h⟩ := foldlM_eq_error h
    have hseen := (foldlM_declares Field.name (fun _ _ _ h => h) hbefore).1
    have members : m.memberNames = before.map (·.name) ++ f.name ::
        (after.map (·.name) ++ m.associations.map (·.name)) := by
      rw [memberNames, fieldNames, hfields, List.map_append, List.map_cons, List.append_assoc,
        List.cons_append]
    apply declare_defect hm members _ h
    intro n hn
    simpa using (hseen n).1 hn
  · have hfields := (foldlM_declares Field.name (fun _ _ _ h => h) hf).1
    rcases bind_eq_error.1 h with h | ⟨_, -, h⟩
    · obtain ⟨before, a, after, seen', hassociations, hbefore, h⟩ := foldlM_eq_error h
      have hseen :=
        (foldlM_declares Association.name (fun _ _ _ => checkAssociation_declares) hbefore).1
      have ha : a ∈ m.associations := by
        rw [hassociations]
        exact List.mem_append_right _ List.mem_cons_self
      have members : m.memberNames = (m.fieldNames ++ before.map (·.name)) ++ a.name ::
          after.map (·.name) := by
        rw [memberNames, hassociations, List.map_append, List.map_cons, List.append_assoc]
      apply checkAssociation_defect hm ha members _ h
      intro n hn
      -- What is declared by then are the fields and the associations in front.
      rcases (hseen n).1 hn with hn | hn
      · exact List.mem_append_right _ hn
      · apply List.mem_append_left
        simpa [fieldNames] using (hfields n).1 hn
    · exact absurd h pure_ne_error

theorem checkAssociation_joins (h : m.checkAssociation models seen a = .ok seen') :
    a.Joins models m := by
  obtain ⟨declared, -, h⟩ := bind_eq_ok.1 h
  split at h
  · cases throw_ne_ok h
  · rename_i t target
    have ht := List.mem_of_find?_eq_some target
    have named : t.name = a.target := by simpa using List.find?_some target
    obtain ⟨⟨⟩, hjoin, -⟩ := bind_eq_ok.1 h
    rw [checkJoin, a.sourceColumn_eq] at hjoin
    split at hjoin
    · cases hjoin
    · rename_i source
      split at hjoin
      · cases hjoin
      · rename_i key
        rw [field?_isNone, not_not] at source
        refine ⟨source, t, ht, named, fun kind => ?_⟩
        by_contra missing
        exact key ⟨kind, field?_isNone.2 missing⟩

theorem check_joins (h : m.check models = .ok ()) : ∀ a ∈ m.associations, a.Joins models m := by
  obtain ⟨seen, -, h⟩ := bind_eq_ok.1 h
  obtain ⟨_, hassociations, -⟩ := bind_eq_ok.1 h
  intro a ha
  obtain ⟨seen, seen', hchecked⟩ := foldlM_passes hassociations a ha
  exact checkAssociation_joins hchecked

end Model

namespace Catalog

variable {models order : List Model} {c : Catalog} {e : CatalogError} {seen : List String}

theorem checkNames_distinct (h : checkNames seen models = .ok ()) :
    (models.map (·.name)).Nodup ∧ ∀ m ∈ models, m.name ∉ seen := by
  induction models generalizing seen with
  | nil => exact ⟨.nil, List.forall_mem_nil _⟩
  | cons m models ih =>
    rw [checkNames] at h
    split at h
    · cases h
    · rename_i fresh
      obtain ⟨distinct, hfree⟩ := ih h
      have hm : ∀ m' ∈ models, m'.name ≠ m.name := by
        intro m' hm' hname
        apply hfree m' hm'
        rw [hname]
        exact List.mem_cons_self
      constructor
      · rw [List.map_cons, List.nodup_cons, List.mem_map]
        exact ⟨fun ⟨m', hm', hname⟩ => hm m' hm' hname, distinct⟩
      · intro m' hm'
        rcases List.mem_cons.1 hm' with rfl | hm'
        · exact fresh
        · exact fun hseen => hfree m' hm' (List.mem_cons_of_mem _ hseen)

/-- The first model that is refused for its name has the name of one before it. -/
theorem checkNames_defect (before : List Model) (passed : ∀ n ∈ seen, n ∈ before.map (·.name))
    (h : checkNames seen models = .error e) : e.Defect (before ++ models) := by
  induction models generalizing seen before with
  | nil => cases h
  | cons m models ih =>
    rw [checkNames] at h
    split at h
    · rename_i taken
      cases h
      apply CatalogError.Defect.duplicateModel
      rw [List.map_append, List.map_cons]
      exact duplicate_append _ (passed m.name taken)
    · have hseen : ∀ n ∈ m.name :: seen, n ∈ (before ++ [m]).map (·.name) := by
        intro n hn
        rw [List.map_append, List.mem_append]
        rcases List.mem_cons.1 hn with rfl | hn
        · exact .inr (List.mem_singleton.2 rfl)
        · exact .inl (passed n hn)
      have hmore := ih (before ++ [m]) hseen h
      rw [List.append_assoc] at hmore
      exact hmore

/-- `build` where the models are checked one by one in another order than they are listed in. -/
def buildVisiting (models order : List Model) : Except CatalogError Catalog := do
  checkNames [] models
  order.forM (Model.check models)
  return ⟨models⟩

theorem build_eq_buildVisiting (models : List Model) :
    build models = buildVisiting models models := rfl

theorem buildVisiting_wellFormed (perm : order.Perm models)
    (h : buildVisiting models order = .ok c) : c = ⟨models⟩ ∧ WellFormed models := by
  obtain ⟨⟨⟩, hnames, h⟩ := bind_eq_ok.1 h
  obtain ⟨⟨⟩, hchecked, h⟩ := bind_eq_ok.1 h
  have passed : ∀ m ∈ models, m.check models = .ok () := by
    intro m hm
    exact forM_eq_ok hchecked m (perm.mem_iff.2 hm)
  refine ⟨(pure_eq_ok.1 h).symm, (checkNames_distinct hnames).1, ?_, ?_⟩
  · exact fun m hm => Model.check_wellNamed (passed m hm)
  · exact fun m hm => Model.check_joins (passed m hm)

theorem buildVisiting_defect (perm : order.Perm models)
    (h : buildVisiting models order = .error e) : e.Defect models := by
  rcases bind_eq_error.1 h with h | ⟨⟨⟩, -, h⟩
  · exact checkNames_defect [] (List.forall_mem_nil _) h
  · rcases bind_eq_error.1 h with h | ⟨⟨⟩, -, h⟩
    · obtain ⟨m, hm, hchecked⟩ := forM_eq_error h
      exact Model.check_defect (perm.mem_iff.1 hm) hchecked
    · exact absurd h pure_ne_error

/-- Models are accepted exactly if they are well formed, whatever the order they are checked in. -/
theorem buildVisiting_eq_ok (perm : order.Perm models) :
    buildVisiting models order = .ok c ↔ c = ⟨models⟩ ∧ WellFormed models := by
  constructor
  · exact buildVisiting_wellFormed perm
  · rintro ⟨rfl, wellFormed⟩
    cases h : buildVisiting models order with
    | error e => exact absurd (buildVisiting_defect perm h) wellFormed.no_defect
    | ok c => rw [(buildVisiting_wellFormed perm h).1]

theorem build_eq_ok : build models = .ok c ↔ c = ⟨models⟩ ∧ WellFormed models := by
  rw [build_eq_buildVisiting]
  exact buildVisiting_eq_ok (.refl models)

/-- A catalog is built exactly of well-formed models, each of which is found in it under its name.
Otherwise the error names a fault of the models, in whatever order they are checked. -/
theorem build_exact (models : List Model) :
    ((∃ c, build models = .ok c) ↔ WellFormed models) ∧
    (∀ c, build models = .ok c →
      ∀ name m, c.model? name = some m ↔ m ∈ models ∧ m.name = name) ∧
    (∀ e, build models = .error e → e.Defect models) ∧
    ∀ order, order.Perm models →
      (∀ c, buildVisiting models order = .ok c ↔ build models = .ok c) ∧
        ∀ e, buildVisiting models order = .error e → e.Defect models := by
  refine ⟨?_, ?_, ?_, ?_⟩
  · constructor
    · rintro ⟨c, h⟩
      exact (build_eq_ok.1 h).2
    · intro wellFormed
      exact ⟨⟨models⟩, build_eq_ok.2 ⟨rfl, wellFormed⟩⟩
  · intro c h name m
    obtain ⟨rfl, wellFormed⟩ := build_eq_ok.1 h
    exact model?_eq_some wellFormed.distinct
  · intro e h
    exact buildVisiting_defect (.refl models) h
  · intro order perm
    constructor
    · intro c
      rw [buildVisiting_eq_ok perm, build_eq_ok]
    · intro e h
      exact buildVisiting_defect perm h

end Catalog

namespace Sample

def key (name : String) : Field := ⟨name, none, .integer, true, false, none⟩

/-- Nodes of a tree are joined with nodes, both ways over one field. -/
def node : Model where
  name := "Node"
  tableName := none
  comment := none
  fields := [key "id", key "parentId"]
  associations := [⟨"parent", .belongsTo, "Node", "parentId", "id", "id"⟩,
    ⟨"children", .hasMany, "Node", "parentId", "id", "id"⟩]

def lost : Model where
  name := "Lost"
  tableName := none
  comment := none
  fields := [key "id"]
  associations := [⟨"home", .hasOne, "Nowhere", "lostId", "id", "id"⟩]

def twins : Model where
  name := "Twins"
  tableName := none
  comment := none
  fields := [key "id", key "id"]
  associations := []

theorem built_or_faulty :
    (Catalog.build [node] = .ok ⟨[node]⟩ ∧ Catalog.WellFormed [node] ∧
      (Catalog.mk [node]).model? "Node" = some node) ∧
    (Catalog.build [lost, twins] = .error (.unknownTarget "Lost" "home" "Nowhere") ∧
      CatalogError.Defect [lost, twins] (.unknownTarget "Lost" "home" "Nowhere")) ∧
    Catalog.buildVisiting [lost, twins] [twins, lost] = .error (.duplicateMember "Twins" "id") ∧
      CatalogError.Defect [lost, twins] (.duplicateMember "Twins" "id") := by
  have built : Catalog.build [node] = .ok ⟨[node]⟩ := by decide
  have refused : Catalog.build [lost, twins] =
      .error (.unknownTarget "Lost" "home" "Nowhere") := by decide
  have visited : Catalog.buildVisiting [lost, twins] [twins, lost] =
      .error (.duplicateMember "Twins" "id") := by decide
  obtain ⟨wellFormed, found, -, -⟩ := Catalog.build_exact [node]
  obtain ⟨-, -, listed, anyOrder⟩ := Catalog.build_exact [lost, twins]
  have hnode := (found _ built "Node" node).2 ⟨List.mem_cons_self, rfl⟩
  have swapped := anyOrder [twins, lost] (.swap lost twins [])
  exact ⟨⟨built, wellFormed.1 ⟨_, built⟩, hnode⟩, ⟨refused, listed _ refused⟩, visited,
    swapped.2 _ visited⟩

end Sample

end QueryPlan
