import QueryPlan.Proofs.Plan.Interchange
import QueryPlan.Proofs.Plan.ReadFields

namespace QueryPlan

theorem Json.Object.agree_repeated {a b : Json.Object} (h : b.same a) (os ps : List Json.Object) :
    agree (os ++ a :: b :: ps) = agree (os ++ a :: ps) := by
  cases os with
  | nil => simp only [List.nil_append, agree, List.all_cons, h, Bool.true_and]
  | cons first os =>
    simp only [List.cons_append, agree, List.all_append, List.all_cons]
    cases ha : a.same first with
    | false => rfl
    | true => rw [Object.same_trans h ha, Bool.true_and]

namespace SelectedField

variable {f g : SelectedField} {keep : SelectedField → Bool}
  {before between after : List SelectedField}

/-- The selection with all that another one selects after what it selects itself. -/
def merge (f g : SelectedField) : SelectedField :=
  { f with fields := some (f.children ++ g.children) }

theorem merge_name : (f.merge g).name = f.name := rfl

theorem merge_children : (f.merge g).children = f.children ++ g.children := rfl

theorem filter_merge (hf : keep f = false) (hg : keep g = false) (hm : keep (f.merge g) = false) :
    (before ++ f :: (between ++ g :: after)).filter keep =
      (before ++ f.merge g :: (between ++ after)).filter keep := by
  simp [List.filter_append, hf, hg, hm]

end SelectedField

/-- An association is expanded at two places with equal arguments, and not between them. -/
structure SplitSelection (m : Model) (f g : SelectedField) (between : List SelectedField) :
    Prop where
  declared : (m.association? f.name).isSome
  named : g.name = f.name
  first : f.children ≠ []
  second : g.children ≠ []
  same : g.args.same f.args
  apart : ∀ x ∈ between, x.name = f.name → x.children = []

namespace SplitSelection

variable {m : Model} {f g : SelectedField} {between : List SelectedField}
  (h : SplitSelection m f g between) {args : Json.Object} (before after : List SelectedField)
include h

theorem expands_first : m.expands f := by
  simp [Model.expands, h.declared, h.first]

theorem expands_second : m.expands g := by
  simp [Model.expands, h.named, h.declared, h.second]

theorem expands_merge : m.expands (f.merge g) := by
  simp [Model.expands, SelectedField.merge_name, SelectedField.merge_children, h.declared, h.first]

theorem inRole_merge {role : Role} (hr : role ≠ .expansion) :
    (Query.mk m args (before ++ f :: (between ++ g :: after))).inRole role =
      (Query.mk m args (before ++ f.merge g :: (between ++ after))).inRole role := by
  have other : ∀ x, m.expands x → decide (m.role x = role) = false := by
    intro x hx
    rw [Model.role_eq_expansion.2 hx]
    exact decide_eq_false hr.symm
  exact SelectedField.filter_merge (other f h.expands_first) (other g h.expands_second)
    (other _ h.expands_merge)

theorem expanded_merge :
    m.expanded (before ++ f :: (between ++ g :: after)) =
      m.expanded (before ++ f.merge g :: (between ++ after)) := by
  have seen : g.name ∈ (before.filter m.expands).map (·.name) ++
      f.name :: (between.filter m.expands).map (·.name) := by
    rw [h.named]
    exact List.mem_append_right _ List.mem_cons_self
  have names := eraseDups_append_cons seen ((after.filter m.expands).map (·.name))
  simpa [Model.expanded, List.filter_append, h.expands_first, h.expands_second, h.expands_merge,
    SelectedField.merge_name] using names

theorem selections_of_ne {association : String} (hne : f.name ≠ association) :
    (Query.mk m args (before ++ f :: (between ++ g :: after))).selections association =
      (Query.mk m args (before ++ f.merge g :: (between ++ after))).selections association := by
  apply SelectedField.filter_merge
  · simp [hne]
  · simp [h.named, hne]
  · simp [SelectedField.merge_name, hne]

theorem selections_between : (Query.mk m args between).selections f.name = [] := by
  apply List.filter_eq_nil_iff.2
  intro x hx
  simp only [Bool.and_eq_true, decide_eq_true_eq, not_and, Model.expands]
  intro expands named
  simp [h.apart x hx named] at expands

theorem selections_split :
    (Query.mk m args (before ++ f :: (between ++ g :: after))).selections f.name =
      (Query.mk m args before).selections f.name ++
        f :: g :: (Query.mk m args after).selections f.name := by
  have hb : (Query.mk m args between).selections f.name = [] := h.selections_between
  simp only [Query.selections] at hb ⊢
  simp [List.filter_append, hb, h.expands_first, h.expands_second, h.named]

theorem selections_merge :
    (Query.mk m args (before ++ f.merge g :: (between ++ after))).selections f.name =
      (Query.mk m args before).selections f.name ++
        f.merge g :: (Query.mk m args after).selections f.name := by
  have hb : (Query.mk m args between).selections f.name = [] := h.selections_between
  simp only [Query.selections] at hb ⊢
  simp [List.filter_append, hb, h.expands_merge, SelectedField.merge_name]

theorem expandsAlike_merge (p : Planner) (n : Nat) (association : String) :
    (Query.mk m args (before ++ f :: (between ++ g :: after))).ExpandsAlike p n
      (Query.mk m args (before ++ f.merge g :: (between ++ after))) association := by
  by_cases hname : f.name = association
  · subst hname
    constructor
    · rw [h.selections_split, h.selections_merge, List.map_append, List.map_append,
        List.head?_append, List.head?_append]
      rfl
    · rw [h.selections_split, h.selections_merge, List.map_append, List.map_append]
      exact Json.Object.agree_repeated h.same _ _
    · intro a t nested declared target
      have children : ((Query.mk m args before).selections f.name ++
            f :: g :: (Query.mk m args after).selections f.name).flatMap (·.children) =
          ((Query.mk m args before).selections f.name ++
            f.merge g :: (Query.mk m args after).selections f.name).flatMap (·.children) := by
        simp only [List.flatMap_append, List.flatMap_cons, SelectedField.merge_children,
          List.append_assoc]
      rw [h.selections_split, h.selections_merge, children]
  · exact .of_selections (h.selections_of_ne before after hname)

theorem alike_merge (p : Planner) (n : Nat) :
    (Query.mk m args (before ++ f :: (between ++ g :: after))).Alike p n
      (Query.mk m args (before ++ f.merge g :: (between ++ after))) where
  model := rfl
  args := rfl
  attributes := by rw [h.inRole_merge before after (by decide)]
  aggregates := h.inRole_merge before after (by decide)
  relatedColumns := h.inRole_merge before after (by decide)
  expanded := h.expanded_merge before after
  expands := h.expandsAlike_merge before after p n

end SplitSelection

/-- Two selections of an association plan, or fail to plan, like one that selects everything that
is selected below either of them. -/
theorem Planner.compile_merge {p : Planner} {m : Model} {f g : SelectedField}
    {between : List SelectedField} (h : SplitSelection m f g between) (args : Json.Object)
    (before after : List SelectedField) :
    p.compile m args (.fields (before ++ f :: (between ++ g :: after))) =
      p.compile m args (.fields (before ++ f.merge g :: (between ++ after))) := by
  apply compile_congr
  intro n
  cases n with
  | zero => rfl
  | succ n => exact level_alike (h.alike_merge before after p n)

namespace Sample

def ownerNamed : SelectedField :=
  { owner "name" with args := [("limit", .ofNat 1), ("required", .bool true)] }

/-- The owner under another response key, with the same arguments in another order. -/
def ownerAged : SelectedField :=
  { owner "age" with
    aliasName := some "who"
    args := [("required", .bool true), ("limit", .ofNat 1)] }

def splitOwnerPlan : CompiledQuery where
  descriptor := {
    options := { attributes := some (.columns [.column "title", .column "ownerId"]) }
    joins := [{
      model := "User"
      aliasName := "owner"
      options := {
        attributes := some (.columns [.column "name", .column "age"])
        limit := some 1
        required := some true }
      joins := [] }] }
  touchedFields := .ofList ["Project.title", "User.age", "User.name"]

theorem splitOwner_merge :
    planner.compile project [] (.fields [ownerNamed, selected "title", ownerAged]) =
        .ok splitOwnerPlan ∧
      planner.compile project [] (.fields [ownerNamed.merge ownerAged, selected "title"]) =
        .ok splitOwnerPlan := by
  have compiled : planner.compile project []
      (.fields [ownerNamed, selected "title", ownerAged]) = .ok splitOwnerPlan := by
    with_unfolding_all rfl
  have split : SplitSelection project ownerNamed ownerAged [selected "title"] := by
    refine ⟨rfl, rfl, List.cons_ne_nil _ _, List.cons_ne_nil _ _, ?_, ?_⟩
    · with_unfolding_all rfl
    · decide
  have merged := Planner.compile_merge (p := planner) split [] [] []
  exact ⟨compiled, merged.symm.trans compiled⟩

end Sample

end QueryPlan
