import QueryPlan.Proofs.Catalog.Members
import QueryPlan.Proofs.Plan.Interchange
import QueryPlan.Proofs.Plan.JoinOrder

namespace QueryPlan

/-- The second selections are the first ones under other response aliases, at a level of the model
and below its associations. What asks for computed columns is left as it is. -/
inductive Realiased (c : Catalog) : Model → List SelectedField → List SelectedField → Prop where
  | nil {m : Model} : Realiased c m [] []
  | kept {m : Model} {fs gs : List SelectedField} (f : SelectedField) (h : Realiased c m fs gs) :
      Realiased c m (f :: fs) (f :: gs)
  | renamed {m : Model} {fs gs : List SelectedField} {f : SelectedField}
      (aliasName : Option String) (unreserved : f.name ≠ "_aggregation" ∧ f.name ≠ "_col")
      (h : Realiased c m fs gs) : Realiased c m (f :: fs) ({ f with aliasName } :: gs)
  | expanded {m t : Model} {fs gs : List SelectedField} {f : SelectedField} {a : Association}
      {children renamed : List SelectedField} (aliasName : Option String)
      (unreserved : f.name ≠ "_aggregation" ∧ f.name ≠ "_col")
      (declared : m.association? f.name = some a) (target : c.model? a.target = some t)
      (selected : f.fields = some children)
      (hc : Realiased c t children renamed) (h : Realiased c m fs gs) :
      Realiased c m (f :: fs) ({ f with aliasName, fields := some renamed } :: gs)

/-- What two selections have in common that differ in response aliases. -/
structure SameButAliases (c : Catalog) (m : Model) (f g : SelectedField) : Prop where
  name : f.name = g.name
  args : f.args = g.args
  reserved : f.name = "_aggregation" ∨ f.name = "_col" → f = g
  isEmpty : f.children.isEmpty = g.children.isEmpty
  below : ∀ a t, m.association? f.name = some a → c.model? a.target = some t →
    Realiased c t f.children g.children

theorem SameButAliases.of_unreserved {c : Catalog} {m : Model} {f g : SelectedField}
    (unreserved : f.name ≠ "_aggregation" ∧ f.name ≠ "_col") (name : f.name = g.name)
    (args : f.args = g.args) (isEmpty : f.children.isEmpty = g.children.isEmpty)
    (below : ∀ a t, m.association? f.name = some a → c.model? a.target = some t →
      Realiased c t f.children g.children) : SameButAliases c m f g := by
  refine ⟨name, args, ?_, isEmpty, below⟩
  intro reserved
  exact absurd reserved (not_or.2 unreserved)

namespace Realiased

variable {c : Catalog} {m : Model} {fs gs fs' gs' : List SelectedField}

theorem refl (fields : List SelectedField) : Realiased c m fields fields := by
  induction fields with
  | nil => exact .nil
  | cons f fields ih => exact .kept f ih

theorem append (h : Realiased c m fs gs) (h' : Realiased c m fs' gs') :
    Realiased c m (fs ++ fs') (gs ++ gs') := by
  induction h with
  | nil => exact h'
  | kept f _ ih => exact .kept f (ih h')
  | renamed aliasName unreserved _ ih => exact .renamed aliasName unreserved (ih h')
  | expanded aliasName unreserved declared target selected hc _ _ ih =>
    exact .expanded aliasName unreserved declared target selected hc (ih h')

theorem isEmpty (h : Realiased c m fs gs) : fs.isEmpty = gs.isEmpty := by
  cases h <;> rfl

theorem sameButAliases (h : Realiased c m fs gs) : List.Forall₂ (SameButAliases c m) fs gs := by
  induction h with
  | nil => exact .nil
  | kept f _ ih => exact .cons ⟨rfl, rfl, fun _ => rfl, rfl, fun _ _ _ _ => refl _⟩ ih
  | renamed aliasName unreserved _ ih =>
    exact .cons (.of_unreserved unreserved rfl rfl rfl fun _ _ _ _ => refl _) ih
  | @expanded m t fs gs f a children renamed aliasName unreserved declared target selected hc _ _
      ih =>
    have hf : f.children = children := by
      rw [SelectedField.children, selected]
      rfl
    refine .cons (.of_unreserved unreserved rfl rfl ?_ ?_) ih
    · rw [hf]
      exact hc.isEmpty
    · intro a' t' declared' target'
      cases declared.symm.trans declared'
      cases target.symm.trans target'
      rw [hf]
      exact hc

end Realiased

namespace SameButAliases

variable {c : Catalog} {m : Model} {f g : SelectedField} {fs gs : List SelectedField}

theorem expands (h : SameButAliases c m f g) : m.expands f = m.expands g := by
  rw [Model.expands, Model.expands, h.name, h.isEmpty]

theorem role (h : SameButAliases c m f g) : m.role f = m.role g := by
  rw [Model.role, Model.role, h.name, h.isEmpty]

theorem filter {keep : SelectedField → Bool} (h : List.Forall₂ (SameButAliases c m) fs gs)
    (hk : ∀ f g, SameButAliases c m f g → keep f = keep g) :
    List.Forall₂ (SameButAliases c m) (fs.filter keep) (gs.filter keep) := by
  refine List.rel_filter ?_ h
  intro f g hfg
  exact iff_of_eq (congrArg (· = true) (hk f g hfg))

theorem names (h : List.Forall₂ (SameButAliases c m) fs gs) :
    fs.map (·.name) = gs.map (·.name) :=
  map_eq_of_forall₂ h fun _ _ hfg => hfg.name

theorem args_eq (h : List.Forall₂ (SameButAliases c m) fs gs) :
    fs.map (·.args) = gs.map (·.args) :=
  map_eq_of_forall₂ h fun _ _ hfg => hfg.args

theorem eq_of_reserved (h : List.Forall₂ (SameButAliases c m) fs gs)
    (reserved : ∀ f ∈ fs, f.name = "_aggregation" ∨ f.name = "_col") : fs = gs := by
  have both := (List.forall₂_and_left _ _).2 ⟨reserved, h⟩
  rw [← List.forall₂_eq_eq_eq]
  exact both.imp fun _ _ hfg => hfg.2.reserved hfg.1

theorem children {a : Association} {t : Model} {association : String}
    (h : List.Forall₂ (SameButAliases c m) fs gs) (named : ∀ f ∈ fs, f.name = association)
    (declared : m.association? association = some a) (target : c.model? a.target = some t) :
    Realiased c t (fs.flatMap (·.children)) (gs.flatMap (·.children)) := by
  induction h with
  | nil => exact .nil
  | @cons f g fs gs hfg _ ih =>
    obtain ⟨hf, hfs⟩ := List.forall_mem_cons.1 named
    rw [← hf] at declared
    rw [List.flatMap_cons, List.flatMap_cons]
    exact (hfg.below a t declared target).append (ih hfs)

end SameButAliases

namespace Realiased

variable {c : Catalog} {m : Model} {fs gs : List SelectedField} (h : Realiased c m fs gs)
  (args : Json.Object)
include h

theorem inRole (role : Role) :
    List.Forall₂ (SameButAliases c m) ((Query.mk m args fs).inRole role)
      ((Query.mk m args gs).inRole role) := by
  apply SameButAliases.filter h.sameButAliases
  intro f g hfg
  rw [hfg.role]

theorem selections (association : String) :
    List.Forall₂ (SameButAliases c m) ((Query.mk m args fs).selections association)
      ((Query.mk m args gs).selections association) := by
  apply SameButAliases.filter h.sameButAliases
  intro f g hfg
  rw [hfg.expands, hfg.name]

theorem inRole_eq {role : Role}
    (reserved : ∀ f, m.role f = role → f.name = "_aggregation" ∨ f.name = "_col") :
    (Query.mk m args fs).inRole role = (Query.mk m args gs).inRole role := by
  apply SameButAliases.eq_of_reserved (h.inRole args role)
  intro f hf
  have kept := List.of_mem_filter hf
  exact reserved f (of_decide_eq_true kept)

theorem expanded_eq : m.expanded fs = m.expanded gs := by
  have expanded := SameButAliases.filter h.sameButAliases fun _ _ hfg => hfg.expands
  rw [Model.expanded, Model.expanded, SameButAliases.names expanded]

end Realiased

namespace Planner

variable {p : Planner} {n : Nat} {m : Model} {fs gs : List SelectedField}

/-- Selections under other response aliases are planned alike if those below them are. -/
theorem alike_realiased (h : Realiased p.catalog m fs gs) (args : Json.Object)
    (below : ∀ t args fs gs, Realiased p.catalog t fs gs →
      p.level n t args fs = p.level n t args gs) :
    (Query.mk m args fs).Alike p n (Query.mk m args gs) where
  model := rfl
  args := rfl
  attributes := SameButAliases.names (h.inRole args .attribute)
  aggregates := h.inRole_eq args fun _ hf => .inl (Model.fits_of_role hf)
  relatedColumns := h.inRole_eq args fun _ hf => .inr (Model.fits_of_role hf)
  expanded := h.expanded_eq
  expands := by
    intro association
    have selections := h.selections args association
    have args_eq := SameButAliases.args_eq selections
    constructor
    · rw [args_eq]
    · rw [args_eq]
    · intro a t nested declared target
      apply below
      refine SameButAliases.children selections ?_ declared target
      intro f hf
      have kept := List.of_mem_filter hf
      rw [Bool.and_eq_true] at kept
      exact of_decide_eq_true kept.2

theorem level_realiased (h : Realiased p.catalog m fs gs) (args : Json.Object) :
    p.level n m args fs = p.level n m args gs := by
  induction n generalizing m args fs gs with
  | zero => rfl
  | succ n ih =>
    have below : ∀ t args fs gs, Realiased p.catalog t fs gs →
        p.level n t args fs = p.level n t args gs :=
      fun t args fs gs hc => ih hc args
    exact level_alike (alike_realiased h args below)

/-- The plan of selected fields, or the reason why there is none, does not depend on the response
aliases of fields and associations. -/
theorem compile_realiased (h : Realiased p.catalog m fs gs) (args : Json.Object) :
    p.compile m args (.fields fs) = p.compile m args (.fields gs) := by
  apply compile_congr
  intro n
  exact level_realiased h args

end Planner

namespace Sample

/-- The projects again under other response keys, which makes them no duplicate of the first. -/
def retitledProjects : SelectedField :=
  { ownedProjects with
    aliasName := some "work"
    fields := some [{ selected "title" with aliasName := some "heading" }, ownerName] }

theorem ownedProjects_realiased :
    planner.compile user [] (.fields [ownedProjects, ownedProjects]) = .ok ownedProjectsPlan ∧
      planner.compile user [] (.fields [ownedProjects, retitledProjects]) =
        .ok ownedProjectsPlan := by
  have compiled : planner.compile user [] (.fields [ownedProjects, ownedProjects]) =
      .ok ownedProjectsPlan := by
    with_unfolding_all rfl
  have titles : Realiased planner.catalog project [selected "title", ownerName]
      [{ selected "title" with aliasName := some "heading" }, ownerName] :=
    .renamed (some "heading") (by decide) (.kept ownerName .nil)
  have realiased : Realiased planner.catalog user [ownedProjects, ownedProjects]
      [ownedProjects, retitledProjects] :=
    .kept ownedProjects (.expanded (some "work") (by decide) rfl rfl rfl titles .nil)
  have renamed := Planner.compile_realiased realiased []
  exact ⟨compiled, renamed.symm.trans compiled⟩

end Sample

end QueryPlan
