import QueryPlan.Proofs.Json.Same
import QueryPlan.Selection.Basic

namespace QueryPlan.SelectedField

variable {f g h : SelectedField}

/-- Induction that takes what is selected below a field together. -/
theorem induction {motive : SelectedField → Prop}
    (field : ∀ f : SelectedField, (∀ child ∈ f.children, motive child) → motive f) :
    ∀ f, motive f := by
  intro f
  refine field f fun child mem => ?_
  exact induction field child
termination_by f => sizeOf f
decreasing_by
  obtain ⟨name, aliasName, typeName, isList, args, directivesObject, directivesField, fields⟩ := f
  cases fields with
  | none => cases mem
  | some fields =>
    have := List.sizeOf_lt_of_mem (show child ∈ fields from mem)
    simp only [SelectedField.mk.sizeOf_spec, Option.some.sizeOf_spec]
    omega

theorem sameList_iff {fs gs : List SelectedField} :
    sameList fs gs ↔ List.Forall₂ (fun f g => f.same g) fs gs := by
  induction fs generalizing gs with
  | nil => cases gs <;> simp [sameList]
  | cons f fs ih => cases gs <;> simp [sameList, ih]

theorem sameChildren_iff {fs gs : Option (List SelectedField)} :
    sameChildren fs gs ↔ fs.isSome = gs.isSome ∧
      List.Forall₂ (fun f g => f.same g) (fs.getD []) (gs.getD []) := by
  cases fs with
  | none => cases gs <;> simp [sameChildren]
  | some fs => cases gs <;> simp [sameChildren, sameList_iff]

theorem same_iff :
    f.same g ↔ f.name = g.name ∧ f.aliasName = g.aliasName ∧ f.typeName = g.typeName ∧
      f.isList = g.isList ∧ f.args.same g.args ∧ f.directivesObject.same g.directivesObject ∧
      f.directivesField.same g.directivesField ∧ f.fields.isSome = g.fields.isSome ∧
      List.Forall₂ (fun f g => f.same g) f.children g.children := by
  cases f
  simp only [same, Bool.and_eq_true, beq_iff_eq, sameChildren_iff, and_assoc, children]

theorem same_args (hs : f.same g) : f.args.same g.args := (same_iff.1 hs).2.2.2.2.1

theorem same_children (hs : f.same g) :
    List.Forall₂ (fun f g => f.same g) f.children g.children := by
  obtain ⟨-, -, -, -, -, -, -, -, hchildren⟩ := same_iff.1 hs
  exact hchildren

theorem same_trans (hfg : f.same g) (hgh : g.same h) : f.same h := by
  induction f using SelectedField.induction generalizing g h with
  | field f ih =>
    obtain ⟨hn, ha, ht, hl, hargs, hobject, hfield, hsome, hchildren⟩ := same_iff.1 hfg
    obtain ⟨hn', ha', ht', hl', hargs', hobject', hfield', hsome', hchildren'⟩ := same_iff.1 hgh
    exact same_iff.2 ⟨hn.trans hn', ha.trans ha', ht.trans ht', hl.trans hl',
      Json.Object.same_trans hargs hargs', Json.Object.same_trans hobject hobject',
      Json.Object.same_trans hfield hfield', hsome.trans hsome',
      forall₂_trans hchildren hchildren' fun child mem g h => ih child mem⟩

end QueryPlan.SelectedField
