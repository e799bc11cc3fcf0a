import QueryPlan.Proofs.Json.Plain
import QueryPlan.Proofs.Selection.Same

namespace QueryPlan.SelectedField

mutual

/-- The field and all fields that are selected below it, at every depth. -/
def everyField : SelectedField → List SelectedField
  | ⟨name, aliasName, typeName, isList, args, directivesObject, directivesField, fields⟩ =>
    ⟨name, aliasName, typeName, isList, args, directivesObject, directivesField, fields⟩ ::
      everyFieldBelow fields

def everyFieldBelow : Option (List SelectedField) → List SelectedField
  | none => []
  | some fs => everyFieldOf fs

def everyFieldOf : List SelectedField → List SelectedField
  | [] => []
  | f :: fs => everyField f ++ everyFieldOf fs

end

/-- Every object of the field's own has each of its names once, as all objects do that are read. -/
def keyedOnce (f : SelectedField) : Bool :=
  f.args.wellKeyed && f.directivesObject.wellKeyed && f.directivesField.wellKeyed

/-- Arguments and directives, at every depth, have each of their names once. -/
def wellKeyed (f : SelectedField) : Bool := f.everyField.all keyedOnce

/-- No two argument objects, of fields at whatever depth, are equal with members in different orders
at some depth. -/
def Ordered (fields : List SelectedField) : Prop :=
  ∀ f ∈ everyFieldOf fields, ∀ g ∈ everyFieldOf fields, f.args.same g.args →
    f.args.sameOrder g.args

instance (fields : List SelectedField) : Decidable (Ordered fields) :=
  inferInstanceAs (Decidable (∀ f ∈ everyFieldOf fields, ∀ g ∈ everyFieldOf fields,
    f.args.same g.args → f.args.sameOrder g.args))

variable {f g h : SelectedField} {fields : List SelectedField}

theorem everyFieldOf_eq_flatMap (fields : List SelectedField) :
    everyFieldOf fields = fields.flatMap everyField := by
  induction fields with
  | nil => rfl
  | cons f fields ih => rw [everyFieldOf, ih, List.flatMap_cons]

theorem everyField_eq (f : SelectedField) : f.everyField = f :: everyFieldOf f.children := by
  obtain ⟨name, aliasName, typeName, isList, args, directivesObject, directivesField, fields⟩ := f
  cases fields with
  | none => rfl
  | some fields => rfl

theorem mem_everyFieldOf : g ∈ everyFieldOf fields ↔ ∃ f ∈ fields, g ∈ f.everyField := by
  rw [everyFieldOf_eq_flatMap, List.mem_flatMap]

theorem self_mem_everyFieldOf (mem : f ∈ fields) : f ∈ everyFieldOf fields := by
  refine mem_everyFieldOf.2 ⟨f, mem, ?_⟩
  rw [everyField_eq]
  exact List.mem_cons_self

theorem child_mem_everyFieldOf (mem : f ∈ fields) (below : g ∈ everyFieldOf f.children) :
    g ∈ everyFieldOf fields := by
  refine mem_everyFieldOf.2 ⟨f, mem, ?_⟩
  rw [everyField_eq]
  exact List.mem_cons_of_mem f below

theorem wellKeyed_iff :
    f.wellKeyed ↔ f.args.wellKeyed ∧ f.directivesObject.wellKeyed ∧ f.directivesField.wellKeyed ∧
      ∀ child ∈ f.children, child.wellKeyed := by
  rw [wellKeyed, everyField_eq, List.all_cons, everyFieldOf_eq_flatMap, List.all_flatMap,
    Bool.and_eq_true, List.all_eq_true, keyedOnce, Bool.and_eq_true, Bool.and_eq_true, and_assoc,
    and_assoc]
  rfl

theorem same_refl (hf : f.wellKeyed) : f.same f := by
  induction f using SelectedField.induction with
  | field f ih =>
    obtain ⟨args, object, field, children⟩ := wellKeyed_iff.1 hf
    refine same_iff.2 ⟨rfl, rfl, rfl, rfl, Json.Object.same_refl args, Json.Object.same_refl object,
      Json.Object.same_refl field, rfl, List.forall₂_same.2 fun child mem => ?_⟩
    exact ih child mem (children child mem)

theorem same_symm (hf : f.wellKeyed) (hg : g.wellKeyed) (hs : f.same g) : g.same f := by
  induction f using SelectedField.induction generalizing g with
  | field f ih =>
    obtain ⟨args, object, field, children⟩ := wellKeyed_iff.1 hf
    obtain ⟨args', object', field', children'⟩ := wellKeyed_iff.1 hg
    obtain ⟨hn, ha, ht, hl, hargs, hobject, hfield, hsome, hchildren⟩ := same_iff.1 hs
    refine same_iff.2 ⟨hn.symm, ha.symm, ht.symm, hl.symm, Json.Object.same_symm args args' hargs,
      Json.Object.same_symm object object' hobject, Json.Object.same_symm field field' hfield,
      hsome.symm, List.Forall₂.flip ?_⟩
    refine forall₂_mono hchildren fun child mem child' mem' hsame => ?_
    exact ih child mem (children child mem) (children' child' mem') hsame

theorem args_plain_eq (ordered : Ordered fields) (hf : f ∈ fields) (hg : g ∈ fields)
    (keyed : g.wellKeyed) (hs : f.args.same g.args) : f.args.plain = g.args.plain := by
  have order := ordered f (self_mem_everyFieldOf hf) g (self_mem_everyFieldOf hg) hs
  exact Json.Object.plain_eq_of_same (wellKeyed_iff.1 keyed).1 hs order

end QueryPlan.SelectedField
