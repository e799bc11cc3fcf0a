import QueryPlan.Plan.Siblings
import QueryPlan.Proofs.Catalog.Lookup
import QueryPlan.Proofs.Traversal

namespace QueryPlan

theorem isReserved_iff {name : String} :
    isReserved name ↔ name = "_aggregation" ∨ name = "_col" := by
  rw [isReserved, Bool.or_eq_true, beq_iff_eq, beq_iff_eq]
  rfl

theorem isReserved_eq_false {name : String} :
    isReserved name = false ↔ name ≠ "_aggregation" ∧ name ≠ "_col" := by
  rw [← Bool.not_eq_true, isReserved_iff, not_or]

/-- What a field of this role is to the model. -/
def Role.Fits (m : Model) (f : SelectedField) : Role → Prop
  | .expansion => (m.association? f.name).isSome
  | .attribute => (m.field? f.name).isSome
  | .aggregate => f.name = "_aggregation"
  | .relatedColumn => f.name = "_col"
  | .ignored => True

namespace Model

def memberNames (m : Model) : List String := m.fieldNames ++ m.associations.map (·.name)

/-- Every field and association has a name of its own, and none that asks for a computed column. -/
structure WellNamed (m : Model) : Prop where
  distinct : m.memberNames.Nodup
  unreserved : ∀ name ∈ m.memberNames, name ≠ "_aggregation" ∧ name ≠ "_col"

variable {m : Model} {seen seen' : List String} {name : String}

theorem declare_eq_ok :
    m.declare seen name = .ok seen' ↔
      (name ≠ "_aggregation" ∧ name ≠ "_col") ∧ name ∉ seen ∧ name :: seen = seen' := by
  rw [← isReserved_eq_false, declare]
  split
  · rename_i h
    simp [h]
  · rename_i h
    split
    · rename_i hseen
      simp [hseen]
    · rename_i hseen
      simp [h, hseen]

theorem checkAssociation_declares {models : List Model} {a : Association}
    (h : m.checkAssociation models seen a = .ok seen') : m.declare seen a.name = .ok seen' := by
  obtain ⟨declared, hd, h⟩ := bind_eq_ok.1 h
  split at h
  · cases throw_ne_ok h
  · obtain ⟨-, -, h⟩ := bind_eq_ok.1 h
    rw [pure_eq_ok.1 h] at hd
    exact hd

/-- Members that are declared one after the other have distinct names, all of them free before. -/
theorem foldlM_declares {α : Type} {step : List String → α → Except CatalogError (List String)}
    (nameOf : α → String) {members : List α}
    (hstep : ∀ seen a seen', step seen a = .ok seen' → m.declare seen (nameOf a) = .ok seen')
    (h : members.foldlM step seen = .ok seen') :
    (∀ name, name ∈ seen' ↔ name ∈ members.map nameOf ∨ name ∈ seen) ∧
      (members.map nameOf).Nodup ∧
      ∀ name ∈ members.map nameOf, (name ≠ "_aggregation" ∧ name ≠ "_col") ∧ name ∉ seen := by
  induction members generalizing seen with
  | nil =>
    cases pure_eq_ok.1 h
    simp
  | cons a members ih =>
    rw [List.foldlM_cons] at h
    obtain ⟨middle, ha, h⟩ := bind_eq_ok.1 h
    obtain ⟨unreserved, fresh, rfl⟩ := declare_eq_ok.1 (hstep seen a middle ha)
    obtain ⟨hseen, distinct, hnames⟩ := ih h
    rw [List.map_cons]
    refine ⟨?_, ?_, ?_⟩
    · intro name
      rw [hseen, List.mem_cons, List.mem_cons]
      tauto
    · refine List.nodup_cons.2 ⟨fun hmem => ?_, distinct⟩
      exact (hnames _ hmem).2 List.mem_cons_self
    · intro name hname
      rcases List.mem_cons.1 hname with rfl | hname
      · exact ⟨unreserved, fresh⟩
      · refine ⟨(hnames name hname).1, fun hmem => ?_⟩
        exact (hnames name hname).2 (List.mem_cons_of_mem _ hmem)

theorem check_wellNamed {models : List Model} (h : m.check models = .ok ()) : m.WellNamed := by
  obtain ⟨seen, hf, h⟩ := bind_eq_ok.1 h
  obtain ⟨seen', ha, -⟩ := bind_eq_ok.1 h
  obtain ⟨hseen, hfields, hfree⟩ := foldlM_declares Field.name (fun _ _ _ h => h) hf
  obtain ⟨-, hassociations, hfree'⟩ :=
    foldlM_declares Association.name (fun _ _ _ => checkAssociation_declares) ha
  refine ⟨List.nodup_append.2 ⟨hfields, hassociations, ?_⟩, ?_⟩
  · rintro name hfield _ hassociation rfl
    exact (hfree' name hassociation).2 ((hseen name).2 (.inl hfield))
  · intro name hname
    rcases List.mem_append.1 hname with hfield | hassociation
    · exact (hfree name hfield).1
    · exact (hfree' name hassociation).1

theorem role_fits (m : Model) (f : SelectedField) : (m.role f).Fits m f := by
  rw [role]
  split
  · rename_i h
    rw [Bool.and_eq_true] at h
    exact h.1
  · split
    · assumption
    · split
      · assumption
      · split
        · assumption
        · trivial

theorem fits_of_role {f : SelectedField} {role : Role} (h : m.role f = role) : role.Fits m f := by
  rw [← h]
  exact m.role_fits f

theorem fieldName_mem {f : Field} (h : m.field? name = some f) : name ∈ m.fieldNames := by
  obtain ⟨hf, rfl⟩ := field?_some h
  exact List.mem_map_of_mem hf

theorem associationName_mem {a : Association} (h : m.association? name = some a) :
    name ∈ m.associations.map (·.name) := by
  obtain ⟨ha, rfl⟩ := association?_some h
  exact List.mem_map_of_mem ha

namespace WellNamed

variable (h : m.WellNamed) {f : SelectedField}
include h

theorem association?_eq_none (declared : (m.field? name).isSome) : m.association? name = none := by
  obtain ⟨field, hf⟩ := Option.isSome_iff_exists.1 declared
  cases ha : m.association? name with
  | none => rfl
  | some a =>
    have disjoint := (List.nodup_append.1 h.distinct).2.2
    exact absurd rfl (disjoint name (fieldName_mem hf) name (associationName_mem ha))

theorem undeclared (reserved : name = "_aggregation" ∨ name = "_col") :
    m.field? name = none ∧ m.association? name = none := by
  have unknown : name ∉ m.memberNames := by
    intro declared
    obtain ⟨not_aggregate, not_related⟩ := h.unreserved name declared
    exact reserved.elim not_aggregate not_related
  refine ⟨?_, ?_⟩
  · cases hf : m.field? name with
    | none => rfl
    | some f => exact absurd (List.mem_append_left _ (fieldName_mem hf)) unknown
  · cases ha : m.association? name with
    | none => rfl
    | some a => exact absurd (List.mem_append_right _ (associationName_mem ha)) unknown

theorem role_eq_attribute : m.role f = .attribute ↔ (m.field? f.name).isSome := by
  refine ⟨fun hrole => fits_of_role hrole, fun declared => ?_⟩
  rw [role, h.association?_eq_none declared, if_neg (by simp), if_pos declared]

theorem role_eq_aggregate : m.role f = .aggregate ↔ f.name = "_aggregation" := by
  refine ⟨fun hrole => fits_of_role hrole, fun hname => ?_⟩
  obtain ⟨hfield, hassociation⟩ := h.undeclared (.inl hname)
  have asks : f.name = aggregationField := hname
  rw [role, hassociation, hfield, if_neg (by simp), if_neg (by simp), if_pos asks]

theorem role_eq_relatedColumn : m.role f = .relatedColumn ↔ f.name = "_col" := by
  refine ⟨fun hrole => fits_of_role hrole, fun hname => ?_⟩
  obtain ⟨hfield, hassociation⟩ := h.undeclared (.inr hname)
  have hne : f.name ≠ aggregationField := by
    rw [hname]
    decide
  have asks : f.name = relatedColumnField := hname
  rw [role, hassociation, hfield, if_neg (by simp), if_neg (by simp), if_neg hne, if_pos asks]

end WellNamed

end Model

namespace Catalog

variable {models : List Model} {c : Catalog}

theorem build_wellNamed (h : build models = .ok c) : ∀ m ∈ c.models, m.WellNamed := by
  obtain ⟨-, -, h⟩ := bind_eq_ok.1 h
  obtain ⟨⟨⟩, hchecked, h⟩ := bind_eq_ok.1 h
  cases pure_eq_ok.1 h
  intro m hm
  exact Model.check_wellNamed (forM_eq_ok hchecked m hm)

end Catalog

end QueryPlan
