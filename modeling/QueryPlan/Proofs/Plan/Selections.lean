import QueryPlan.Plan.Siblings
import QueryPlan.Proofs.Catalog.Lookup
import QueryPlan.Proofs.FirstSeen

namespace QueryPlan

theorem SelectedField.same_name {f g : SelectedField} (h : f.same g) : f.name = g.name := by
  cases f
  simp only [same, Bool.and_eq_true, beq_iff_eq] at h
  exact h.1.1.1.1.1.1.1

theorem SelectedField.sameChildren_isEmpty {fs gs : Option (List SelectedField)}
    (h : sameChildren fs gs) : (fs.getD []).isEmpty = (gs.getD []).isEmpty := by
  cases fs with
  | none =>
    cases gs with
    | none => rfl
    | some gs => simp [sameChildren] at h
  | some fs =>
    cases gs with
    | none => simp [sameChildren] at h
    | some gs =>
      cases fs <;> cases gs <;> simp_all [sameChildren, sameList]

theorem SelectedField.same_children_isEmpty {f g : SelectedField} (h : f.same g) :
    f.children.isEmpty = g.children.isEmpty := by
  cases f
  simp only [same, Bool.and_eq_true] at h
  exact sameChildren_isEmpty h.2

namespace Model

variable {m : Model} {f g : SelectedField}

/-- An association is expanded where something is selected below it. -/
def expands (m : Model) (f : SelectedField) : Bool :=
  (m.association? f.name).isSome && !f.children.isEmpty

theorem role_eq_expansion : m.role f = .expansion ↔ m.expands f := by
  rw [role, expands]
  split
  · simp_all
  · simp_all only [Bool.false_eq_true, iff_false]
    split
    · nofun
    · split
      · nofun
      · split <;> nofun

theorem decide_role_expansion (m : Model) (f : SelectedField) :
    decide (m.role f = .expansion) = m.expands f := by
  rw [Bool.eq_iff_iff, decide_eq_true_iff]
  exact role_eq_expansion

theorem role_same (h : f.same g) : m.role f = m.role g := by
  rw [role, role, SelectedField.same_name h, SelectedField.same_children_isEmpty h]

/-- The selections by which a level expands an association, each once. -/
def selectionsOf (m : Model) (fields : List SelectedField) (association : String) :
    List SelectedField :=
  (fields.eraseDupsBy SelectedField.same).filter fun f => m.expands f && f.name = association

/-- The associations that a level expands, in the order in which they are first selected. -/
def expanded (m : Model) (fields : List SelectedField) : List String :=
  ((fields.filter m.expands).map (·.name)).eraseDups

end Model

namespace Siblings

variable {m : Model} {fields fs : List SelectedField} {e : Expansion} {role : Role}

theorem group_names (fs : List SelectedField) :
    (group fs).map (·.name) = (fs.map (·.name)).eraseDups := by
  fun_induction group fs with
  | case1 => rfl
  | case2 f fs ih =>
    rw [List.map_cons, ih, List.map_cons, List.eraseDups_cons, List.filter_map, notNamed]
    congr 3
    refine List.filter_congr fun g _ => ?_
    rw [Function.comp_apply, Bool.eq_iff_iff]
    simp

theorem selections_of_mem_group (h : e ∈ group fs) :
    e.selections = fs.filter (·.name = e.name) := by
  fun_induction group fs with
  | case1 => cases h
  | case2 f fs ih =>
    rcases List.mem_cons.1 h with rfl | h
    · exact (List.filter_cons_of_pos (by simp)).symm
    · have hs := ih h
      have hne : e.name ≠ f.name := by
        have hf : e.first ∈ e.selections := List.mem_cons_self
        rw [hs, notNamed] at hf
        have hkept := List.of_mem_filter (List.mem_of_mem_filter hf)
        exact of_decide_eq_true hkept
      rw [hs, notNamed, List.filter_filter,
        List.filter_cons_of_neg (by simpa using hne.symm)]
      refine List.filter_congr fun g _ => ?_
      by_cases hg : g.name = e.name
      · simp [hg, hne]
      · simp [hg]

theorem role_of_mem_inRole {s : Siblings} {role : Role} {f : SelectedField}
    (h : f ∈ s.inRole role) : s.model.role f = role := by
  simpa using (List.mem_filter.1 h).2

theorem mem_of_mem_inRole {f : SelectedField} (h : f ∈ (of m fields).inRole role) : f ∈ fields :=
  (eraseDupsBy_sublist _).subset (List.mem_of_mem_filter h)

theorem inRole_expansion :
    (of m fields).inRole .expansion = (fields.eraseDupsBy SelectedField.same).filter m.expands :=
  List.filter_congr fun f _ => m.decide_role_expansion f

theorem inRole_of (role : Role) :
    (of m fields).inRole role =
      (fields.filter (m.role · = role)).eraseDupsBy SelectedField.same := by
  refine filter_eraseDupsBy ?_ fields
  intro f g hfg
  rw [Model.role_same hfg]

theorem names_inRole (role : Role) :
    (((of m fields).inRole role).map (·.name)).eraseDups =
      ((fields.filter (m.role · = role)).map (·.name)).eraseDups := by
  rw [inRole_of]
  exact eraseDups_map_eraseDupsBy (fun _ _ h => SelectedField.same_name h) _

theorem names_expansions : (of m fields).expansions.map (·.name) = m.expanded fields := by
  rw [expansions, group_names, names_inRole, Model.expanded]
  simp only [Model.decide_role_expansion]

theorem joinColumns_of :
    (of m fields).joinColumns =
      (m.expanded fields).filterMap fun name => (m.association? name).map (·.joinKey) := by
  rw [← names_expansions, List.filterMap_map, joinColumns]
  simp only [Association.sourceColumn_eq]
  rfl

theorem mem_attributes {name : String} :
    name ∈ (of m fields).attributes ↔ ∃ f ∈ fields, m.role f = .attribute ∧ f.name = name := by
  rw [attributes, names_inRole, List.mem_eraseDups, List.mem_map]
  simp only [List.mem_filter, decide_eq_true_eq, and_assoc]

theorem selections_of_mem_expansions (h : e ∈ (of m fields).expansions) :
    e.selections = m.selectionsOf fields e.name := by
  rw [selections_of_mem_group h, inRole_expansion, List.filter_filter, Model.selectionsOf]
  simp only [Bool.and_comm]

theorem mem_expansions {name : String} {first : SelectedField} {others : List SelectedField}
    (h : m.selectionsOf fields name = first :: others) :
    ⟨first, others⟩ ∈ (of m fields).expansions ∧ first.name = name := by
  have hf : first ∈ m.selectionsOf fields name := by
    rw [h]
    exact List.mem_cons_self
  obtain ⟨hmem, hp⟩ := List.mem_filter.1 hf
  obtain ⟨hexp, hname⟩ : m.expands first ∧ first.name = name := by simpa using hp
  have hin : first.name ∈ ((of m fields).expansions.map (·.name)) := by
    rw [expansions, group_names, List.mem_eraseDups, inRole_expansion]
    exact List.mem_map_of_mem (List.mem_filter.2 ⟨hmem, hexp⟩)
  obtain ⟨e, he, hn⟩ := List.mem_map.1 hin
  have hs : e.selections = first :: others := by
    rw [selections_of_mem_expansions he, hn, hname, h]
  obtain ⟨first', others'⟩ := e
  cases hs
  exact ⟨he, hname⟩

end Siblings

end QueryPlan
