import Mathlib.Data.Multiset.MapFold
import QueryPlan.Proofs.FirstSeen

namespace QueryPlan

variable {α β γ : Type} {R : α → β → Prop} {xs : List α} {ys : List β}

theorem rel_coe_of_forall₂ (h : List.Forall₂ R xs ys) : Multiset.Rel R ↑xs ↑ys := by
  induction h with
  | nil => exact .zero
  | cons hxy _ ih => exact .cons hxy ih

/-- Lists are matched one to one if the second one can be brought into the order of the first. -/
theorem rel_coe_iff :
    Multiset.Rel R ↑xs ↑ys ↔ ∃ zs, List.Forall₂ R xs zs ∧ zs.Perm ys := by
  constructor
  · intro h
    induction xs generalizing ys with
    | nil =>
      rw [Multiset.coe_nil, Multiset.rel_zero_left, Multiset.coe_eq_zero] at h
      exact ⟨[], .nil, by rw [h]⟩
    | cons x xs ih =>
      rw [← Multiset.cons_coe, Multiset.rel_cons_left] at h
      obtain ⟨y, t, hxy, hxs, hys⟩ := h
      obtain ⟨ys', rfl⟩ := Quot.exists_rep t
      obtain ⟨zs, hzs, perm⟩ := ih hxs
      exact ⟨y :: zs, .cons hxy hzs, (perm.cons y).trans (Multiset.coe_eq_coe.1 hys.symm)⟩
  · rintro ⟨zs, hzs, perm⟩
    rw [← Multiset.coe_eq_coe.2 perm]
    exact rel_coe_of_forall₂ hzs

theorem rel_coe_map {k : α → γ} {k' : β → γ} (h : (xs.map k).Perm (ys.map k')) :
    Multiset.Rel (fun x y => k x = k' y) ↑xs ↑ys := by
  have mapped := Multiset.rel_eq.2 (Multiset.coe_eq_coe.2 h)
  rw [← Multiset.map_coe, ← Multiset.map_coe] at mapped
  exact Multiset.rel_map.1 mapped

theorem perm_map_of_rel {k : α → γ} {k' : β → γ}
    (h : Multiset.Rel (fun x y => k x = k' y) ↑xs ↑ys) : (xs.map k).Perm (ys.map k') := by
  rw [← Multiset.coe_eq_coe, ← Multiset.map_coe, ← Multiset.map_coe, ← Multiset.rel_eq]
  exact Multiset.rel_map.2 h

theorem exists_mem_iff_of_rel {P : α → Prop} {P' : β → Prop} (h : Multiset.Rel R ↑xs ↑ys)
    (hP : ∀ x y, R x y → (P x ↔ P' y)) : (∃ x ∈ xs, P x) ↔ ∃ y ∈ ys, P' y := by
  constructor
  · rintro ⟨x, hx, hPx⟩
    obtain ⟨y, hy, hxy⟩ := Multiset.exists_mem_of_rel_of_mem h hx
    exact ⟨y, hy, (hP x y hxy).1 hPx⟩
  · rintro ⟨y, hy, hPy⟩
    obtain ⟨x, hx, hxy⟩ := Multiset.exists_mem_of_rel_of_mem (Multiset.rel_flip.2 h) hy
    exact ⟨x, hx, (hP x y hxy).2 hPy⟩

/-- Where each element of either list is related to exactly one of the other, they are matched. -/
theorem rel_coe_of_pairwise (left : ∀ x ∈ xs, ∃ y ∈ ys, R x y) (right : ∀ y ∈ ys, ∃ x ∈ xs, R x y)
    (once : xs.Pairwise fun x x' => ∀ y ∈ ys, ¬(R x y ∧ R x' y))
    (once' : ys.Pairwise fun y y' => ∀ x ∈ xs, ¬(R x y ∧ R x y')) :
    Multiset.Rel R ↑xs ↑ys := by
  induction xs generalizing ys with
  | nil =>
    have empty : ys = [] := by
      apply List.eq_nil_iff_forall_not_mem.2
      intro y hy
      obtain ⟨x, hx, -⟩ := right y hy
      cases hx
    rw [empty]
    exact .zero
  | cons x xs ih =>
    obtain ⟨first, once⟩ := List.pairwise_cons.1 once
    obtain ⟨y, hy, hxy⟩ := left x List.mem_cons_self
    obtain ⟨before, after, rfl⟩ := List.append_of_mem hy
    have perm : (before ++ y :: after).Perm (y :: (before ++ after)) := List.perm_middle
    have symm {y y' : β} (h : ∀ x' ∈ x :: xs, ¬(R x' y ∧ R x' y')) :
        ∀ x' ∈ x :: xs, ¬(R x' y' ∧ R x' y) :=
      fun x' mem h' => h x' mem h'.symm
    obtain ⟨first', once'⟩ := List.pairwise_cons.1 (once'.perm perm symm)
    rw [Multiset.coe_eq_coe.2 perm, ← Multiset.cons_coe, ← Multiset.cons_coe]
    refine .cons hxy (ih ?_ ?_ ?_ ?_)
    · intro x' hx'
      obtain ⟨y', hy', h⟩ := left x' (List.mem_cons_of_mem x hx')
      rcases List.mem_cons.1 (perm.mem_iff.1 hy') with rfl | hy'
      · exact absurd ⟨hxy, h⟩ (first x' hx' y' hy)
      · exact ⟨y', hy', h⟩
    · intro y' hy'
      obtain ⟨x', hx', h⟩ := right y' (perm.mem_iff.2 (List.mem_cons_of_mem y hy'))
      rcases List.mem_cons.1 hx' with rfl | hx'
      · exact absurd ⟨hxy, h⟩ (first' y' hy' x' List.mem_cons_self)
      · exact ⟨x', hx', h⟩
    · apply once.imp
      intro x' x'' h y' hy'
      exact h y' (perm.mem_iff.2 (List.mem_cons_of_mem y hy'))
    · apply once'.imp
      intro y' y'' h x' hx'
      exact h x' (List.mem_cons_of_mem x hx')

section

variable {r : α → α → Bool} {as bs : List α}

theorem eraseDupsBy_pairwise (l : List α) : (l.eraseDupsBy r).Pairwise fun a b => r b a = false := by
  induction l using sublist_induction with
  | nil => exact .nil
  | cons a as ih =>
    rw [List.eraseDupsBy_cons, List.pairwise_cons]
    refine ⟨fun b hb => ?_, ih _ List.filter_sublist⟩
    have kept := List.of_mem_filter ((eraseDupsBy_sublist _).subset hb)
    exact of_decide_eq_true kept

/-- In whatever order elements come, duplicates are left out of the same ones. -/
theorem eraseDupsBy_rel (h : as.Perm bs) (refl : ∀ a ∈ as, r a a)
    (symm : ∀ a ∈ as, ∀ b ∈ as, r a b → r b a) (trans : ∀ a b c, r a b → r b c → r a c) :
    Multiset.Rel (fun a b => r a b = true) ↑(as.eraseDupsBy r) ↑(bs.eraseDupsBy r) := by
  have kept {l : List α} (perm : as.Perm l) {a : α} (ha : a ∈ l.eraseDupsBy r) : a ∈ as :=
    perm.mem_iff.2 ((eraseDupsBy_sublist l).subset ha)
  have found {l : List α} (perm : as.Perm l) {a : α} (ha : a ∈ as) :
      ∃ b ∈ l.eraseDupsBy r, r a b := by
    rcases mem_eraseDupsBy_or (perm.mem_iff.1 ha) with hmem | hdup
    · exact ⟨a, hmem, refl a ha⟩
    · exact hdup
  apply rel_coe_of_pairwise
  · intro a ha
    exact found h (kept (.refl as) ha)
  · intro b hb
    obtain ⟨a, ha, hba⟩ := found (.refl as) (kept h hb)
    exact ⟨a, ha, symm b (kept h hb) a (kept (.refl as) ha) hba⟩
  · apply (eraseDupsBy_pairwise as).imp_of_mem
    rintro a a' ha ha' distinct b hb ⟨hab, hab'⟩
    have hba := symm a (kept (.refl as) ha) b (kept h hb) hab
    rw [trans a' b a hab' hba] at distinct
    cases distinct
  · apply (eraseDupsBy_pairwise bs).imp_of_mem
    rintro b b' hb hb' distinct a ha ⟨hab, hab'⟩
    have hba := symm a (kept (.refl as) ha) b' (kept h hb') hab'
    rw [trans b' a b hba hab] at distinct
    cases distinct

theorem eraseDups_perm [BEq α] [LawfulBEq α] (h : as.Perm bs) : as.eraseDups.Perm bs.eraseDups := by
  rw [List.perm_ext_iff_of_nodup (eraseDups_nodup as) (eraseDups_nodup bs)]
  intro a
  rw [List.mem_eraseDups, List.mem_eraseDups, h.mem_iff]

end

end QueryPlan
