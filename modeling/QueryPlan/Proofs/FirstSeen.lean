import Mathlib.Data.List.Nodup

namespace QueryPlan

variable {α β : Type}

/-- Induction that also drops elements from what follows the first one. -/
theorem sublist_induction {motive : List α → Prop} (nil : motive [])
    (cons : ∀ a as, (∀ bs : List α, bs.Sublist as → motive bs) → motive (a :: as))
    (l : List α) : motive l := by
  suffices h : ∀ bs : List α, bs.Sublist l → motive bs from h l (.refl l)
  induction l with
  | nil =>
    intro bs hs
    rw [List.sublist_nil.1 hs]
    exact nil
  | cons a as ih =>
    intro bs hs
    cases hs with
    | cons _ hs => exact ih bs hs
    | cons_cons _ hs => exact cons a _ fun cs hc => ih cs (hc.trans hs)

theorem eraseDups_nodup [BEq α] [LawfulBEq α] (l : List α) : l.eraseDups.Nodup := by
  induction l using sublist_induction with
  | nil => exact .nil
  | cons a as ih =>
    rw [List.eraseDups_cons, List.nodup_cons]
    refine ⟨fun hm => ?_, ih _ List.filter_sublist⟩
    have := List.of_mem_filter (List.mem_eraseDups.1 hm)
    simp at this

theorem eraseDups_of_nodup [BEq α] [LawfulBEq α] {l : List α} (h : l.Nodup) : l.eraseDups = l := by
  induction l with
  | nil => rfl
  | cons a as ih =>
    obtain ⟨ha, has⟩ := List.nodup_cons.1 h
    have hkept : as.filter (fun b => !b == a) = as := by
      rw [List.filter_eq_self]
      intro b hb
      rw [Bool.not_eq_true', beq_eq_false_iff_ne]
      rintro rfl
      exact ha hb
    rw [List.eraseDups_cons, hkept, ih has]

/-- A property on which equivalent elements agree may be asked before or after duplicates go. -/
theorem filter_eraseDupsBy {r : α → α → Bool} {p : α → Bool}
    (h : ∀ a b, r a b → p a = p b) (l : List α) :
    (l.eraseDupsBy r).filter p = (l.filter p).eraseDupsBy r := by
  induction l using sublist_induction with
  | nil => rfl
  | cons a as ih =>
    rw [List.eraseDupsBy_cons]
    by_cases ha : p a
    · rw [List.filter_cons_of_pos ha, List.filter_cons_of_pos ha, List.eraseDupsBy_cons,
        ih _ List.filter_sublist, List.filter_filter, List.filter_filter]
      simp only [Bool.and_comm]
    · -- No duplicate of `a` has the property either, so dropping them changes nothing.
      have hkept : (as.filter fun b => r b a = false).filter p = as.filter p := by
        rw [List.filter_filter]
        refine List.filter_congr fun b _ => ?_
        cases hb : r b a with
        | false => simp
        | true => simp [h b a hb, ha]
      rw [List.filter_cons_of_neg ha, List.filter_cons_of_neg ha, ih _ List.filter_sublist, hkept]

/-- The keys in the order in which they are first seen do not depend on duplicates. -/
theorem eraseDups_map_eraseDupsBy [BEq β] [LawfulBEq β] {r : α → α → Bool} {k : α → β}
    (h : ∀ a b, r a b → k a = k b) (l : List α) :
    ((l.eraseDupsBy r).map k).eraseDups = (l.map k).eraseDups := by
  induction l using sublist_induction with
  | nil => rfl
  | cons a as ih =>
    have hkept : (as.filter fun b => r b a = false).filter (fun b => !k b == k a) =
        as.filter fun b => !k b == k a := by
      rw [List.filter_filter]
      refine List.filter_congr fun b _ => ?_
      cases hb : r b a with
      | false => simp
      | true => simp [h b a hb]
    have hother : ∀ b c, r b c → (!k b == k a) = (!k c == k a) := by
      intro b c hbc
      rw [h b c hbc]
    rw [List.eraseDupsBy_cons, List.map_cons, List.map_cons, List.eraseDups_cons,
      List.eraseDups_cons, List.filter_map, List.filter_map]
    congr 1
    calc _ = ((((as.filter fun b => r b a = false).eraseDupsBy r).filter
            fun b => !k b == k a).map k).eraseDups := rfl
      _ = (((as.filter fun b => !k b == k a).eraseDupsBy r).map k).eraseDups := by
        rw [filter_eraseDupsBy hother, hkept]
      _ = _ := ih _ List.filter_sublist

theorem filter_eq_singleton [DecidableEq β] {k : α → β} {l : List α} (h : (l.map k).Nodup) {a : α}
    (ha : a ∈ l) : l.filter (k · = k a) = [a] := by
  induction l with
  | nil => cases ha
  | cons b l ih =>
    obtain ⟨hb, hl⟩ := List.nodup_cons.1 h
    by_cases hab : k b = k a
    · have hother : l.filter (k · = k a) = [] := by
        rw [List.filter_eq_nil_iff]
        intro c hc
        rw [decide_eq_true_iff, ← hab]
        exact fun hcb => hb (hcb ▸ List.mem_map_of_mem hc)
      rcases List.mem_cons.1 ha with rfl | ha
      · rw [List.filter_cons_of_pos (by simp), hother]
      · exact absurd (hab ▸ List.mem_map_of_mem ha) hb
    · rcases List.mem_cons.1 ha with rfl | ha
      · exact absurd rfl hab
      · rw [List.filter_cons_of_neg (by simpa using hab)]
        exact ih hl ha

section Merging

variable {r : α → α → Bool} {s : β → β → Bool}

theorem head?_eraseDupsBy (l : List α) : (l.eraseDupsBy r).head? = l.head? := by
  cases l with
  | nil => rfl
  | cons a as => rw [List.eraseDupsBy_cons, List.head?_cons, List.head?_cons]

theorem eraseDupsBy_sublist (l : List α) : (l.eraseDupsBy r).Sublist l := by
  induction l using sublist_induction with
  | nil => exact .slnil
  | cons a as ih =>
    rw [List.eraseDupsBy_cons]
    exact .cons_cons a ((ih _ List.filter_sublist).trans List.filter_sublist)

/-- What is left out is a duplicate of something that is kept. -/
theorem mem_eraseDupsBy_or {a : α} {l : List α} (ha : a ∈ l) :
    a ∈ l.eraseDupsBy r ∨ ∃ b ∈ l.eraseDupsBy r, r a b := by
  induction l using sublist_induction with
  | nil => cases ha
  | cons b as ih =>
    rw [List.eraseDupsBy_cons]
    rcases List.mem_cons.1 ha with rfl | ha
    · exact .inl List.mem_cons_self
    · cases hab : r a b with
      | true => exact .inr ⟨b, List.mem_cons_self, hab⟩
      | false =>
        have hkept : a ∈ as.filter fun c => r c b = false := List.mem_filter.2 ⟨ha, by simp [hab]⟩
        rcases ih _ List.filter_sublist hkept with hmem | ⟨c, hc, hac⟩
        · exact .inl (List.mem_cons_of_mem _ hmem)
        · exact .inr ⟨c, List.mem_cons_of_mem _ hc, hac⟩

/-- A property that is passed on to duplicates may be asked before or after they go. -/
theorem all_eraseDupsBy {p : α → Bool} (h : ∀ a b, r a b → p b → p a) (l : List α) :
    (l.eraseDupsBy r).all p = l.all p := by
  rw [Bool.eq_iff_iff, List.all_eq_true, List.all_eq_true]
  refine ⟨?_, ?_⟩
  · intro hall a ha
    rcases mem_eraseDupsBy_or ha with hmem | ⟨b, hb, hab⟩
    · exact hall a hmem
    · exact h a b hab (hall b hb)
  · intro hall a ha
    exact hall a ((eraseDupsBy_sublist l).subset ha)

theorem eraseDupsBy_append (trans : ∀ a b c, r a b → r b c → r a c) (as bs : List α) :
    (as ++ bs).eraseDupsBy r =
      as.eraseDupsBy r ++ (bs.filter fun b => !as.any (r b)).eraseDupsBy r := by
  induction as using sublist_induction generalizing bs with
  | nil =>
    have hkept : (bs.filter fun b => !([] : List α).any (r b)) = bs :=
      List.filter_eq_self.2 fun _ _ => rfl
    rw [hkept]
    rfl
  | cons a as ih =>
    have hkept : ((bs.filter fun b => r b a = false).filter
        fun b => !(as.filter fun c => r c a = false).any (r b)) =
          bs.filter fun b => !(a :: as).any (r b) := by
      rw [List.filter_filter]
      refine List.filter_congr fun b _ => ?_
      cases hba : r b a with
      | true => simp [hba]
      | false =>
        -- What `b` is a duplicate of is no duplicate of `a`, or else `b` would be one too.
        have hany : (as.filter fun c => r c a = false).any (r b) = as.any (r b) := by
          rw [List.any_filter]
          refine List.any_congr rfl fun c => ?_
          cases hbc : r b c with
          | false => simp
          | true =>
            have hca : r c a = false := by
              rw [Bool.eq_false_iff]
              intro hca
              rw [trans b c a hbc hca] at hba
              cases hba
            simp [hca]
        rw [hany, List.any_cons, hba]
        simp
    rw [List.cons_append, List.eraseDupsBy_cons, List.filter_append, ih _ List.filter_sublist,
      hkept, List.eraseDupsBy_cons, List.cons_append]

/-- What only repeats the elements in front of it may be left out. -/
theorem eraseDupsBy_append_append (trans : ∀ a b c, r a b → r b c → r a c) {as bs cs : List α}
    (h : ∀ b ∈ bs, ∃ a ∈ as, r b a) :
    (as ++ (bs ++ cs)).eraseDupsBy r = (as ++ cs).eraseDupsBy r := by
  have hbs : (bs.filter fun b => !as.any (r b)) = [] := by
    rw [List.filter_eq_nil_iff]
    intro b hb
    simpa using h b hb
  rw [eraseDupsBy_append trans, List.filter_append, hbs, List.nil_append,
    ← eraseDupsBy_append trans]

theorem eraseDups_append_cons [BEq α] [LawfulBEq α] {a : α} {as : List α} (h : a ∈ as)
    (bs : List α) : (as ++ a :: bs).eraseDups = (as ++ bs).eraseDups := by
  have trans : ∀ a b c : α, a == b → b == c → a == c := by
    intro a b c hab hbc
    rwa [eq_of_beq hab]
  have repeated : ∀ b ∈ [a], ∃ c ∈ as, b == c := by
    intro b hb
    rw [List.mem_singleton.1 hb]
    exact ⟨a, h, beq_self_eq_true a⟩
  exact eraseDupsBy_append_append trans repeated

/-- Adding elements one by one, unless they are there already, keeps each where it first stands. -/
theorem foldl_add_eq_eraseDups [BEq α] [LawfulBEq α] [DecidableEq α] {as : List α} (h : as.Nodup)
    (bs : List α) :
    bs.foldl (fun added b => if b ∈ added then added else added ++ [b]) as =
      (as ++ bs).eraseDups := by
  induction bs generalizing as with
  | nil => rw [List.foldl_nil, List.append_nil, eraseDups_of_nodup h]
  | cons b bs ih =>
    rw [List.foldl_cons]
    split
    · rename_i hb
      rw [ih h, eraseDups_append_cons hb]
    · rename_i hb
      have distinct : (as ++ [b]).Nodup := by
        rw [← List.concat_eq_append]
        exact h.concat hb
      rw [ih distinct, List.append_assoc, List.singleton_append]

/-- Duplicates may be left out before lists are joined if they bring only duplicates. -/
theorem eraseDupsBy_flatMap (trans : ∀ a b c, r a b → r b c → r a c) {k : β → List α}
    (h : ∀ a b, s a b → ∀ x ∈ k a, ∃ y ∈ k b, r x y) (l : List β) :
    ((l.eraseDupsBy s).flatMap k).eraseDupsBy r = (l.flatMap k).eraseDupsBy r := by
  -- The elements that are passed already are kept in front, with all that they bring.
  suffices hpre : ∀ pre : List β,
      (pre.flatMap k ++ ((l.filter fun b => !pre.any (s b)).eraseDupsBy s).flatMap k).eraseDupsBy r =
        (pre.flatMap k ++ l.flatMap k).eraseDupsBy r by
    have hnil := hpre []
    have hall : (l.filter fun b => !([] : List β).any (s b)) = l :=
      List.filter_eq_self.2 fun _ _ => rfl
    rwa [hall] at hnil
  induction l with
  | nil => exact fun _ => rfl
  | cons a l ih =>
    intro pre
    by_cases ha : pre.any (s a)
    · have hcovered : ∀ x ∈ k a, ∃ y ∈ pre.flatMap k, r x y := by
        intro x hx
        obtain ⟨b, hb, hab⟩ := List.any_eq_true.1 ha
        obtain ⟨y, hy, hxy⟩ := h a b hab x hx
        exact ⟨y, List.mem_flatMap.2 ⟨b, hb, hy⟩, hxy⟩
      rw [List.filter_cons_of_neg (by simpa using ha), List.flatMap_cons,
        eraseDupsBy_append_append trans hcovered]
      exact ih pre
    · have hkept : ((l.filter fun b => !pre.any (s b)).filter fun b => s b a = false) =
          l.filter fun b => !(pre ++ [a]).any (s b) := by
        rw [List.filter_filter]
        refine List.filter_congr fun b _ => ?_
        cases hba : s b a <;> simp [hba]
      have hmore := ih (pre ++ [a])
      rw [List.flatMap_append, List.flatMap_singleton, List.append_assoc, List.append_assoc]
        at hmore
      rw [List.filter_cons_of_pos (by simpa using ha), List.eraseDupsBy_cons, hkept,
        List.flatMap_cons, List.flatMap_cons]
      exact hmore

end Merging

end QueryPlan
