import QueryPlan.Proofs.Matching
import QueryPlan.Proofs.Traversal

namespace QueryPlan

variable {α α' β β' γ ε : Type}

/-- Two computations both fail, or both succeed with related results. -/
inductive SameOutcome (R : α → β → Prop) : Except ε α → Except ε β → Prop where
  | ok {a : α} {b : β} (h : R a b) : SameOutcome R (.ok a) (.ok b)
  | error (e e' : ε) : SameOutcome R (.error e) (.error e')

namespace SameOutcome

variable {R : α → β → Prop} {S : α' → β' → Prop} {x : Except ε α} {y : Except ε β}

theorem refl {R : α → α → Prop} (h : ∀ a, R a a) (x : Except ε α) : SameOutcome R x x := by
  cases x with
  | error e => exact .error e e
  | ok a => exact .ok (h a)

theorem mono {T : α → β → Prop} (h : SameOutcome R x y) (hRT : ∀ a b, R a b → T a b) :
    SameOutcome T x y := by
  cases h with
  | ok h => exact .ok (hRT _ _ h)
  | error e e' => exact .error e e'

/-- The results of two computations that succeed are related as the results that they are. -/
theorem outcomes (h : SameOutcome R x y) :
    SameOutcome (fun a b => x = .ok a ∧ y = .ok b ∧ R a b) x y := by
  cases h with
  | ok h => exact .ok ⟨rfl, rfl, h⟩
  | error e e' => exact .error e e'

theorem comp {T : β → γ → Prop} {z : Except ε γ} (h : SameOutcome R x y) (h' : SameOutcome T y z) :
    SameOutcome (fun a c => ∃ b, R a b ∧ T b c) x z := by
  cases h with
  | ok h =>
    cases h' with
    | ok h' => exact .ok ⟨_, h, h'⟩
  | error e e' =>
    cases h' with
    | error e' e'' => exact .error e e''

/-- Two computations that both have the outcome of a third one up to a view have the same one. -/
theorem of_views {k : α → γ} {k' : β → γ} {z : Except ε γ}
    (h : SameOutcome (fun c a => c = k a) z x) (h' : SameOutcome (fun c b => c = k' b) z y) :
    SameOutcome (fun a b => k a = k' b) x y := by
  cases h with
  | ok h =>
    cases h' with
    | ok h' => exact .ok (h.symm.trans h')
  | error e e' =>
    cases h' with
    | error e e'' => exact .error e' e''

theorem bind {f : α → Except ε α'} {g : β → Except ε β'} (h : SameOutcome R x y)
    (hfg : ∀ a b, R a b → SameOutcome S (f a) (g b)) : SameOutcome S (x >>= f) (y >>= g) := by
  cases h with
  | ok h => exact hfg _ _ h
  | error e e' => exact .error e e'

theorem map {f : α → α'} {g : β → β'} (h : SameOutcome R x y) (hfg : ∀ a b, R a b → S (f a) (g b)) :
    SameOutcome S (x.map f) (y.map g) := by
  cases h with
  | ok h => exact .ok (hfg _ _ h)
  | error e e' => exact .error e e'

section

variable {f : α → Except ε α'} {g : β → Except ε β'} {xs : List α} {ys : List β}

theorem mapM (h : List.Forall₂ R xs ys)
    (hfg : ∀ a ∈ xs, ∀ b ∈ ys, R a b → SameOutcome S (f a) (g b)) :
    SameOutcome (List.Forall₂ S) (xs.mapM f) (ys.mapM g) := by
  induction h with
  | nil => exact .ok .nil
  | @cons a b xs ys hab _ ih =>
    have rest := ih fun a ha b hb => hfg a (List.mem_cons_of_mem _ ha) b (List.mem_cons_of_mem _ hb)
    rw [List.mapM_cons, List.mapM_cons]
    refine (hfg a List.mem_cons_self b List.mem_cons_self hab).bind fun a' b' hab' => ?_
    exact rest.bind fun as bs has => .ok (.cons hab' has)

/-- A traversal that maps what it goes over and what it gives. -/
theorem mapM_map {k : α → β} {k' : β' → α'} {f : β → Except ε α'} {g : α → Except ε β'}
    (h : ∀ a ∈ xs, SameOutcome (fun b c => b = k' c) (f (k a)) (g a)) :
    SameOutcome (fun bs cs => bs = cs.map k') ((xs.map k).mapM f) (xs.mapM g) := by
  have pairs : List.Forall₂ (fun b a => b = k a) (xs.map k) xs :=
    List.forall₂_map_left_iff.2 (List.forall₂_same.2 fun _ _ => rfl)
  have each := SameOutcome.mapM (S := fun b c => b = k' c) (f := f) (g := g) pairs ?_
  · refine each.mono fun bs cs hbs => ?_
    rw [← List.forall₂_eq_eq_eq, List.forall₂_map_right_iff]
    exact hbs
  · rintro _ - a ha rfl
    exact h a ha

theorem mapM_map_eq {k : α → β} {f : β → Except ε γ} {g : α → Except ε γ}
    (h : ∀ a ∈ xs, SameOutcome Eq (f (k a)) (g a)) :
    SameOutcome Eq ((xs.map k).mapM f) (xs.mapM g) := by
  have each : ∀ a ∈ xs, SameOutcome (fun b c => b = id c) (f (k a)) (g a) := h
  refine (mapM_map each).mono fun bs cs hbs => ?_
  rw [hbs, List.map_id]

/-- The order in which elements are visited only changes the order of the results. -/
theorem mapM_perm {xs ys : List α} (h : xs.Perm ys) :
    SameOutcome List.Perm (xs.mapM f) (ys.mapM f) := by
  induction h with
  | nil => exact .ok .nil
  | cons a _ ih =>
    rw [List.mapM_cons, List.mapM_cons]
    refine (refl (fun _ => rfl) (f a)).bind fun b _ hb => ?_
    subst hb
    exact ih.bind fun bs cs hbs => .ok (hbs.cons b)
  | swap a b xs =>
    simp only [List.mapM_cons]
    cases f a with
    | error e =>
      cases f b with
      | error e' => exact .error e' e
      | ok b => exact .error e e
    | ok a =>
      cases f b with
      | error e' => exact .error e' e'
      | ok b =>
        cases xs.mapM f with
        | error e => exact .error e e
        | ok as => exact .ok (.swap a b as)
  | trans _ _ ih ih' =>
    refine (ih.comp ih').mono fun _ _ h => ?_
    obtain ⟨_, h, h'⟩ := h
    exact h.trans h'

theorem mapM_rel (h : Multiset.Rel R ↑xs ↑ys)
    (hfg : ∀ a ∈ xs, ∀ b ∈ ys, R a b → SameOutcome S (f a) (g b)) :
    SameOutcome (fun (as : List α') (bs : List β') => Multiset.Rel S ↑as ↑bs) (xs.mapM f)
      (ys.mapM g) := by
  obtain ⟨zs, hzs, perm⟩ := rel_coe_iff.1 h
  have inOrder := mapM hzs fun a ha b hb => hfg a ha b (perm.mem_iff.1 hb)
  refine (inOrder.comp (mapM_perm perm)).mono fun as bs h => ?_
  exact rel_coe_iff.2 h

end

theorem foldlM {f g : β → α → Except ε β} {R : β → β → Prop} {xs : List α} {b c : β}
    (h : R b c) (hfg : ∀ a b c, R b c → SameOutcome R (f b a) (g c a)) :
    SameOutcome R (xs.foldlM f b) (xs.foldlM g c) := by
  induction xs generalizing b c with
  | nil => exact .ok h
  | cons a xs ih =>
    rw [List.foldlM_cons, List.foldlM_cons]
    exact (hfg a b c h).bind fun b' c' h' => ih h'

end SameOutcome

end QueryPlan
