import QueryPlan.Text.Parser

namespace QueryPlan.Text.Parser

variable {σ α β : Type} {S : σ → Prop} {P : α → Prop} {Q : β → Prop} {x : Parser σ α}
  {f : α → Parser σ β}

/-- On symbols in `S` the parser only gives values in `P`, and what it leaves is in `S` as well. -/
def Yields (S : σ → Prop) (P : α → Prop) (x : Parser σ α) : Prop :=
  ∀ input a rest, (∀ c ∈ input, S c) → x input = some (a, rest) → P a ∧ ∀ c ∈ rest, S c

/-- What the parser leaves of symbols in `S` is in `S`, whatever value it gives. -/
def Keeps (S : σ → Prop) (x : Parser σ α) : Prop := Yields S (fun _ => True) x

theorem bind_eq_some {input rest : List σ} {b : β} :
    (x >>= f) input = some (b, rest) ↔
      ∃ a middle, x input = some (a, middle) ∧ f a middle = some (b, rest) := by
  change (x input).bind (fun r => f r.1 r.2) = _ ↔ _
  rw [Option.bind_eq_some_iff, Prod.exists]

namespace Yields

theorem pure {a : α} (h : P a) : Yields S P (pure a : Parser σ α) := by
  intro input a rest hin he
  cases he
  exact ⟨h, hin⟩

theorem fail : Yields S P (fail : Parser σ α) := by
  intro input a rest _ he
  cases he

theorem bind (hx : Yields S P x) (hf : ∀ a, P a → Yields S Q (f a)) : Yields S Q (x >>= f) := by
  intro input b rest hin he
  obtain ⟨a, middle, ha, hb⟩ := bind_eq_some.1 he
  obtain ⟨given, left⟩ := hx input a middle hin ha
  exact hf a given middle b rest left hb

theorem fail_bind : Yields S Q (Parser.fail >>= f) :=
  bind (P := fun _ => False) fail fun _ => False.elim

theorem map {f : α → β} (hx : Yields S P x) (hf : ∀ a, P a → Q (f a)) :
    Yields S Q (do return f (← x)) := hx.bind fun a given => pure (hf a given)

theorem mono {P' : α → Prop} (hx : Yields S P x) (imp : ∀ a, P a → P' a) : Yields S P' x := by
  intro input a rest hin he
  obtain ⟨given, left⟩ := hx input a rest hin he
  exact ⟨imp a given, left⟩

theorem keeps (hx : Yields S P x) : Keeps S x := hx.mono fun _ _ => trivial

theorem peek? : Keeps S (peek? : Parser σ (Option σ)) := by
  intro input a rest hin he
  cases he
  exact ⟨trivial, hin⟩

theorem satisfy (p : σ → Bool) : Yields S S (satisfy p) := by
  intro input a rest hin he
  cases input with
  | nil => cases he
  | cons c input =>
    rw [Parser.satisfy] at he
    split at he
    · cases he
      exact List.forall_mem_cons.1 hin
    · cases he

/-- A repeated parser gives only values of the parser that is repeated. -/
theorem manyWhile (p : σ → Bool) (hx : Yields S P x) :
    Yields S (fun as => ∀ a ∈ as, P a) (manyWhile p x) := by
  intro input
  rw [Parser.manyWhile]
  generalize input.length + 1 = fuel
  induction fuel generalizing input with
  | zero => nofun
  | succ fuel ih =>
    intro as rest hin he
    cases input with
    | nil =>
      cases he
      exact ⟨List.forall_mem_nil _, hin⟩
    | cons c input =>
      simp only [Parser.manyWhile.go] at he
      split at he
      · obtain ⟨⟨a, middle⟩, ha, he⟩ := Option.bind_eq_some_iff.1 he
        obtain ⟨⟨as', rest'⟩, has, he⟩ := Option.bind_eq_some_iff.1 he
        cases he
        obtain ⟨given, left⟩ := hx _ a middle hin ha
        obtain ⟨more, left⟩ := ih middle as' rest' left has
        exact ⟨List.forall_mem_cons.2 ⟨given, more⟩, left⟩
      · cases he
        exact ⟨List.forall_mem_nil _, hin⟩

theorem run (hx : Yields S P x) {input : List σ} {a : α} (hin : ∀ c ∈ input, S c)
    (h : run x input = some a) : P a := by
  obtain ⟨⟨b, rest⟩, hb, h⟩ := Option.bind_eq_some_iff.1 h
  obtain ⟨-, ⟨⟩⟩ := Option.ite_none_right_eq_some.1 h
  exact (hx input a rest hin hb).1

variable [DecidableEq σ]

theorem symbol (c : σ) : Keeps S (symbol c) := (satisfy _).bind fun _ _ => pure trivial

theorem symbol? (c : σ) : Keeps S (symbol? c) := by
  intro input b rest hin he
  cases input with
  | nil =>
    cases he
    exact ⟨trivial, hin⟩
  | cons d input =>
    rw [Parser.symbol?] at he
    split at he
    · cases he
      exact ⟨trivial, (List.forall_mem_cons.1 hin).2⟩
    · cases he
      exact ⟨trivial, hin⟩

theorem manyUntil (closing : σ) (hx : Yields S P x) :
    Yields S (fun as => ∀ a ∈ as, P a) (manyUntil closing x) := by
  apply (hx.manyWhile _).bind
  intro as given
  apply (symbol closing).bind
  intro _ _
  exact pure given

theorem many1Until (closing : σ) (hx : Yields S P x) :
    Yields S (fun as => ∀ a ∈ as, P a) (many1Until closing x) := by
  apply hx.bind
  intro a ha
  apply (hx.manyUntil closing).bind
  intro as given
  exact pure (List.forall_mem_cons.2 ⟨ha, given⟩)

theorem sepBy1 (separator : σ) (hx : Yields S P x) :
    Yields S (fun as => ∀ a ∈ as, P a) (sepBy1 separator x) := by
  have item : Yields S P (do Parser.symbol separator; x) := (symbol separator).bind fun _ _ => hx
  apply hx.bind
  intro a ha
  apply (item.manyWhile _).bind
  intro as given
  exact pure (List.forall_mem_cons.2 ⟨ha, given⟩)

end Yields

end QueryPlan.Text.Parser
