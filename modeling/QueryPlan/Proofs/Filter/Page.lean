import QueryPlan.Proofs.Filter.Understood
import QueryPlan.Proofs.Number.Exact
import QueryPlan.Proofs.Text.Numeral

namespace QueryPlan

open Json

variable {argument : String} {n : Json.Number} {m : UInt64} {s : String} {e : CompileError}

/-- The largest number of 64 bits. -/
def lastNumber : UInt64 := 18446744073709551615

def notNatural (argument : String) (n : Json.Number) : CompileError :=
  .malformedArgument argument s!"expected a non-negative integer, got {n.text}"

theorem pageOfArgument_num (argument : String) (n : Json.Number) :
    pageOfArgument argument (.num n) = match n.natural? with
      | some k => if k ≤ UInt64.size then .ok (UInt64.ofNat (min k (UInt64.size - 1)))
        else .error (notNatural argument n)
      | none => .error (notNatural argument n) := by
  cases n with
  | int n inRange =>
    rw [pageOfArgument, Number.natural?]
    by_cases natural : 0 ≤ n
    · have fits : n.toNat < UInt64.size := by
        rw [UInt64.size]
        omega
      have exact : min n.toNat (UInt64.size - 1) = n.toNat := min_eq_left (Nat.le_sub_one_of_lt fits)
      simp only [if_pos natural, if_pos fits.le, exact]
    · simp only [if_neg natural]
      rfl
  | float x =>
    rw [pageOfArgument, Number.natural?]
    cases x.toNat? with
    | none => rfl
    | some k =>
      by_cases fits : k ≤ UInt64.size
      · simp only [if_pos fits]
      · simp only [if_neg fits]
        rfl

/-- A number is taken for the number that it is, and the one after the largest one of 64 bits for
that. -/
theorem pageOfArgument_num_eq_ok :
    pageOfArgument argument (.num n) = .ok m ↔
      n.value = m.toNat ∨ n.value = UInt64.size ∧ m = lastNumber := by
  rw [pageOfArgument_num, ← Number.natural?_eq_some, ← Number.natural?_eq_some]
  cases n.natural? with
  | none => exact iff_of_false nofun (by simp)
  | some k =>
    have below : m.toNat < UInt64.size := m.toNat_lt
    have last : lastNumber.toNat = UInt64.size - 1 := rfl
    dsimp only
    split
    · rename_i fits
      have stored : (UInt64.ofNat (min k (UInt64.size - 1))).toNat = min k (UInt64.size - 1) := by
        apply UInt64.toNat_ofNat_of_lt'
        rw [UInt64.size]
        omega
      rw [Except.ok.injEq, ← UInt64.toNat_inj, ← UInt64.toNat_inj, stored, last, Option.some.injEq,
        Option.some.injEq]
      omega
    · rename_i large
      simp only [reduceCtorEq, Option.some.injEq, false_iff]
      omega

theorem pageOfArgument_num_eq_error (h : pageOfArgument argument (.num n) = .error e) :
    e = notNatural argument n := by
  rw [pageOfArgument_num] at h
  split at h
  · split at h <;> cases h
    rfl
  · cases h
    rfl

/-- A text is refused as it is, blanks included. -/
def notNumeral (argument s : String) (cause : Text.IntegerError) : CompileError :=
  .malformedArgument argument s!"`{s}` is not a non-negative integer: {cause.message}"

theorem pageOfArgument_str (argument s : String) :
    pageOfArgument argument (.str s) =
      (Text.unsigned? (Text.trim s)).mapError (notNumeral argument s) := by
  rw [pageOfArgument]
  cases Text.unsigned? (Text.trim s) <;> rfl

theorem pageOfArgument_str_eq_ok :
    pageOfArgument argument (.str s) = .ok m ↔ Text.Spells s m.toNat := by
  rw [pageOfArgument_str, mapError_eq_ok, Text.unsigned?_trim_eq_ok]

/-- The options that say which rows in turn are asked for. -/
inductive Page where
  | limit | offset

namespace Page

def name : Page → String
  | limit => "limit"
  | offset => "offset"

def setting : Page → UInt64 → Setting
  | limit => .limit
  | offset => .offset

/-- The options with another number for the page. -/
def sets : Page → UInt64 → Options → Options
  | limit, m, o => { o with limit := some m }
  | offset, m, o => { o with offset := some m }

variable {p : Page}

theorem read_eq (p : Page) {v : Json} (given : v ≠ .null) (known : List String) :
    Setting.read known (p.name, v) = (pageOfArgument p.name v).map p.setting := by
  cases p with
  | limit => exact if_neg (Setting.not_absent given)
  | offset => exact if_neg (Setting.not_absent given)

theorem setting_option (p : Page) (m : UInt64) : (p.setting m).option? = some p.name := by
  cases p <;> rfl

theorem apply_setting (p : Page) (m : UInt64) (o : Options) :
    o.apply (p.setting m) = p.sets m o := by
  cases p <;> rfl

theorem sets_shows (p : Page) (m m' : UInt64) (h : p.sets m {} = p.sets m' {}) : m = m' := by
  cases p with
  | limit => exact Option.some.inj (congrArg Options.limit h)
  | offset => exact Option.some.inj (congrArg Options.offset h)

/-- An argument for a page is understood as the numbers that it means. -/
theorem understood {v : Json} (given : v ≠ .null) {means : UInt64 → Prop}
    {refusal : CompileError → Prop} (meaning : ∀ m, pageOfArgument p.name v = .ok m ↔ means m)
    (refuses : ∀ e, pageOfArgument p.name v = .error e → refusal e) :
    Options.Understood (p.name, v) p.sets means refusal :=
  Options.understood_of_read (pageOfArgument p.name v) (p.read_eq given) p.setting_option
    p.apply_setting p.sets_shows meaning refuses

/-- A text is taken for the number that it spells, if that has at most 64 bits, and is refused
otherwise. -/
theorem text_understood (p : Page) (s : String) :
    Options.Understood (p.name, .str s) p.sets (fun m => Text.Spells s m.toNat)
      (fun e => ∃ cause, e = notNumeral p.name s cause) := by
  apply understood Json.noConfusion
  · intro m
    exact pageOfArgument_str_eq_ok
  · intro e h
    rw [pageOfArgument_str] at h
    obtain ⟨cause, -, refused⟩ := mapError_eq_error.1 h
    exact ⟨cause, refused.symm⟩

example : Options.ofArguments [] [("offset", .str "\u2003+007\n")] = .ok { offset := some 7 } := by
  with_unfolding_all rfl

/-- A number is taken for the number that it is, if it is a natural number of at most 64 bits, and
is refused otherwise. -/
def Exact (p : Page) (n : Json.Number) : Prop :=
  Options.Understood (p.name, .num n) p.sets (fun m => n.value = m.toNat)
    (· = notNatural p.name n)

theorem asksFor_lastNumber (p : Page) (beyond : n.value = UInt64.size) :
    Options.AsksFor (p.name, .num n) (p.sets lastNumber) := by
  have clamped : pageOfArgument p.name (.num n) = .ok lastNumber :=
    pageOfArgument_num_eq_ok.2 (.inr ⟨beyond, rfl⟩)
  rw [← funext (p.apply_setting lastNumber)]
  refine Options.asksFor_of_read ?_ (p.setting_option lastNumber)
  intro known
  rw [p.read_eq Json.noConfusion, clamped]
  rfl

/-- Every number but one is taken for what it is or refused. The one after the largest number of 64
bits is taken for that. -/
theorem number_exact_iff (p : Page) (n : Json.Number) :
    (p.Exact n ↔ n.value ≠ 2 ^ 64) ∧
      (n.value = 2 ^ 64 → Options.AsksFor (p.name, .num n) (p.sets lastNumber)) := by
  have size : ((UInt64.size : Nat) : ℚ) = 2 ^ 64 := by norm_num
  rw [← size]
  refine ⟨?_, p.asksFor_lastNumber⟩
  constructor
  · intro exact beyond
    have taken := (exact.asks lastNumber).1 (p.asksFor_lastNumber beyond)
    rw [beyond, Nat.cast_inj] at taken
    exact absurd taken (by decide)
  · intro within
    apply understood Json.noConfusion
    · intro m
      rw [pageOfArgument_num_eq_ok]
      exact or_iff_left fun beyond => within beyond.1
    · intro e
      exact pageOfArgument_num_eq_error

end Page

namespace Sample

def three : Json.Number := .float ⟨false, ⟨1024 * binade + Nat.pow 2 51, by decide +kernel⟩⟩

/-- The first natural number of more than 64 bits, which is a binary64 number. -/
def beyondLast : Json.Number := .float ⟨false, ⟨1087 * binade, by decide +kernel⟩⟩

theorem three_value : three.value = 3 := by
  have natural : three.natural? = some 3 := by decide +kernel
  exact_mod_cast Json.Number.natural?_eq_some.1 natural

theorem beyondLast_value : beyondLast.value = 2 ^ 64 := by
  have natural : beyondLast.natural? = some (2 ^ 64) := by decide +kernel
  exact_mod_cast Json.Number.natural?_eq_some.1 natural

theorem three_exact :
    (three.value ≠ 2 ^ 64 ∧ Page.limit.Exact three) ∧
      beyondLast.value = 2 ^ 64 ∧
        Options.AsksFor ("offset", .num beyondLast)
          fun o => { o with offset := some lastNumber } := by
  have other : three.value ≠ 2 ^ 64 := by
    rw [three_value]
    norm_num
  refine ⟨⟨other, (Page.limit.number_exact_iff three).1.2 other⟩, beyondLast_value, ?_⟩
  exact (Page.offset.number_exact_iff beyondLast).2 beyondLast_value

/-- A page of one row more than can be asked for is cut down silently. -/
theorem beyondLast_not_exact :
    Options.ofArguments [] [("limit", .num beyondLast)] = .ok { limit := some lastNumber } ∧
      ¬ Page.limit.Exact beyondLast := by
  have clamped := Options.ofArguments_of_asksFor (Page.limit.asksFor_lastNumber
    (by exact_mod_cast beyondLast_value)) []
  refine ⟨clamped, ?_⟩
  intro exact
  have meaningless : ∀ m : UInt64, beyondLast.value ≠ m.toNat := by
    intro m taken
    have below := m.toNat_lt
    rw [beyondLast_value] at taken
    have same : 2 ^ 64 = m.toNat := by exact_mod_cast taken
    omega
  obtain ⟨e, -, refused⟩ := exact.refused meaningless
  cases clamped.symm.trans (Options.ofArguments_of_refusedWith refused [])

end Sample

end QueryPlan
