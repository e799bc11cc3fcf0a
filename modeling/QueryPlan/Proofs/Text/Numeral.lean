import Mathlib.Data.Nat.Digits.Defs
import QueryPlan.Proofs.Text.Trimmed
import QueryPlan.Proofs.Traversal
import QueryPlan.Text.Integer

namespace QueryPlan.Text

def digitValue (c : Char) : Nat := c.toNat - '0'.toNat

/-- The number that decimal digits stand for. -/
def decimal (digits : List Char) : Nat := Nat.ofDigits 10 (digits.reverse.map digitValue)

/-- Digits, at least one, that stand for a number. -/
structure Digits (n : Nat) (cs : List Char) : Prop where
  some : cs ≠ []
  all : ∀ c ∈ cs, c.isDigit
  value : decimal cs = n

/-- Digits after at most one plus sign. -/
inductive Numeral (n : Nat) : List Char → Prop where
  | bare {cs : List Char} (h : Digits n cs) : Numeral n cs
  | signed {cs : List Char} (h : Digits n cs) : Numeral n ('+' :: cs)

/-- The characters that Unicode counts as white space. -/
def whiteSpace : List Char :=
  ['\t', '\n', '\u000b', '\u000c', '\r', ' ', '\u0085', '\u00a0', '\u1680', '\u2000', '\u2001',
    '\u2002', '\u2003', '\u2004', '\u2005', '\u2006', '\u2007', '\u2008', '\u2009', '\u200a',
    '\u2028', '\u2029', '\u202f', '\u205f', '\u3000']

/-- A text is a numeral of a number, with white space around it. -/
def Spells (s : String) (n : Nat) : Prop :=
  ∃ t, Trimmed (· ∈ whiteSpace) t s.toList ∧ Numeral n t

theorem isBlank_iff {c : Char} : isBlank c ↔ c ∈ whiteSpace := by
  have numbers : whiteSpace.map Char.toNat = [0x9, 0xA, 0xB, 0xC, 0xD, 0x20, 0x85, 0xA0, 0x1680,
      0x2000, 0x2001, 0x2002, 0x2003, 0x2004, 0x2005, 0x2006, 0x2007, 0x2008, 0x2009, 0x200A,
      0x2028, 0x2029, 0x202F, 0x205F, 0x3000] := rfl
  constructor
  · intro blank
    have number : c.toNat ∈ whiteSpace.map Char.toNat := by
      simp only [isBlank, Bool.or_eq_true, Bool.and_eq_true, decide_eq_true_eq, beq_iff_eq] at blank
      simp only [numbers, List.mem_cons, List.not_mem_nil, or_false]
      omega
    obtain ⟨d, hd, same⟩ := List.mem_map.1 number
    rw [← Char.toNat_inj.1 same]
    exact hd
  · have all : whiteSpace.all isBlank := by decide
    exact List.all_eq_true.1 all c

theorem isBlank_eq : isBlank = fun c => decide (c ∈ whiteSpace) := by
  funext c
  rw [Bool.eq_iff_iff, decide_eq_true_iff]
  exact isBlank_iff

/-- Digits are added one by one from the left. -/
def continueWith (n : Nat) (digits : List Char) : Nat :=
  digits.foldl (fun n c => n * 10 + digitValue c) n

theorem decimal_eq_continueWith (digits : List Char) : decimal digits = continueWith 0 digits := by
  rw [decimal, Nat.ofDigits_eq_foldr, List.foldr_map, List.foldr_reverse, continueWith]
  congr 1
  funext n c
  rw [add_comm, mul_comm]
  rfl

theorem le_continueWith (n : Nat) (digits : List Char) : n ≤ continueWith n digits := by
  induction digits generalizing n with
  | nil => exact le_rfl
  | cons c digits ih =>
    have step : n ≤ n * 10 + digitValue c := by omega
    exact step.trans (ih _)

/-- A number that is too large at some digit stays too large, so that the digits are a number of at
most 64 bits exactly if none of them makes it too large. -/
theorem accumulate_eq_ok {n m : Nat} {cs : List Char} (small : n < UInt64.size) :
    accumulate n cs = .ok m ↔
      (∀ c ∈ cs, c.isDigit) ∧ continueWith n cs = m ∧ m < UInt64.size := by
  induction cs generalizing n with
  | nil =>
    rw [accumulate, Except.ok.injEq]
    constructor
    · rintro rfl
      exact ⟨List.forall_mem_nil _, rfl, small⟩
    · exact fun h => h.2.1
  | cons c cs ih =>
    rw [accumulate, List.forall_mem_cons]
    split
    · rename_i digit
      have step : continueWith n (c :: cs) = continueWith (n * 10 + digitValue c) cs := rfl
      rw [step]
      dsimp only
      split
      · rename_i fits
        rw [and_iff_right digit]
        exact ih fits
      · rename_i large
        refine iff_of_false nofun ?_
        rintro ⟨-, rfl, fits⟩
        exact large ((le_continueWith _ cs).trans_lt fits)
    · rename_i other
      exact iff_of_false nofun fun h => other h.1.1

theorem accumulate_zero_eq_ok {m : UInt64} {cs : List Char} (some : cs ≠ []) :
    (accumulate 0 cs).map UInt64.ofNat = .ok m ↔ Digits m.toNat cs := by
  rw [map_eq_ok]
  constructor
  · rintro ⟨k, hk, rfl⟩
    obtain ⟨all, rfl, fits⟩ := (accumulate_eq_ok (by decide)).1 hk
    refine ⟨some, all, ?_⟩
    rw [decimal_eq_continueWith, UInt64.toNat_ofNat_of_lt' fits]
  · intro h
    have value := (decimal_eq_continueWith cs).symm.trans h.value
    have read := (accumulate_eq_ok (by decide)).2 ⟨h.all, value, m.toNat_lt⟩
    exact ⟨m.toNat, read, UInt64.ofNat_toNat⟩

theorem numeral_plus {n : Nat} {cs : List Char} : Numeral n ('+' :: cs) ↔ Digits n cs := by
  constructor
  · intro h
    cases h with
    | bare h => exact absurd (h.all '+' List.mem_cons_self) (by decide)
    | signed h => exact h
  · exact .signed

theorem numeral_iff_digits {n : Nat} {cs : List Char} (bare : ∀ rest, cs ≠ '+' :: rest) :
    Numeral n cs ↔ Digits n cs := by
  constructor
  · intro h
    cases h with
    | bare h => exact h
    | signed h => exact absurd rfl (bare _)
  · exact .bare

theorem unsigned?_eq_ok {s : String} {m : UInt64} :
    unsigned? s = .ok m ↔ Numeral m.toNat s.toList := by
  rw [unsigned?]
  generalize s.toList = cs
  split
  · rw [numeral_iff_digits fun _ => (List.cons_ne_nil _ _).symm]
    exact iff_of_false nofun fun h => h.some rfl
  · rw [numeral_plus]
    exact iff_of_false nofun fun h => h.some rfl
  · rename_i cs nonempty
    rw [numeral_plus]
    exact accumulate_zero_eq_ok nonempty
  · rename_i nonempty _ bare
    rw [numeral_iff_digits bare]
    exact accumulate_zero_eq_ok nonempty

theorem toList_trim (s : String) : (trim s).toList = trimEnds isBlank s.toList :=
  String.toList_ofList

/-- A text that is trimmed and read is read as the number that it spells. -/
theorem unsigned?_trim_eq_ok {s : String} {m : UInt64} :
    unsigned? (trim s) = .ok m ↔ Spells s m.toNat := by
  rw [unsigned?_eq_ok, toList_trim, isBlank_eq]
  constructor
  · intro h
    exact ⟨_, trimEnds_trimmed _ s.toList, h⟩
  · rintro ⟨t, trimmed, h⟩
    rwa [trimmed.eq_trimEnds]

end QueryPlan.Text
