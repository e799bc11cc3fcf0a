import QueryPlan.Expr.Resolve
import QueryPlan.Expr.Text

namespace QueryPlan

/-- A literal that is written as a word: null, a truth value, an integer, or the string that stands
for a row. -/
inductive Json.Bare : Json → Prop where
  | null : Bare .null
  | bool (b : Bool) : Bare (.bool b)
  | integer (n : Int) (inRange : -9223372036854775808 ≤ n ∧ n < 18446744073709551616) :
      Bare (.num (.int n inRange))
  | row : Bare (.str "*")

namespace Expr

variable {word word' rest rest' : List Char}

/-- A character that is no part of a word. -/
def isMark (c : Char) : Bool := c == '\'' || c == '(' || c == ')' || c == ','

def IsWord (word : List Char) : Prop := ∀ c ∈ word, isMark c = false

-- Characters are finitely many, which must not be how this is decided.
instance (word : List Char) : Decidable (IsWord word) :=
  List.decidableBAll (fun c => isMark c = false) word

/-- A word in front of this is over. -/
def AtMark (rest : List Char) : Prop := ∀ c ∈ rest.head?, isMark c

/-- What may follow an expression. -/
inductive Ends : List Char → Prop where
  | nothing : Ends []
  | comma (cs : List Char) : Ends (',' :: cs)
  | closing (cs : List Char) : Ends (')' :: cs)

theorem Ends.atMark (h : Ends rest) : AtMark rest := by
  cases h <;> simp [AtMark, isMark]

theorem takeWhile_word (h : IsWord word) (mark : AtMark rest) :
    (word ++ rest).takeWhile (!isMark ·) = word := by
  have letters : ∀ c ∈ word, (!isMark c) = true := fun c hc => by rw [h c hc]; rfl
  have stop : rest.takeWhile (!isMark ·) = [] := by
    cases rest with
    | nil => rfl
    | cons c rest => simp [mark c rfl]
  rw [List.takeWhile_append_of_pos letters, stop, List.append_nil]

theorem word_append_inj (h : IsWord word) (h' : IsWord word') (mark : AtMark rest)
    (mark' : AtMark rest') (same : word ++ rest = word' ++ rest') :
    word = word' ∧ rest = rest' := by
  have words : word = word' := by
    rw [← takeWhile_word h mark, same, takeWhile_word h' mark']
  subst words
  exact ⟨rfl, List.append_cancel_left same⟩

theorem word_append_ne (h : IsWord word) (some : word ≠ []) : word ++ rest ≠ ')' :: rest' := by
  cases word with
  | nil => contradiction
  | cons c cs =>
    intro same
    have letter := h c List.mem_cons_self
    cases same
    cases letter

theorem isMark_of_isAlphanum {c : Char} (h : c.isAlphanum) : isMark c = false := by
  rw [Bool.eq_false_iff]
  intro mark
  simp only [isMark, Bool.or_eq_true, beq_iff_eq] at mark
  rcases mark with ((rfl | rfl) | rfl) | rfl <;> cases h

theorem isMark_of_isNamePart {c : Char} (h : c.isAlphanum || c == '_' || c == '.') :
    isMark c = false := by
  simp only [Bool.or_eq_true, beq_iff_eq] at h
  rcases h with (alphanum | rfl) | rfl
  · exact isMark_of_isAlphanum alphanum
  · rfl
  · rfl

theorem isWord_function {function : String} (accepted : isFunctionName function) :
    IsWord function.toList ∧ function.toList ≠ [] := by
  unfold isFunctionName at accepted
  split at accepted
  · cases accepted
  · rename_i c cs letters
    obtain ⟨first, others⟩ := Bool.and_eq_true_iff.1 accepted
    have part : c.isAlphanum || c == '_' || c == '.' := by
      rcases Bool.or_eq_true_iff.1 first with alpha | underscore
      · rw [Char.isAlphanum, alpha]
        rfl
      · rw [underscore, Bool.or_true]
        rfl
    rw [letters]
    constructor
    · refine List.forall_mem_cons.2 ⟨isMark_of_isNamePart part, ?_⟩
      intro d hd
      exact isMark_of_isNamePart (List.all_eq_true.1 others d hd)
    · exact List.cons_ne_nil c cs

/-- A character that integers are written with. -/
def isIntegerPart (c : Char) : Bool := c.isDigit || c == '-'

theorem isMark_of_isIntegerPart {c : Char} (h : isIntegerPart c) : isMark c = false := by
  rw [isIntegerPart, Bool.or_eq_true, beq_iff_eq] at h
  rcases h with digit | rfl
  · apply isMark_of_isAlphanum
    rw [Char.isAlphanum, digit, Bool.or_true]
  · rfl

theorem toList_repr_ofNat (n : Nat) : (Int.ofNat n).repr.toList = Nat.toDigits 10 n :=
  Nat.toList_repr

theorem toList_repr_negSucc (n : Nat) :
    (Int.negSucc n).repr.toList = '-' :: Nat.toDigits 10 (n + 1) := by
  change ("-" ++ (n + 1).repr).toList = _
  rw [String.toList_append, Nat.toList_repr]
  rfl

theorem isIntegerPart_toDigits (n : Nat) : ∀ c ∈ Nat.toDigits 10 n, isIntegerPart c := by
  intro c hc
  rw [isIntegerPart, Nat.isDigit_of_mem_toDigits (by decide) (by decide) hc, Bool.true_or]

theorem isIntegerPart_repr (n : Int) : ∀ c ∈ n.repr.toList, isIntegerPart c := by
  cases n with
  | ofNat n =>
    rw [toList_repr_ofNat]
    exact isIntegerPart_toDigits n
  | negSucc n =>
    rw [toList_repr_negSucc]
    exact List.forall_mem_cons.2 ⟨rfl, isIntegerPart_toDigits (n + 1)⟩

theorem repr_ne_nil (n : Int) : n.repr.toList ≠ [] := by
  cases n with
  | ofNat n =>
    rw [toList_repr_ofNat]
    exact Nat.toDigits_ne_nil
  | negSucc n =>
    rw [toList_repr_negSucc]
    exact List.cons_ne_nil _ _

/-- The integer that is written with a sign in front of its digits, or without. -/
def integerOf : List Char → Int
  | '-' :: digits => -Nat.ofDigitChars 10 digits 0
  | digits => Nat.ofDigitChars 10 digits 0

theorem integerOf_repr (n : Int) : integerOf n.repr.toList = n := by
  cases n with
  | ofNat n =>
    rw [toList_repr_ofNat]
    unfold integerOf
    split
    · -- A sign is no digit.
      rename_i digits signed
      have sign : '-' ∈ Nat.toDigits 10 n := by
        rw [signed]
        exact List.mem_cons_self
      have digit : '-'.isDigit := Nat.isDigit_of_mem_toDigits (by decide) (by decide) sign
      cases digit
    · rw [Nat.ofDigitChars_ten_toDigits]
      rfl
  | negSucc n =>
    rw [toList_repr_negSucc, integerOf, Nat.ofDigitChars_ten_toDigits]
    rfl

end Expr

namespace Json

/-- The literal that a word stands for. -/
def ofWord? (word : String) : Option Json :=
  if word.toList.all Expr.isIntegerPart then
    let n := Expr.integerOf word.toList
    if inRange : -9223372036854775808 ≤ n ∧ n < 18446744073709551616 then
      some (.num (.int n inRange))
    else none
  else
    match word with
    | "null" => some .null
    | "true" => some (.bool true)
    | "false" => some (.bool false)
    | "*" => some (.str "*")
    | _ => none

namespace Bare

variable {v v' : Json}

theorem ofWord?_literalText (h : v.Bare) : ofWord? (literalText v) = some v := by
  cases h with
  | null => rfl
  | bool b => cases b <;> rfl
  | row => rfl
  | integer n inRange =>
    change ofWord? n.repr = _
    unfold ofWord?
    rw [if_pos (List.all_eq_true.2 (Expr.isIntegerPart_repr n)), Expr.integerOf_repr n]
    exact dif_pos inRange

theorem literalText_inj (h : v.Bare) (h' : v'.Bare) (same : literalText v = literalText v') :
    v = v' := by
  have read : some v = some v' := by
    rw [← h.ofWord?_literalText, same, h'.ofWord?_literalText]
  exact Option.some.inj read

theorem literalText_ne_nil (h : v.Bare) : (literalText v).toList ≠ [] := by
  cases h with
  | null => decide
  | bool b => cases b <;> decide
  | row => decide
  | integer n _ => exact Expr.repr_ne_nil n

theorem isWord_literalText (h : v.Bare) : Expr.IsWord (literalText v).toList := by
  cases h with
  | null => decide
  | bool b => cases b <;> decide
  | row => decide
  | integer n _ =>
    intro c hc
    exact Expr.isMark_of_isIntegerPart (Expr.isIntegerPart_repr n c hc)

end Bare

end Json

namespace Expr

variable {rest rest' : List Char}

/-- A character of a string as it is written in quotes. -/
def doubled (c : Char) : List Char := if c = '\'' then ['\'', '\''] else [c]

/-- What is read up to the first quote that stands alone, and what follows that quote. -/
def unquoted : List Char → List Char × List Char
  | [] => ([], [])
  | '\'' :: '\'' :: rest => ('\'' :: (unquoted rest).1, (unquoted rest).2)
  | '\'' :: rest => ([], rest)
  | c :: rest => (c :: (unquoted rest).1, (unquoted rest).2)

/-- The closing quote stands alone, since no quote may follow it, and those in the string do not. -/
theorem unquoted_doubled (ends : Ends rest) (cs : List Char) :
    unquoted (cs.flatMap doubled ++ '\'' :: rest) = (cs, rest) := by
  induction cs with
  | nil => cases ends <;> rfl
  | cons c cs ih =>
    rw [List.flatMap_cons, List.append_assoc, doubled]
    split
    · rename_i quote
      subst quote
      rw [List.cons_append, List.cons_append, List.nil_append, unquoted, ih]
    · rename_i other
      rw [List.cons_append, List.nil_append, unquoted.eq_4 _ _ (fun _ h => absurd h other) other,
        ih]

theorem doubled_append_inj {cs cs' : List Char} (ends : Ends rest) (ends' : Ends rest')
    (same : cs.flatMap doubled ++ '\'' :: rest = cs'.flatMap doubled ++ '\'' :: rest') :
    cs = cs' ∧ rest = rest' := by
  have read : (cs, rest) = (cs', rest') := by
    rw [← unquoted_doubled ends, same, unquoted_doubled ends']
  exact Prod.mk.inj read

end Expr

end QueryPlan
