import Mathlib.Data.List.Lex

namespace QueryPlan.Text

/-- The text in UTF-8. -/
def bytes (s : String) : List UInt8 := s.toUTF8.data.toList

/-- How many bytes a character has after its first one. -/
def followers (n : Nat) : Nat :=
  if n ≤ 127 then 0 else if n ≤ 2047 then 1 else if n ≤ 65535 then 2 else 3

/-- The number without its `k` lowest groups of six bits. -/
def high (n : Nat) : Nat → Nat
  | 0 => n
  | k + 1 => high n k / 64

/-- The bits by which the first byte tells how many follow. -/
def mark : Nat → Nat
  | 0 => 0
  | 1 => 192
  | 2 => 224
  | _ => 240

def lead (n : Nat) : Nat := high n (followers n) + mark (followers n)

/-- The `k` lowest groups of six bits, each in a byte of its own. -/
def continuation (n : Nat) : Nat → List UInt8
  | 0 => []
  | k + 1 => UInt8.ofNat (high n k % 64 + 128) :: continuation n k

variable {m n k : Nat} {r s : List UInt8}

theorem byte_lt (h : m < n) (hn : n < 256) : UInt8.ofNat m < UInt8.ofNat n := by
  rw [UInt8.lt_iff_toNat_lt, UInt8.toNat_ofNat', UInt8.toNat_ofNat']
  omega

theorem high_mono (h : m ≤ n) (k : Nat) : high m k ≤ high n k := by
  induction k with
  | zero => exact h
  | succ k ih => exact Nat.div_le_div_right ih

theorem toNat_lt (c : Char) : c.val.toNat < 1114112 := by
  have valid := c.valid
  unfold UInt32.isValidChar Nat.isValidChar at valid
  omega

theorem encodeChar_eq (c : Char) : String.utf8EncodeChar c =
    UInt8.ofNat (lead c.val.toNat) :: continuation c.val.toNat (followers c.val.toNat) := by
  have hc := toNat_lt c
  unfold String.utf8EncodeChar lead followers
  generalize c.val.toNat = n at hc
  dsimp only
  split_ifs
  all_goals simp only [high, mark, continuation, Nat.add_zero, Nat.div_div_eq_div_mul]
  all_goals rw [Nat.mod_eq_of_lt (by omega)]

/-- Of two numbers that agree above the groups, the smaller one has the smaller groups. -/
theorem continuation_lt (h : m < n) (same : high m k = high n k) :
    continuation m k ++ r < continuation n k ++ s := by
  induction k with
  | zero => exact absurd same (Nat.ne_of_lt h)
  | succ k ih =>
    rw [high, high] at same
    rw [continuation, continuation, List.cons_append, List.cons_append, List.cons_lt_cons_iff]
    rcases Nat.lt_or_eq_of_le (high_mono h.le k) with less | equal
    · exact .inl (byte_lt (by omega) (by omega))
    · exact .inr ⟨by rw [equal], ih equal⟩

/-- A smaller number has no greater first byte, and the same one only if all that differs comes in
the bytes after it. -/
theorem lead_lt (h : m < n) (hn : n < 1114112) :
    lead m < lead n ∨
      followers m = followers n ∧ high m (followers n) = high n (followers n) := by
  by_cases same : followers m = followers n
  · rw [lead, lead, same]
    rcases Nat.lt_or_eq_of_le (high_mono h.le (followers n)) with less | equal
    · exact .inl (Nat.add_lt_add_right less _)
    · exact .inr ⟨rfl, equal⟩
  · left
    unfold followers at same
    unfold lead followers
    split_ifs at same ⊢
    all_goals simp only [high, mark]
    all_goals omega

theorem lead_lt_256 (hn : n < 1114112) : lead n < 256 := by
  unfold lead followers
  split_ifs
  all_goals simp only [high, mark]
  all_goals omega

theorem encodeChar_lt {c d : Char} (h : c < d) (r s : List UInt8) :
    String.utf8EncodeChar c ++ r < String.utf8EncodeChar d ++ s := by
  have hcd : c.val.toNat < d.val.toNat := UInt32.lt_iff_toNat_lt.1 (Char.lt_def.1 h)
  rw [encodeChar_eq, encodeChar_eq, List.cons_append, List.cons_append, List.cons_lt_cons_iff]
  rcases lead_lt hcd (toNat_lt d) with less | ⟨same, equal⟩
  · exact .inl (byte_lt less (lead_lt_256 (toNat_lt d)))
  · right
    have first : lead c.val.toNat = lead d.val.toNat := by rw [lead, lead, same, equal]
    rw [first, same]
    exact ⟨rfl, continuation_lt hcd equal⟩

theorem flatMap_encodeChar_lt {cs ds : List Char} (h : cs < ds) :
    cs.flatMap String.utf8EncodeChar < ds.flatMap String.utf8EncodeChar := by
  induction h with
  | nil =>
    rw [List.flatMap_nil, List.flatMap_cons, encodeChar_eq, List.cons_append]
    exact List.nil_lt_cons _ _
  | cons _ ih =>
    rw [List.flatMap_cons, List.flatMap_cons]
    exact List.Lex.append_left _ ih _
  | rel hlt =>
    rw [List.flatMap_cons, List.flatMap_cons]
    exact encodeChar_lt hlt _ _

theorem bytes_eq_flatMap (s : String) : bytes s = s.toList.flatMap String.utf8EncodeChar := by
  rw [bytes, String.toUTF8_eq_toByteArray, ← String.utf8Encode_toList, List.utf8Encode,
    List.toList_data_toByteArray]

/-- Texts in the order of their characters are in the order of their bytes. -/
theorem bytes_lt {s t : String} (h : s < t) : bytes s < bytes t := by
  rw [bytes_eq_flatMap, bytes_eq_flatMap]
  exact flatMap_encodeChar_lt (String.lt_iff.1 h)

end QueryPlan.Text
