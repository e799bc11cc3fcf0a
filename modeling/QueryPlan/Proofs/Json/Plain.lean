import QueryPlan.Proofs.Json.WellKeyed

namespace QueryPlan

/-- The number without its sign if it is zero. -/
def Double.plain (x : Double) : Double := if x.isZero then zero false else x

theorem Double.plain_eq_of_same {x y : Double} (h : x.same y) : x.plain = y.plain := by
  rw [same, Bool.or_eq_true, beq_iff_eq, Bool.and_eq_true] at h
  rcases h with rfl | ⟨hx, hy⟩
  · rfl
  · rw [plain, plain, if_pos hx, if_pos hy]

theorem Double.isZero_plain (x : Double) : x.plain.isZero = x.isZero := by
  rw [plain]
  split
  · rename_i hx
    rw [hx]
    rfl
  · rfl

theorem Double.toNat?_plain (x : Double) : x.plain.toNat? = x.toNat? := by
  rw [plain]
  split
  · rename_i hx
    have units : x.units = 0 := by
      rw [isZero, beq_iff_eq] at hx
      rw [Double.units, hx]
      rfl
    rw [toNat?, toNat?, hx, units]
    simp [zero, isZero, Double.units, unitsOfRank, binade]
  · rfl

namespace Json

def Number.plain : Number → Number
  | .int n inRange => .int n inRange
  | .float x => .float x.plain

/-- The value without the signs of the zeros in it, which make no difference to equality. -/
def plain : Json → Json := rebuild Number.plain id

def Object.plain (o : Object) : Object := o.mapValues Json.plain

mutual

/-- The objects that stand in the same places have their members in the same order. -/
def sameOrder : Json → Json → Bool
  | .arr xs, .arr ys => sameOrderItems xs ys
  | .obj fs, .obj gs => sameOrderMembers fs gs
  | _, _ => true

def sameOrderItems : List Json → List Json → Bool
  | x :: xs, y :: ys => sameOrder x y && sameOrderItems xs ys
  | _, _ => true

def sameOrderMembers : List (String × Json) → List (String × Json) → Bool
  | [], [] => true
  | (k, v) :: fs, (l, w) :: gs => k == l && sameOrder v w && sameOrderMembers fs gs
  | _, _ => false

end

def Object.sameOrder (a b : Object) : Bool := (obj a).sameOrder (.obj b)

variable {v w : Json} {items more : List Json} {a b : Object}

theorem plain_arr (items : List Json) : (arr items).plain = .arr (items.map plain) :=
  rebuild_arr Number.plain id items

theorem plain_obj (fields : Object) : (obj fields).plain = .obj fields.plain :=
  rebuild_obj Number.plain id fields

theorem Object.get?_plain (o : Object) (key : String) :
    o.plain.get? key = (o.get? key).map Json.plain :=
  get?_mapValues Json.plain o key

theorem isNull_plain (v : Json) : v.plain.isNull = v.isNull := by
  cases v <;> rfl

theorem ofString?_plain (v : Json) : v.plain.ofString? = v.ofString? := by
  cases v <;> rfl

theorem sameOrderItems_of_length (length : items.length = more.length)
    (h : sameOrderItems items more) : List.Forall₂ (fun x y => x.sameOrder y) items more := by
  induction items generalizing more with
  | nil =>
    rw [List.length_eq_zero_iff.1 length.symm]
    exact .nil
  | cons x xs ih =>
    cases more with
    | nil => cases length
    | cons y ys =>
      rw [sameOrderItems, Bool.and_eq_true] at h
      exact .cons h.1 (ih (Nat.succ.inj length) h.2)

theorem sameOrderMembers_iff :
    sameOrderMembers a b ↔ List.Forall₂ (fun e e' => e.1 = e'.1 ∧ e.2.sameOrder e'.2) a b := by
  induction a generalizing b with
  | nil => cases b <;> simp [sameOrderMembers]
  | cons e a ih => cases b <;> simp [sameOrderMembers, ih]

/-- Equal values with all members in the same order only differ in signs of zeros. -/
theorem plain_eq_of_same (hw : w.wellKeyed) (same : v.same w) (order : v.sameOrder w) :
    v.plain = w.plain := by
  induction v using Json.induction generalizing w with
  | null => rw [same_null.1 same]
  | bool b => rw [same_bool.1 same]
  | num n =>
    obtain ⟨m, rfl, hm⟩ := same_num.1 same
    cases n with
    | int n _ =>
      cases m with
      | int m _ =>
        cases eq_of_beq hm
        rfl
      | float y => cases hm
    | float x =>
      cases m with
      | int m _ => cases hm
      | float y => exact congrArg (fun x => num (.float x)) (Double.plain_eq_of_same hm)
  | str s => rw [same_str.1 same]
  | arr items ih =>
    obtain ⟨more, rfl, hs⟩ := same_arr.1 same
    rw [wellKeyed_arr] at hw
    have ordered := sameOrderItems_of_length hs.length_eq order
    have each : List.Forall₂ (fun x y => x.plain = y.plain) items more := by
      refine forall₂_mono (.mp (fun _ _ => And.intro) hs ordered) fun x mem y mem' h => ?_
      exact ih x mem (hw y mem') h.1 h.2
    rw [plain_arr, plain_arr, map_eq_of_forall₂ each fun _ _ h => h]
  | obj fields ih =>
    obtain ⟨more, rfl, hs⟩ := same_obj.1 same
    obtain ⟨distinct, members⟩ := Object.wellKeyed_iff.1 hw
    rw [Object.same, Bool.and_eq_true] at hs
    have found := sameMembers_iff.1 hs.2
    have each : List.Forall₂ (fun e e' => (e.1, e.2.plain) = (e'.1, e'.2.plain)) fields more := by
      refine forall₂_mono (sameOrderMembers_iff.1 order) ?_
      rintro ⟨key, x⟩ mem ⟨_, y⟩ mem' ⟨rfl, ordered⟩
      obtain ⟨y', hy, hxy⟩ := found key x mem
      rw [(Object.mem_iff_get? distinct).1 mem'] at hy
      cases hy
      rw [ih key x mem (members _ mem') hxy ordered]
    rw [plain_obj, plain_obj]
    exact congrArg obj (map_eq_of_forall₂ each fun _ _ h => h)

theorem Object.plain_eq_of_same (hb : b.wellKeyed) (same : a.same b) (order : a.sameOrder b) :
    a.plain = b.plain := by
  have whole := Json.plain_eq_of_same hb (same_obj.2 ⟨b, rfl, same⟩) order
  rw [plain_obj, plain_obj] at whole
  exact Json.obj.inj whole

end Json

end QueryPlan
