namespace QueryPlan

/-- A finite set of names, listed in increasing order of their characters. -/
structure NameSet where
  toList : List String
  sorted : toList.Pairwise (· < ·)
deriving DecidableEq

namespace NameSet

def insertName (name : String) : List String → List String
  | [] => [name]
  | n :: rest =>
    if name < n then name :: n :: rest
    else if n < name then n :: insertName name rest
    else n :: rest

theorem mem_insertName {name m : String} {l : List String} :
    m ∈ insertName name l ↔ m = name ∨ m ∈ l := by
  induction l with
  | nil => simp [insertName]
  | cons n l ih =>
    rw [insertName]
    split
    · simp
    · split
      · rw [List.mem_cons, ih, List.mem_cons]
        exact or_left_comm
      · rename_i h₁ h₂
        have : name = n := String.le_antisymm (String.not_lt.1 h₂) (String.not_lt.1 h₁)
        simp [this]

theorem insertName_sorted (name : String) {l : List String} (h : l.Pairwise (· < ·)) :
    (insertName name l).Pairwise (· < ·) := by
  induction l with
  | nil => simp [insertName]
  | cons n l ih =>
    have hn := List.pairwise_cons.1 h
    rw [insertName]
    split
    · rename_i h₁
      refine List.pairwise_cons.2 ⟨fun m hm => ?_, h⟩
      rcases List.mem_cons.1 hm with rfl | hm
      · exact h₁
      · exact String.lt_trans h₁ (hn.1 m hm)
    · split
      · rename_i h₂
        refine List.pairwise_cons.2 ⟨fun m hm => ?_, ih hn.2⟩
        rcases mem_insertName.1 hm with rfl | hm
        · exact h₂
        · exact hn.1 m hm
      · exact h

def empty : NameSet := ⟨[], .nil⟩

def insert (s : NameSet) (name : String) : NameSet :=
  ⟨insertName name s.toList, insertName_sorted name s.sorted⟩

def ofList (names : List String) : NameSet := names.foldl insert empty

theorem mem_insert {s : NameSet} {name m : String} :
    m ∈ (s.insert name).toList ↔ m = name ∨ m ∈ s.toList :=
  mem_insertName

theorem mem_ofList {names : List String} {m : String} : m ∈ (ofList names).toList ↔ m ∈ names := by
  suffices h : ∀ s : NameSet, m ∈ (names.foldl insert s).toList ↔ m ∈ names ∨ m ∈ s.toList by
    simpa [ofList, empty] using h empty
  induction names with
  | nil => simp
  | cons n names ih =>
    intro s
    rw [List.foldl_cons, ih, mem_insert, List.mem_cons, or_assoc, or_left_comm]

theorem nodup (s : NameSet) : s.toList.Nodup := by
  apply List.Pairwise.imp ?_ s.sorted
  intro a b hlt hab
  subst hab
  exact String.lt_irrefl a hlt

end NameSet

end QueryPlan
