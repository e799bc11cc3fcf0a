import QueryPlan.Proofs.Selection.Rewriting

namespace QueryPlan.GraphQL

namespace Directive

/-- The value of the first argument `if`. -/
def condition? (bindings : Json.Object) (d : Directive) : Option Json :=
  (d.args.lookup "if").map (Value.decode bindings)

def holds (bindings : Json.Object) (d : Directive) (b : Bool) : Bool :=
  (d.condition? bindings).bind Json.ofBool? = some b

/-- A `skip` whose condition is true, or an `include` whose condition is false. -/
def deletes (bindings : Json.Object) (d : Directive) : Bool :=
  d.name = "skip" && d.holds bindings true || d.name = "include" && d.holds bindings false

def isConditional (d : Directive) : Bool := d.name = "skip" || d.name = "include"

variable {bindings : Json.Object} {d : Directive}

theorem holds_iff {b : Bool} : d.holds bindings b ↔ d.condition? bindings = some (.bool b) := by
  rw [holds, decide_eq_true_iff]
  cases d.condition? bindings with
  | none => simp
  | some v => cases v <;> simp [Json.ofBool?]

theorem excludes_eq_deletes : d.excludes bindings = d.deletes bindings := by
  have condition : (d.args.lookup "if").map (Value.decode bindings) = d.condition? bindings := rfl
  rw [excludes, condition]
  split
  · rename_i b hname hcondition
    rw [deletes, holds, holds, hname, hcondition]
    cases b <;> rfl
  · rename_i b hname hcondition
    rw [deletes, holds, holds, hname, hcondition]
    cases b <;> rfl
  · rename_i hskip hinclude
    symm
    rw [Bool.eq_false_iff, deletes, Ne, Bool.or_eq_true, Bool.and_eq_true, Bool.and_eq_true,
      decide_eq_true_iff, decide_eq_true_iff, holds_iff, holds_iff, not_or]
    exact ⟨fun h => hskip true h.1 h.2, fun h => hinclude false h.1 h.2⟩

theorem excludes_unconditional (h : d.isConditional = false) : d.excludes bindings = false := by
  rw [isConditional, Bool.or_eq_false_iff] at h
  rw [excludes_eq_deletes, deletes, h.1, h.2, Bool.false_and, Bool.false_and, Bool.or_false]

end Directive

/-- What a directive excludes is replaced by an inline fragment without selections, and no `skip` or
`include` is left anywhere. -/
def Rewriting.deletion (bindings : Json.Object) : Rewriting where
  keeps directives := !directives.any (·.deletes bindings)
  directives := List.filter (!·.isConditional)
  arguments := id

theorem isSelected_eq (bindings : Json.Object) (directives : List Directive) :
    isSelected bindings directives = !directives.any (·.deletes bindings) := by
  rw [isSelected, List.not_any_eq_all_not]
  simp only [Directive.excludes_eq_deletes]

theorem Rewriting.deletion_neutral (bindings : Json.Object) :
    (deletion bindings).Neutral bindings bindings id where
  kept := by
    intro directives keeps
    rw [isSelected_eq bindings directives]
    refine Eq.trans ?_ keeps.symm
    rw [isSelected, List.all_eq_true]
    intro d mem
    have unconditional := List.of_mem_filter mem
    rw [Bool.not_eq_true'] at unconditional
    rw [Directive.excludes_unconditional unconditional, Bool.not_false]
  dropped := by
    intro directives drops
    exact (isSelected_eq bindings directives).trans drops
  arguments := fun _ _ => rfl

/-- `skip` and `include` act as deletion: the tree of a response key is that of the document in
which what they exclude is deleted, and they themselves are. -/
theorem Document.tree?_deletion (d : Document) (schema : Schema) (bindings : Json.Object)
    (operation : Option String) (key : String) :
    (((Rewriting.deletion bindings).document d).rootField schema bindings operation key).tree? =
      (d.rootField schema bindings operation key).tree? := by
  have same := Rewriting.tree?_document (Rewriting.deletion_neutral bindings) d schema operation key
  have whole : (fun f : SelectedField => f.mapArgs id) = id := funext SelectedField.mapArgs_id
  rw [whole, Option.map_id] at same
  exact same

end QueryPlan.GraphQL
