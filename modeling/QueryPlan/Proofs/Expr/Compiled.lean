import QueryPlan.Expr.Resolve
import QueryPlan.Proofs.Catalog.Lookup
import QueryPlan.Proofs.Expr.Occurrence
import QueryPlan.Proofs.Traversal

namespace QueryPlan

def IsLetter (c : Char) : Prop := ('a' ≤ c ∧ c ≤ 'z') ∨ ('A' ≤ c ∧ c ≤ 'Z')

def IsDigit (c : Char) : Prop := '0' ≤ c ∧ c ≤ '9'

/-- A letter or an underscore, then letters, digits, underscores and dots, all of them ASCII. -/
def IsFunctionName (name : String) : Prop :=
  ∃ first rest, name.toList = first :: rest ∧ (IsLetter first ∨ first = '_') ∧
    ∀ c ∈ rest, IsLetter c ∨ IsDigit c ∨ c = '_' ∨ c = '.'

theorem isAlpha_iff {c : Char} : c.isAlpha ↔ IsLetter c := by
  have upper : c.isUpper ↔ 'A' ≤ c ∧ c ≤ 'Z' := decide_eq_true_iff
  have lower : c.isLower ↔ 'a' ≤ c ∧ c ≤ 'z' := by
    change (decide ('a' ≤ c) && decide (c ≤ 'z')) = true ↔ _
    rw [Bool.and_eq_true, decide_eq_true_iff, decide_eq_true_iff]
  change (c.isUpper || c.isLower) = true ↔ _
  rw [Bool.or_eq_true, upper, lower]
  exact or_comm

theorem isDigit_iff {c : Char} : c.isDigit ↔ IsDigit c := by
  simp [Char.isDigit, IsDigit, Char.le_def]

theorem isFunctionName_iff {name : String} : isFunctionName name ↔ IsFunctionName name := by
  unfold isFunctionName IsFunctionName
  cases name.toList with
  | nil => simp
  | cons first rest =>
    simp [Char.isAlphanum, isAlpha_iff, isDigit_iff, or_assoc]

namespace Reads

@[simp]
theorem associations_append (a b : Reads) :
    (a ++ b).associations = a.associations ++ b.associations := rfl

@[simp]
theorem fields_append (a b : Reads) : (a ++ b).fields = a.fields ++ b.fields := rfl

variable {α : Type}

theorem associations_foldr (f : α → Reads) (xs : List α) (r : Reads) :
    (xs.foldr (f · ++ ·) r).associations =
      xs.flatMap (fun x => (f x).associations) ++ r.associations := by
  induction xs with
  | nil => rfl
  | cons x xs ih =>
    rw [List.foldr_cons, associations_append, ih, List.flatMap_cons, List.append_assoc]

theorem fields_foldr (f : α → Reads) (xs : List α) (r : Reads) :
    (xs.foldr (f · ++ ·) r).fields = xs.flatMap (fun x => (f x).fields) ++ r.fields := by
  induction xs with
  | nil => rfl
  | cons x xs ih => rw [List.foldr_cons, fields_append, ih, List.flatMap_cons, List.append_assoc]

end Reads

namespace Scope

variable {s : Scope} {name : String} {e : CompiledExpr}

/-- The column that a name stands for: a field of the model, or one that an association leads to. -/
inductive Denotes (s : Scope) (name : String) : CompiledExpr → Prop where
  | own {f : Field} (undotted : splitAtDot? name = none) (field : s.model.field? name = some f) :
      Denotes s name ⟨.column none f.storageName, { fields := [qualifiedName s.model f] }⟩
  | through {aliasName field : String} {a : Association} {t : Model} {f : Field}
      (dotted : splitAtDot? name = some (aliasName, field))
      (declared : s.model.association? aliasName = some a)
      (target : s.catalog.model? a.target = some t) (field : t.field? field = some f) :
      Denotes s name ⟨.column (some a.name) f.storageName, ⟨[a.name], [qualifiedName t f]⟩⟩

theorem column?_eq_some : s.column? name = .ok (some e) ↔ s.Denotes name e := by
  refine ⟨?_, ?_⟩
  · intro h
    rw [column?] at h
    split at h
    · rename_i undotted
      obtain ⟨f, hf, rfl⟩ := Option.map_eq_some_iff.1 (Except.ok.inj h)
      exact .own undotted hf
    · rename_i aliasName field dotted
      split at h
      · cases h
      · obtain ⟨⟨a, t⟩, ht, h⟩ := bind_eq_ok.1 h
        obtain ⟨f, hf, rfl⟩ := Option.map_eq_some_iff.1 (pure_eq_ok.1 h)
        obtain ⟨ha, ht⟩ := Catalog.target_eq_ok.1 (mapError_eq_ok.1 ht)
        exact .through dotted ha ht hf
  · intro h
    cases h with
    | own undotted field => simp only [column?, undotted, field, Option.map_some]
    | through dotted declared target field =>
      have ht := Catalog.target_eq_ok.2 ⟨declared, target⟩
      simp only [column?, dotted, declared, ht, field, Except.mapError, bind, Except.bind, pure,
        Except.pure, Option.map_some]

/-- What an expression of a request is compiled to. -/
inductive Compiled (s : Scope) : CompiledExpr → Prop where
  | literal (v : Json) : Compiled s ⟨.literal v, {}⟩
  | column {name : String} {e : CompiledExpr} (h : s.Denotes name e) : Compiled s e
  | call {function : String} {args : List CompiledExpr} (accepted : isFunctionName function)
      (h : ∀ a ∈ args, Compiled s a) :
      Compiled s ⟨.call function (args.map (·.expr)), args.foldr (·.reads ++ ·) {}⟩

theorem compileName_compiled {strictness : Strictness}
    (h : s.compileName strictness name = .ok e) : s.Compiled e := by
  obtain ⟨found, hc, h⟩ := bind_eq_ok.1 h
  cases found with
  | some e' =>
    cases pure_eq_ok.1 h
    exact .column (column?_eq_some.1 hc)
  | none =>
    cases strictness with
    | lenient =>
      cases pure_eq_ok.1 h
      exact .literal _
    | strict => cases throw_ne_ok h

theorem functionName_accepted {v : Option Json} (h : functionName v = .ok name) :
    isFunctionName name := by
  unfold functionName at h
  split at h
  · split at h
    · rename_i accepted
      cases h
      exact accepted
    · cases h
  · cases h

theorem compileArguments_compiled {strictness : Strictness}
    {argument : Json → Except CompileError CompiledExpr}
    (ih : ∀ v e, argument v = .ok e → s.Compiled e) {values : List Json}
    {args : List CompiledExpr} (h : s.compileArguments strictness argument values = .ok args) :
    ∀ a ∈ args, s.Compiled a := by
  have tail {values : List Json} {args : List CompiledExpr}
      (h : values.mapM argument = .ok args) : ∀ a ∈ args, s.Compiled a := by
    intro a ha
    obtain ⟨v, -, hv⟩ := exists_of_mem_right (mapM_eq_ok.1 h) ha
    exact ih v a hv
  unfold compileArguments at h
  split at h
  · obtain ⟨first, hf, h⟩ := bind_eq_ok.1 h
    obtain ⟨rest, hr, h⟩ := bind_eq_ok.1 h
    cases pure_eq_ok.1 h
    intro a ha
    rcases List.mem_cons.1 ha with rfl | ha
    · exact compileName_compiled hf
    · exact tail hr a ha
  · exact tail h

theorem compileCall_compiled {strictness : Strictness} {limit : UInt64} {remaining : Nat}
    {call : Json.Object} (h : s.compileCall strictness limit remaining call = .ok e) :
    s.Compiled e := by
  induction remaining generalizing call e with
  | zero => cases h
  | succ remaining ih =>
    obtain ⟨function, hf, h⟩ := bind_eq_ok.1 h
    obtain ⟨args, ha, h⟩ := bind_eq_ok.1 h
    cases pure_eq_ok.1 h
    refine .call (functionName_accepted hf) (compileArguments_compiled ?_ ha)
    intro v e hv
    split at hv
    · exact ih hv
    · cases hv
      exact .literal _

theorem compile_compiled {settings : Settings} {strictness : Strictness} {v : Json}
    (h : s.compile settings strictness v = .ok e) : s.Compiled e := by
  unfold compile at h
  split at h
  · exact compileCall_compiled h
  · exact compileName_compiled h
  · cases h
  · cases h
    exact .literal _

end Scope

end QueryPlan
