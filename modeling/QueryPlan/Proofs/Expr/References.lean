import QueryPlan.Proofs.Expr.Positions
import QueryPlan.Proofs.Plan.Columns
import QueryPlan.Proofs.Plan.Stage

namespace QueryPlan

section

variable {name before after : String}

theorem bne_of_not_mem {c : Char} {cs : List Char} (h : c ∉ cs) : ∀ d ∈ cs, (d != c) = true := by
  intro d hd
  rw [bne_iff_ne]
  rintro rfl
  exact h hd

theorem splitAtDot?_undotted (h : '.' ∉ name.toList) : splitAtDot? name = none := by
  have passed : (name.toList ++ []).dropWhile (· != '.') = [] :=
    List.dropWhile_append_of_pos (bne_of_not_mem h)
  rw [List.append_nil] at passed
  rw [splitAtDot?, passed]

theorem splitAtDot?_dotted (h : '.' ∉ before.toList) :
    splitAtDot? (before ++ "." ++ after) = some (before, after) := by
  have named : (before ++ "." ++ after).toList = before.toList ++ '.' :: after.toList := by simp
  have passed := bne_of_not_mem h
  rw [splitAtDot?, named, List.dropWhile_append_of_pos passed, List.takeWhile_append_of_pos passed]
  simp

theorem dotted_of_mem (h : '.' ∈ name.toList) :
    ∃ before after, '.' ∉ before.toList ∧ name = before ++ "." ++ after := by
  obtain ⟨before, after, split, undotted⟩ := List.eq_append_cons_of_mem h
  refine ⟨.ofList before, .ofList after, ?_, ?_⟩
  · rw [String.toList_ofList]
    exact undotted
  · rw [← String.toList_inj, split]
    simp

theorem splitAtDot?_eq_none : splitAtDot? name = none ↔ '.' ∉ name.toList := by
  constructor
  · intro h dotted
    obtain ⟨before, after, undotted, rfl⟩ := dotted_of_mem dotted
    rw [splitAtDot?_dotted undotted] at h
    cases h
  · exact splitAtDot?_undotted

theorem splitAtDot?_eq_some :
    splitAtDot? name = some (before, after) ↔
      '.' ∉ before.toList ∧ name = before ++ "." ++ after := by
  constructor
  · intro h
    by_cases dotted : '.' ∈ name.toList
    · obtain ⟨before', after', undotted, rfl⟩ := dotted_of_mem dotted
      cases (splitAtDot?_dotted undotted).symm.trans h
      exact ⟨undotted, rfl⟩
    · cases (splitAtDot?_undotted dotted).symm.trans h
  · rintro ⟨undotted, rfl⟩
    exact splitAtDot?_dotted undotted

end

namespace Scope

variable {s : Scope} {strictness : Strictness} {settings : Settings} {limit : UInt64} {n : Nat}
  {path : List Nat} {name x : String} {v : Json} {e : CompiledExpr} {column : Expr}

/-- The column that a name stands for and the field it reads; the first dot ends an association. -/
inductive Refers (s : Scope) : String → Expr → String → Prop where
  | own {name : String} {f : Field} (undotted : '.' ∉ name.toList)
      (field : s.model.field? name = some f) :
      Refers s name (.column none f.storageName) (s.model.name ++ "." ++ name)
  | through {association name : String} {a : Association} {t : Model} {f : Field}
      (undotted : '.' ∉ association.toList)
      (declared : s.model.association? association = some a)
      (target : s.catalog.model? a.target = some t) (field : t.field? name = some f) :
      Refers s (association ++ "." ++ name) (.column (some association) f.storageName)
        (t.name ++ "." ++ name)

theorem Denotes.refers (h : s.Denotes name e) :
    ∃ x, s.Refers name e.expr x ∧ e.reads.fields = [x] := by
  cases h with
  | own undotted field =>
    rw [qualifiedName, (Model.field?_some field).2]
    exact ⟨_, .own (splitAtDot?_eq_none.1 undotted) field, rfl⟩
  | through dotted declared target field =>
    obtain ⟨undotted, rfl⟩ := splitAtDot?_eq_some.1 dotted
    rw [qualifiedName, (Model.field?_some field).2, (Model.association?_some declared).2]
    exact ⟨_, .through undotted declared target field, rfl⟩

theorem Refers.denotes (h : s.Refers name column x) :
    ∃ e, s.Denotes name e ∧ e.expr = column ∧ e.reads.fields = [x] := by
  cases h with
  | own undotted field =>
    have denotes := Denotes.own (splitAtDot?_undotted undotted) field
    rw [qualifiedName, (Model.field?_some field).2] at denotes
    exact ⟨_, denotes, rfl, rfl⟩
  | through undotted declared target field =>
    have denotes := Denotes.through (splitAtDot?_dotted undotted) declared target field
    rw [qualifiedName, (Model.field?_some field).2, (Model.association?_some declared).2] at denotes
    exact ⟨_, denotes, rfl, rfl⟩

theorem Refers.eq_column (h : s.Refers name column x) :
    ∃ association storage, column = .column association storage := by
  cases h with
  | own => exact ⟨_, _, rfl⟩
  | through => exact ⟨_, _, rfl⟩

theorem Denotes.unique {e' : CompiledExpr} (h : s.Denotes name e) (h' : s.Denotes name e') :
    e = e' := by
  cases (column?_eq_some.2 h).symm.trans (column?_eq_some.2 h')
  rfl

theorem compileName_cases (h : s.compileName strictness name = .ok e) :
    s.Denotes name e ∨ (∀ e', ¬ s.Denotes name e') ∧ e = ⟨.literal (.str name), {}⟩ := by
  obtain ⟨found, hc, h⟩ := bind_eq_ok.1 h
  cases found with
  | some e' =>
    cases pure_eq_ok.1 h
    exact .inl (column?_eq_some.1 hc)
  | none =>
    cases strictness with
    | strict => cases throw_ne_ok h
    | lenient =>
      cases pure_eq_ok.1 h
      refine .inr ⟨?_, rfl⟩
      intro e' denotes
      cases hc.symm.trans (column?_eq_some.2 denotes)

/-- What becomes of the value at a path, if at most `n` calls may be nested in it. -/
inductive Argument (s : Scope) (strictness : Strictness) (limit : UInt64) (n : Nat)
    (path : List Nat) : Json → CompiledExpr → Prop where
  | call {call : Json.Object} {e : CompiledExpr}
      (compiled : s.compileCall strictness limit n call = .ok e) :
      Argument s strictness limit n path (.obj call) e
  | name {name : String} {e : CompiledExpr} (first : IsColumnPlace path)
      (compiled : s.compileName strictness name = .ok e) :
      Argument s strictness limit n path (.str name) e
  | literal {v : Json} (noCall : ∀ call, v ≠ .obj call)
      (noName : IsColumnPlace path → ∀ name, v ≠ .str name) :
      Argument s strictness limit n path v ⟨.literal v, {}⟩

theorem compile_argument (h : s.compile settings strictness v = .ok e) :
    s.Argument strictness settings.maxDepth settings.maxDepth.toNat [] v e := by
  cases v with
  | obj call => exact .call h
  | str name => exact .name isColumnPlace_nil h
  | arr items => cases h
  | null =>
    cases h
    exact .literal nofun nofun
  | bool b =>
    cases h
    exact .literal nofun nofun
  | num m =>
    cases h
    exact .literal nofun nofun

theorem functionName_given {given : Option Json} (h : functionName given = .ok name) :
    given = some (.str name) := by
  unfold functionName at h
  split at h
  · split at h
    · cases h
      rfl
    · cases h
  · cases h

theorem compileArguments_argument {argument : Json → Except CompileError CompiledExpr}
    (ordinary : ∀ {i v e}, (i = 0 → ∀ name, v ≠ .str name) → argument v = .ok e →
      s.Argument strictness limit n (path ++ [i]) v e)
    {values : List Json} {args : List CompiledExpr}
    (h : s.compileArguments strictness argument values = .ok args) (i : Nat) :
    Option.Rel (s.Argument strictness limit n (path ++ [i])) values[i]? args[i]? := by
  unfold compileArguments at h
  split at h
  · obtain ⟨first, hf, h⟩ := bind_eq_ok.1 h
    obtain ⟨rest, hr, h⟩ := bind_eq_ok.1 h
    cases pure_eq_ok.1 h
    cases i with
    | zero => exact .some (.name (isColumnPlace_concat.2 rfl) hf)
    | succ i =>
      apply rel_mono (rel_getElem? (mapM_eq_ok.1 hr) i)
      intro v _ a _ compiled
      exact ordinary nofun compiled
  · rename_i noName
    apply rel_mono (rel_getElem? (mapM_eq_ok.1 h) i)
    intro v hv a _ compiled
    apply ordinary _ compiled
    -- A list that has a name in front is compiled the other way.
    rintro rfl name rfl
    obtain ⟨rest, rfl⟩ := List.head?_eq_some_iff.1 (List.head?_eq_getElem?.trans hv)
    exact noName name rest rfl

theorem compileCall_cases {call : Json.Object} (path : List Nat)
    (h : s.compileCall strictness limit n call = .ok e) :
    ∃ k function, ∃ args : List CompiledExpr, n = k + 1 ∧ call.get? "fn" = some (.str function) ∧
      (∀ i, Option.Rel (s.Argument strictness limit k (path ++ [i]))
        (Json.obj call).callArguments[i]? args[i]?) ∧
      e = ⟨.call function (args.map (·.expr)), args.foldr (·.reads ++ ·) {}⟩ := by
  cases n with
  | zero => cases h
  | succ k =>
    obtain ⟨function, hf, h⟩ := bind_eq_ok.1 h
    obtain ⟨args, ha, h⟩ := bind_eq_ok.1 h
    cases pure_eq_ok.1 h
    refine ⟨k, function, args, rfl, functionName_given hf, ?_, rfl⟩
    rw [Json.callArguments_obj]
    apply compileArguments_argument _ ha
    intro i v e noName hv
    split at hv
    · exact .call hv
    · rename_i noCall
      cases hv
      apply Argument.literal noCall
      intro first
      exact noName (isColumnPlace_concat.1 first)

/-- What stands at a path for a value: names are looked up in the places of columns only. -/
inductive Stands (s : Scope) (path : List Nat) : Json → Expr → Prop where
  | call {call : Json.Object} {function : String} {args : List Expr}
      (named : call.get? "fn" = some (.str function)) :
      Stands s path (.obj call) (.call function args)
  | column {name : String} {column : Expr} {x : String} (first : IsColumnPlace path)
      (refers : s.Refers name column x) : Stands s path (.str name) column
  | literal {v : Json} (noCall : ∀ call, v ≠ .obj call)
      (noColumn : IsColumnPlace path → ∀ name, v = .str name →
        ∀ column x, ¬ s.Refers name column x) : Stands s path v (.literal v)

theorem compileName_stands (first : IsColumnPlace path)
    (h : s.compileName strictness name = .ok e) : s.Stands path (.str name) e.expr := by
  rcases compileName_cases h with denotes | ⟨unknown, rfl⟩
  · obtain ⟨x, refers, -⟩ := denotes.refers
    exact .column first refers
  · apply Stands.literal
    · nofun
    · intro _ _ he _ _ refers
      cases he
      obtain ⟨e, denotes, -⟩ := refers.denotes
      exact unknown e denotes

theorem compileName_mem_fields (h : s.compileName strictness name = .ok e) :
    e.expr.arguments = [] ∧ (x ∈ e.reads.fields ↔ s.Refers name e.expr x) := by
  rcases compileName_cases h with denotes | ⟨-, rfl⟩
  · obtain ⟨y, refers, reads⟩ := denotes.refers
    obtain ⟨_, _, he⟩ := refers.eq_column
    refine ⟨by rw [he]; rfl, ?_⟩
    rw [reads, List.mem_singleton]
    constructor
    · rintro rfl
      exact refers
    · intro refers'
      obtain ⟨e', denotes', -, reads'⟩ := refers'.denotes
      cases denotes.unique denotes'
      exact (List.singleton_inj.1 (reads.symm.trans reads')).symm
  · refine ⟨rfl, ?_⟩
    constructor
    · intro h
      cases h
    · intro refers
      obtain ⟨_, _, he⟩ := refers.eq_column
      cases he

theorem Argument.stands (h : s.Argument strictness limit n path v e) :
    s.Stands path v e.expr := by
  cases h with
  | call compiled =>
    obtain ⟨k, function, args, -, named, -, rfl⟩ := compileCall_cases path compiled
    exact .call named
  | name first compiled => exact compileName_stands first compiled
  | literal noCall noName =>
    apply Stands.literal noCall
    intro first name he
    cases noName first name he

/-- The arguments of a value are compiled one by one; it reads what they read and what it names. -/
theorem Argument.arguments (h : s.Argument strictness limit n path v e) :
    ∃ k, ∃ args : List CompiledExpr,
      (∀ i, Option.Rel (s.Argument strictness limit k (path ++ [i])) v.callArguments[i]? args[i]?) ∧
      e.expr.arguments = args.map (·.expr) ∧
      ∀ x, x ∈ e.reads.fields ↔
        (∃ name, v = .str name ∧ s.Refers name e.expr x) ∨ ∃ a ∈ args, x ∈ a.reads.fields := by
  cases h with
  | call compiled =>
    obtain ⟨k, function, args, -, -, below, rfl⟩ := compileCall_cases path compiled
    refine ⟨k, args, below, rfl, ?_⟩
    intro x
    simp [mem_fields_call]
  | name first compiled =>
    refine ⟨n, [], fun _ => .none, (compileName_mem_fields compiled (x := "")).1, ?_⟩
    intro x
    simp [(compileName_mem_fields compiled).2]
  | literal noCall noName =>
    refine ⟨n, [], ?_, rfl, ?_⟩
    · intro i
      rw [Json.callArguments_of_ne_obj noCall]
      exact .none
    · intro x
      constructor
      · intro h
        cases h
      · rintro (⟨name, -, refers⟩ | ⟨a, ha, -⟩)
        · obtain ⟨_, _, he⟩ := refers.eq_column
          cases he
        · cases ha

/-- What a whole value is compiled to, place by place. -/
theorem Argument.stands_at (h : s.Argument strictness limit n path v e) (inner : List Nat) :
    Option.Rel (s.Stands (path ++ inner)) (v.valueAt inner) (e.expr.partAt inner) := by
  induction inner generalizing n path v e with
  | nil =>
    rw [List.append_nil]
    exact .some h.stands
  | cons i inner ih =>
    obtain ⟨k, args, below, he, -⟩ := h.arguments
    rw [Json.valueAt, Expr.partAt, he, List.getElem?_map, Option.bind_map]
    apply rel_bind (below i)
    intro w a ha
    rw [← List.singleton_append, ← List.append_assoc]
    exact ih ha

/-- The fields an expression reads are those that the columns in it stand for. -/
theorem Argument.mem_fields (h : s.Argument strictness limit n path v e) :
    x ∈ e.reads.fields ↔ ∃ inner name column, v.valueAt inner = some (.str name) ∧
      e.expr.partAt inner = some column ∧ s.Refers name column x := by
  constructor
  · intro hx
    -- What is read is named by the value itself or read by an argument, which is a smaller part.
    generalize hexpr : e.expr = expr
    induction expr using Expr.induction_arguments generalizing n path v e with
    | step expr ih =>
      subst hexpr
      obtain ⟨k, args, below, he, reads⟩ := h.arguments
      rcases (reads x).1 hx with ⟨name, rfl, refers⟩ | ⟨a, ha, hx⟩
      · exact ⟨[], name, e.expr, rfl, rfl, refers⟩
      · obtain ⟨i, hi⟩ := List.getElem?_of_mem ha
        obtain ⟨w, hw, compiled⟩ := (exists_of_rel (below i)).2 a hi
        have mem : a.expr ∈ e.expr.arguments := by
          rw [he]
          exact List.mem_map_of_mem ha
        obtain ⟨inner, name, column, hv, hc, refers⟩ := ih a.expr mem compiled hx rfl
        refine ⟨i :: inner, name, column, ?_, ?_, refers⟩
        · rw [Json.valueAt, hw, Option.bind_some, hv]
        · rw [Expr.partAt, he, List.getElem?_map, hi, Option.map_some, Option.bind_some, hc]
  · rintro ⟨inner, name, column, hv, he, refers⟩
    induction inner generalizing n path v e with
    | nil =>
      cases hv
      cases he
      obtain ⟨k, args, -, -, reads⟩ := h.arguments
      exact (reads x).2 (.inl ⟨name, rfl, refers⟩)
    | cons i inner ih =>
      obtain ⟨k, args, below, ha, reads⟩ := h.arguments
      obtain ⟨w, hw, hv⟩ := Option.bind_eq_some_iff.1 hv
      obtain ⟨a, hi, compiled⟩ := (exists_of_rel (below i)).1 w hw
      rw [Expr.partAt, ha, List.getElem?_map, hi] at he
      exact (reads x).2 (.inr ⟨a, List.mem_of_getElem? hi, ih compiled hv he⟩)

theorem compile_mem_associations (h : s.compile settings strictness v = .ok e)
    {association : String} :
    association ∈ e.reads.associations ↔
      ∃ path storage, e.expr.partAt path = some (.column (some association) storage) := by
  have resolved := (compile_compiled h).resolved
  constructor
  · intro ha
    obtain ⟨storage, occurs⟩ := resolved.mem_associations ha
    obtain ⟨path, part⟩ := Expr.occurs_iff_partAt.1 occurs
    exact ⟨path, storage, part⟩
  · rintro ⟨path, storage, part⟩
    exact (resolved.qualified (Expr.occurs_iff_partAt.2 ⟨path, part⟩)).1

/-- An expression is resolved place by place, and reports what the columns in it read. -/
theorem compile_resolves (h : s.compile settings strictness v = .ok e) :
    (∀ path, Option.Rel (s.Stands path) (v.valueAt path) (e.expr.partAt path)) ∧
      (∀ association, association ∈ e.reads.associations ↔
        ∃ path storage, e.expr.partAt path = some (.column (some association) storage)) ∧
      ∀ x, x ∈ e.reads.fields ↔ ∃ path name column, v.valueAt path = some (.str name) ∧
        e.expr.partAt path = some column ∧ s.Refers name column x := by
  have argument := compile_argument h
  refine ⟨argument.stands_at, ?_, ?_⟩
  · intro association
    exact compile_mem_associations h
  · intro x
    exact argument.mem_fields

end Scope

namespace Sample

def ownerInitial : Json :=
  .obj [("fn", .str "LEFT"), ("args", .arr [.str "owner.name", .str "title",
    .obj [("fn", .str "MAX"), ("args", .str "id")]])]

def ownerInitialCompiled : CompiledExpr where
  expr := .call "LEFT" [.column (some "owner") "user_name", .literal (.str "title"),
    .call "MAX" [.column none "id"]]
  reads := ⟨["owner"], ["User.name", "Project.id"]⟩

theorem ownerInitial_resolves :
    Scope.compile ⟨planner.catalog, project⟩ planner.settings .lenient ownerInitial =
        .ok ownerInitialCompiled ∧
      (∀ path, Option.Rel (Scope.Stands ⟨planner.catalog, project⟩ path)
        (ownerInitial.valueAt path) (ownerInitialCompiled.expr.partAt path)) ∧
      (∀ association, association ∈ ownerInitialCompiled.reads.associations ↔
        ∃ path storage, ownerInitialCompiled.expr.partAt path =
          some (.column (some association) storage)) ∧
      ∀ x, x ∈ ownerInitialCompiled.reads.fields ↔ ∃ path name column,
        ownerInitial.valueAt path = some (.str name) ∧
          ownerInitialCompiled.expr.partAt path = some column ∧
          Scope.Refers ⟨planner.catalog, project⟩ name column x := by
  have compiled : Scope.compile ⟨planner.catalog, project⟩ planner.settings .lenient ownerInitial =
      .ok ownerInitialCompiled := by
    with_unfolding_all rfl
  exact ⟨compiled, Scope.compile_resolves compiled⟩

end Sample

end QueryPlan
