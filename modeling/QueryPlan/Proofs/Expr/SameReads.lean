import QueryPlan.Proofs.Plan.Columns
import QueryPlan.Proofs.Plan.ComputedColumn
import QueryPlan.Proofs.Selection.Same

namespace QueryPlan

namespace Scope

variable {s : Scope} {settings : Settings} {strictness : Strictness} {limit : UInt64}

/-- One expression is read to at most the extent that another one is. -/
def ReadsWithin (e e' : CompiledExpr) : Prop := ∀ x ∈ e.reads.fields, x ∈ e'.reads.fields

theorem argumentList_same {v w : Json} (h : v.same w) :
    List.Forall₂ (fun x y => x.same y) (argumentList (some v)) (argumentList (some w)) := by
  cases v with
  | null =>
    rw [Json.same_null.1 h]
    exact .nil
  | arr items =>
    obtain ⟨more, rfl, hitems⟩ := Json.same_arr.1 h
    exact hitems
  | bool b =>
    cases Json.same_bool.1 h
    exact .cons h .nil
  | num n =>
    obtain ⟨m, rfl, -⟩ := Json.same_num.1 h
    exact .cons h .nil
  | str name =>
    cases Json.same_str.1 h
    exact .cons h .nil
  | obj fields =>
    obtain ⟨more, rfl, -⟩ := Json.same_obj.1 h
    exact .cons h .nil

theorem compileArguments_of_ne_str {argument : Json → Except CompileError CompiledExpr} {v : Json}
    (h : ∀ name, v ≠ .str name) (values : List Json) :
    s.compileArguments strictness argument (v :: values) = (v :: values).mapM argument := by
  rw [compileArguments]
  rintro name _ ⟨⟩
  exact h name rfl

section

variable {argument : Json → Except CompileError CompiledExpr} {values values' : List Json}
  {args args' : List CompiledExpr}
  (ih : ∀ v w e e', v.same w → argument v = .ok e → argument w = .ok e' → ReadsWithin e e')
  (hsame : List.Forall₂ (fun x y => x.same y) values values')
include ih hsame

theorem mapM_within (h : values.mapM argument = .ok args)
    (h' : values'.mapM argument = .ok args') : ∀ a ∈ args, ∃ a' ∈ args', ReadsWithin a a' := by
  intro a ha
  obtain ⟨v, hv, hva⟩ := exists_of_mem_right (mapM_eq_ok.1 h) ha
  obtain ⟨w, hw, hvw⟩ := exists_of_mem_left hsame hv
  obtain ⟨a', ha', hwa⟩ := exists_of_mem_left (mapM_eq_ok.1 h') hw
  exact ⟨a', ha', ih v w a a' hvw hva hwa⟩

theorem compileArguments_within (h : s.compileArguments strictness argument values = .ok args)
    (h' : s.compileArguments strictness argument values' = .ok args') :
    ∀ a ∈ args, ∃ a' ∈ args', ReadsWithin a a' := by
  cases hsame with
  | nil =>
    rw [compileArguments, List.mapM_nil, pure_eq_ok] at h
    · subst h
      exact List.forall_mem_nil _
    · exact nofun
  | @cons v w values values' hvw hsame =>
    by_cases hname : ∃ name, v = .str name
    · obtain ⟨name, rfl⟩ := hname
      rw [Json.same_str.1 hvw] at h'
      obtain ⟨first, hf, h⟩ := bind_eq_ok.1 h
      obtain ⟨rest, hr, h⟩ := bind_eq_ok.1 h
      cases pure_eq_ok.1 h
      obtain ⟨first', hf', h'⟩ := bind_eq_ok.1 h'
      obtain ⟨rest', hr', h'⟩ := bind_eq_ok.1 h'
      cases pure_eq_ok.1 h'
      cases hf.symm.trans hf'
      intro a ha
      rcases List.mem_cons.1 ha with rfl | ha
      · exact ⟨a, List.mem_cons_self, fun _ hx => hx⟩
      · obtain ⟨a', ha', hwithin⟩ := mapM_within ih hsame hr hr' a ha
        exact ⟨a', List.mem_cons_of_mem _ ha', hwithin⟩
    · have hw : ∀ name, w ≠ .str name := by
        rintro name rfl
        cases v with
        | str name' => exact hname ⟨name', rfl⟩
        | _ => simp [Json.same] at hvw
      rw [compileArguments_of_ne_str fun name he => hname ⟨name, he⟩] at h
      rw [compileArguments_of_ne_str hw] at h'
      exact mapM_within ih (.cons hvw hsame) h h'

end

theorem compileCall_within {n : Nat} {call call' : Json.Object} {e e' : CompiledExpr}
    (hagrees : call.Agrees call') (h : s.compileCall strictness limit n call = .ok e)
    (h' : s.compileCall strictness limit n call' = .ok e') : ReadsWithin e e' := by
  induction n generalizing call call' e e' with
  | zero => cases h
  | succ n ih =>
    obtain ⟨function, -, h⟩ := bind_eq_ok.1 h
    obtain ⟨args, ha, h⟩ := bind_eq_ok.1 h
    cases pure_eq_ok.1 h
    obtain ⟨function', -, h'⟩ := bind_eq_ok.1 h'
    obtain ⟨args', ha', h'⟩ := bind_eq_ok.1 h'
    cases pure_eq_ok.1 h'
    have hargs : ∀ a ∈ args, ∃ a' ∈ args', ReadsWithin a a' := by
      cases hv : call.get? "args" with
      | none =>
        rw [hv, argumentList, compileArguments, List.mapM_nil, pure_eq_ok] at ha
        · subst ha
          exact List.forall_mem_nil _
        · exact nofun
      | some v =>
        obtain ⟨w, hw, hvw⟩ := hagrees "args" v hv
        rw [hv] at ha
        rw [hw] at ha'
        refine compileArguments_within ?_ (argumentList_same hvw) ha ha'
        intro v w e e' hvw hv hw
        cases v with
        | obj call =>
          obtain ⟨call', rfl, hcall⟩ := Json.same_obj.1 hvw
          exact ih (.of_same hcall) hv hw
        | _ =>
          cases hv
          nofun
    intro x hx
    obtain ⟨a, ha, hx⟩ := mem_fields_call.1 hx
    obtain ⟨a', ha', hwithin⟩ := hargs a ha
    exact mem_fields_call.2 ⟨a', ha', hwithin x hx⟩

end Scope

namespace SelectedField

variable {f g : SelectedField} {key name name' function : String}

theorem stringArgument_unique (h : f.same g) (hf : f.stringArgument key = .ok name)
    (hg : g.stringArgument key = .ok name') : name = name' := by
  rw [stringArgument_eq_ok] at hf hg
  obtain ⟨w, hw, hsame⟩ := Json.Object.Agrees.of_same (same_args h) _ _ hf
  rw [hg] at hw
  cases hw
  cases Json.same_str.1 hsame
  rfl

theorem call_agrees (h : f.same g) : (f.call function).Agrees (g.call function) := by
  intro key v hv
  rw [get?_call] at hv ⊢
  split at hv
  · rename_i hfn
    cases hv
    exact ⟨_, if_pos hfn, Json.same_str.2 rfl⟩
  · rename_i hfn
    rw [if_neg hfn]
    split at hv
    · rename_i hargs
      rw [if_pos hargs]
      exact Json.Object.Agrees.of_same (same_args h) _ v hv
    · cases hv

end SelectedField

namespace Scope

variable {s : Scope} {settings : Settings} {f g : SelectedField} {c : ComputedColumn}
  {e : CompiledExpr} {function name : String}

/-- An aggregate that is asked for twice is computed once, and then reads no less. -/
theorem reads_aggregateColumn (repeated : f = g ∨ f.same g)
    (asked : f.stringArgument "fn" = .ok function)
    (compiled : s.compile settings .lenient (.obj (f.call function)) = .ok e)
    (hg : s.aggregateColumn settings g = .ok c) : ∀ x ∈ e.reads.fields, x ∈ c.reads.fields := by
  obtain ⟨function', asked', -, -, e', compiled', rfl⟩ := aggregateColumn_eq_ok.1 hg
  rcases repeated with rfl | hfg
  · cases asked.symm.trans asked'
    cases compiled.symm.trans compiled'
    exact fun _ hx => hx
  · cases SelectedField.stringArgument_unique hfg asked asked'
    exact compileCall_within (SelectedField.call_agrees hfg) compiled compiled'

theorem reads_relatedColumn (repeated : f = g ∨ f.same g)
    (asked : f.stringArgument "name" = .ok name)
    (compiled : s.compile settings .strict (.str name) = .ok e)
    (hg : s.relatedColumn settings g = .ok c) : ∀ x ∈ e.reads.fields, x ∈ c.reads.fields := by
  obtain ⟨name', asked', -, -, e', compiled', rfl⟩ := relatedColumn_eq_ok.1 hg
  have same : name = name' := by
    rcases repeated with rfl | hfg
    · exact Except.ok.inj (asked.symm.trans asked')
    · exact SelectedField.stringArgument_unique hfg asked asked'
  subst same
  cases compiled.symm.trans compiled'
  exact fun _ hx => hx

end Scope

end QueryPlan
