import QueryPlan.Proofs.Plan.Stage

namespace QueryPlan

/-- A field that a level reads on its own account: one that is selected, or one that a grouping key
or a computed column stands for. -/
inductive Stage.Touches (p : Planner) (s : Stage) : String → Prop where
  | selected {f : SelectedField} (mem : f ∈ s.fields) (own : s.model.role f = .attribute) :
      Touches p s (s.model.name ++ "." ++ f.name)
  | grouped {key : Expr} {name x : String} {e : CompiledExpr} (mem : key ∈ s.asked.group.getD [])
      (occurs : Expr.Occurs (.column none name) key)
      (denotes : Scope.Denotes ⟨p.catalog, s.model⟩ name e) (reads : x ∈ e.reads.fields) :
      Touches p s x
  | computed {f : SelectedField} {x : String} {c : ComputedColumn} (mem : f ∈ s.requests)
      (computes : Scope.Computes ⟨p.catalog, s.model⟩ p.settings f c)
      (reads : x ∈ c.reads.fields) : Touches p s x

theorem Scope.Computes.unique {s : Scope} {settings : Settings} {f : SelectedField}
    {c c' : ComputedColumn} (h : s.Computes settings f c) (h' : s.Computes settings f c') :
    c = c' := by
  rcases h with ⟨role, h⟩ | ⟨role, h⟩
  · exact Except.ok.inj (h.symm.trans (h'.aggregate role))
  · exact Except.ok.inj (h.symm.trans (h'.related role))

namespace Stage

variable {p : Planner} {n remaining : Nat} {s : Stage} {l : Level} {x : String}

theorem mem_attributes_touched :
    x ∈ (Siblings.of s.model s.fields).attributes.map (s.model.name ++ "." ++ ·) ↔
      ∃ f ∈ s.fields, s.model.role f = .attribute ∧ x = s.model.name ++ "." ++ f.name := by
  rw [List.mem_map]
  refine ⟨?_, ?_⟩
  · intro h'
    obtain ⟨name, hname, rfl⟩ := h'
    obtain ⟨f, hf, own, rfl⟩ := Siblings.mem_attributes.1 hname
    exact ⟨f, hf, own, rfl⟩
  · intro h'
    obtain ⟨f, hf, own, rfl⟩ := h'
    exact ⟨f.name, Siblings.mem_attributes.2 ⟨f, hf, own, rfl⟩, rfl⟩

theorem mem_group_fields (parts : LevelParts p n s.model s.args s.fields l) :
    (∃ e ∈ parts.group, x ∈ e.reads.fields) ↔ ∃ key ∈ s.asked.group.getD [], ∃ name e,
      Expr.Occurs (.column none name) key ∧ Scope.Denotes ⟨p.catalog, s.model⟩ name e ∧
        x ∈ e.reads.fields := by
  rw [asked_eq parts]
  refine ⟨?_, ?_⟩
  · intro h'
    obtain ⟨e, he, hx⟩ := h'
    obtain ⟨key, hk, hr⟩ := exists_of_mem_right parts.keys he
    exact ⟨key, hk, (Scope.mem_fields_resolveKey hr).1 hx⟩
  · intro h'
    obtain ⟨key, hk, hx⟩ := h'
    obtain ⟨e, he, hr⟩ := exists_of_mem_left parts.keys hk
    exact ⟨e, he, (Scope.mem_fields_resolveKey hr).2 hx⟩

theorem mem_computed_fields (parts : LevelParts p n s.model s.args s.fields l) :
    (∃ c ∈ parts.computed, x ∈ c.reads.fields) ↔ ∃ f ∈ s.requests, ∃ c,
      Scope.Computes ⟨p.catalog, s.model⟩ p.settings f c ∧ x ∈ c.reads.fields := by
  refine ⟨?_, ?_⟩
  · intro h'
    obtain ⟨c, hc, hx⟩ := h'
    obtain ⟨f, hf, computes⟩ := exists_of_mem_right parts.computes hc
    exact ⟨f, hf, c, computes, hx⟩
  · intro h'
    obtain ⟨f, hf, c, computes, hx⟩ := h'
    obtain ⟨c', hc', computes'⟩ := exists_of_mem_left parts.computes hf
    rw [computes.unique computes'] at hx
    exact ⟨c', hc', hx⟩

/-- A level reads what it touches itself and what is read at the levels below it. -/
theorem mem_level_touched (parts : LevelParts p n s.model s.args s.fields l) :
    x ∈ l.touched ↔ s.Touches p x ∨ ∃ b ∈ parts.branches, x ∈ b.level.touched := by
  rw [parts.touched, List.mem_append, List.mem_append, mem_attributes_touched, List.mem_flatMap,
    mem_fields_levelReads, mem_group_fields parts, mem_computed_fields parts]
  refine ⟨?_, ?_⟩
  · intro h'
    rcases h' with (⟨f, hf, own, rfl⟩ | below) | ⟨key, hk, name, e, ho, hd, hx⟩ | ⟨f, hf, c, hc, hx⟩
    · exact .inl (.selected hf own)
    · exact .inr below
    · exact .inl (.grouped hk ho hd hx)
    · exact .inl (.computed hf hc hx)
  · intro h'
    rcases h' with touches | below
    · cases touches with
      | selected hf own => exact .inl (.inl ⟨_, hf, own, rfl⟩)
      | grouped hk ho hd hx => exact .inr (.inl ⟨_, hk, _, _, ho, hd, hx⟩)
      | computed hf hc hx => exact .inr (.inr ⟨_, hf, _, hc, hx⟩)
    · exact .inl (.inr below)

/-- A planned level reads what is touched at the levels that it reaches. -/
theorem Planned.mem_touched (h : Planned p remaining l s) :
    x ∈ l.touched ↔ ∃ t, s.Reaches p.catalog t ∧ t.Touches p x := by
  refine ⟨?_, ?_⟩
  · intro hx
    induction remaining generalizing s l with
    | zero =>
      obtain ⟨n, hn, -⟩ := h.parts
      cases hn
    | succ n ih =>
      obtain ⟨_, hn, ⟨parts⟩⟩ := h.parts
      cases hn
      rcases (mem_level_touched parts).1 hx with touches | ⟨b, hb, hx⟩
      · exact ⟨s, .here, touches⟩
      · obtain ⟨t, reached, touches⟩ := ih (Planned.ofBranch parts hb) hx
        exact ⟨t, (Reaches.ofBranch parts h hb).trans reached, touches⟩
  · intro h'
    obtain ⟨t, reached, touches⟩ := h'
    obtain ⟨n, k, ht, ⟨parts⟩, hsub⟩ := reached.parts h
    exact hsub ((mem_level_touched parts).2 (.inl touches))

end Stage

theorem Planner.mem_touchedFields {p : Planner} {m : Model} {args : Json.Object}
    {source : FieldSource} {q : CompiledQuery} (h : p.compile m args source = .ok q) {x : String} :
    x ∈ q.touchedFields.toList ↔
      ∃ s, (q.root m args source).Reaches p.catalog s ∧ s.Touches p x := by
  obtain ⟨l, hp, ht⟩ := compile_planned h
  rw [ht, NameSet.mem_ofList]
  exact hp.mem_touched

end QueryPlan
