import QueryPlan.Proofs.Expr.Occurrence
import QueryPlan.Proofs.Filter.Setting

namespace QueryPlan

/-- An expression that an argument can ask for: a column, or a function of at most one column. -/
inductive Expr.Asked : Expr → Prop where
  | column (name : String) : Asked (.column none name)
  | count : Asked (.call "COUNT" [.literal (.str "*")])
  | function (name column : String) : Asked (.call name [.column none column])
  | constant (name : String) : Asked (.call name [])

namespace Expr.Asked

variable {e part : Expr}

/-- What stands in an expression that was asked for is all of it, a literal or a column. -/
theorem occurs (h : e.Asked) (ho : part.Occurs e) :
    part = e ∨ (∃ v, part = .literal v) ∨ ∃ name, part = .column none name := by
  cases h with
  | column => exact .inl (occurs_column.1 ho)
  | count =>
    rcases occurs_call.1 ho with he | ⟨a, ha, ho⟩
    · exact .inl he
    · rw [List.mem_singleton.1 ha] at ho
      exact .inr (.inl ⟨_, occurs_literal.1 ho⟩)
  | function =>
    rcases occurs_call.1 ho with he | ⟨a, ha, ho⟩
    · exact .inl he
    · rw [List.mem_singleton.1 ha] at ho
      exact .inr (.inr ⟨_, occurs_column.1 ho⟩)
  | constant =>
    rcases occurs_call.1 ho with he | ⟨a, ha, -⟩
    · exact .inl he
    · cases ha

theorem not_qualified (h : e.Asked) (association name : String) :
    ¬ Occurs (.column (some association) name) e := by
  intro ho
  rcases h.occurs ho with rfl | ⟨v, hv⟩ | ⟨name', hn⟩
  · cases h
  · cases hv
  · cases hn

theorem call_occurs (h : e.Asked) {function : String} {args : List Expr}
    (ho : Occurs (.call function args) e) : e = .call function args := by
  rcases h.occurs ho with he | ⟨v, hv⟩ | ⟨name, hn⟩
  · exact he.symm
  · cases hv
  · cases hn

end Expr.Asked

theorem ProjectionItem.ofTuple?_asked {tuple : List Json} {item : ProjectionItem}
    (h : ofTuple? tuple = some item) : item.expr.Asked := by
  obtain ⟨function, -, h⟩ := Option.bind_eq_some_iff.1 h
  dsimp only at h
  split at h
  · cases h
    exact .count
  · split at h
    · obtain ⟨column, -, h⟩ := Option.bind_eq_some_iff.1 h
      cases h
      exact .function _ _
    · split at h
      · cases h
        exact .function _ _
      · cases h
        exact .constant _

theorem ProjectionItem.ofArgument?_asked {v : Json} {item : ProjectionItem}
    (h : ofArgument? v = some item) : item.expr.Asked := by
  unfold ofArgument? at h
  split at h
  · cases h
    exact .column _
  · exact ofTuple?_asked h
  · cases h

theorem Projection.ofArgument?_asked {v : Json} {p : Projection} (h : ofArgument? v = some p) :
    ∀ item ∈ p.items, item.expr.Asked := by
  have listed {entries : List Json} :
      ∀ item ∈ entries.filterMap ProjectionItem.ofArgument?, item.expr.Asked := by
    intro item hi
    obtain ⟨v, -, hv⟩ := List.mem_filterMap.1 hi
    exact ProjectionItem.ofArgument?_asked hv
  unfold ofArgument? at h
  split at h
  · cases h
    exact listed
  · split at h
    · cases h
      exact listed
    · cases h
      nofun
    · cases h
  · cases h

theorem groupOfArgument?_asked {v : Json} {keys : List Expr} (h : groupOfArgument? v = some keys) :
    ∀ e ∈ keys, e.Asked := by
  unfold groupOfArgument? at h
  split at h
  · cases h
    intro e he
    rw [List.mem_singleton.1 he]
    exact .column _
  · cases h
    intro e he
    obtain ⟨item, hi, rfl⟩ := List.mem_map.1 he
    obtain ⟨v, -, hv⟩ := List.mem_filterMap.1 hi
    exact ProjectionItem.ofArgument?_asked hv
  · cases h

/-- The expressions that a setting brings into the options. -/
def Setting.Asks : Setting → Prop
  | .attributes p => ∀ item ∈ p.items, item.expr.Asked
  | .group keys => ∀ e ∈ keys, e.Asked
  | _ => True

theorem Setting.ofArgument_asks {known : List String} {key : String} {value : Json} {s : Setting}
    (h : ofArgument known key value = .ok s) : s.Asks := by
  cases ofArgument_accepted h with
  | group _ hk => exact groupOfArgument?_asked hk
  | attributes hp => exact Projection.ofArgument?_asked hp
  | _ => trivial

namespace Options

/-- Every expression of the options is one that an argument can ask for. -/
def Asked (o : Options) : Prop :=
  (∀ p ∈ o.attributes, ∀ item ∈ p.items, item.expr.Asked) ∧ ∀ keys ∈ o.group, ∀ e ∈ keys, e.Asked

theorem Asked.apply {o : Options} (h : o.Asked) {s : Setting} (hs : s.Asks) :
    (o.apply s).Asked := by
  cases s with
  | attributes p =>
    refine ⟨?_, h.2⟩
    rintro _ ⟨⟩
    exact hs
  | group keys =>
    refine ⟨h.1, ?_⟩
    rintro _ ⟨⟩
    exact hs
  | _ => exact h

theorem Asked.foldl {o : Options} (h : o.Asked) {settings : List Setting}
    (hs : ∀ s ∈ settings, s.Asks) : (settings.foldl Options.apply o).Asked := by
  induction settings generalizing o with
  | nil => exact h
  | cons s settings ih =>
    have hs := List.forall_mem_cons.1 hs
    exact ih (h.apply hs.1) hs.2

theorem Asked.withSettings {o : Options} (h : o.Asked) {settings : List Setting}
    (hs : ∀ s ∈ settings, s.Asks) : (o.withSettings settings).Asked := by
  rw [Options.withSettings]
  split
  · exact h.foldl hs
  · exact h.foldl hs

theorem withArguments_asked {base o : Options} {known : List String} {args : Json.Object}
    (hb : base.Asked) (h : withArguments base known args = .ok o) : o.Asked := by
  rw [withArguments_eq_map] at h
  obtain ⟨settings, hs, rfl⟩ := map_eq_ok.1 h
  apply hb.withSettings
  intro s hs'
  obtain ⟨arg, -, harg⟩ := exists_of_mem_right (mapM_eq_ok.1 hs) hs'
  exact Setting.ofArgument_asks harg

theorem ofArguments_asked {o : Options} {known : List String} {args : Json.Object}
    (h : ofArguments known args = .ok o) : o.Asked := by
  refine withArguments_asked ⟨?_, ?_⟩ h
  · rintro _ ⟨⟩
  · rintro _ ⟨⟩

theorem Asked.of_mem {o : Options} (h : o.Asked) {e : Expr} (he : e ∈ o.expressions) :
    e.Asked := by
  rcases mem_expressions.1 he with ⟨aliasName, hi⟩ | hg
  · rw [items] at hi
    cases hp : o.attributes with
    | none =>
      rw [hp] at hi
      cases hi
    | some p =>
      rw [hp] at hi
      exact h.1 p hp _ hi
  · cases hk : o.group with
    | none =>
      rw [hk] at hg
      cases hg
    | some keys =>
      rw [hk] at hg
      exact h.2 keys hk _ hg

end Options

end QueryPlan
