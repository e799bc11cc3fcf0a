import QueryPlan.Proofs.Expr.Grammar

namespace QueryPlan

variable {α β : Type} {model : String} {names later : List Nat → String → Prop}
  {x y : Except CompileError α}

/-- A name at a path before which, from left to right, there is no other of its kind. -/
structure FirstPlace (names : List Nat → String → Prop) (path : List Nat) (name : String) :
    Prop where
  here : names path name
  first : ∀ path' name', names path' name' → ¬ path' < path

/-- The second computation ends as the first one does, but it is refused for the first name of some
kind if there is one. -/
inductive Narrows (model : String) (names : List Nat → String → Prop) :
    Except CompileError α → Except CompileError α → Prop where
  | accepted {a : α} (none : ∀ path name, ¬ names path name) : Narrows model names (.ok a) (.ok a)
  | named {a : α} {path : List Nat} {name : String} (place : FirstPlace names path name) :
      Narrows model names (.ok a) (.error (.unknownField model name))
  | refused (e e' : CompileError) : Narrows model names (.error e) (.error e')

namespace Narrows

theorem congr (h : Narrows model names x y)
    (same : ∀ path name, names path name ↔ later path name) : Narrows model later x y := by
  have he : names = later := funext₂ fun path name => propext (same path name)
  rw [← he]
  exact h

theorem after (x : Except CompileError α) {f g : α → Except CompileError β}
    (next : ∀ a, Narrows model names (f a) (g a)) : Narrows model names (x >>= f) (x >>= g) := by
  cases x with
  | ok a => exact next a
  | error e => exact .refused e e

theorem bind_pure (h : Narrows model names x y) (k : α → β) :
    Narrows model names (x >>= fun a => pure (k a)) (y >>= fun a => pure (k a)) := by
  cases h with
  | accepted none => exact .accepted none
  | named place => exact .named place
  | refused e e' => exact .refused e e'

/-- Names that come later are looked at only if there are none before them. -/
theorem bind {f g : α → Except CompileError β} (h : Narrows model names x y)
    (next : ∀ a, Narrows model later (f a) (g a))
    (order : ∀ path name path' name', names path name → later path' name' → path < path') :
    Narrows model (fun path name => names path name ∨ later path name) (x >>= f) (y >>= g) := by
  cases h with
  | @accepted a none =>
    apply (next a).congr
    intro path name
    exact (or_iff_right (none path name)).symm
  | @named a path name place =>
    have whole : FirstPlace (fun path name => names path name ∨ later path name) path name := by
      constructor
      · exact .inl place.here
      · intro path' name' h
        rcases h with h | h
        · exact place.first path' name' h
        · exact List.lt_asymm (order path name path' name' place.here h)
    change Narrows model _ (f a) _
    cases f a with
    | ok b => exact .named whole
    | error e => exact .refused e _
  | refused e e' => exact .refused e e'

theorem below (h : Narrows model names x y) (i : Nat) :
    Narrows model (fun path name => ∃ inner, path = i :: inner ∧ names inner name) x y := by
  cases h with
  | accepted none =>
    apply Narrows.accepted
    intro path name h
    obtain ⟨inner, -, h⟩ := h
    exact none inner name h
  | @named a path name place =>
    have below : FirstPlace (fun path name => ∃ inner, path = i :: inner ∧ names inner name)
        (i :: path) name := by
      constructor
      · exact ⟨path, rfl, place.here⟩
      · intro path' name' h before
        obtain ⟨inner, rfl, h⟩ := h
        exact place.first inner name' h (List.cons_lt_cons_self.1 before)
    exact .named below
  | refused e e' => exact .refused e e'

end Narrows

namespace Scope

variable {s : Scope} {limit : UInt64} {n : Nat} {outer : List Nat} {v : Json} {values : List Json}
  {name : String}

/-- A name in the place of a column that stands for none, in a value that `outer` leads to. -/
def Unknown (s : Scope) (outer : List Nat) (v : Json) (path : List Nat) (name : String) : Prop :=
  IsColumnPlace (outer ++ path) ∧ v.valueAt path = some (.str name) ∧
    ∀ column x, ¬ s.Refers name column x

/-- Such a name in one of the arguments of a call, the first of which is the `k`th. -/
def UnknownIn (s : Scope) (outer : List Nat) (k : Nat) (values : List Json) (path : List Nat)
    (name : String) : Prop :=
  ∃ i v inner, values[i]? = some v ∧ path = (k + i) :: inner ∧
    s.Unknown (outer ++ [k + i]) v inner name

theorem unknownIn_cons {k : Nat} {path : List Nat} :
    s.UnknownIn outer k (v :: values) path name ↔
      (∃ inner, path = k :: inner ∧ s.Unknown (outer ++ [k]) v inner name) ∨
        s.UnknownIn outer (k + 1) values path name := by
  constructor
  · intro h
    obtain ⟨i, w, inner, hw, rfl, h⟩ := h
    cases i with
    | zero =>
      cases hw
      exact .inl ⟨inner, rfl, h⟩
    | succ i =>
      have shifted : k + (i + 1) = k + 1 + i := by omega
      rw [shifted] at h ⊢
      exact .inr ⟨i, w, inner, hw, rfl, h⟩
  · intro h
    rcases h with ⟨inner, rfl, h⟩ | ⟨i, w, inner, hw, rfl, h⟩
    · exact ⟨0, v, inner, rfl, rfl, h⟩
    · have shifted : k + 1 + i = k + (i + 1) := by omega
      rw [shifted] at h ⊢
      exact ⟨i + 1, w, inner, hw, rfl, h⟩

theorem unknown_obj {call : Json.Object} {path : List Nat} :
    s.Unknown outer (.obj call) path name ↔
      s.UnknownIn outer 0 (Json.obj call).callArguments path name := by
  constructor
  · intro h
    obtain ⟨place, found, unknown⟩ := h
    cases path with
    | nil => cases found
    | cons i inner =>
      obtain ⟨v, hv, found⟩ := Option.bind_eq_some_iff.1 found
      rw [List.append_cons] at place
      refine ⟨i, v, inner, hv, by rw [Nat.zero_add], ?_⟩
      rw [Nat.zero_add]
      exact ⟨place, found, unknown⟩
  · intro h
    obtain ⟨i, v, inner, hv, rfl, place, found, unknown⟩ := h
    rw [Nat.zero_add] at place ⊢
    rw [← List.append_cons] at place
    exact ⟨place, Option.bind_eq_some_iff.2 ⟨v, hv, found⟩, unknown⟩

theorem unknown_of_ne_obj (noCall : ∀ call, v ≠ .obj call) {path : List Nat} :
    s.Unknown outer v path name ↔
      path = [] ∧ v = .str name ∧ IsColumnPlace outer ∧ ∀ column x, ¬ s.Refers name column x := by
  constructor
  · intro h
    obtain ⟨place, found, unknown⟩ := h
    cases path with
    | nil =>
      rw [List.append_nil] at place
      exact ⟨rfl, Option.some.inj found, place, unknown⟩
    | cons i path =>
      rw [Json.valueAt, Json.callArguments_of_ne_obj noCall] at found
      cases found
  · intro h
    obtain ⟨rfl, rfl, place, unknown⟩ := h
    rw [← List.append_nil outer] at place
    exact ⟨place, rfl, unknown⟩

/-- What the first of some arguments names is looked at before what the others name. -/
theorem cons_narrows {k : Nat} {x y : Except CompileError CompiledExpr}
    {xs ys : Except CompileError (List CompiledExpr)}
    (head : Narrows s.model.name (s.Unknown (outer ++ [k]) v) x y)
    (tail : Narrows s.model.name (s.UnknownIn outer (k + 1) values) xs ys) :
    Narrows s.model.name (s.UnknownIn outer k (v :: values))
      (do let a ← x; let as ← xs; return a :: as) (do let a ← y; let as ← ys; return a :: as) := by
  have order : ∀ path name path' name',
      (∃ inner, path = k :: inner ∧ s.Unknown (outer ++ [k]) v inner name) →
        s.UnknownIn outer (k + 1) values path' name' → path < path' := by
    intro path name path' name' here later
    obtain ⟨inner, rfl, -⟩ := here
    obtain ⟨i, w, inner', -, rfl, -⟩ := later
    apply List.cons_lt_cons_iff.2
    omega
  have whole := (head.below k).bind (fun a => tail.bind_pure (a :: ·)) order
  apply whole.congr
  intro path name
  exact unknownIn_cons.symm

theorem mapM_narrows {f g : Json → Except CompileError CompiledExpr} {k : Nat}
    (each : ∀ i v, values[i]? = some v →
      Narrows s.model.name (s.Unknown (outer ++ [k + i]) v) (f v) (g v)) :
    Narrows s.model.name (s.UnknownIn outer k values) (values.mapM f) (values.mapM g) := by
  induction values generalizing k with
  | nil =>
    apply Narrows.accepted
    intro path name h
    obtain ⟨i, v, inner, hv, -, -⟩ := h
    cases hv
  | cons v values ih =>
    rw [List.mapM_cons, List.mapM_cons]
    apply cons_narrows (each 0 v rfl)
    apply ih
    intro i w hw
    have shifted : k + 1 + i = k + (i + 1) := by omega
    rw [shifted]
    exact each (i + 1) w hw

theorem compileName_narrows (place : IsColumnPlace outer) :
    Narrows s.model.name (s.Unknown outer (.str name)) (s.compileName .lenient name)
      (s.compileName .strict name) := by
  have noCall : ∀ call, Json.str name ≠ .obj call := nofun
  cases hc : s.column? name with
  | error e =>
    simp only [compileName, hc]
    exact .refused e e
  | ok found =>
    cases found with
    | some e =>
      simp only [compileName, hc]
      apply Narrows.accepted
      intro path name' h
      obtain ⟨-, he, -, unknown⟩ := (unknown_of_ne_obj noCall).1 h
      cases he
      obtain ⟨x, refers, -⟩ := (column?_eq_some.1 hc).refers
      exact unknown _ x refers
    | none =>
      simp only [compileName, hc]
      have unknown : ∀ column x, ¬ s.Refers name column x := by
        intro column x refers
        obtain ⟨e, denotes, -⟩ := refers.denotes
        cases hc.symm.trans (column?_eq_some.2 denotes)
      have first : FirstPlace (s.Unknown outer (.str name)) [] name := by
        constructor
        · exact (unknown_of_ne_obj noCall).2 ⟨rfl, rfl, place, unknown⟩
        · intro path name' _
          exact List.not_lt_nil path
      exact .named first

theorem compileArguments_narrows {f g : Json → Except CompileError CompiledExpr}
    (ordinary : ∀ i v, (i = 0 → ∀ name, v ≠ .str name) →
      Narrows s.model.name (s.Unknown (outer ++ [i]) v) (f v) (g v)) (values : List Json) :
    Narrows s.model.name (s.UnknownIn outer 0 values) (s.compileArguments .lenient f values)
      (s.compileArguments .strict g values) := by
  unfold compileArguments
  split
  · apply cons_narrows (compileName_narrows (isColumnPlace_concat.2 rfl))
    apply mapM_narrows
    intro i v _
    apply ordinary
    omega
  · rename_i noName
    apply mapM_narrows
    intro i v hv
    rw [Nat.zero_add]
    apply ordinary
    -- A list that has a name in front is compiled the other way.
    rintro rfl name rfl
    obtain ⟨rest, rfl⟩ := List.head?_eq_some_iff.1 (List.head?_eq_getElem?.trans hv)
    exact noName name rest rfl

theorem compileCall_narrows {call : Json.Object} :
    Narrows s.model.name (s.Unknown outer (.obj call)) (s.compileCall .lenient limit n call)
      (s.compileCall .strict limit n call) := by
  induction n generalizing outer call with
  | zero => exact .refused _ _
  | succ n ih =>
    have ordinary (i : Nat) (v : Json) (noName : i = 0 → ∀ name, v ≠ .str name) :
        Narrows s.model.name (s.Unknown (outer ++ [i]) v)
          (s.compileArgument .lenient limit n v) (s.compileArgument .strict limit n v) := by
      by_cases isCall : ∃ call, v = .obj call
      · obtain ⟨call, rfl⟩ := isCall
        exact ih
      · have noCall : ∀ call, v ≠ .obj call := fun call he => isCall ⟨call, he⟩
        rw [compileArgument_of_ne_obj noCall, compileArgument_of_ne_obj noCall]
        apply Narrows.accepted
        intro path name h
        obtain ⟨-, he, place, -⟩ := (unknown_of_ne_obj noCall).1 h
        exact noName (isColumnPlace_concat.1 place) name he
    rw [compileCall_succ, compileCall_succ]
    apply Narrows.after
    intro function
    have arguments := compileArguments_narrows ordinary (Json.obj call).callArguments
    apply (arguments.bind_pure _).congr
    intro path name
    exact unknown_obj.symm

theorem compile_narrows (settings : Settings) (v : Json) :
    Narrows s.model.name (s.Unknown [] v) (s.compile settings .lenient v)
      (s.compile settings .strict v) := by
  cases v with
  | obj call => exact compileCall_narrows
  | str name => exact compileName_narrows isColumnPlace_nil
  | arr items => exact .refused _ _
  | null | bool | num =>
    apply Narrows.accepted
    intro path name h
    have he := ((unknown_of_ne_obj (by nofun)).1 h).2.1
    cases he

/-- Every name in the place of a column stands for one. -/
def NamesColumns (s : Scope) (v : Json) : Prop :=
  ∀ path name, IsColumnPlace path → v.valueAt path = some (.str name) →
    ∃ column x, s.Refers name column x

theorem namesColumns_iff : s.NamesColumns v ↔ ∀ path name, ¬ s.Unknown [] v path name := by
  simp [NamesColumns, Unknown]

/-- Where every name has to stand for a column, what is accepted is compiled as it is where others
are taken for literals. What is accepted there is refused exactly if it has another name, and that
for the first of these names. -/
theorem compile_strict (s : Scope) (settings : Settings) (v : Json) :
    (∀ e, s.compile settings .strict v = .ok e → s.compile settings .lenient v = .ok e) ∧
      (∀ e, s.compile settings .lenient v = .ok e →
        ((∃ e', s.compile settings .strict v = .ok e') ↔ s.NamesColumns v) ∧
        (¬ s.NamesColumns v → ∃ path name, FirstPlace (s.Unknown [] v) path name ∧
          s.compile settings .strict v = .error (.unknownField s.model.name name))) ∧
      ∀ cause, s.compile settings .lenient v = .error cause →
        ∃ cause', s.compile settings .strict v = .error cause' := by
  have narrows := compile_narrows (s := s) settings v
  rw [namesColumns_iff]
  generalize s.compile settings .lenient v = lenient at narrows ⊢
  generalize s.compile settings .strict v = strict at narrows ⊢
  cases narrows with
  | @accepted e none =>
    refine ⟨fun _ h => h, fun _ _ => ⟨?_, ?_⟩, nofun⟩
    · exact iff_of_true ⟨e, rfl⟩ none
    · intro some
      cases some none
  | @named e path name place =>
    have some : ¬ ∀ path name, ¬ s.Unknown [] v path name := by
      intro none
      exact none path name place.here
    refine ⟨nofun, fun _ _ => ⟨?_, ?_⟩, nofun⟩
    · exact iff_of_false nofun some
    · intro _
      exact ⟨path, name, place, rfl⟩
  | refused cause cause' => exact ⟨nofun, nofun, fun _ _ => ⟨cause', rfl⟩⟩

end Scope

namespace Sample

/-- A call with a column in front, a literal after it, and two names that stand for no column. -/
def strangers : Json :=
  .obj [("fn", .str "CONCAT"), ("args", .arr [.str "title", .str "stranger",
    .obj [("fn", .str "UPPER"), ("args", .str "owner.surname")],
    .obj [("fn", .str "LOWER"), ("args", .arr [.str "nickname", .str "title"])]])]

def strangersCompiled : CompiledExpr where
  expr := .call "CONCAT" [.column none "title", .literal (.str "stranger"),
    .call "UPPER" [.literal (.str "owner.surname")],
    .call "LOWER" [.literal (.str "nickname"), .literal (.str "title")]]
  reads := { fields := ["Project.title"] }

theorem strangers_strict :
    Scope.compile ⟨planner.catalog, project⟩ planner.settings .lenient strangers =
        .ok strangersCompiled ∧
      Scope.compile ⟨planner.catalog, project⟩ planner.settings .strict strangers =
        .error (.unknownField "Project" "owner.surname") ∧
      ∃ path, FirstPlace (Scope.Unknown ⟨planner.catalog, project⟩ [] strangers) path
        "owner.surname" := by
  have accepted : Scope.compile ⟨planner.catalog, project⟩ planner.settings .lenient strangers =
      .ok strangersCompiled := by
    with_unfolding_all rfl
  have refused : Scope.compile ⟨planner.catalog, project⟩ planner.settings .strict strangers =
      .error (.unknownField "Project" "owner.surname") := by
    with_unfolding_all rfl
  obtain ⟨-, outcome, -⟩ :=
    Scope.compile_strict ⟨planner.catalog, project⟩ planner.settings strangers
  obtain ⟨compiles, refuses⟩ := outcome _ accepted
  have unknown : ¬ Scope.NamesColumns ⟨planner.catalog, project⟩ strangers := by
    intro named
    obtain ⟨e, compiled⟩ := compiles.2 named
    cases refused.symm.trans compiled
  obtain ⟨path, name, place, h⟩ := refuses unknown
  cases refused.symm.trans h
  exact ⟨accepted, refused, path, place⟩

end Sample

end QueryPlan
