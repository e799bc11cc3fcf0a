import QueryPlan.Proofs.Filter.Setting
import QueryPlan.Proofs.Filter.Translation
import QueryPlan.Proofs.Json.Plain
import QueryPlan.Proofs.SameOutcome

namespace QueryPlan

open Json

variable {argument : String}

theorem bind_ofString?_plain (v : Option Json) :
    (v.map Json.plain >>= Json.ofString?) = (v >>= Json.ofString?) := by
  cases v with
  | none => rfl
  | some v => exact ofString?_plain v

theorem pageOfArgument_plain (v : Json) :
    SameOutcome Eq (pageOfArgument argument v.plain) (pageOfArgument argument v) := by
  cases v with
  | num n =>
    cases n with
    | int n inRange => exact .refl (fun _ => rfl) _
    | float x =>
      have read : (num (.float x)).plain = .num (.float x.plain) := rfl
      rw [read, pageOfArgument, pageOfArgument]
      simp only [Double.toNat?_plain]
      split
      · exact .ok rfl
      · exact .error _ _
  | str s => exact .refl (fun _ => rfl) _
  | _ => exact .error _ _

theorem flagOfArgument_plain (v : Json) :
    SameOutcome Eq (flagOfArgument argument v.plain) (flagOfArgument argument v) := by
  cases v with
  | bool b => exact .ok rfl
  | _ => exact .error _ _

theorem scopeOfArgument_plain (v : Json) :
    SameOutcome Eq (scopeOfArgument v.plain) (scopeOfArgument v) := by
  cases v with
  | str name => exact .ok rfl
  | arr items =>
    rw [plain_arr]
    refine SameOutcome.mapM_map_eq fun item _ => ?_
    rw [ofString?_plain]
    exact .refl (fun _ => rfl) _
  | _ => exact .error _ _

namespace OrderItem

theorem directionOfArgument_plain (v : Option Json) :
    SameOutcome Eq (directionOfArgument (v.map Json.plain)) (directionOfArgument v) := by
  cases v with
  | none => exact .ok rfl
  | some v =>
    cases v with
    | null => exact .ok rfl
    | str s => exact .refl (fun _ => rfl) _
    | _ => exact .error _ _

theorem ofParts_plain (name sort : Option Json) :
    SameOutcome Eq (ofParts (name.map Json.plain) (sort.map Json.plain)) (ofParts name sort) := by
  rw [ofParts, ofParts, bind_ofString?_plain]
  split
  · exact .error _ _
  · refine (directionOfArgument_plain sort).map ?_
    rintro _ _ rfl
    rfl

theorem ofArgument_plain (v : Json) : SameOutcome Eq (ofArgument v.plain) (ofArgument v) := by
  cases v with
  | str name => exact .ok rfl
  | arr items =>
    rw [plain_arr]
    match items with
    | [] => exact .error _ _
    | [name] => exact ofParts_plain (some name) none
    | [name, sort] => exact ofParts_plain (some name) (some sort)
    | _ :: _ :: _ :: _ => exact .error _ _
  | obj fields =>
    rw [plain_obj, ofArgument, ofArgument, Object.get?_plain, Object.get?_plain]
    exact ofParts_plain _ _
  | _ => exact .error _ _

end OrderItem

theorem orderOfArgument_plain (v : Json) :
    SameOutcome Eq (orderOfArgument v.plain) (orderOfArgument v) := by
  have single : SameOutcome Eq ((OrderItem.ofArgument v.plain).map ([·]))
      ((OrderItem.ofArgument v).map ([·])) := by
    refine (OrderItem.ofArgument_plain v).map ?_
    rintro _ _ rfl
    rfl
  cases v with
  | arr items =>
    rw [plain_arr]
    exact SameOutcome.mapM_map_eq fun item _ => OrderItem.ofArgument_plain item
  | _ => exact single

theorem isTruthy_plain (v : Json) : v.plain.isTruthy = v.isTruthy := by
  cases v with
  | num n =>
    cases n with
    | int n inRange => rfl
    | float x => exact congrArg (!·) x.isZero_plain
  | _ => rfl

theorem ProjectionItem.ofTuple?_plain (tuple : List Json) :
    ofTuple? (tuple.map Json.plain) = ofTuple? tuple := by
  have marker (v : Option Json) : (v.map Json.plain).any Json.isTruthy = v.any Json.isTruthy := by
    cases v with
    | none => rfl
    | some v => exact isTruthy_plain v
  rw [ofTuple?, ofTuple?, List.head?_map, List.getElem?_map, List.getElem?_map,
    bind_ofString?_plain, bind_ofString?_plain]
  simp only [bind_ofString?_plain, marker]

theorem ProjectionItem.ofArgument?_plain (v : Json) : ofArgument? v.plain = ofArgument? v := by
  cases v with
  | arr tuple =>
    rw [plain_arr]
    exact ofTuple?_plain tuple
  | _ => rfl

theorem filterMap_ofArgument?_plain (entries : List Json) :
    (entries.map Json.plain).filterMap ProjectionItem.ofArgument? =
      entries.filterMap ProjectionItem.ofArgument? := by
  rw [List.filterMap_map]
  exact List.filterMap_congr fun v _ => ProjectionItem.ofArgument?_plain v

theorem Projection.ofArgument?_obj (fields : Object) :
    ofArgument? (.obj fields) =
      ((fields.get? "include" >>= Json.ofArray?).map fun entries =>
          filtered (entries.filterMap ProjectionItem.ofArgument?) []).or
        ((fields.get? "exclude" >>= Json.ofArray?).map fun names =>
          filtered [] (names.filterMap Json.ofString?)) := by
  have bound : ∀ v, (∀ entries, v = some (.arr entries) → False) →
      (v >>= Json.ofArray?) = none := by
    intro v other
    cases v with
    | none => rfl
    | some v =>
      cases v with
      | arr entries => exact (other entries rfl).elim
      | _ => rfl
  rw [ofArgument?]
  split
  · rename_i included
    rw [included]
    rfl
  · rename_i excluded other
    rw [bound _ other, excluded]
    rfl
  · rename_i other other'
    rw [bound _ other, bound _ other']
    rfl

theorem bind_ofArray?_plain (v : Option Json) :
    (v.map Json.plain >>= Json.ofArray?) = (v >>= Json.ofArray?).map (List.map Json.plain) := by
  cases v with
  | none => rfl
  | some v =>
    cases v with
    | arr items => exact congrArg Json.ofArray? (plain_arr items)
    | _ => rfl

theorem Projection.ofArgument?_plain (v : Json) : ofArgument? v.plain = ofArgument? v := by
  cases v with
  | arr entries =>
    rw [plain_arr, ofArgument?, ofArgument?, filterMap_ofArgument?_plain]
  | obj fields =>
    have names (items : List Json) :
        (items.map Json.plain).filterMap Json.ofString? = items.filterMap Json.ofString? := by
      rw [List.filterMap_map]
      exact List.filterMap_congr fun v _ => ofString?_plain v
    rw [plain_obj, ofArgument?_obj, ofArgument?_obj, Object.get?_plain, Object.get?_plain,
      bind_ofArray?_plain, bind_ofArray?_plain]
    simp only [Option.map_map, Function.comp_def, filterMap_ofArgument?_plain, names]
  | _ => rfl

theorem groupOfArgument?_plain (v : Json) : groupOfArgument? v.plain = groupOfArgument? v := by
  cases v with
  | arr entries =>
    rw [plain_arr, groupOfArgument?, groupOfArgument?, filterMap_ofArgument?_plain]
  | _ => rfl

namespace Operator

theorem translateMembers_plain {fields : Object}
    (h : ∀ e ∈ fields, translate e.2.plain = (translate e.2).plain) :
    translateMembers fields.plain = Object.plain (translateMembers fields) := by
  rw [translateMembers_eq_map, translateMembers_eq_map, Object.plain, Object.plain,
    Object.mapValues, Object.mapValues, List.map_map, List.map_map]
  exact List.map_congr_left fun e mem => congrArg (Prod.mk _) (h e mem)

theorem translate_plain (v : Json) : translate v.plain = (translate v).plain := by
  induction v using Json.induction with
  | arr items ih =>
    rw [plain_arr, translate_arr, translate_arr, plain_arr, List.map_map, List.map_map]
    exact congrArg arr (List.map_congr_left ih)
  | obj fields ih =>
    rw [plain_obj, translate, translate, plain_obj, translateMembers_plain fun e => ih e.1 e.2,
      Object.plain, Object.plain, Object.mapValues_ofList]
  | _ => rfl

theorem predicate_plain (v : Option Json) :
    predicate (v.map Json.plain) = (predicate v).plain := by
  cases v with
  | none => rfl
  | some v =>
    cases v with
    | obj fields =>
      have members := translateMembers_plain fun (e : String × Json) (_ : e ∈ fields) =>
        translate_plain e.2
      rw [Option.map_some, plain_obj, predicate, predicate, members, Object.plain, Object.plain,
        Object.mapValues_ofList]
    | _ => rfl

end Operator

def Setting.plain : Setting → Setting
  | .filter tree => .filter tree.plain
  | .having p => .having p.plain
  | .equals field v => .equals field v.plain
  | s => s

/-- The options without the signs of the zeros in the two predicates. Other options hold none. -/
def Options.plain (o : Options) : Options :=
  { o with filter := o.filter.map Object.plain, having := o.having.map Object.plain }

theorem Setting.map_plain {α : Type} {x y : Except CompileError α} {setting : α → Setting}
    (h : SameOutcome Eq x y) (bare : ∀ a, (setting a).plain = setting a) :
    SameOutcome (fun s s' => s = s'.plain) (x.map setting) (y.map setting) := by
  refine h.map ?_
  rintro a _ rfl
  exact (bare a).symm

theorem Setting.ofArgument_plain (known : List String) (key : String) (v : Json) :
    SameOutcome (fun s s' => s = s'.plain) (ofArgument known key v.plain)
      (ofArgument known key v) := by
  unfold ofArgument
  rw [isNull_plain]
  split
  · exact .ok rfl
  · split
    · exact map_plain (pageOfArgument_plain v) fun _ => rfl
    · exact map_plain (pageOfArgument_plain v) fun _ => rfl
    · cases v with
      | obj fields => exact .ok rfl
      | _ => exact .error _ _
    · exact .ok (congrArg having (Operator.predicate_plain (some v)))
    · exact map_plain (orderOfArgument_plain v) fun _ => rfl
    · rw [groupOfArgument?_plain]
      split
      · exact .ok rfl
      · exact .error _ _
    · rw [groupOfArgument?_plain]
      split
      · exact .ok rfl
      · exact .error _ _
    · rw [Projection.ofArgument?_plain]
      split
      · split
        · exact .ok rfl
        · exact .ok rfl
      · exact .ok rfl
    · exact map_plain (flagOfArgument_plain v) fun _ => rfl
    · exact map_plain (flagOfArgument_plain v) fun _ => rfl
    · exact map_plain (flagOfArgument_plain v) fun _ => rfl
    · exact map_plain (flagOfArgument_plain v) fun _ => rfl
    · exact map_plain (scopeOfArgument_plain v) fun _ => rfl
    · split
      · exact .ok rfl
      · exact .ok rfl

namespace Options

theorem mergePredicate_plain (base : Option Object) (more : Object) :
    mergePredicate (base.map Object.plain) more.plain = (mergePredicate base more).plain := by
  cases base with
  | none => rfl
  | some base =>
    rw [Option.map_some, mergePredicate, mergePredicate]
    induction more generalizing base with
    | nil => rfl
    | cons e more ih =>
      have step : Object.plain (e :: more) = (e.1, e.2.plain) :: Object.plain more := rfl
      have contains : base.plain.contains e.1 = base.contains e.1 :=
        Object.contains_mapValues Json.plain base e.1
      rw [step, List.foldl_cons, List.foldl_cons, contains]
      split
      · exact ih base
      · have appended : Object.plain (base ++ [e]) = base.plain ++ [(e.1, e.2.plain)] :=
          List.map_append
        rw [← appended]
        exact ih (base ++ [e])

theorem apply_plain (o : Options) (s : Setting) : o.plain.apply s.plain = (o.apply s).plain := by
  cases s with
  | having p =>
    exact congrArg (fun p => { o.plain with having := some p }) (mergePredicate_plain o.having p)
  | _ => rfl

theorem foldl_apply_plain (o : Options) (settings : List Setting) :
    (settings.map Setting.plain).foldl apply o.plain = (settings.foldl apply o).plain := by
  induction settings generalizing o with
  | nil => rfl
  | cons s settings ih => rw [List.map_cons, List.foldl_cons, List.foldl_cons, apply_plain, ih]

theorem conditions_plain (settings : List Setting) :
    conditions (settings.map Setting.plain) = (conditions settings).plain := by
  have conditions : (settings.map Setting.plain).filterMap Setting.condition? =
      Object.plain (settings.filterMap Setting.condition?) := by
    rw [List.filterMap_map, Object.plain, Object.mapValues, List.map_filterMap]
    refine List.filterMap_congr fun s _ => ?_
    cases s <;> rfl
  have filter : (settings.map Setting.plain).findSome? Setting.filter? =
      (settings.findSome? Setting.filter?).map Json.plain := by
    rw [List.findSome?_map, List.map_findSome?]
    refine congrArg (List.findSome? · settings) (funext fun s => ?_)
    cases s <;> rfl
  rw [Options.conditions, Options.conditions, conditions, filter, Operator.predicate_plain,
    Object.plain, Object.plain, Object.plain, Object.mapValues_extend, Object.mapValues_ofList]

theorem withSettings_plain (o : Options) (settings : List Setting) :
    o.plain.withSettings (settings.map Setting.plain) = (o.withSettings settings).plain := by
  have empty : (conditions settings).plain.isEmpty = (conditions settings).isEmpty :=
    List.isEmpty_map
  rw [withSettings, withSettings, conditions_plain, foldl_apply_plain, empty]
  split
  · rfl
  · rw [Options.plain, mergePredicate_plain]
    rfl

theorem ofArguments_plain (known : List String) (args : Object) :
    SameOutcome (fun o o' => o = o'.plain) (ofArguments known args.plain)
      (ofArguments known args) := by
  have each : ∀ arg ∈ args, SameOutcome (fun s s' => s = Setting.plain s')
      (Setting.ofArgument known arg.1 arg.2.plain) (Setting.ofArgument known arg.1 arg.2) :=
    fun arg _ => Setting.ofArgument_plain known arg.1 arg.2
  have settings := SameOutcome.mapM_map (k := fun arg : String × Json => (arg.1, arg.2.plain))
    (f := fun arg => Setting.ofArgument known arg.1 arg.2) each
  rw [ofArguments, ofArguments, withArguments_eq_map, withArguments_eq_map]
  apply settings.map
  rintro _ settings rfl
  exact withSettings_plain {} settings

/-- Arguments that only differ in signs of zeros ask for options that do so too. -/
theorem ofArguments_congr {args args' : Object} (h : args.plain = args'.plain)
    (known : List String) :
    SameOutcome (fun o o' => o.plain = o'.plain) (ofArguments known args)
      (ofArguments known args') := by
  have plain := ofArguments_plain known args
  rw [h] at plain
  exact plain.of_views (ofArguments_plain known args')

end Options

end QueryPlan
