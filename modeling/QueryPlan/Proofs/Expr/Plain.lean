import QueryPlan.Plan.Level
import QueryPlan.Proofs.Expr.SameReads
import QueryPlan.Proofs.Json.Plain
import QueryPlan.Proofs.SameOutcome

namespace QueryPlan

open Json

namespace Expr

mutual

/-- The expression without the signs of the zeros in its literals. -/
def plain : Expr → Expr
  | .literal v => .literal v.plain
  | .column via name => .column via name
  | .call function args => .call function (plainList args)

def plainList : List Expr → List Expr
  | [] => []
  | e :: es => plain e :: plainList es

end

theorem plain_call (function : String) (args : List Expr) :
    (call function args).plain = .call function (args.map plain) := by
  have each : plainList args = args.map plain := by
    induction args with
    | nil => rfl
    | cons e es ih => rw [plainList, ih, List.map_cons]
  rw [plain, each]

end Expr

def ProjectionItem.plain : ProjectionItem → ProjectionItem
  | .column name => .column name
  | .computed e aliasName => .computed e.plain aliasName

def CompiledExpr.plain (e : CompiledExpr) : CompiledExpr := ⟨e.expr.plain, e.reads⟩

def ComputedColumn.plain (c : ComputedColumn) : ComputedColumn := ⟨c.item.plain, c.reads⟩

/-- A field of which nothing is known but its arguments. -/
def SelectedField.ofArgs (args : Object) : SelectedField :=
  { name := "", typeName := "", isList := false, args }

namespace SelectedField

variable (f : SelectedField) (key : String)

theorem stringArgument_plain :
    SameOutcome Eq ((ofArgs f.args.plain).stringArgument key) (f.stringArgument key) := by
  have found : (ofArgs f.args.plain).args.get? key = (f.args.get? key).map Json.plain :=
    Object.get?_plain f.args key
  rw [stringArgument, stringArgument, found]
  cases f.args.get? key with
  | none => exact .error _ _
  | some v =>
    cases v with
    | str s => exact .ok rfl
    | _ => exact .error _ _

theorem stringArgument?_plain :
    SameOutcome Eq ((ofArgs f.args.plain).stringArgument? key) (f.stringArgument? key) := by
  have found : (ofArgs f.args.plain).args.get? key = (f.args.get? key).map Json.plain :=
    Object.get?_plain f.args key
  rw [stringArgument?, stringArgument?, found]
  cases f.args.get? key with
  | none => exact .ok rfl
  | some v =>
    cases v with
    | null => exact .ok rfl
    | str s => exact .ok rfl
    | _ => exact .error _ _

theorem call_plain (function : String) :
    (ofArgs f.args.plain).call function = (f.call function).plain := by
  have found : (ofArgs f.args.plain).args.get? "args" = (f.args.get? "args").map Json.plain :=
    Object.get?_plain f.args "args"
  rw [call, call, found]
  cases f.args.get? "args" with
  | none => rfl
  | some v => rfl

end SelectedField

namespace Scope

variable {s : Scope} {settings : Settings} {strictness : Strictness}

theorem functionName_plain (v : Option Json) :
    SameOutcome Eq (functionName (v.map Json.plain)) (functionName v) := by
  cases v with
  | none => exact .error _ _
  | some v =>
    cases v with
    | str name => exact .refl (fun _ => rfl) _
    | _ => exact .error _ _

theorem argumentList_plain (v : Option Json) :
    argumentList (v.map Json.plain) = (argumentList v).map Json.plain := by
  cases v with
  | none => rfl
  | some v =>
    cases v with
    | arr items => exact congrArg (fun v => argumentList (some v)) (plain_arr items)
    | _ => rfl

/-- No number comes out of a name. -/
theorem compileName_plain {name : String} {e : CompiledExpr}
    (h : s.compileName strictness name = .ok e) : e = e.plain := by
  obtain ⟨found, hc, h⟩ := bind_eq_ok.1 h
  cases found with
  | some e' =>
    cases pure_eq_ok.1 h
    cases column?_eq_some.1 hc with
    | own => rfl
    | through => rfl
  | none =>
    cases strictness with
    | lenient =>
      cases pure_eq_ok.1 h
      rfl
    | strict => cases throw_ne_ok h

theorem compileName_same (name : String) :
    SameOutcome (fun e e' => e = e'.plain) (s.compileName strictness name)
      (s.compileName strictness name) := by
  cases h : s.compileName strictness name with
  | error e => exact .error e e
  | ok e => exact .ok (compileName_plain h)

theorem compileArguments_plain {argument : Json → Except CompileError CompiledExpr}
    (h : ∀ v, SameOutcome (fun e e' => e = e'.plain) (argument v.plain) (argument v))
    (values : List Json) :
    SameOutcome (fun es es' => es = es'.map CompiledExpr.plain)
      (s.compileArguments strictness argument (values.map Json.plain))
      (s.compileArguments strictness argument values) := by
  have all (values : List Json) : SameOutcome (fun es es' => es = es'.map CompiledExpr.plain)
      ((values.map Json.plain).mapM argument) (values.mapM argument) :=
    SameOutcome.mapM_map fun v _ => h v
  cases values with
  | nil => exact all []
  | cons v rest =>
    cases v with
    | str name =>
      refine (compileName_same name).bind ?_
      rintro _ first rfl
      refine (all rest).bind ?_
      rintro _ rest rfl
      exact .ok rfl
    | _ => exact all (_ :: rest)

theorem compileCall_plain (s : Scope) (strictness : Strictness) (limit : UInt64) (n : Nat)
    (call : Object) :
    SameOutcome (fun e e' => e = e'.plain) (s.compileCall strictness limit n call.plain)
      (s.compileCall strictness limit n call) := by
  induction n generalizing call with
  | zero => exact .error _ _
  | succ n ih =>
    rw [compileCall, compileCall, Object.get?_plain, Object.get?_plain, argumentList_plain]
    refine (functionName_plain _).bind ?_
    rintro function _ rfl
    refine (compileArguments_plain (fun v => ?_) _).bind ?_
    · cases v with
      | obj call =>
        rw [plain_obj]
        exact ih call
      | _ => exact .ok rfl
    · rintro _ args rfl
      refine .ok ?_
      rw [CompiledExpr.plain, Expr.plain_call, List.map_map, List.map_map, List.foldr_map]
      rfl

theorem aggregateColumn_plain (s : Scope) (settings : Settings) (f : SelectedField) :
    SameOutcome (fun c c' => c = c'.plain)
      (s.aggregateColumn settings (.ofArgs f.args.plain)) (s.aggregateColumn settings f) := by
  refine (f.stringArgument_plain "fn").bind ?_
  rintro function _ rfl
  refine (f.stringArgument?_plain "as").bind ?_
  rintro aliasName _ rfl
  refine SameOutcome.bind (R := fun e e' => e = e'.plain) ?_ ?_
  · have compiled := s.compileCall_plain .lenient settings.maxDepth settings.maxDepth.toNat
      (f.call function)
    rw [← f.call_plain] at compiled
    exact compiled
  · rintro _ e rfl
    exact .ok rfl

theorem relatedColumn_plain (s : Scope) (settings : Settings) (f : SelectedField) :
    SameOutcome (fun c c' => c = c'.plain)
      (s.relatedColumn settings (.ofArgs f.args.plain)) (s.relatedColumn settings f) := by
  refine (f.stringArgument_plain "name").bind ?_
  rintro name _ rfl
  refine (f.stringArgument?_plain "as").bind ?_
  rintro aliasName _ rfl
  refine (compileName_same name).bind ?_
  rintro _ e rfl
  exact .ok rfl

variable {f g : SelectedField}

/-- Requests whose arguments only differ in signs of zeros compute columns that do so too. -/
theorem aggregateColumn_congr (s : Scope) (settings : Settings) (h : f.args.plain = g.args.plain) :
    SameOutcome (fun c c' => c.plain = c'.plain) (s.aggregateColumn settings f)
      (s.aggregateColumn settings g) := by
  have plain := aggregateColumn_plain s settings f
  rw [h] at plain
  exact plain.of_views (aggregateColumn_plain s settings g)

theorem relatedColumn_congr (s : Scope) (settings : Settings) (h : f.args.plain = g.args.plain) :
    SameOutcome (fun c c' => c.plain = c'.plain) (s.relatedColumn settings f)
      (s.relatedColumn settings g) := by
  have plain := relatedColumn_plain s settings f
  rw [h] at plain
  exact plain.of_views (relatedColumn_plain s settings g)

end Scope

end QueryPlan
