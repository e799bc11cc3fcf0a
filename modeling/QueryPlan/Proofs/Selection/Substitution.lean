import QueryPlan.GraphQL.Grammar
import QueryPlan.Proofs.Json.KeyOrder
import QueryPlan.Proofs.Selection.Arguments
import QueryPlan.Proofs.Selection.Conditions

namespace QueryPlan

open GraphQL

namespace Json

/-- Every integer fits in 64 bits with a sign, as the integers do that are written in a document. -/
def integersFit : Json → Bool :=
  everyPart fun
    | .num (.int n _) => decide (n < 9223372036854775808)
    | _ => true

mutual

/-- The written value that denotes a value. The fields of an object stand as they are read: in the
order of their names. An integer that does not fit cannot be written. -/
def literal : Json → Value
  | .null => .null
  | .bool b => .bool b
  | .num (.int n inRange) =>
    if n < 9223372036854775808 then .number (.int n inRange) else .null
  | .num (.float x) => .number (.float x)
  | .str s => .string s
  | .arr items => .list (literalItems items)
  | .obj fields =>
    .object ((literalMembers fields).foldl (fun fs f => Grammar.insertField f fs) [])

def literalItems : List Json → List Value
  | [] => []
  | v :: vs => literal v :: literalItems vs

def literalMembers : List (String × Json) → List (String × Value)
  | [] => []
  | (k, v) :: fs => (k, literal v) :: literalMembers fs

end

theorem literalItems_eq_map (items : List Json) : literalItems items = items.map literal := by
  induction items with
  | nil => rfl
  | cons v vs ih => rw [literalItems, ih, List.map_cons]

theorem literalMembers_eq_map (fields : List (String × Json)) :
    literalMembers fields = fields.map fun e => (e.1, e.2.literal) := by
  induction fields with
  | nil => rfl
  | cons e fs ih => rw [literalMembers, ih, List.map_cons]

end Json

namespace GraphQL

namespace Grammar

variable {fields entries : List (String × Value)} {field : String × Value}

theorem insertField_perm (fresh : field.1 ∉ fields.map (·.1)) :
    (insertField field fields).Perm (field :: fields) := by
  induction fields with
  | nil => exact .refl _
  | cons f fs ih =>
    rw [List.map_cons, List.mem_cons, not_or] at fresh
    rw [insertField, if_neg fresh.1]
    split
    · exact .refl _
    · exact ((ih fresh.2).cons f).trans (.swap field f fs)

theorem foldl_insertField_perm (fields : List (String × Value))
    (distinct : ((fields ++ entries).map (·.1)).Nodup) :
    (entries.foldl (fun fs f => insertField f fs) fields).Perm (fields ++ entries) := by
  induction entries generalizing fields with
  | nil => rw [List.append_nil]; exact .refl _
  | cons e entries ih =>
    have fresh : e.1 ∉ fields.map (·.1) := by
      rw [List.map_append, List.map_cons] at distinct
      exact fun mem => (List.nodup_append.1 distinct).2.2 e.1 mem e.1 List.mem_cons_self rfl
    have inserted : (insertField e fields ++ entries).Perm (fields ++ e :: entries) :=
      ((insertField_perm fresh).append_right entries).trans List.perm_middle.symm
    exact (ih _ ((inserted.map _).nodup_iff.2 distinct)).trans inserted

end Grammar

namespace Value

variable {bindings : Json.Object}

/-- Induction that takes the items of a list, and the fields of an object, together. -/
theorem induction {motive : Value → Prop} (null : motive .null) (bool : ∀ b, motive (.bool b))
    (number : ∀ n, motive (.number n)) (string : ∀ s, motive (.string s))
    (enumeration : ∀ name, motive (.enumeration name)) (var : ∀ name, motive (.var name))
    (list : ∀ items, (∀ v ∈ items, motive v) → motive (.list items))
    (object : ∀ fields : List (String × Value), (∀ e ∈ fields, motive e.2) →
      motive (.object fields)) : ∀ v, motive v
  | .null => null
  | .bool b => bool b
  | .number n => number n
  | .string s => string s
  | .enumeration name => enumeration name
  | .var name => var name
  | .list items => list items fun v _ =>
    induction null bool number string enumeration var list object v
  | .object fields => object fields fun e _ =>
    induction null bool number string enumeration var list object e.2
termination_by v => sizeOf v
decreasing_by
  · rename_i mem
    have := List.sizeOf_lt_of_mem mem
    simp only [Value.list.sizeOf_spec]
    omega
  · rename_i mem
    have := List.sizeOf_lt_of_mem mem
    obtain ⟨k, v⟩ := e
    simp only [Prod.mk.sizeOf_spec] at this
    simp only [Value.object.sizeOf_spec]
    omega

/-- The fields of an object may be put in order before it is decoded. -/
theorem sortKeys_decode_inserted {entries : List (String × Value)}
    (distinct : (entries.map (·.1)).Nodup) :
    ((Value.object (entries.foldl (fun fs f => Grammar.insertField f fs) [])).decode
        bindings).sortKeys =
      .obj (Json.Object.sortKeys (entries.map fun e => (e.1, e.2.decode bindings))) := by
  have decoded := (Grammar.foldl_insertField_perm [] distinct).map
    fun e => (e.1, e.2.decode bindings)
  rw [List.nil_append] at decoded
  have distinct' : (Json.Object.keys ((entries.foldl (fun fs f => Grammar.insertField f fs) []).map
      fun e => (e.1, e.2.decode bindings))).Nodup := by
    refine (decoded.map (·.1)).nodup_iff.2 ?_
    rw [List.map_map]
    exact distinct
  rw [decode, decodeFields_eq_map, Json.Object.ofList_eq_self distinct', Json.sortKeys_obj,
    Json.Object.sortKeys, Json.Object.sortKeys]
  refine congrArg Json.obj (Json.Object.byKey_eq_of_perm ?_ (decoded.map _))
  rw [Json.Object.keys_mapValues]
  exact distinct'

/-- A value is read back from its literal, up to the order of members. -/
theorem decode_literal {v : Json} (wellKeyed : v.wellKeyed) (fit : v.integersFit) :
    (v.literal.decode []).sortKeys = v.sortKeys := by
  induction v using Json.induction with
  | null => rfl
  | bool b => rfl
  | num n =>
    cases n with
    | int n inRange =>
      have small : n < 9223372036854775808 := of_decide_eq_true fit
      rw [Json.literal, if_pos small, decode]
    | float x => rfl
  | str s => rfl
  | arr items ih =>
    rw [Json.wellKeyed_arr] at wellKeyed
    rw [Json.literal, decode, Json.literalItems_eq_map, decodeItems_eq_map, Json.sortKeys_arr,
      Json.sortKeys_arr, List.map_map, List.map_map]
    refine congrArg Json.arr (List.map_congr_left fun v mem => ?_)
    exact ih v mem (wellKeyed v mem) ((Json.everyPart_arr.1 fit).2 v mem)
  | obj fields ih =>
    obtain ⟨distinct, members⟩ := Json.Object.wellKeyed_iff.1 wellKeyed
    have fits := (Json.everyPart_obj.1 fit).2
    have distinct' : ((fields.map fun e => (e.1, e.2.literal)).map (·.1)).Nodup := by
      rw [List.map_map]
      exact distinct
    rw [Json.literal, Json.literalMembers_eq_map, sortKeys_decode_inserted distinct',
      Json.sortKeys_obj, List.map_map, Json.Object.sortKeys, Json.Object.sortKeys,
      Json.Object.mapValues, List.map_map]
    refine congrArg (fun o => Json.obj (Json.Object.byKey o)) (List.map_congr_left fun e mem => ?_)
    exact congrArg (Prod.mk e.1) (ih e.1 e.2 mem (members e mem) (fits e mem))

theorem literal_ne_var (v : Json) (name : String) : v.literal ≠ .var name := by
  cases v with
  | num n =>
    cases n with
    | int n _ =>
      rw [Json.literal]
      split <;> nofun
    | float x => nofun
  | _ => nofun

mutual

/-- The value with each bound variable replaced by the literal of its value, and all other variables
by null. -/
def substitute (bindings : Json.Object) : Value → Value
  | .null => .null
  | .bool b => .bool b
  | .number n => .number n
  | .string s => .string s
  | .enumeration name => .enumeration name
  | .var name => ((bindings.get? name).map Json.literal).getD .null
  | .list items => .list (substituteItems bindings items)
  | .object fields => .object (substituteFields bindings fields)

def substituteItems (bindings : Json.Object) : List Value → List Value
  | [] => []
  | v :: vs => substitute bindings v :: substituteItems bindings vs

def substituteFields (bindings : Json.Object) : List (String × Value) → List (String × Value)
  | [] => []
  | (k, v) :: fs => (k, substitute bindings v) :: substituteFields bindings fs

end

def substituteArguments (bindings : Json.Object) (args : List (String × Value)) :
    List (String × Value) :=
  args.map fun a => (a.1, a.2.substitute bindings)

def isUnbound (bindings : Json.Object) : Value → Bool
  | .var name => (bindings.get? name).isNone
  | _ => false

theorem substituteItems_eq_map (items : List Value) :
    substituteItems bindings items = items.map (substitute bindings) := by
  induction items with
  | nil => rfl
  | cons v vs ih => rw [substituteItems, ih, List.map_cons]

theorem substituteFields_eq (fields : List (String × Value)) :
    substituteFields bindings fields = substituteArguments bindings fields := by
  induction fields with
  | nil => rfl
  | cons e fs ih => rw [substituteFields, ih]; rfl

theorem substitute_ne_var (bindings : Json.Object) (v : Value) (name : String) :
    v.substitute bindings ≠ .var name := by
  cases v with
  | var other =>
    rw [substitute]
    cases bindings.get? other with
    | none => nofun
    | some v => exact literal_ne_var v name
  | _ => nofun

theorem isSupplied_substitute (v : Value) : (v.substitute bindings).isSupplied [] := by
  have novar := substitute_ne_var bindings v
  cases hv : v.substitute bindings with
  | var name => exact absurd hv (novar name)
  | _ => rfl

theorem isSupplied_eq (v : Value) : v.isSupplied bindings = !v.isUnbound bindings := by
  cases v with
  | var name =>
    rw [isSupplied, isUnbound, Json.Object.contains]
    cases bindings.get? name <;> rfl
  | _ => rfl

theorem mapValues_decodeFields {fields : List (String × Value)}
    (h : ∀ e ∈ fields, ((e.2.substitute bindings).decode []).sortKeys =
      (e.2.decode bindings).sortKeys) :
    Json.Object.mapValues Json.sortKeys
        (decodeFields [] (substituteArguments bindings fields)) =
      Json.Object.mapValues Json.sortKeys (decodeFields bindings fields) := by
  rw [decodeFields_eq_map, decodeFields_eq_map, substituteArguments, List.map_map,
    Json.Object.mapValues, Json.Object.mapValues, List.map_map, List.map_map]
  exact List.map_congr_left fun e mem => congrArg (Prod.mk e.1) (h e mem)

/-- Without its variables a value is decoded to what it was decoded to with them. -/
theorem decode_substitute (wellKeyed : bindings.wellKeyed)
    (fit : (Json.obj bindings).integersFit) (v : Value) :
    ((v.substitute bindings).decode []).sortKeys = (v.decode bindings).sortKeys := by
  induction v using Value.induction with
  | var name =>
    rw [substitute, decode]
    cases hv : bindings.get? name with
    | none => rfl
    | some v =>
      have mem := Json.Object.mem_of_get? hv
      exact decode_literal ((Json.Object.wellKeyed_iff.1 wellKeyed).2 _ mem)
        ((Json.everyPart_obj.1 fit).2 _ mem)
  | list items ih =>
    rw [substitute, decode, decode, substituteItems_eq_map, decodeItems_eq_map, decodeItems_eq_map,
      Json.sortKeys_arr, Json.sortKeys_arr, List.map_map, List.map_map, List.map_map]
    exact congrArg Json.arr (List.map_congr_left ih)
  | object fields ih =>
    rw [substitute, decode, decode, substituteFields_eq, Json.sortKeys_obj, Json.sortKeys_obj]
    exact congrArg Json.obj (Json.Object.sortKeys_ofList_congr (mapValues_decodeFields ih))
  | _ => rfl

theorem lookup_substituteArguments (args : List (String × Value)) (key : String) :
    (substituteArguments bindings args).lookup key =
      (args.lookup key).map (substitute bindings) := by
  induction args with
  | nil => rfl
  | cons a args ih =>
    have step : substituteArguments bindings (a :: args) =
        (a.1, a.2.substitute bindings) :: substituteArguments bindings args := rfl
    rw [step, List.lookup_cons, List.lookup_cons, ih]
    split <;> rfl

end Value

def Directive.substitute (bindings : Json.Object) (d : Directive) : Directive :=
  { d with args := Value.substituteArguments bindings d.args }

/-- Every variable is replaced, at every depth of every argument of a field or a directive. A field
argument that is nothing but a variable that is not bound is left out. -/
def Rewriting.substitution (bindings : Json.Object) : Rewriting where
  keeps _ := true
  directives := List.map (·.substitute bindings)
  arguments args :=
    Value.substituteArguments bindings (args.filter fun a => !a.2.isUnbound bindings)

section

variable {bindings before after : Json.Object}

theorem mapValues_argumentsOf {f : Json → Json} {head head' : FieldHead}
    (h : (decodeArguments after head'.args).mapValues f =
      (decodeArguments before head.args).mapValues f) (definition : Option FieldDefinition) :
    (argumentsOf after head' definition).mapValues f =
      (argumentsOf before head definition).mapValues f := by
  rw [argumentsOf, argumentsOf]
  generalize decodeArguments after head'.args = args' at h
  generalize decodeArguments before head.args = args at h
  generalize (definition.map (·.arguments)).getD [] = declared
  induction declared generalizing args args' with
  | nil => exact h
  | cons input declared ih =>
    apply ih
    obtain ⟨name, default⟩ := input
    cases default with
    | none => exact h
    | some default =>
      have contains : args'.contains name = args.contains name := by
        rw [← Json.Object.contains_mapValues f, h, Json.Object.contains_mapValues]
      simp only [contains]
      split
      · exact h
      · rw [Json.Object.mapValues_insert, Json.Object.mapValues_insert, h]

variable (wellKeyed : bindings.wellKeyed) (fit : (Json.obj bindings).integersFit)
include wellKeyed fit

theorem Rewriting.mapValues_substitution (args : List (String × Value)) :
    (decodeArguments [] ((substitution bindings).arguments args)).mapValues Json.sortKeys =
      (decodeArguments bindings args).mapValues Json.sortKeys := by
  have supplied : ((substitution bindings).arguments args).filter
      (fun a => a.2.isSupplied []) = (substitution bindings).arguments args := by
    rw [List.filter_eq_self]
    intro a mem
    obtain ⟨a', -, rfl⟩ := List.mem_map.1 mem
    exact Value.isSupplied_substitute a'.2
  have bound : (args.filter fun a => a.2.isSupplied bindings) =
      args.filter fun a => !a.2.isUnbound bindings := by
    simp only [Value.isSupplied_eq]
  rw [decodeArguments, decodeArguments, supplied, bound, Json.Object.mapValues_ofList,
    Json.Object.mapValues_ofList]
  refine congrArg Json.Object.ofList (Value.mapValues_decodeFields fun e _ => ?_)
  exact Value.decode_substitute wellKeyed fit e.2

theorem Directive.deletes_substitute (d : Directive) :
    (d.substitute bindings).deletes [] = d.deletes bindings := by
  have condition : ((d.substitute bindings).condition? []).bind Json.ofBool? =
      (d.condition? bindings).bind Json.ofBool? := by
    have args : (d.substitute bindings).args = Value.substituteArguments bindings d.args := rfl
    rw [condition?, condition?, args, Value.lookup_substituteArguments]
    cases d.args.lookup "if" with
    | none => rfl
    | some v =>
      have decoded := congrArg Json.ofBool? (Value.decode_substitute wellKeyed fit v)
      rw [Json.ofBool?_sortKeys, Json.ofBool?_sortKeys] at decoded
      exact decoded
  rw [deletes, deletes, holds, holds, holds, holds, condition]
  rfl

theorem Rewriting.substitution_neutral :
    (substitution bindings).Neutral bindings [] Json.Object.sortKeys where
  kept := by
    intro directives _
    rw [isSelected_eq, isSelected_eq, substitution, List.any_map]
    simp only [Function.comp_def, Directive.deletes_substitute wellKeyed fit]
  dropped := nofun
  arguments := by
    intro head definition
    have args : (decodeArguments [] ((substitution bindings).head head).args).mapValues
        Json.sortKeys = _ := mapValues_substitution wellKeyed fit head.args
    rw [Json.Object.sortKeys, Json.Object.sortKeys, mapValues_argumentsOf args definition]

/-- Variables are substituted completely: up to the order of members, the tree of a response key is
that of the document in which the variables are replaced by their values, under no bindings. -/
theorem Document.tree?_substitution (d : Document) (schema : Schema) (operation : Option String)
    (key : String) :
    (((Rewriting.substitution bindings).document d).rootField schema [] operation
        key).tree?.map (·.mapArgs Json.Object.sortKeys) =
      (d.rootField schema bindings operation key).tree?.map
        (·.mapArgs Json.Object.sortKeys) :=
  Rewriting.tree?_document (Rewriting.substitution_neutral wellKeyed fit) d schema operation key

end

end GraphQL

namespace Sample

open GraphQL

def filterBindings : Json.Object :=
  [("age", .num (.int 30 (by decide))), ("named", .obj [("name", .str "a"), ("is", .arr [.null])])]

def usersField (args : List (String × Value)) (condition : Value) : Selection :=
  .field ⟨none, "users", args, []⟩
    [.field ⟨none, "id", [], [⟨"skip", [("if", condition)]⟩]⟩ []]

def queryDocument (selection : Selection) : Document := ⟨[⟨.query, none, [selection]⟩], []⟩

def pagedSchema : Schema where
  roots := []
  objects := [⟨"Query", [], [⟨"users", [⟨"limit", some (.number (.int 20 (by decide)))⟩],
    .list (.named "User"), []⟩]⟩]

/-- The variable `size` is not bound. -/
def sizedQuery : Document :=
  queryDocument (usersField [("limit", .var "size"), ("where", .list [.var "age", .var "size"]),
    ("filter", .var "named")] (.var "size"))

def plainQuery : Document :=
  queryDocument (usersField [("where", .list [.number (.int 30 (by decide)), .null]),
    ("filter", .object [("is", .list [.null]), ("name", .string "a")])] .null)

theorem sizedQuery_substituted :
    filterBindings.wellKeyed ∧ (Json.obj filterBindings).integersFit ∧
      (plainQuery.rootField pagedSchema [] none "users").tree?.map
          (·.mapArgs Json.Object.sortKeys) =
        (sizedQuery.rootField pagedSchema filterBindings none "users").tree?.map
          (·.mapArgs Json.Object.sortKeys) := by
  have wellKeyed : filterBindings.wellKeyed := by decide
  have fit : (Json.obj filterBindings).integersFit := by decide
  have substituted : (Rewriting.substitution filterBindings).document sizedQuery = plainQuery := by
    with_unfolding_all rfl
  refine ⟨wellKeyed, fit, ?_⟩
  rw [← substituted]
  exact Document.tree?_substitution wellKeyed fit sizedQuery pagedSchema none "users"

end Sample

end QueryPlan
