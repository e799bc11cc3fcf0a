import Mathlib.Data.List.TakeWhile
import QueryPlan.GraphQL.SchemaParser
import QueryPlan.Proofs.Text.Yields

namespace QueryPlan.GraphQL

open Text (Parser)
open Text.Parser (Yields Keeps)

/-- A letter or an underscore, and after it letters, digits and underscores. -/
def IsName (s : String) : Prop :=
  ∃ c cs, s.toList = c :: cs ∧ Token.isNameStart c ∧ ∀ d ∈ cs, Token.isNamePart d

/-- What is known of a token that is read from a text. -/
def Token.Lexed : Token → Prop
  | .name s => IsName s
  | _ => True

/-- The innermost type is given by a name. -/
def TypeRef.Named : TypeRef → Prop
  | .named name => IsName name
  | .list inner => inner.Named
  | .nonNull inner => inner.Named

def ObjectType.Named (o : ObjectType) : Prop := ∀ f ∈ o.fields, f.type.Named

/-- All fields are of types that are given by names. -/
def Schema.Named (s : Schema) : Prop := ∀ o ∈ s.objects, o.Named

namespace Token

theorem ofNumberText?_ne_name {text : List Char} {s : String} :
    ofNumberText? text ≠ some (.name s) := by
  intro h
  simp only [ofNumberText?] at h
  repeat' split at h
  all_goals simp [Option.bind_eq_some_iff] at h

theorem scan_lexed : Yields (fun _ => True) Lexed scan := by
  intro input t rest _ h
  refine ⟨?_, fun _ _ => trivial⟩
  unfold scan at h
  split at h
  · cases h
    trivial
  · obtain ⟨⟨raw, left⟩, -, h⟩ := Option.bind_eq_some_iff.1 h
    cases h
    trivial
  · obtain ⟨⟨cs, left⟩, -, h⟩ := Option.bind_eq_some_iff.1 h
    cases h
    trivial
  · split at h
    · cases h
      trivial
    · split at h
      · rename_i start
        cases h
        refine ⟨_, _, String.toList_ofList, start, ?_⟩
        intro d hd
        exact List.mem_takeWhile_imp hd
      · split at h
        · obtain ⟨token, ht, h⟩ := Option.bind_eq_some_iff.1 h
          cases h
          cases t with
          | name s => exact absurd ht ofNumberText?_ne_name
          | _ => trivial
        · cases h
  · cases h

theorem ofText?_lexed {text : String} {tokens : List Token} (h : ofText? text = some tokens) :
    ∀ t ∈ tokens, t.Lexed := by
  have token : Yields (fun _ => True) Lexed (do
      let token ← scan
      modify (skipIgnored false)
      return token) := by
    apply scan_lexed.bind
    intro t lexed
    have skips : Keeps (fun _ => True) (modify (skipIgnored false) : Parser Char PUnit) :=
      fun _ _ _ _ _ => ⟨trivial, fun _ _ => trivial⟩
    exact skips.map fun _ _ => lexed
  exact (token.manyWhile _).run (fun _ _ => trivial) h

end Token

namespace Grammar

variable {α : Type} {P : α → Prop} {depth : Nat} {withVariables : Bool}

theorem name_yields : Yields Token.Lexed IsName name := by
  intro input s rest lexed h
  unfold name at h
  split at h
  · cases h
    exact List.forall_mem_cons.1 lexed
  · cases h

theorem isNext_keeps (c : Char) : Keeps Token.Lexed (isNext c) := by
  intro input b rest lexed h
  cases h
  exact ⟨trivial, lexed⟩

theorem description_keeps : Keeps Token.Lexed description := by
  intro input u rest lexed h
  unfold description at h
  split at h
  · cases h
    exact ⟨trivial, (List.forall_mem_cons.1 lexed).2⟩
  · cases h
    exact ⟨trivial, lexed⟩

theorem optionalBrackets_yields {opening closing : Char} {item : Nat → Parser Token α}
    (h : ∀ depth, Yields Token.Lexed P (item depth)) (depth : Nat) :
    Yields Token.Lexed (fun xs => ∀ x ∈ xs, P x) (optionalBrackets opening closing depth item) := by
  apply (isNext_keeps opening).bind
  intro opens _
  split
  · cases depth with
    | zero => exact .fail
    | succ depth =>
      apply (Yields.symbol _).bind
      intro _ _
      exact (h depth).many1Until _
  · exact .pure (List.forall_mem_nil _)

theorem reference_keeps (allowed : Bool) : Keeps Token.Lexed (reference allowed) := by
  have read : Keeps Token.Lexed (do
      punctuator '$'
      return Value.var (← name)) := by
    apply (Yields.symbol _).bind
    intro _ _
    exact name_yields.map fun _ _ => trivial
  unfold reference
  split
  · exact read
  · exact .fail_bind

theorem value_keeps (withVariables : Bool) (depth : Nat) :
    Keeps Token.Lexed (value withVariables depth) := by
  induction depth using Nat.strongRecOn with
  | ind depth ih =>
    have scalar (v : Value) : Keeps Token.Lexed (do
        let _ ← Text.Parser.satisfy fun (_ : Token) => true
        return v) := by
      exact (Yields.satisfy _).map fun _ _ => trivial
    rw [value.eq_def]
    apply Yields.peek?.bind
    intro next _
    split
    · exact scalar _
    · exact scalar _
    · exact scalar _
    · exact reference_keeps withVariables
    · split
      · exact .fail
      · rename_i depth
        apply (Yields.symbol _).bind
        intro _ _
        exact ((ih depth (Nat.lt_succ_self depth)).manyUntil _).map fun _ _ => trivial
    · split
      · exact .fail
      · rename_i depth
        have field : Keeps Token.Lexed (do
            let key ← name
            punctuator ':'
            return (key, ← value withVariables depth)) := by
          apply name_yields.bind
          intro key _
          apply (Yields.symbol _).bind
          intro _ _
          exact (ih depth (Nat.lt_succ_self depth)).map fun _ _ => trivial
        apply (Yields.symbol _).bind
        intro _ _
        exact (field.manyUntil _).map fun _ _ => trivial
    · exact .fail

theorem argument_keeps (depth : Nat) : Keeps Token.Lexed (argument withVariables depth) := by
  apply name_yields.bind
  intro key _
  apply (Yields.symbol _).bind
  intro _ _
  exact (value_keeps withVariables depth).map fun _ _ => trivial

theorem directives_keeps (depth : Nat) : Keeps Token.Lexed (directives depth) := by
  have directive : Keeps Token.Lexed (do
      punctuator '@'
      let name ← name
      return (⟨name, ← arguments true depth⟩ : Directive)) := by
    apply (Yields.symbol _).bind
    intro _ _
    apply name_yields.bind
    intro name _
    exact (optionalBrackets_yields argument_keeps depth).map fun _ _ => trivial
  exact (directive.manyWhile _).keeps

theorem typeRef_yields (depth : Nat) : Yields Token.Lexed TypeRef.Named (typeRef depth) := by
  have finish (inner : TypeRef) (named : inner.Named) : Yields Token.Lexed TypeRef.Named (do
      return if ← punctuator? '!' then .nonNull inner else inner) := by
    apply (Yields.symbol? _).bind
    intro required _
    apply Yields.pure
    split
    · exact named
    · exact named
  induction depth using Nat.strongRecOn with
  | ind depth ih =>
    rw [typeRef.eq_def]
    apply (isNext_keeps '[').bind
    intro opens _
    split
    · split
      · exact .fail_bind
      · rename_i depth
        apply (Yields.symbol _).bind
        intro _ _
        apply (ih depth (Nat.lt_succ_self depth)).bind
        intro inner named
        apply (Yields.symbol _).bind
        intro _ _
        exact finish (.list inner) named
    · apply name_yields.bind
      intro name isName
      exact finish (.named name) isName

theorem default?_keeps (depth : Nat) : Keeps Token.Lexed (default? depth) := by
  apply (Yields.symbol? _).bind
  intro given _
  split
  · exact (value_keeps false depth).map fun _ _ => trivial
  · exact .pure trivial

theorem inputDefinition_keeps (depth : Nat) : Keeps Token.Lexed (inputDefinition depth) := by
  apply description_keeps.bind
  intro _ _
  apply name_yields.bind
  intro _ _
  apply (Yields.symbol _).bind
  intro _ _
  apply (typeRef_yields depth).bind
  intro _ _
  apply (default?_keeps depth).bind
  intro _ _
  exact (directives_keeps depth).map fun _ _ => trivial

theorem argumentDefinitions_keeps (depth : Nat) :
    Keeps Token.Lexed (argumentDefinitions depth) :=
  (optionalBrackets_yields inputDefinition_keeps depth).keeps

theorem fieldDefinition_yields (depth : Nat) :
    Yields Token.Lexed (fun f => f.type.Named) (fieldDefinition depth) := by
  apply description_keeps.bind
  intro _ _
  apply name_yields.bind
  intro _ _
  apply (argumentDefinitions_keeps depth).bind
  intro _ _
  apply (Yields.symbol _).bind
  intro _ _
  apply (typeRef_yields depth).bind
  intro type named
  exact (directives_keeps depth).map fun _ _ => named

theorem enumValue_keeps (depth : Nat) : Keeps Token.Lexed (enumValue depth) := by
  apply description_keeps.bind
  intro _ _
  apply name_yields.bind
  intro _ _
  exact (directives_keeps depth).map fun _ _ => trivial

theorem separatedNames_keeps (opening : Token) (separator : Char) : Keeps Token.Lexed (do
    if ← Text.Parser.symbol? opening then
      let _ ← punctuator? separator
      Text.Parser.sepBy1 (.punctuator separator) name
    else return []) := by
  apply (Yields.symbol? _).bind
  intro given _
  split
  · apply (Yields.symbol? _).bind
    intro _ _
    exact (name_yields.sepBy1 _).keeps
  · exact .pure trivial

theorem interfaces_keeps : Keeps Token.Lexed interfaces :=
  separatedNames_keeps (.name "implements") '&'

theorem unionMembers_keeps : Keeps Token.Lexed unionMembers :=
  separatedNames_keeps (.punctuator '=') '|'

def Item.Named : Item → Prop
  | .object o => o.Named
  | _ => True

theorem typeBody_yields (kind : String) :
    Yields Token.Lexed (fun body => body.1.Named) (typeBody kind) := by
  unfold typeBody
  split
  · apply name_yields.bind
    intro _ _
    exact (directives_keeps maxNesting).map fun _ _ => trivial
  · apply name_yields.bind
    intro _ _
    apply interfaces_keeps.bind
    intro _ _
    apply (directives_keeps maxNesting).bind
    intro _ _
    exact (optionalBrackets_yields fieldDefinition_yields maxNesting).map fun fields named => named
  · apply name_yields.bind
    intro _ _
    apply interfaces_keeps.bind
    intro _ _
    apply (directives_keeps maxNesting).bind
    intro _ _
    exact (optionalBrackets_yields fieldDefinition_yields maxNesting).map fun fields named => named
  · apply name_yields.bind
    intro _ _
    apply (directives_keeps maxNesting).bind
    intro _ _
    exact unionMembers_keeps.map fun _ _ => trivial
  · apply name_yields.bind
    intro _ _
    apply (directives_keeps maxNesting).bind
    intro _ _
    exact (optionalBrackets_yields enumValue_keeps maxNesting).map fun _ _ => trivial
  · apply name_yields.bind
    intro _ _
    apply (directives_keeps maxNesting).bind
    intro _ _
    exact (optionalBrackets_yields inputDefinition_keeps maxNesting).map fun _ _ => trivial
  · exact .fail

theorem location_keeps : Keeps Token.Lexed location := by
  apply name_yields.bind
  intro _ _
  split
  · exact .pure trivial
  · exact .fail

theorem directiveDefinition_keeps : Keeps Token.Lexed directiveDefinition := by
  apply (Yields.symbol _).bind
  intro _ _
  apply name_yields.bind
  intro _ _
  apply (argumentDefinitions_keeps maxNesting).bind
  intro _ _
  apply (Yields.symbol? _).bind
  intro _ _
  apply (Yields.symbol _).bind
  intro _ _
  apply (Yields.symbol? _).bind
  intro _ _
  apply Yields.peek?.bind
  intro next _
  split
  · exact (location_keeps.sepBy1 _).map fun _ _ => trivial
  · exact .pure trivial

theorem rootDefinition_keeps : Keeps Token.Lexed rootDefinition := by
  have entry : Keeps Token.Lexed (do
      let kind ← name
      punctuator ':'
      return (kind, ← name)) := by
    apply name_yields.bind
    intro _ _
    apply (Yields.symbol _).bind
    intro _ _
    exact name_yields.map fun _ _ => trivial
  apply (directives_keeps maxNesting).bind
  intro _ _
  apply (Yields.symbol _).bind
  intro _ _
  apply (entry.manyUntil _).bind
  intro entries _
  split
  · exact .pure trivial
  · exact .fail

theorem item_yields : Yields Token.Lexed Item.Named item := by
  apply Yields.peek?.bind
  intro next _
  split
  · apply (Yields.symbol _).bind
    intro _ _
    exact rootDefinition_keeps.map fun _ _ => trivial
  · apply (Yields.symbol _).bind
    intro _ _
    apply name_yields.bind
    intro kind _
    apply (typeBody_yields kind).bind
    rintro ⟨_, parts⟩ _
    dsimp only
    split
    · exact .fail_bind
    · exact .pure trivial
  · apply description_keeps.bind
    intro _ _
    apply name_yields.bind
    intro kind _
    split
    · exact directiveDefinition_keeps.map fun _ _ => trivial
    · exact (typeBody_yields kind).map fun body named => named

end Grammar

/-- In a schema that is read from a text, types are given by names. -/
theorem Schema.parse?_named {text : String} {schema : Schema} (h : parse? text = some schema) :
    schema.Named := by
  obtain ⟨tokens, lexed, h⟩ := Option.bind_eq_some_iff.1 h
  obtain ⟨items, parsed, h⟩ := Option.bind_eq_some_iff.1 h
  have named : ∀ item ∈ items, item.Named :=
    (Grammar.item_yields.manyWhile _).run (Token.ofText?_lexed lexed) parsed
  split at h
  · cases h
  · cases h
    intro o ho
    obtain ⟨item, hitem, he⟩ := List.mem_filterMap.1 ho
    cases item with
    | object o' =>
      cases he
      exact named _ hitem
    | roots r => cases he
    | other => cases he

end QueryPlan.GraphQL
