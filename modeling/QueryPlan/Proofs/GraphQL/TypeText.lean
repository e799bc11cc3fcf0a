import QueryPlan.GraphQL.TypeText
import QueryPlan.Proofs.GraphQL.Names
import QueryPlan.Proofs.Text.Trimmed

namespace QueryPlan.GraphQL

/-- A character that the text of a type has around the name in it. -/
def isTypeMark (c : Char) : Bool := c == '[' || c == ']' || c == '!'

theorem isListText_required {s : String} : isListText (s ++ "!") = isListText s := by
  rw [isListText, isListText, String.toList_append]
  cases s.toList with
  | nil => rfl
  | cons c cs => rfl

namespace TypeRef

/-- The name of the type that is left without lists and without exclusion of null. -/
def innermost : TypeRef → String
  | .named name => name
  | .list inner => inner.innermost
  | .nonNull inner => inner.innermost

/-- The type with null allowed again, however often it was excluded at the outside. -/
def nullable : TypeRef → TypeRef
  | .named name => .named name
  | .list inner => .list inner
  | .nonNull inner => inner.nullable

/-- The type is a list, which may not be null or may. -/
def isList : TypeRef → Bool
  | .named _ => false
  | .list _ => true
  | .nonNull inner => inner.isList

/-- The innermost name has none of the characters that stand around it in the text. -/
def Unmarked (type : TypeRef) : Prop := ∀ c ∈ type.innermost.toList, isTypeMark c = false

-- Characters are finitely many, which must not be how this is decided.
instance (type : TypeRef) : Decidable type.Unmarked :=
  List.decidableBAll (fun c => isTypeMark c = false) type.innermost.toList

variable {type : TypeRef}

theorem isList_iff : type.isList ↔ ∃ inner, type.nullable = .list inner := by
  induction type with
  | named name => simp [isList, nullable]
  | list inner => simp [isList, nullable]
  | nonNull inner ih => exact ih

/-- Around the innermost name there is nothing but brackets and exclamation marks. -/
theorem text_around (type : TypeRef) : ∃ left right,
    type.text.toList = left ++ (type.innermost.toList ++ right) ∧
      (∀ c ∈ left, isTypeMark c) ∧ ∀ c ∈ right, isTypeMark c := by
  induction type with
  | named name => exact ⟨[], [], by simp [text, innermost], by simp, by simp⟩
  | list inner ih =>
    obtain ⟨left, right, htext, hleft, hright⟩ := ih
    have opened : ∀ c ∈ '[' :: left, isTypeMark c := List.forall_mem_cons.2 ⟨rfl, hleft⟩
    have closed : ∀ c ∈ right ++ [']'], isTypeMark c :=
      List.forall_mem_append.2 ⟨hright, by simp [isTypeMark]⟩
    exact ⟨'[' :: left, right ++ [']'], by simp [text, innermost, htext], opened, closed⟩
  | nonNull inner ih =>
    obtain ⟨left, right, htext, hleft, hright⟩ := ih
    have closed : ∀ c ∈ right ++ ['!'], isTypeMark c :=
      List.forall_mem_append.2 ⟨hright, by simp [isTypeMark]⟩
    exact ⟨left, right ++ ['!'], by simp [text, innermost, htext], hleft, closed⟩

namespace Unmarked

theorem trimmed (h : type.Unmarked) :
    Text.Trimmed isTypeMark type.innermost.toList type.text.toList where
  around := type.text_around
  first some := Bool.eq_false_iff.1 (h _ (List.head_mem some))
  last some := Bool.eq_false_iff.1 (h _ (List.getLast_mem some))

/-- What the text leaves between its marks is the innermost name. -/
theorem typeNameOfText_eq (h : type.Unmarked) : typeNameOfText type.text = type.innermost := by
  have kept : Text.trimEnds isTypeMark type.text.toList = type.innermost.toList :=
    h.trimmed.eq_trimEnds
  change String.ofList (Text.trimEnds isTypeMark type.text.toList) = type.innermost
  rw [kept, String.ofList_toList]

/-- The first character of the text tells whether the type is a list. -/
theorem isListText_eq (h : type.Unmarked) : isListText type.text = type.isList := by
  induction type with
  | named name =>
    rw [text, isList, isListText, beq_eq_false_iff_ne]
    intro opens
    have marked := h '[' (List.mem_of_mem_head? opens)
    cases marked
  | list inner =>
    rw [text, isListText, String.toList_append, String.toList_append]
    rfl
  | nonNull inner ih =>
    rw [text, isListText_required]
    exact ih h

end Unmarked

/-- The text of a type tells all that is read off it: whether the type is a list, and its innermost
name. -/
theorem text_faithful (h : type.Unmarked) :
    (isListText type.text ↔ ∃ inner, type.nullable = .list inner) ∧
      typeNameOfText type.text = type.innermost := by
  rw [h.isListText_eq, isList_iff]
  exact ⟨Iff.rfl, h.typeNameOfText_eq⟩

end TypeRef

/-- The types of all fields have names without brackets and exclamation marks. -/
def Schema.Unmarked (s : Schema) : Prop := ∀ o ∈ s.objects, ∀ f ∈ o.fields, f.type.Unmarked

instance (s : Schema) : Decidable s.Unmarked :=
  inferInstanceAs (Decidable (∀ o ∈ s.objects, ∀ f ∈ o.fields, f.type.Unmarked))

theorem isNamePart_of_isTypeMark {c : Char} (h : isTypeMark c) : Token.isNamePart c = false := by
  simp only [isTypeMark, Bool.or_eq_true, beq_iff_eq] at h
  rcases h with (rfl | rfl) | rfl <;> rfl

theorem IsName.isNamePart {s : String} (h : IsName s) : ∀ c ∈ s.toList, Token.isNamePart c := by
  obtain ⟨c, cs, hs, start, parts⟩ := h
  rw [hs, List.forall_mem_cons]
  have first : Token.isNamePart c := by
    rw [Token.isNameStart, Bool.or_eq_true] at start
    rw [Token.isNamePart, Bool.or_eq_true, Char.isAlphanum, Bool.or_eq_true]
    exact start.imp_left .inl
  exact ⟨first, parts⟩

theorem IsName.unmarked {s : String} (h : IsName s) : ∀ c ∈ s.toList, isTypeMark c = false := by
  intro c hc
  have part := h.isNamePart c hc
  rw [Bool.eq_false_iff]
  intro marked
  rw [isNamePart_of_isTypeMark marked] at part
  cases part

theorem TypeRef.Named.unmarked {type : TypeRef} (h : type.Named) : type.Unmarked := by
  induction type with
  | named name => exact IsName.unmarked h
  | list inner ih => exact ih h
  | nonNull inner ih => exact ih h

/-- Names that are read from a text do not have any of these characters. -/
theorem Schema.Named.unmarked {s : Schema} (h : s.Named) : s.Unmarked :=
  fun o ho f hf => (h o ho f hf).unmarked

end QueryPlan.GraphQL

namespace QueryPlan.Sample

open GraphQL

/-- A list, not null, of lists of integers that are not null. -/
def matrix : TypeRef := .nonNull (.list (.list (.nonNull (.named "Int"))))

theorem matrix_text :
    matrix.Unmarked ∧ matrix.text = "[[Int!]]!" ∧ isListText matrix.text ∧
      typeNameOfText matrix.text = "Int" := by
  have unmarked : matrix.Unmarked := by decide
  obtain ⟨list, name⟩ := TypeRef.text_faithful unmarked
  exact ⟨unmarked, by decide, list.2 ⟨_, rfl⟩, name⟩

end QueryPlan.Sample
