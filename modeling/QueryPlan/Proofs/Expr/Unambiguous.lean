import QueryPlan.Proofs.Expr.Words

namespace QueryPlan

namespace Expr

/-- Calls of functions that may be called, nested in any way, over null, truth values, integers and
strings of any characters. -/
inductive Legible : Expr → Prop where
  | bare {v : Json} (h : v.Bare) : Legible (.literal v)
  | quoted {s : String} (other : s ≠ "*") : Legible (.literal (.str s))
  | call {function : String} {args : List Expr} (accepted : isFunctionName function)
      (h : ∀ a ∈ args, Legible a) : Legible (.call function args)

theorem texts_eq_map (es : List Expr) : texts es = es.map text := by
  induction es with
  | nil => rfl
  | cons e es ih => rw [texts, ih, List.map_cons]

/-- The arguments of a call after its first one. -/
def followingText (args : List Expr) : List Char :=
  args.flatMap fun a => ',' :: ' ' :: a.text.toList

/-- What stands in the parentheses of a call. -/
def argumentsText : List Expr → List Char
  | [] => []
  | a :: args => a.text.toList ++ followingText args

theorem toList_intercalate_texts (args : List Expr) :
    (String.intercalate ", " (texts args)).toList = argumentsText args := by
  rw [texts_eq_map, String.toList_intercalate, List.map_map]
  cases args with
  | nil => rfl
  | cons a args =>
    induction args generalizing a with
    | nil => simp [argumentsText, followingText]
    | cons b args ih =>
      rw [List.map_cons, List.map_cons, List.intercalate_cons_cons, ← List.map_cons, ih]
      simp [argumentsText, followingText]

theorem text_call (function : String) (args : List Expr) :
    (call function args).text.toList =
      function.toList ++ '(' :: (argumentsText args ++ [')']) := by
  rw [text, String.toList_append, String.toList_append, String.toList_append,
    toList_intercalate_texts, List.append_assoc, List.append_assoc]
  rfl

theorem text_quoted {s : String} (other : s ≠ "*") :
    (literal (.str s)).text.toList = '\'' :: (s.toList.flatMap doubled ++ ['\'']) := by
  rw [text, literalText, if_neg other]
  change ("'" ++ String.ofList (s.toList.flatMap doubled) ++ "'").toList = _
  simp

variable {e e' : Expr} {word word' tail tail' rest rest' : List Char}

/-- The text of an expression and the `rest` after it, as a word and what stands behind the word. -/
inductive Cut (rest : List Char) : Expr → List Char → List Char → Prop where
  | bare {v : Json} (h : v.Bare) : Cut rest (.literal v) (literalText v).toList rest
  | quoted {s : String} (other : s ≠ "*") :
      Cut rest (.literal (.str s)) [] ('\'' :: (s.toList.flatMap doubled ++ '\'' :: rest))
  | call {function : String} {args : List Expr} (accepted : isFunctionName function)
      (h : ∀ a ∈ args, a.Legible) :
      Cut rest (.call function args) function.toList ('(' :: (argumentsText args ++ ')' :: rest))

theorem Legible.cut (h : e.Legible) (rest : List Char) : ∃ word tail, Cut rest e word tail := by
  cases h with
  | bare h => exact ⟨_, _, .bare h⟩
  | quoted other => exact ⟨_, _, .quoted other⟩
  | call accepted h => exact ⟨_, _, .call accepted h⟩

namespace Cut

theorem text_append (h : Cut rest e word tail) : e.text.toList ++ rest = word ++ tail := by
  cases h with
  | bare h => rw [text]
  | quoted other => simp [text_quoted other]
  | call accepted h => simp [text_call]

theorem isWord (h : Cut rest e word tail) : IsWord word := by
  cases h with
  | bare h => exact h.isWord_literalText
  | quoted other => exact List.forall_mem_nil _
  | call accepted h => exact (isWord_function accepted).1

theorem atMark (h : Cut rest e word tail) (ends : Ends rest) : AtMark tail := by
  cases h with
  | bare h => exact ends.atMark
  | quoted other => simp [AtMark, isMark]
  | call accepted h => simp [AtMark, isMark]

theorem inj (h : Cut rest e word tail) (h' : Cut rest' e' word' tail') (ends : Ends rest)
    (ends' : Ends rest') (same : e.text.toList ++ rest = e'.text.toList ++ rest') :
    word = word' ∧ tail = tail' := by
  rw [h.text_append, h'.text_append] at same
  exact word_append_inj h.isWord h'.isWord (h.atMark ends) (h'.atMark ends') same

end Cut

theorem Legible.text_append_ne (legible : e.Legible) :
    e.text.toList ++ rest ≠ ')' :: rest' := by
  obtain ⟨word, tail, cut⟩ := legible.cut rest
  rw [cut.text_append]
  cases cut with
  | bare bare => exact word_append_ne bare.isWord_literalText bare.literalText_ne_nil
  | quoted other => nofun
  | call accepted h =>
    obtain ⟨word, some⟩ := isWord_function accepted
    exact word_append_ne word some

/-- The text of `e` is that of no other expression, whatever follows the one and the other. -/
def SelfDelimiting (e : Expr) : Prop :=
  ∀ ⦃e' : Expr⦄, e'.Legible → ∀ ⦃rest rest' : List Char⦄, Ends rest → Ends rest' →
    e.text.toList ++ rest = e'.text.toList ++ rest' → e = e' ∧ rest = rest'

theorem bare_selfDelimiting {v : Json} (bare : v.Bare) : (literal v).SelfDelimiting := by
  intro e' h' rest rest' ends ends' same
  obtain ⟨word', tail', cut⟩ := h'.cut rest'
  obtain ⟨words, tails⟩ := Cut.inj (.bare bare) cut ends ends' same
  -- The other two kinds have a quote or a parenthesis behind the word, with which no rest starts.
  cases cut with
  | bare bare' =>
    obtain rfl := bare.literalText_inj bare' (String.toList_inj.1 words)
    exact ⟨rfl, tails⟩
  | quoted =>
    subst tails
    cases ends
  | call =>
    subst tails
    cases ends

theorem quoted_selfDelimiting {s : String} (other : s ≠ "*") :
    (literal (.str s)).SelfDelimiting := by
  intro e' h' rest rest' ends ends' same
  obtain ⟨word', tail', cut⟩ := h'.cut rest'
  obtain ⟨-, tails⟩ := Cut.inj (.quoted other) cut ends ends' same
  cases cut with
  | bare =>
    subst tails
    cases ends'
  | quoted =>
    obtain ⟨strings, rests⟩ := doubled_append_inj ends ends' (List.tail_eq_of_cons_eq tails)
    obtain rfl := String.toList_inj.1 strings
    exact ⟨rfl, rests⟩
  | call => cases tails

variable {args args' : List Expr}

theorem followingText_cons (a : Expr) (args : List Expr) (rest : List Char) :
    followingText (a :: args) ++ rest =
      ',' :: ' ' :: (a.text.toList ++ (followingText args ++ rest)) := by
  simp [followingText]

theorem ends_followingText (args : List Expr) (rest : List Char) :
    Ends (followingText args ++ ')' :: rest) := by
  cases args with
  | nil => exact .closing rest
  | cons a args =>
    rw [followingText_cons]
    exact .comma _

theorem followingText_append_inj (each : ∀ a ∈ args, a.SelfDelimiting)
    (legible' : ∀ a ∈ args', a.Legible)
    (same : followingText args ++ ')' :: rest = followingText args' ++ ')' :: rest') :
    args = args' ∧ rest = rest' := by
  induction args generalizing args' with
  | nil =>
    cases args' with
    | nil => exact ⟨rfl, List.tail_eq_of_cons_eq same⟩
    | cons a' args' => cases same
  | cons a args ih =>
    cases args' with
    | nil => cases same
    | cons a' args' =>
      obtain ⟨first, others⟩ := List.forall_mem_cons.1 each
      obtain ⟨first', others'⟩ := List.forall_mem_cons.1 legible'
      rw [followingText_cons, followingText_cons, List.cons_inj_right, List.cons_inj_right] at same
      obtain ⟨rfl, following⟩ := first first' (ends_followingText _ _) (ends_followingText _ _) same
      obtain ⟨rfl, rests⟩ := ih others others' following
      exact ⟨rfl, rests⟩

/-- An argument has some text, and none that closes the call: a call with arguments is not taken for
one without. -/
theorem argumentsText_append_inj (each : ∀ a ∈ args, a.SelfDelimiting)
    (legible : ∀ a ∈ args, a.Legible) (legible' : ∀ a ∈ args', a.Legible)
    (same : argumentsText args ++ ')' :: rest = argumentsText args' ++ ')' :: rest') :
    args = args' ∧ rest = rest' := by
  cases args with
  | nil =>
    cases args' with
    | nil => exact ⟨rfl, List.tail_eq_of_cons_eq same⟩
    | cons a' args' =>
      rw [argumentsText, argumentsText, List.append_assoc] at same
      cases (legible' a' List.mem_cons_self).text_append_ne same.symm
  | cons a args =>
    cases args' with
    | nil =>
      rw [argumentsText, argumentsText, List.append_assoc] at same
      cases (legible a List.mem_cons_self).text_append_ne same
    | cons a' args' =>
      obtain ⟨first, others⟩ := List.forall_mem_cons.1 each
      obtain ⟨first', others'⟩ := List.forall_mem_cons.1 legible'
      rw [argumentsText, argumentsText, List.append_assoc, List.append_assoc] at same
      obtain ⟨rfl, following⟩ := first first' (ends_followingText _ _) (ends_followingText _ _) same
      obtain ⟨rfl, rests⟩ := followingText_append_inj others others' following
      exact ⟨rfl, rests⟩

theorem call_selfDelimiting {function : String} (accepted : isFunctionName function)
    (legible : ∀ a ∈ args, a.Legible) (each : ∀ a ∈ args, a.SelfDelimiting) :
    (call function args).SelfDelimiting := by
  intro e' h' rest rest' ends ends' same
  obtain ⟨word', tail', cut⟩ := h'.cut rest'
  obtain ⟨words, tails⟩ := Cut.inj (.call accepted legible) cut ends ends' same
  cases cut with
  | bare =>
    subst tails
    cases ends'
  | quoted => cases tails
  | call accepted' legible' =>
    obtain rfl := String.toList_inj.1 words
    obtain ⟨rfl, rests⟩ :=
      argumentsText_append_inj each legible legible' (List.tail_eq_of_cons_eq tails)
    exact ⟨rfl, rests⟩

theorem Legible.selfDelimiting (h : e.Legible) : e.SelfDelimiting := by
  induction h with
  | bare bare => exact bare_selfDelimiting bare
  | quoted other => exact quoted_selfDelimiting other
  | call accepted legible ih => exact call_selfDelimiting accepted legible ih

/-- Expressions with the same text are the same: a string stays within its quotes, however it
imitates quotes, commas and calls. -/
theorem text_inj (h : e.Legible) (h' : e'.Legible) : e.text = e'.text ↔ e = e' := by
  constructor
  · intro same
    have texts : e.text.toList ++ [] = e'.text.toList ++ [] := by rw [same]
    exact (h.selfDelimiting h' .nothing .nothing texts).1
  · rintro rfl
    rfl

end Expr

namespace Sample

def initials : Expr :=
  .call "CONCAT" [.call "LEFT" [.literal (.str "a")], .call "LEFT" [.literal (.str "b")]]

/-- One string in the place of two calls, which would be read like them if no quote were doubled. -/
def imitation : Expr := .call "CONCAT" [.call "LEFT" [.literal (.str "a'), LEFT('b")]]

theorem imitation_text :
    initials.Legible ∧ imitation.Legible ∧ initials.text = "CONCAT(LEFT('a'), LEFT('b'))" ∧
      imitation.text = "CONCAT(LEFT('a''), LEFT(''b'))" ∧ initials.text ≠ imitation.text := by
  have left {s : String} (other : s ≠ "*") : (Expr.call "LEFT" [.literal (.str s)]).Legible :=
    .call rfl (List.forall_mem_singleton.2 (.quoted other))
  have both : ∀ a ∈ [Expr.call "LEFT" [.literal (.str "a")], .call "LEFT" [.literal (.str "b")]],
      a.Legible :=
    List.forall_mem_cons.2 ⟨left (by decide), List.forall_mem_singleton.2 (left (by decide))⟩
  have two : initials.Legible := .call rfl both
  have one : imitation.Legible := .call rfl (List.forall_mem_singleton.2 (left (by decide)))
  have differ : initials ≠ imitation := by simp [initials, imitation]
  have apart : initials.text ≠ imitation.text := fun same =>
    differ ((Expr.text_inj two one).1 same)
  exact ⟨two, one, rfl, rfl, apart⟩

end Sample

/-- A column has the text it is called by, which may be that of a call. -/
example : (Expr.column none "NOW()").text = (Expr.call "NOW" []).text := rfl

end QueryPlan
