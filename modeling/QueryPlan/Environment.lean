namespace QueryPlan.Environment

/-- The state of reading a value: what is quoted, and whether only blanks may follow. -/
inductive Mode where
  | bare | single | double | ended

/-- A value with its quotes and escapes taken away; after a blank only a comment may follow. -/
def value (mode : Mode) : List Char → Option (List Char)
  | [] =>
    match mode with
    | .bare | .ended => some []
    | .single | .double => none
  | c :: cs =>
    match mode with
    | .ended =>
      if c == ' ' || c == '\t' then value .ended cs
      else if c == '#' then some []
      else none
    | .single => if c == '\'' then value .bare cs else (value .single cs).map (c :: ·)
    | .bare =>
      if c == '\'' then value .single cs
      else if c == '"' then value .double cs
      else if c == ' ' || c == '\t' then value .ended cs
      else if c == '\\' then escaped .bare cs
      else (value .bare cs).map (c :: ·)
    | .double =>
      if c == '"' then value .bare cs
      else if c == '\\' then escaped .double cs
      else (value .double cs).map (c :: ·)
where
  escaped (mode : Mode) : List Char → Option (List Char)
    | [] => none
    | c :: cs =>
      if c == 'n' then (value mode cs).map ('\n' :: ·)
      else if ['\\', '\'', '"', '$', ' '].contains c then (value mode cs).map (c :: ·)
      else none

def skipBlanks (cs : List Char) : List Char := cs.dropWhile fun c => c == ' ' || c == '\t'

def isNamePart (c : Char) : Bool := c.isAlphanum || c == '_' || c == '.'

/-- A name, an equals sign and a value. -/
def assignment (cs : List Char) : Option (String × String) := do
  unless cs.head?.any fun c => c.isAlpha || c == '_' do none
  match skipBlanks (cs.dropWhile isNamePart) with
  | '=' :: rest =>
    let rest := skipBlanks rest
    let text ← if rest.head? == some '#' then some [] else value .bare rest
    return (String.ofList (cs.takeWhile isNamePart), String.ofList text)
  | _ => none

/-- The assignment of a line, `none` if it has none and is no comment. `export` may come first. -/
def line (cs : List Char) : Option (Option (String × String)) :=
  let cs := skipBlanks cs
  if cs.isEmpty || cs.head? == some '#' then some none
  else
    match assignment cs with
    | some a => some (some a)
    | none =>
      if cs.takeWhile isNamePart == "export".toList then
        (assignment (skipBlanks (cs.dropWhile isNamePart))).map some
      else none

/-- The assignments of the lines up to the first one that cannot be read. -/
def assignments : List (List Char) → List (String × String)
  | [] => []
  | l :: ls =>
    match line l with
    | some (some a) => a :: assignments ls
    | some none => assignments ls
    | none => []

/-- The variables of `base`, and those that a file assigns and `base` does not have. -/
def withFile (base : String → Option String) (contents : Except String String) :
    String → Option String := fun name =>
  match base name, contents with
  | some value, _ => some value
  | none, .ok text =>
    let lines := (text.toList.splitOn '\n').map fun l =>
      if l.getLast? == some '\r' then l.dropLast else l
    (assignments lines).lookup name
  | none, .error _ => none

end QueryPlan.Environment
