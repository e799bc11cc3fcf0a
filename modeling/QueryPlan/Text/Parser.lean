namespace QueryPlan.Text

/-- A parser takes a value off the front of a list of symbols. -/
abbrev Parser (σ α : Type) := StateT (List σ) Option α

namespace Parser

variable {σ α β : Type}

def fail : Parser σ α := failure

/-- The next symbol, not taken. -/
def peek? : Parser σ (Option σ) := fun input => some (input.head?, input)

/-- The next symbol, taken if it is in `p`. -/
def satisfy (p : σ → Bool) : Parser σ σ
  | [] => none
  | c :: rest => if p c then some (c, rest) else none

def symbol [DecidableEq σ] (c : σ) : Parser σ Unit := do
  let _ ← satisfy (· == c)

/-- Takes the next symbol if it is `c`, and says whether it was. -/
def symbol? [DecidableEq σ] (c : σ) : Parser σ Bool
  | [] => some (false, [])
  | d :: rest => if d = c then some (true, rest) else some (false, d :: rest)

/-- The longest front of symbols in `p`. -/
def takeWhile (p : σ → Bool) : Parser σ (List σ) := fun input =>
  some (input.takeWhile p, input.dropWhile p)

/-- `item` for as long as the next symbol is in `p`; each run of `item` takes a symbol, so the
length of the input bounds the number of runs. -/
def manyWhile (p : σ → Bool) (item : Parser σ α) : Parser σ (List α) := fun input =>
  go (input.length + 1) input
where
  go : Nat → Parser σ (List α)
    | 0 => fail
    | fuel + 1 => fun input =>
      match input with
      | [] => some ([], [])
      | c :: rest =>
        if p c then do
          let (x, input) ← item (c :: rest)
          let (xs, input) ← go fuel input
          return (x :: xs, input)
        else some ([], c :: rest)

/-- `item`s up to the symbol `closing`, which is taken as well. -/
def manyUntil [DecidableEq σ] (closing : σ) (item : Parser σ α) : Parser σ (List α) := do
  let xs ← manyWhile (· != closing) item
  symbol closing
  return xs

/-- As `manyUntil`, with one item at least. -/
def many1Until [DecidableEq σ] (closing : σ) (item : Parser σ α) : Parser σ (List α) := do
  let x ← item
  let xs ← manyUntil closing item
  return x :: xs

/-- `item`, and again after each `separator`. -/
def sepBy1 [DecidableEq σ] (separator : σ) (item : Parser σ α) : Parser σ (List α) := do
  let first ← item
  let rest ← manyWhile (· == separator) do
    symbol separator
    item
  return first :: rest

/-- The value of `p` when it takes the whole of `input`. -/
def run (p : Parser σ α) (input : List σ) : Option α := do
  let (x, rest) ← p input
  if rest.isEmpty then some x else none

end Parser

end QueryPlan.Text
