import Federation.Grammar.Token

/-!
Readers take what they read from the front of a list of tokens. One token of lookahead decides every
choice, so a reader that fails makes the whole reading fail. Repetitions are bounded by the number of
tokens that are left, since each round takes at least one.
-/

namespace Federation.Grammar

/-- Reads an `α` and leaves the tokens after it, or fails. -/
abbrev Reader := StateT (List Token) Option

namespace Reader

variable {α : Type}

def token : Reader Token := fun
  | [] => none
  | t :: rest => some (t, rest)

def expect (t : Token) : Reader Unit := fun
  | [] => none
  | t' :: rest => if t' = t then some ((), rest) else none

/-- Takes the token if it is next, and says whether it was. -/
def accept (t : Token) : Reader Bool := fun
  | [] => some (false, [])
  | t' :: rest => if t' = t then some (true, rest) else some (false, t' :: rest)

def mark (c : Char) : Reader Unit := expect (.mark c)

def acceptMark (c : Char) : Reader Bool := accept (.mark c)

def keyword (s : String) : Reader Unit := expect (.name s)

def acceptKeyword (s : String) : Reader Bool := accept (.name s)

def name : Reader String := fun
  | .name s :: rest => some (s, rest)
  | _ => none

def name? : Reader (Option String) := fun
  | .name s :: rest => some (some s, rest)
  | ts => some (none, ts)

def string? : Reader (Option String) := fun
  | .string s :: rest => some (some s, rest)
  | ts => some (none, ts)

/-- Whether the token is next. Nothing is taken. -/
def isNext (t : Token) : Reader Bool := fun ts => some (ts.head? = some t, ts)

def itemsUntil (close : Char) (item : Reader α) : Nat → Reader (List α)
  | 0 => failure
  | bound + 1 => do
    if ← acceptMark close then return []
    else return (← item) :: (← itemsUntil close item bound)

def upTo (close : Char) (item : Reader α) : Reader (List α) := do
  itemsUntil close item (← get).length

/-- At least one item up to a closing mark. -/
def someUpTo (close : Char) (item : Reader α) : Reader (List α) := do
  let items ← upTo close item
  guard !items.isEmpty
  return items

def between (opening closing : Char) (item : Reader α) : Reader (List α) := do
  mark opening
  upTo closing item

/-- Items between two marks, or none where the opening mark is absent. -/
def optionalBetween (opening closing : Char) (item : Reader α) : Reader (List α) := do
  if ← acceptMark opening then upTo closing item else return []

/-- At least one item between two marks, or none where the opening mark is absent. -/
def optionalSomeBetween (opening closing : Char) (item : Reader α) : Reader (List α) := do
  if ← acceptMark opening then someUpTo closing item else return []

def itemsWhile (start : Token) (item : Reader α) : Nat → Reader (List α)
  | 0 => return []
  | bound + 1 => do
    if ← isNext start then return (← item) :: (← itemsWhile start item bound)
    else return []

/-- Items for as long as the next token starts one. -/
def whileNext (start : Token) (item : Reader α) : Reader (List α) := do
  itemsWhile start item (← get).length

def itemsAfter (separator : Char) (item : Reader α) : Nat → Reader (List α)
  | 0 => return []
  | bound + 1 => do
    if ← acceptMark separator then return (← item) :: (← itemsAfter separator item bound)
    else return []

/-- Items with a mark between each two, and perhaps one before the first. -/
def separated (separator : Char) (item : Reader α) : Reader (List α) := do
  discard (acceptMark separator)
  let first ← item
  return first :: (← itemsAfter separator item (← get).length)

def itemsToEnd (item : Reader α) : Nat → Reader (List α)
  | 0 => return []
  | bound + 1 => do
    if (← get).isEmpty then return []
    else return (← item) :: (← itemsToEnd item bound)

/-- Items to the end of the text, at least one. -/
def someToEnd (item : Reader α) : Reader (List α) := do
  let items ← itemsToEnd item (← get).length
  guard !items.isEmpty
  return items

def read? (reader : Reader α) (text : String) : Option α := do
  let tokens ← Token.scan text.toList
  let (result, rest) ← reader tokens
  guard rest.isEmpty
  return result

end Reader

end Federation.Grammar
