/-!
# Recognizing a text

A grammar takes a value from the front of a text, or does not fit it.  Where documents are concerned
only the value counts, so that a text that does not fit gives no reason; two grammars can be tried
one after the other with `<|>`.
-/

namespace AchievementLogic

abbrev Grammar := StateT (List Char) Option

namespace Grammar

def peek : Grammar (Option Char) := do
  return (← get).head?

def next : Grammar Char := do
  match ← get with
  | letter :: others => set others; return letter
  | [] => failure

/-- Steps over one character, if `fits` allows that. -/
def accept (fits : Char → Bool) : Grammar Bool := do
  match ← get with
  | letter :: others =>
    if fits letter then set others; return true
    else return false
  | [] => return false

def expect (expected : Char) : Grammar Unit := do
  if (← next) = expected then return () else failure

def word (letters : String) : Grammar Unit := do
  let rest ← get
  let letters := letters.toList
  if letters.isPrefixOf rest then set (rest.drop letters.length) else failure

def span (fits : Char → Bool) : Grammar (List Char) := do
  let rest ← get
  set (rest.dropWhile fits)
  return rest.takeWhile fits

/-- At least one character that `fits` allows, and as many as there are. -/
def spanOfSome (fits : Char → Bool) : Grammar (List Char) := do
  let letters ← span fits
  if letters.isEmpty then failure else return letters

def option (grammar : Grammar α) : Grammar (Option α) :=
  (do return some (← grammar)) <|> return none

def atEnd : Grammar Bool := do
  return (← get).isEmpty

def readAll? (grammar : Grammar α) (text : String) : Option α :=
  match StateT.run grammar text.toList with
  | some (value, []) => some value
  | _ => none

end Grammar

end AchievementLogic
