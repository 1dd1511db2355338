import ProgramQuery.Text.Blank

/-! Recognisers: a lexeme is cut off the front of the input, or the input is refused. -/

namespace ProgramQuery.Text

/-- A recogniser splits off a lexeme from the front of the input and leaves the rest. -/
abbrev Recogniser := List Char → Option (List Char × List Char)

namespace Recogniser

def literal (word : List Char) : Recogniser :=
  fun cs => if word.isPrefixOf cs then some (word, cs.drop word.length) else none

/-- One character of the first class and then as many of the second as there are. -/
def run (first more : Char → Bool) : Recogniser
  | [] => none
  | c :: cs => if first c then some (c :: cs.takeWhile more, cs.dropWhile more) else none

def one (p : Char → Bool) : Recogniser
  | [] => none
  | c :: cs => if p c then some ([c], cs) else none

def seq (first second : Recogniser) : Recogniser := fun cs =>
  match first cs with
  | none => none
  | some (a, rest) =>
    match second rest with
    | none => none
    | some (b, rest') => some (a ++ b, rest')

def firstOf (choices : List Recogniser) : Recogniser :=
  fun cs => choices.findSome? (· cs)

/-- Blanks in front of the lexeme belong to it. -/
def spaced (r : Recogniser) : Recogniser := fun cs =>
  match r (dropBlanks cs) with
  | none => none
  | some (a, rest) => some (cs.takeWhile isBlank ++ a, rest)

/-- Blanks and then the given word. -/
def word (w : String) : Recogniser :=
  spaced (literal w.toList)

end Recogniser

def isLetter (c : Char) : Bool :=
  ('a' ≤ c && c ≤ 'z') || ('A' ≤ c && c ≤ 'Z')

def isDigit (c : Char) : Bool :=
  '0' ≤ c && c ≤ '9'

def isLetterOrDigit (c : Char) : Bool :=
  isLetter c || isDigit c

end ProgramQuery.Text
