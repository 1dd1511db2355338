/-! White space, as the scanners of both languages understand it. -/

namespace ProgramQuery.Text

/-- Blanks are the characters that Unicode gives the white-space property, together with the four
separators U+001C to U+001F. -/
def isBlank (c : Char) : Bool :=
  let n := c.toNat
  (0x09 ≤ n && n ≤ 0x0D) || (0x1C ≤ n && n ≤ 0x20) || n == 0x85 || n == 0xA0 || n == 0x1680
    || (0x2000 ≤ n && n ≤ 0x200A) || n == 0x2028 || n == 0x2029 || n == 0x202F || n == 0x205F
    || n == 0x3000

def dropBlanks (cs : List Char) : List Char :=
  cs.dropWhile isBlank

def trim (s : String) : String :=
  String.ofList (dropBlanks (dropBlanks s.toList).reverse).reverse

def without (c : Char) (s : String) : String :=
  String.ofList (s.toList.filter (· != c))

/-- The text broken at each occurrence of one character; there is one part more than there are
occurrences. -/
def splitAt (c : Char) (s : String) : List String :=
  let rec go : List Char → List Char → List String
    | part, [] => [String.ofList part.reverse]
    | part, x :: rest =>
      if x == c then String.ofList part.reverse :: go [] rest else go (x :: part) rest
  go [] s.toList

/-- Whether a text occurs somewhere in another one. -/
def occursIn (needle hay : String) : Bool :=
  let rec go (n : List Char) : List Char → Bool
    | [] => n.isEmpty
    | c :: rest => n.isPrefixOf (c :: rest) || go n rest
  go needle.toList hay.toList

end ProgramQuery.Text
