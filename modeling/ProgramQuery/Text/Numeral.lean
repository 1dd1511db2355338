import ProgramQuery.Text.Blank
import ProgramQuery.Text.Range

/-! Reading whole numbers from text and writing them in decimal. -/

namespace ProgramQuery.Text

/-- The zeros of the decimal digit rows of Unicode; each row holds ten digits in a run. -/
def decimalZeros : List Nat :=
  [0x30, 0x660, 0x6F0, 0x7C0, 0x966, 0x9E6, 0xA66, 0xAE6, 0xB66, 0xBE6, 0xC66, 0xCE6, 0xD66,
    0xDE6, 0xE50, 0xED0, 0xF20, 0x1040, 0x1090, 0x17E0, 0x1810, 0x1946, 0x19D0, 0x1A80, 0x1A90,
    0x1B50, 0x1BB0, 0x1C40, 0x1C50, 0xA620, 0xA8D0, 0xA900, 0xA9D0, 0xA9F0, 0xAA50, 0xABF0,
    0xFF10, 0x104A0, 0x10D30, 0x11066, 0x110F0, 0x11136, 0x111D0, 0x112F0, 0x11450, 0x114D0,
    0x11650, 0x116C0, 0x11730, 0x118E0, 0x11950, 0x11C50, 0x11D50, 0x11DA0, 0x16A60, 0x16AC0,
    0x16B50, 0x1D7CE, 0x1D7D8, 0x1D7E2, 0x1D7EC, 0x1D7F6, 0x1E140, 0x1E2F0, 0x1E950, 0x1FBF0]

/-- Characters that stand for a digit without belonging to a decimal row: superscripts,
subscripts, circled digits and the like. -/
def looseDigits : List (Nat × Nat) :=
  [(0xB2, 0xB3), (0xB9, 0xB9), (0x1369, 0x1371), (0x19DA, 0x19DA), (0x2070, 0x2070),
    (0x2074, 0x2079), (0x2080, 0x2089), (0x2460, 0x2468), (0x2474, 0x247C), (0x2488, 0x2490),
    (0x24EA, 0x24EA), (0x24F5, 0x24FD), (0x24FF, 0x24FF), (0x2776, 0x277E), (0x2780, 0x2788),
    (0x278A, 0x2792), (0x10A40, 0x10A43), (0x10E60, 0x10E68), (0x11052, 0x1105A),
    (0x1F100, 0x1F10A)]

def digitValue? (c : Char) : Option Nat :=
  (decimalZeros.find? fun low => low ≤ c.toNat && c.toNat < low + 10).map (c.toNat - ·)

/-- A text of one or more digits, decimal or loose. -/
def isDigits (s : String) : Bool :=
  !s.isEmpty && s.toList.all fun c =>
    (digitValue? c).isSome || inRanges looseDigits c.toNat

/-- Reads decimal digits onto `value`, after `count` others; single underscores may stand between two
digits. Gives the value, the number of digits and what comes after them. -/
def readDigits : List Char → Nat → Nat → Nat × Nat × List Char
  | '_' :: c :: rest, value, count =>
    match digitValue? c with
    | some d => readDigits rest (10 * value + d) (count + 1)
    | none => (value, count, '_' :: c :: rest)
  | c :: rest, value, count =>
    match digitValue? c with
    | some d => readDigits rest (10 * value + d) (count + 1)
    | none => (value, count, c :: rest)
  | [], value, count => (value, count, [])

/-- The most digits that a numeral may have, leading zeros included. -/
def mostDigits : Nat := 4300

inductive NumeralFault where
  /-- The text is not written like a number. -/
  | misspelt
  /-- The text has more digits than are read. -/
  | tooLong (digits : Nat)
  deriving DecidableEq, Repr

/-- Reads a number without a sign. The number of digits is looked at before what comes after
them. -/
def readNat : List Char → Except NumeralFault Nat
  | [] => .error .misspelt
  | c :: rest =>
    match digitValue? c with
    | none => .error .misspelt
    | some d =>
      let (value, count, left) := readDigits rest d 1
      if count > mostDigits then .error (.tooLong count)
      else if left.isEmpty then .ok value
      else .error .misspelt

/-- The blanks that may stand around a numeral are those around any text, but not the separators
U+001C to U+001F. -/
def isNumeralBlank (c : Char) : Bool :=
  isBlank c && !(0x1C ≤ c.toNat && c.toNat ≤ 0x1F)

/-- Reads a whole number: blanks around it, a sign in front and leading zeros are allowed. -/
def readNumeral (s : String) : Except NumeralFault Int :=
  let bare := ((s.toList.dropWhile isNumeralBlank).reverse.dropWhile isNumeralBlank).reverse
  match bare with
  | '-' :: rest => (readNat rest).map fun n => -(n : Int)
  | '+' :: rest => (readNat rest).map Int.ofNat
  | rest => (readNat rest).map Int.ofNat

def readInt? (s : String) : Option Int :=
  (readNumeral s).toOption

/-- Decimal digits, with a minus sign in front of a negative number. -/
def showInt (n : Int) : String :=
  match n with
  | .ofNat k => String.ofList (Nat.toDigits 10 k)
  | .negSucc k => String.ofList ('-' :: Nat.toDigits 10 (k + 1))

end ProgramQuery.Text
