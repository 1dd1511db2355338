import ProgramQuery.Text.Hidden

/-! Text in quotes, as tables are displayed. -/

namespace ProgramQuery.Text

/-- Hexadecimal digits in small letters, filled up with zeros to at least `width` places. -/
def hexDigits (width n : Nat) : List Char :=
  let digits := Nat.toDigits 16 n
  List.replicate (width - digits.length) '0' ++ digits

def escapeChar (quote c : Char) : List Char :=
  if c == '\\' then ['\\', '\\']
  else if c == quote then ['\\', quote]
  else if c == '\n' then ['\\', 'n']
  else if c == '\r' then ['\\', 'r']
  else if c == '\t' then ['\\', 't']
  else if isHidden c then
    let n := c.toNat
    if n ≤ 0xFF then '\\' :: 'x' :: hexDigits 2 n
    else if n ≤ 0xFFFF then '\\' :: 'u' :: hexDigits 4 n
    else '\\' :: 'U' :: hexDigits 8 n
  else [c]

/-- Single quotes, unless the text holds a single quote and no double one. -/
def quoteFor (s : String) : Char :=
  if s.toList.contains '\'' && !s.toList.contains '"' then '"' else '\''

def quoted (s : String) : String :=
  let q := quoteFor s
  String.ofList (q :: s.toList.flatMap (escapeChar q) ++ [q])

end ProgramQuery.Text
