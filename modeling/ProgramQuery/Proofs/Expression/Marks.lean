import ProgramQuery.Proofs.Query.Printing

/-! Texts of expressions: names of one letter and digits, integers, operators and parentheses, with any
number of spaces between them. No two letters stand side by side in such a text, so neither language
finds a keyword in it and both find the same tokens.
-/

namespace ProgramQuery

open Text

inductive Mark where
  | name (x : String)
  | integer (digits : String)
  | plus
  | minus
  | times
  | opening
  | closing
  deriving DecidableEq

namespace Mark

def token : Mark → Program.Token
  | .name x => ⟨.name, x⟩
  | .integer digits => ⟨.integer, digits⟩
  | .plus => Program.TokenKind.plus.token
  | .minus => Program.TokenKind.minus.token
  | .times => Program.TokenKind.multiply.token
  | .opening => Program.TokenKind.openParenthesis.token
  | .closing => Program.TokenKind.closeParenthesis.token

def chars (m : Mark) : List Char :=
  m.token.text.toList

def isSpelled : Mark → Bool
  | .name x => isSynonym x
  | .integer digits => isNumeral digits
  | _ => true

def runsInto : Mark → Mark → Bool
  | .name _, .name _ => true
  | .name _, .integer _ => true
  | .integer _, .integer _ => true
  | _, _ => false

end Mark

structure Piece where
  gap : Nat
  mark : Mark
  deriving DecidableEq

namespace Piece

def chars (p : Piece) : List Char :=
  List.replicate p.gap ' ' ++ p.mark.chars

def standsApart (before p : Piece) : Bool :=
  p.gap != 0 || !before.mark.runsInto p.mark

end Piece

/-- Pieces that are read as they are written. -/
structure Written (pieces : List Piece) : Prop where
  spelled : ∀ p ∈ pieces, p.mark.isSpelled = true
  apart : pieces.IsChain fun p p' => p.standsApart p' = true

theorem Written.tail {p : Piece} {pieces : List Piece} (written : Written (p :: pieces))
    : Written pieces where
  spelled p' member := written.spelled p' (by simp [member])
  apart := written.apart.tail

def Sparse (cs : List Char) : Prop :=
  cs.IsChain fun c d => ¬ (isLetter c = true ∧ isLetter d = true)

def isWord : List Char → Bool
  | c :: d :: _ => isLetter c && isLetter d
  | _ => false

theorem Sparse.not_prefix {word cs : List Char} (sparse : Sparse cs) (isWord : isWord word = true)
    : ¬ word <+: cs := by
  rintro ⟨rest, rfl⟩
  match word, isWord with
  | c :: d :: more, both =>
    rw [ProgramQuery.isWord, Bool.and_eq_true] at both
    exact (List.isChain_cons_cons.mp sparse).1 both

variable {before : List Char}

theorem Sparse.of_append {cs : List Char} (sparse : Sparse (before ++ cs)) : Sparse cs :=
  sparse.right_of_append

theorem Sparse.append {cs : List Char} (plain : ∀ c ∈ before, isLetter c = false)
    (sparse : Sparse cs)
    : Sparse (before ++ cs) := by
  induction before with
  | nil => exact sparse
  | cons c before ih =>
    have other : isLetter c = false := plain c (by simp)
    refine List.isChain_cons.mpr ⟨fun d _ => ?_, ih fun d member => plain d (by simp [member])⟩
    simp [other]

/-- What comes after an expression: no letter, digit or hash sign, and no keyword. -/
structure Ending (rest : List Char) : Prop where
  stops : ∀ c ∈ rest.head?, Query.isNameChar c = false
  sparse : Sparse rest

def Mark.stopsAt : Mark → Char → Bool
  | .name _, c => !Query.isNameChar c
  | .integer _, c => !isDigit c
  | _, _ => true

def isSign (c : Char) : Bool :=
  ['+', '-', '*', '(', ')'].contains c

theorem isSign_plain {c : Char} (sign : isSign c = true)
    : isBlank c = false ∧ isLetter c = false ∧ isDigit c = false ∧ Query.isNameChar c = false := by
  simp only [isSign, List.contains_cons, List.contains_nil, Bool.or_false, Bool.or_eq_true,
    beq_iff_eq] at sign
  rcases sign with rfl | rfl | rfl | rfl | rfl <;> decide

def Mark.startsWith : Mark → Char → Bool
  | .name _, c => isLetter c
  | .integer _, c => isDigit c
  | _, c => isSign c

theorem Mark.startsWith_quote (m : Mark) : m.startsWith '"' = false := by
  cases m <;> rfl

theorem not_isLetter_of_not_isNameChar {c : Char} (other : Query.isNameChar c = false)
    : isLetter c = false ∧ isDigit c = false := by
  simp only [Query.isNameChar, isLetterOrDigit, Bool.or_eq_false_iff] at other
  exact other.1

section Chars

variable {m : Mark} {p : Piece} {pieces : List Piece} {rest : List Char} {c : Char}

/-- Only digits come after the first character of a mark. -/
theorem Mark.chars_eq (spelled : m.isSpelled = true)
    : ∃ c cs, m.chars = c :: cs ∧ m.startsWith c = true ∧ ∀ d ∈ cs, isDigit d = true := by
  cases m with
  | name x => exact isSynonym_iff.mp spelled
  | integer digits =>
    obtain ⟨c, cs, heading, areDigits⟩ := isNumeral_iff.mp spelled
    exact ⟨c, cs, heading, areDigits c (by simp), fun d member => areDigits d (by simp [member])⟩
  | plus | minus | times | opening | closing => exact ⟨_, [], rfl, by decide, by simp⟩

theorem Mark.not_isBlank_of_startsWith (starts : m.startsWith c = true) : isBlank c = false := by
  cases m with
  | name x => exact not_isBlank_of_isLetterOrDigit (by simp_all [startsWith, isLetterOrDigit])
  | integer digits =>
    exact not_isBlank_of_isLetterOrDigit (by simp_all [startsWith, isLetterOrDigit])
  | plus | minus | times | opening | closing => exact (isSign_plain starts).1

/-- A mark ends where one starts that it does not run into. -/
theorem Mark.stopsAt_of_startsWith {m' : Mark} (apart : m.runsInto m' = false)
    (starts : m'.startsWith c = true)
    : m.stopsAt c = true := by
  cases m with
  | name x =>
    cases m' with
    | name _ | integer _ => cases apart
    | plus | minus | times | opening | closing => simp [stopsAt, (isSign_plain starts).2.2.2]
  | integer digits =>
    cases m' with
    | integer _ => cases apart
    | name _ =>
      have letter : isLetter c = true := starts
      have noDigit : isDigit c = false := by
        rw [Bool.eq_false_iff]
        intro digit
        rw [not_isLetter_of_isDigit digit] at letter
        cases letter
      simp [stopsAt, noDigit]
    | plus | minus | times | opening | closing => simp [stopsAt, (isSign_plain starts).2.2.1]
  | plus | minus | times | opening | closing => rfl

theorem Mark.stopsAt_of_not_isNameChar (other : Query.isNameChar c = false) : m.stopsAt c = true := by
  have noDigit := (not_isLetter_of_not_isNameChar other).2
  cases m <;> simp [stopsAt, other, noDigit]

theorem Piece.head?_chars (spelled : p.mark.isSpelled = true)
    : ∃ c, (p.chars ++ rest).head? = some c
      ∧ (c = ' ' ∧ p.gap ≠ 0 ∨ p.gap = 0 ∧ p.mark.startsWith c = true) := by
  obtain ⟨c, cs, heading, starts, -⟩ := Mark.chars_eq spelled
  cases gap : p.gap with
  | zero => exact ⟨c, by simp [Piece.chars, gap, heading], .inr ⟨rfl, starts⟩⟩
  | succ n => exact ⟨' ', by simp [Piece.chars, gap, List.replicate_succ], .inl ⟨rfl, by simp⟩⟩

theorem Written.stops (written : Written (p :: pieces)) (ending : Ending rest)
    : ∀ c ∈ (pieces.flatMap Piece.chars ++ rest).head?, p.mark.stopsAt c = true := by
  intro c member
  cases pieces with
  | nil => exact Mark.stopsAt_of_not_isNameChar (ending.stops c member)
  | cons next more =>
    rw [List.flatMap_cons, List.append_assoc] at member
    obtain ⟨d, head, kind⟩ := @Piece.head?_chars next (more.flatMap Piece.chars ++ rest)
      (written.spelled next (by simp))
    obtain rfl := Option.some.inj (head.symm.trans member)
    rcases kind with ⟨rfl, -⟩ | ⟨tight, starts⟩
    · exact Mark.stopsAt_of_not_isNameChar (by decide)
    · have apart := (List.isChain_cons_cons.mp written.apart).1
      simp only [Piece.standsApart, tight, bne_self_eq_false, Bool.false_or,
        Bool.not_eq_true'] at apart
      exact Mark.stopsAt_of_startsWith apart starts

theorem Mark.isLetter_of_stopsAt {d : Char} (starts : m.startsWith c = true)
    (stops : m.stopsAt d = true)
    : ¬ (isLetter c = true ∧ isLetter d = true) := by
  rintro ⟨letter, letter'⟩
  cases m with
  | name x => simp_all [stopsAt, Query.isNameChar, isLetterOrDigit]
  | integer digits =>
    rw [not_isLetter_of_isDigit starts] at letter
    cases letter
  | plus | minus | times | opening | closing =>
    rw [(isSign_plain starts).2.1] at letter
    cases letter

theorem Written.sparse (written : Written pieces) (ending : Ending rest)
    : Sparse (pieces.flatMap Piece.chars ++ rest) := by
  induction pieces with
  | nil => exact ending.sparse
  | cons p more ih =>
    obtain ⟨c, ds, heading, starts, digits⟩ := Mark.chars_eq (written.spelled p (by simp))
    have following : Sparse (ds ++ (more.flatMap Piece.chars ++ rest)) := by
      refine .append (fun d member => ?_) (ih written.tail)
      exact not_isLetter_of_isDigit (digits d member)
    rw [List.flatMap_cons, Piece.chars, heading, List.append_assoc, List.append_assoc]
    refine .append ?_ (List.isChain_cons.mpr ⟨fun d member => ?_, following⟩)
    · intro d member
      rw [List.eq_of_mem_replicate member]
      decide
    · cases ds with
      | nil => exact Mark.isLetter_of_stopsAt starts (written.stops ending d member)
      | cons e ds =>
        obtain rfl := Option.some.inj member
        simp [not_isLetter_of_isDigit (digits e (by simp))]

end Chars

section Scanned

variable {m : Mark} {gap rest : List Char}

theorem Mark.chars_solid (spelled : m.isSpelled = true) : ∀ c ∈ m.chars, isBlank c = false := by
  obtain ⟨c, ds, heading, starts, digits⟩ := Mark.chars_eq spelled
  rw [heading]
  refine List.forall_mem_cons.mpr ⟨Mark.not_isBlank_of_startsWith starts, fun d member => ?_⟩
  exact not_isBlank_of_isLetterOrDigit (by simp [isLetterOrDigit, digits d member])

/-- A letter with digits is no keyword. -/
theorem Mark.unmistakable_token (spelled : m.isSpelled = true) : m.token.unmistakable = true := by
  cases m with
  | name x =>
    obtain ⟨c, ds, heading, letter, digits⟩ := isSynonym_iff.mp spelled
    have name : isName x = true :=
      isName_iff.mpr ⟨c, ds, heading, letter, fun d member => by simp [isLetterOrDigit, digits d member]⟩
    refine Program.Token.unmistakable_name name fun kind keyword front => ?_
    have longer : ∀ kind ∈ Program.TokenKind.keywords, kind.spelling.toList.tail ≠ [] := by decide
    obtain ⟨d, member⟩ := List.exists_mem_of_ne_nil _ (longer kind keyword)
    have letter' := Program.TokenKind.keyword_letters keyword d (List.mem_of_mem_tail member)
    have inside := (front.drop 1).subset (List.drop_one ▸ member)
    have digit : isDigit d = true := digits d (by simpa [heading] using inside)
    rw [not_isLetter_of_isDigit digit] at letter'
    cases letter'
  | integer digits =>
    have numeral : isNumeral digits = true := spelled
    simp [Mark.token, Program.Token.unmistakable, Program.Token.wellSpelled, numeral]
  | plus | minus | times | opening | closing => decide

/-- A mark is a token of the program where it stands. -/
theorem Mark.scan_token (spelled : m.isSpelled = true) (blank : ∀ c ∈ gap, isBlank c)
    (stops : ∀ c ∈ rest.head?, m.stopsAt c = true)
    : Program.Token.scan (gap ++ (m.chars ++ rest))
      = some (m.token, (gap ++ m.chars).length, rest) := by
  refine Program.Token.scan_of_unmistakable (Mark.unmistakable_token spelled) blank fun c member => ?_
  have stop := stops c member
  cases m with
  | name x => simp_all [stopsAt, Program.Token.stopsAt, Mark.token, Query.isNameChar]
  | integer digits => exact stop
  | plus | minus | times | opening | closing => rfl

end Scanned

namespace Query

variable {gap cs rest : List Char} {m : Mark} {admitted : TokenKind → Bool}

theorem TokenKind.isWord_or_sign {kind : TokenKind} {text : String}
    (spelled : kind.spelling? = some text)
    : isWord text.toList = true ∨ ∃ d, text.toList = [d] := by
  cases kind
  case relation r => cases r <;> cases spelled <;> exact .inl (by decide)
  all_goals cases spelled
  all_goals first | exact .inl (by decide) | exact .inr ⟨_, rfl⟩

theorem printed_mark (spelled : m.isSpelled = true) : (tokenOf m.token).Printed := by
  cases m with
  | name x => exact .name spelled
  | integer digits => exact .integer spelled
  | plus | minus | times | opening | closing => exact .fixed rfl nofun nofun

/-- A mark is a token of the query where it stands. -/
theorem scan_mark (all : ∀ kind, admitted kind = true)
    (spelled : m.isSpelled = true) (blank : ∀ c ∈ gap, isBlank c)
    (sparse : Sparse (gap ++ (m.chars ++ rest))) (stops : ∀ c ∈ rest.head?, m.stopsAt c = true)
    : Token.scan admitted (gap ++ (m.chars ++ rest))
      = some (⟨(tokenOf m.token).kind, String.ofList (gap ++ m.chars)⟩, rest) := by
  have printed := printed_mark spelled
  have text : (tokenOf m.token).text.toList = m.chars := by cases m <;> rfl
  have taken : (tokenOf m.token).kind.recognise (gap ++ (m.chars ++ rest))
      = some (gap ++ m.chars, rest) := by
    rw [← text]
    refine printed.taken blank ?_ (fun c member => ?_) ?_
    · cases m <;> nofun
    · have stop := stops c member
      cases m <;> exact stop
    · cases m <;> nofun
  obtain ⟨c, ds, heading, starts, -⟩ := Mark.chars_eq spelled
  obtain ⟨-, name, integer⟩ := printed.head_later (text.trans heading)
  have words : (∀ w ∈ attributeWords, isWord w.toList = true)
      ∧ ∀ w ∈ entityWords, isWord w.toList = true := by
    decide
  refine Token.scan_eq_some all taken fun before earlier => ?_
  have fixed (word : String) (own : before.spelling? = some word)
      : ¬ word.toList <+: m.chars ++ rest := by
    rcases TokenKind.isWord_or_sign own with isWord | ⟨d, sign⟩
    · exact sparse.of_append.not_prefix isWord
    · have nothing : Apart [] := by simp [Apart]
      have alone := printed.not_startsWith own earlier nothing
      rw [sign, text, heading] at alone
      rw [sign, heading]
      simpa using alone
  rw [heading] at sparse fixed ⊢
  refine TokenKind.refuses blank (Mark.not_isBlank_of_startsWith starts) fixed
    (fun _ w known => Sparse.not_prefix sparse.tail (words.1 w known))
    (fun _ w known => sparse.of_append.not_prefix (words.2 w known)) (fun _ isQuote => ?_)
    (fun same => name (same ▸ earlier)) fun same => integer (same ▸ earlier)
  rw [isQuote, Mark.startsWith_quote] at starts
  cases starts

theorem attr_refuses_of_sparse (sparse : Sparse cs) : TokenKind.attr.recognise cs = none := by
  have words : ∀ w ∈ attributeWords, isWord w.toList = true := by decide
  exact attr_refuses fun w known => Sparse.not_prefix sparse.tail (words w known)

/-- A quote is read alone if no name with a closing quote comes after it. -/
theorem scan_lone_quote {admitted : TokenKind → Bool} (all : ∀ kind, admitted kind = true)
    (blank : ∀ c ∈ gap, isBlank c) (sparse : Sparse (gap ++ '"' :: rest))
    (lone : ∀ word more, Recogniser.run isLetter isNameChar rest = some (word, more) →
      more.head? ≠ some '"')
    : Token.scan admitted (gap ++ '"' :: rest)
      = some (⟨.quote, String.ofList (gap ++ ['"'])⟩, rest) :=
  Token.scan_lone_quote all blank (attr_refuses_of_sparse sparse) lone

/-- A name is read together with the quotes around it. -/
theorem scan_quotedName (all : ∀ kind, admitted kind = true)
    {x : String} (synonym : isSynonym x = true) (sparse : Sparse ((inQuotes x).toList ++ rest))
    : Token.scan admitted ((inQuotes x).toList ++ rest) = some (⟨.quotedName, inQuotes x⟩, rest) := by
  obtain ⟨c, ds, heading, letter, digits⟩ := isSynonym_iff.mp synonym
  have name : isName x = true :=
    isName_iff.mpr ⟨c, ds, heading, letter, fun d member => by simp [isLetterOrDigit, digits d member]⟩
  have text : (inQuotes x).toList ++ rest = [] ++ '"' :: (x.toList ++ '"' :: rest) := by
    simp [inQuotes]
  rw [text] at sparse ⊢
  have found := Token.scan_quotedName all (by simp) name (attr_refuses_of_sparse sparse)
  simpa using found

end Query

end ProgramQuery
