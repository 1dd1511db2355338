import Mathlib
import ProgramQuery.Program.Token
import ProgramQuery.Proofs.Lists
import ProgramQuery.Proofs.Text.Numerals

/-! Tokens and the texts they are read from. Every token that is read is spelled as its kind demands,
and a token that is spelled so is read back wherever the text cannot go on with it.
-/

namespace ProgramQuery

open Text

def isSynonym (x : String) : Bool :=
  match x.toList with
  | [] => false
  | c :: ds => isLetter c && ds.all isDigit

theorem isSynonym_iff {x : String}
    : isSynonym x = true ↔ ∃ c ds, x.toList = c :: ds ∧ isLetter c ∧ ∀ d ∈ ds, isDigit d := by
  unfold isSynonym
  cases x.toList <;> simp

end ProgramQuery

namespace ProgramQuery.Text

def isName (s : String) : Bool :=
  match s.toList with
  | [] => false
  | c :: cs => isLetter c && cs.all isLetterOrDigit

def isNumeral (s : String) : Bool :=
  !s.toList.isEmpty && s.toList.all isDigit

variable {s : String}

theorem isName_iff
    : isName s = true ↔ ∃ c cs, s.toList = c :: cs ∧ isLetter c ∧ ∀ d ∈ cs, isLetterOrDigit d := by
  unfold isName
  cases s.toList <;> simp

theorem isNumeral_iff
    : isNumeral s = true ↔ ∃ c cs, s.toList = c :: cs ∧ ∀ d ∈ c :: cs, isDigit d := by
  unfold isNumeral
  cases s.toList <;> simp

/-- The numeral of a statement is no name. -/
theorem isName_ne_showInt (name : isName s = true) (n : Nat) : s ≠ showInt n := by
  obtain ⟨c, cs, heading, letter, _⟩ := isName_iff.mp name
  exact ne_showInt_of_isLetter heading letter n

theorem toNat_of_decimal {c : Char} (digit : isDigit c) : 0x30 ≤ c.toNat ∧ c.toNat ≤ 0x39 := by
  simp only [isDigit, Bool.and_eq_true, decide_eq_true_eq, Char.le_def,
    UInt32.le_iff_toNat_le] at digit
  exact digit

theorem toNat_of_isLetterOrDigit {c : Char} (plain : isLetterOrDigit c)
    : 0x30 ≤ c.toNat ∧ c.toNat ≤ 0x7A := by
  simp only [isLetterOrDigit, Bool.or_eq_true] at plain
  rcases plain with letter | digit
  · have := toNat_of_isLetter letter
    omega
  · have := toNat_of_decimal digit
    omega

theorem not_isLetter_of_isDigit {c : Char} (digit : isDigit c) : isLetter c = false := by
  rw [Bool.eq_false_iff]
  intro letter
  have := toNat_of_isLetter letter
  have := toNat_of_decimal digit
  omega

theorem isBlank_eq_false {c : Char} (low : 0x21 ≤ c.toNat) (high : c.toNat ≤ 0x7E)
    : isBlank c = false := by
  simp only [isBlank, Bool.or_eq_false_iff, Bool.and_eq_false_iff, decide_eq_false_iff_not,
    beq_eq_false_iff_ne]
  omega

theorem not_isBlank_of_isLetterOrDigit {c : Char} (plain : isLetterOrDigit c)
    : isBlank c = false := by
  obtain ⟨low, high⟩ := toNat_of_isLetterOrDigit plain
  exact isBlank_eq_false (by omega) (by omega)

theorem takeWhile_isBlank_append {gap word : List Char} (blank : ∀ c ∈ gap, isBlank c)
    (solid : ∀ c ∈ word.head?, isBlank c = false)
    : (gap ++ word).takeWhile isBlank = gap := by
  rw [List.takeWhile_append_of_pos blank]
  cases word with
  | nil => simp
  | cons c cs => simp [solid c (by simp)]

theorem dropBlanks_append {gap word : List Char} (blank : ∀ c ∈ gap, isBlank c)
    (solid : ∀ c ∈ word.head?, isBlank c = false)
    : dropBlanks (gap ++ word) = word := by
  rw [dropBlanks, List.dropWhile_append_of_pos blank]
  cases word with
  | nil => simp
  | cons c cs => simp [solid c (by simp)]

/-- The blanks in front of a word are cut off, and nothing else where the word holds none. -/
theorem trim_append {gap word : List Char} (blank : ∀ c ∈ gap, isBlank c)
    (solid : ∀ c ∈ word, isBlank c = false)
    : trim (String.ofList (gap ++ word)) = String.ofList word := by
  have head {cs : List Char} (solid : ∀ c ∈ cs, isBlank c = false)
      : ∀ c ∈ cs.head?, isBlank c = false := by
    intro c member
    exact solid c (List.mem_of_mem_head? member)
  have tail : dropBlanks word.reverse = word.reverse := by
    have kept := @dropBlanks_append [] word.reverse (by simp)
      (head fun c member => solid c (List.mem_reverse.mp member))
    simpa using kept
  rw [trim, String.toList_ofList, dropBlanks_append blank (head solid), tail, List.reverse_reverse]

namespace Recogniser

variable {r : Recogniser} {cs lexeme rest : List Char}

/-- A recogniser behind blanks takes the blanks and then what it would take after them. -/
theorem spaced_eq_some (found : spaced r cs = some (lexeme, rest))
    : ∃ word, lexeme = cs.takeWhile isBlank ++ word ∧ r (dropBlanks cs) = some (word, rest) := by
  unfold spaced at found
  split at found
  · cases found
  · next word rest' inner =>
    cases found
    exact ⟨word, rfl, inner⟩

variable {gap word : List Char}

theorem spaced_append (blank : ∀ c ∈ gap, isBlank c) (solid : ∀ c ∈ cs.head?, isBlank c = false)
    (found : r cs = some (word, rest))
    : spaced r (gap ++ cs) = some (gap ++ word, rest) := by
  simp only [spaced, dropBlanks_append blank solid, found, takeWhile_isBlank_append blank solid]

theorem spaced_append_none
    (blank : ∀ c ∈ gap, isBlank c) (solid : ∀ c ∈ cs.head?, isBlank c = false)
    (refused : r cs = none)
    : spaced r (gap ++ cs) = none := by
  simp only [spaced, dropBlanks_append blank solid, refused]

/-- A run goes on for as long as it can. -/
theorem run_eq_some {first more : Char → Bool}
    (found : run first more cs = some (word, rest))
    : ∃ c tail, word = c :: tail ∧ first c ∧ (∀ d ∈ tail, more d) ∧ cs = word ++ rest := by
  cases cs with
  | nil => cases found
  | cons c cs =>
    simp only [run] at found
    split at found
    · next accepted =>
      cases found
      refine ⟨c, _, rfl, accepted, fun d member => List.mem_takeWhile_imp member, ?_⟩
      rw [List.cons_append, List.takeWhile_append_dropWhile]
    · cases found

theorem run_append {first more : Char → Bool} {c : Char} {cs rest : List Char}
    (accepted : first c) (inside : ∀ d ∈ cs, more d)
    (stops : ∀ d ∈ rest.head?, more d = false)
    : run first more (c :: (cs ++ rest)) = some (c :: cs, rest) := by
  simp only [run, accepted, if_true]
  rw [List.takeWhile_append_of_pos inside, List.dropWhile_append_of_pos inside]
  cases rest with
  | nil => simp
  | cons d rest => simp [stops d (by simp)]

theorem literal_eq_some (found : literal word cs = some (lexeme, rest))
    : lexeme = word ∧ cs = word ++ rest := by
  unfold literal at found
  split at found
  · next front =>
    obtain ⟨tail, rfl⟩ := List.isPrefixOf_iff_prefix.mp front
    cases found
    simp
  · cases found

theorem literal_append (word rest : List Char)
    : literal word (word ++ rest) = some (word, rest) := by
  have front : word.isPrefixOf (word ++ rest) = true :=
    List.isPrefixOf_iff_prefix.mpr (List.prefix_append word rest)
  simp [literal, front]

theorem literal_none (other : ¬ word <+: cs) : literal word cs = none := by
  have refused : word.isPrefixOf cs = false := by
    rw [Bool.eq_false_iff]
    exact fun front => other (List.isPrefixOf_iff_prefix.mp front)
  simp [literal, refused]

theorem one_eq_some {p : Char → Bool}
    (found : one p cs = some (lexeme, rest))
    : ∃ c, lexeme = [c] ∧ p c := by
  cases cs with
  | nil => cases found
  | cons c cs =>
    simp only [one] at found
    split at found
    · next accepted =>
      cases found
      exact ⟨c, rfl, accepted⟩
    · cases found

theorem seq_eq_some {first second : Recogniser}
    (found : seq first second cs = some (lexeme, rest))
    : ∃ a b middle, first cs = some (a, middle) ∧ second middle = some (b, rest)
      ∧ lexeme = a ++ b := by
  unfold seq at found
  split at found
  · cases found
  · next a middle taken =>
    split at found
    · cases found
    · next b rest' taken' =>
      cases found
      exact ⟨a, b, middle, taken, taken', rfl⟩

/-- Of several words the one that is accepted is found if all others are refused. -/
theorem firstOf_map {f : String → Recogniser} {words : List String} {word : String}
    {result : List Char × List Char} (known : word ∈ words)
    (refused : ∀ w ∈ words, w ≠ word → f w cs = none) (found : f word cs = some result)
    : firstOf (words.map f) cs = some result := by
  induction words with
  | nil => cases known
  | cons w rest ih =>
    simp only [firstOf, List.map_cons, List.findSome?_cons]
    by_cases same : w = word
    · rw [same, found]
    · rw [refused w (by simp) same]
      exact ih ((List.mem_cons.mp known).resolve_left (Ne.symm same))
        fun w member => refused w (by simp [member])

end Recogniser

end ProgramQuery.Text

namespace ProgramQuery.Program

open Text

def Token.wellSpelled (t : Token) : Bool :=
  match t.kind with
  | .name => isName t.text
  | .integer => isNumeral t.text
  | kind => t.text == kind.spelling

theorem TokenKind.spelling_solid (kind : TokenKind)
    : kind.spelling.toList ≠ [] ∧ ∀ c ∈ kind.spelling.toList, isBlank c = false := by
  cases kind <;> exact ⟨by decide, forall_mem_of_all (by decide)⟩

variable {rest : List Char} {t : Token} {n : Nat}

/-- A token is spelled as its kind demands and stands right behind the blanks at the front of the
input. -/
theorem Token.scan_split {cs : List Char}
    (found : Token.scan cs = some (t, n, rest))
    : t.wellSpelled = true ∧ cs = cs.takeWhile isBlank ++ (t.text.toList ++ rest) := by
  obtain ⟨kind, _, found⟩ := List.exists_of_findSome?_eq_some found
  -- every kind takes blanks and then a word without blanks
  have taken {word lexeme : List Char}
      (front : lexeme = cs.takeWhile isBlank ++ word) (solid : ∀ c ∈ word, isBlank c = false)
      (split : dropBlanks cs = word ++ rest)
      : trim (String.ofList lexeme) = String.ofList word
        ∧ cs = cs.takeWhile isBlank ++ (word ++ rest) := by
    refine ⟨?_, ?_⟩
    · rw [front]
      exact trim_append (fun c member => List.mem_takeWhile_imp member) solid
    · rw [← split, dropBlanks, List.takeWhile_append_dropWhile]
  have named {word lexeme : List Char}
      (front : lexeme = cs.takeWhile isBlank ++ word)
      (inner : Recogniser.literal kind.spelling.toList (dropBlanks cs) = some (word, rest))
      : trim (String.ofList lexeme) = kind.spelling
        ∧ cs = cs.takeWhile isBlank ++ (kind.spelling.toList ++ rest) := by
    obtain ⟨rfl, split⟩ := Recogniser.literal_eq_some inner
    have := taken front kind.spelling_solid.2 split
    rwa [String.ofList_toList] at this
  split at found
  · next lexeme rest' accepted =>
    cases found
    cases kind
    case name =>
      obtain ⟨word, front, inner⟩ := Recogniser.spaced_eq_some accepted
      obtain ⟨c, tail, rfl, letter, more, split⟩ := Recogniser.run_eq_some inner
      have solid : ∀ d ∈ c :: tail, isBlank d = false := by
        intro d member
        rcases List.mem_cons.mp member with rfl | member
        · exact not_isBlank_of_isLetterOrDigit (by simp [isLetterOrDigit, letter])
        · exact not_isBlank_of_isLetterOrDigit (more d member)
      obtain ⟨text, whole⟩ := taken front solid split
      rw [text, String.toList_ofList]
      exact ⟨isName_iff.mpr ⟨c, tail, by simp, letter, more⟩, whole⟩
    case integer =>
      obtain ⟨word, front, inner⟩ := Recogniser.spaced_eq_some accepted
      obtain ⟨c, tail, rfl, digit, more, split⟩ := Recogniser.run_eq_some inner
      have digits : ∀ d ∈ c :: tail, isDigit d := by
        intro d member
        rcases List.mem_cons.mp member with rfl | member
        · exact digit
        · exact more d member
      have solid : ∀ d ∈ c :: tail, isBlank d = false := fun d member =>
        not_isBlank_of_isLetterOrDigit (by simp [isLetterOrDigit, digits d member])
      obtain ⟨text, whole⟩ := taken front solid split
      rw [text, String.toList_ofList]
      exact ⟨isNumeral_iff.mpr ⟨c, tail, by simp, digits⟩, whole⟩
    all_goals
      obtain ⟨word, front, inner⟩ := Recogniser.spaced_eq_some accepted
      obtain ⟨text, whole⟩ := named front inner
      rw [text]
      exact ⟨by simp only [Token.wellSpelled, beq_self_eq_true], whole⟩
  · cases found

def TokenKind.keywords : List TokenKind :=
  [.procedureWord, .callWord, .whileWord, .ifWord, .thenWord, .elseWord]

/-- Whether a token is well spelled and, if it is a name, begins with no keyword. -/
def Token.unmistakable (t : Token) : Bool :=
  t.wellSpelled
    && (t.kind != .name
      || TokenKind.keywords.all fun word => !word.spelling.toList.isPrefixOf t.text.toList)

theorem Token.unmistakable_name {x : String} (name : isName x = true)
    (clear : ∀ kind ∈ TokenKind.keywords, ¬ kind.spelling.toList <+: x.toList)
    : Token.unmistakable ⟨.name, x⟩ = true := by
  simpa [Token.unmistakable, Token.wellSpelled, name, ← Bool.not_eq_true] using clear

def TokenKind.fixed (kind : TokenKind) : Bool :=
  kind != .name && kind != .integer

theorem TokenKind.name_or_integer_or_fixed (kind : TokenKind)
    : kind = .name ∨ kind = .integer ∨ kind.fixed = true := by
  cases kind <;> simp [TokenKind.fixed]

variable {kind : TokenKind}

theorem TokenKind.recognise_of_fixed (fixed : kind.fixed = true)
    : kind.recognise = .word kind.spelling := by
  cases kind <;> first | rfl | cases fixed

theorem Token.text_of_fixed (fixed : t.kind.fixed = true)
    (spelled : t.wellSpelled = true)
    : t.text = t.kind.spelling := by
  obtain ⟨kind, text⟩ := t
  cases kind <;> first | exact beq_iff_eq.mp spelled | cases fixed

/-- An integer token holds one or more digits. -/
theorem Token.digits_of_integer (integer : t.kind = .integer)
    (spelled : t.wellSpelled = true)
    : ∃ c cs, t.text.toList = c :: cs ∧ ∀ d ∈ c :: cs, isDigit d := by
  simp only [Token.wellSpelled, integer] at spelled
  exact isNumeral_iff.mp spelled

/-- A name token holds a letter and then letters and digits. -/
theorem Token.letters_of_name (name : t.kind = .name) (spelled : t.wellSpelled = true)
    : ∃ c cs, t.text.toList = c :: cs ∧ isLetter c ∧ ∀ d ∈ cs, isLetterOrDigit d := by
  simp only [Token.wellSpelled, name] at spelled
  exact isName_iff.mp spelled

theorem Token.text_solid (spelled : t.wellSpelled = true)
    : t.text.toList ≠ [] ∧ ∀ c ∈ t.text.toList, isBlank c = false := by
  rcases t.kind.name_or_integer_or_fixed with name | integer | fixed
  · obtain ⟨c, cs, heading, letter, more⟩ := Token.letters_of_name name spelled
    rw [heading]
    refine ⟨by simp, fun d member => not_isBlank_of_isLetterOrDigit ?_⟩
    rcases List.mem_cons.mp member with rfl | member
    · simp [isLetterOrDigit, letter]
    · exact more d member
  · obtain ⟨c, cs, heading, digits⟩ := Token.digits_of_integer integer spelled
    rw [heading]
    refine ⟨by simp, fun d member => not_isBlank_of_isLetterOrDigit ?_⟩
    simp [isLetterOrDigit, digits d member]
  · rw [Token.text_of_fixed fixed spelled]
    exact t.kind.spelling_solid

/-- Each token takes at least one character off the input and is spelled as its kind demands. -/
theorem Token.scan_eq_some {cs : List Char}
    (found : Token.scan cs = some (t, n, rest))
    : t.wellSpelled = true ∧ rest.length < cs.length := by
  obtain ⟨spelled, whole⟩ := Token.scan_split found
  refine ⟨spelled, ?_⟩
  have pos := List.length_pos_iff.mpr (Token.text_solid spelled).1
  have size := congrArg List.length whole
  simp only [List.length_append] at size
  omega

def Token.stopsAt (t : Token) (c : Char) : Bool :=
  match t.kind with
  | .name => !isLetterOrDigit c
  | .integer => !isDigit c
  | _ => true

theorem Token.stopsAt_of_fixed (fixed : t.kind.fixed = true) (c : Char)
    : t.stopsAt c = true := by
  obtain ⟨kind, text⟩ := t
  cases kind <;> first | rfl | cases fixed

theorem Token.stopsAt_of_blank {c : Char} (blank : isBlank c = true) (t : Token)
    : t.stopsAt c = true := by
  have noLetter : isLetterOrDigit c = false := by
    by_contra plain
    rw [not_isBlank_of_isLetterOrDigit (by simpa using plain)] at blank
    cases blank
  have noDigit := (Bool.or_eq_false_iff.mp noLetter).2
  unfold Token.stopsAt
  split <;> simp [noLetter, noDigit]

variable {gap : List Char}

/-- A well-spelled token is accepted by its own kind. -/
theorem Token.recognise_kind (spelled : t.wellSpelled = true)
    (blank : ∀ c ∈ gap, isBlank c) (front : ∀ c ∈ (t.text.toList ++ rest).head?, isBlank c = false)
    (stops : ∀ c ∈ rest.head?, t.stopsAt c = true)
    : t.kind.recognise (gap ++ (t.text.toList ++ rest)) = some (gap ++ t.text.toList, rest) := by
  rcases t.kind.name_or_integer_or_fixed with name | integer | fixed
  · obtain ⟨c, cs, heading, letter, more⟩ := Token.letters_of_name name spelled
    rw [name]
    refine Recogniser.spaced_append blank front ?_
    rw [heading]
    exact Recogniser.run_append letter more fun d member => by
      simpa [Token.stopsAt, name] using stops d member
  · obtain ⟨c, cs, heading, digits⟩ := Token.digits_of_integer integer spelled
    rw [integer]
    refine Recogniser.spaced_append blank front ?_
    rw [heading]
    exact Recogniser.run_append (digits c (by simp)) (fun d member => digits d (by simp [member]))
      fun d member => by simpa [Token.stopsAt, integer] using stops d member
  · rw [TokenKind.recognise_of_fixed fixed]
    refine Recogniser.spaced_append blank front ?_
    rw [Token.text_of_fixed fixed spelled]
    exact Recogniser.literal_append _ rest

/-- The text of a fixed kind is a keyword or begins with no letter or digit. -/
theorem TokenKind.spelling_head (fixed : kind.fixed = true)
    : ∃ c cs, kind.spelling.toList = c :: cs ∧ isDigit c = false
        ∧ (kind ∈ TokenKind.keywords ∨ isLetter c = false) := by
  cases kind <;> first | exact ⟨_, _, rfl, by decide, by decide⟩ | cases fixed

theorem TokenKind.keyword_letters (keyword : kind ∈ TokenKind.keywords)
    : ∀ c ∈ kind.spelling.toList, isLetter c = true := by
  revert kind
  simp only [keywords, List.forall_mem_cons]
  refine ⟨?_, ?_, ?_, ?_, ?_, ?_, by simp⟩ <;> exact forall_mem_of_all (by decide)

/-- A word in front of which another character stands goes on no further. -/
theorem prefix_of_prefix_cons {word text : List Char} {c : Char} (other : c ∉ word)
    (front : word <+: text ++ c :: rest)
    : word <+: text := by
  have longer : text ++ [c] <+: text ++ c :: rest := ⟨rest, by simp⟩
  rcases List.prefix_or_prefix_of_prefix front longer with inside | beyond
  · rcases List.prefix_concat_iff.mp inside with rfl | inside
    · simp at other
    · exact inside
  · exact absurd (beyond.subset (by simp)) other

def TokenKind.earlier (kind : TokenKind) : List TokenKind :=
  TokenKind.all.takeWhile (· != kind)

theorem TokenKind.all_eq (kind : TokenKind)
    : ∃ later, TokenKind.all = kind.earlier ++ kind :: later := by
  cases kind <;> exact ⟨_, rfl⟩

variable {before : TokenKind}

/-- Integers come last and names before them. -/
theorem TokenKind.earlier_cases (earlier : before ∈ kind.earlier)
    : before.fixed = true ∨ (before = .name ∧ kind = .integer) := by
  revert before
  cases kind <;> decide

/-- No two fixed texts begin alike. -/
theorem TokenKind.head_ne_of_earlier (fixed : kind.fixed = true)
    (earlier : before ∈ kind.earlier)
    : kind.spelling.toList.head? ≠ before.spelling.toList.head? := by
  revert before
  cases kind <;> first | decide | cases fixed

/-- A token that can be mistaken for nothing else begins with the text of no earlier kind, together with
what comes after it.
-/
theorem Token.not_prefix_of_unmistakable (clear : t.unmistakable = true)
    (stops : ∀ c ∈ rest.head?, t.stopsAt c = true)
    (earlier : before ∈ t.kind.earlier) (fixed : before.fixed = true)
    : ¬ before.spelling.toList <+: t.text.toList ++ rest := by
  intro front
  simp only [Token.unmistakable, Bool.and_eq_true, Bool.or_eq_true, bne_iff_ne, List.all_eq_true,
    Bool.not_eq_true'] at clear
  obtain ⟨spelled, keywords⟩ := clear
  obtain ⟨c, cs, heading, noDigit, sort⟩ := TokenKind.spelling_head fixed
  rcases t.kind.name_or_integer_or_fixed with name | integer | own
  · obtain ⟨d, ds, text, letter, -⟩ := Token.letters_of_name name spelled
    rcases sort with keyword | noLetter
    · have begins := keywords.resolve_left (not_not_intro name) before keyword
      rw [← Bool.not_eq_true, List.isPrefixOf_iff_prefix] at begins
      cases rest with
      | nil => exact begins (by simpa using front)
      | cons e rest =>
        refine begins (prefix_of_prefix_cons (fun member => ?_) front)
        have stop := stops e (by simp)
        simp [Token.stopsAt, name, isLetterOrDigit, TokenKind.keyword_letters keyword e member] at stop
    · rw [heading, text, List.cons_append, List.cons_prefix_cons] at front
      simp [front.1, letter] at noLetter
  · obtain ⟨d, ds, text, digits⟩ := Token.digits_of_integer integer spelled
    rw [heading, text, List.cons_append, List.cons_prefix_cons] at front
    simp [front.1, digits d (by simp)] at noDigit
  · have differs := TokenKind.head_ne_of_earlier own earlier
    obtain ⟨d, ds, text, -⟩ := TokenKind.spelling_head own
    rw [Token.text_of_fixed own spelled, heading, text, List.cons_append, List.cons_prefix_cons] at front
    simp [heading, text, front.1] at differs

/-- A token that can be mistaken for no other is read where it stands, behind blanks, if it
ends there.
-/
theorem Token.scan_of_unmistakable {t : Token} (clear : t.unmistakable = true) {gap rest : List Char}
    (blank : ∀ c ∈ gap, isBlank c) (stops : ∀ c ∈ rest.head?, t.stopsAt c = true)
    : Token.scan (gap ++ (t.text.toList ++ rest))
      = some (t, (gap ++ t.text.toList).length, rest) := by
  have spelled : t.wellSpelled = true := (Bool.and_eq_true _ _ ▸ clear).1
  have ⟨nonempty, solid⟩ := Token.text_solid spelled
  have front : ∀ c ∈ (t.text.toList ++ rest).head?, isBlank c = false := by
    obtain ⟨c, cs, heading⟩ := List.ne_nil_iff_exists_cons.mp nonempty
    rw [heading] at solid ⊢
    simpa using solid c (by simp)
  obtain ⟨later, order⟩ := t.kind.all_eq
  refine List.findSome?_eq_some_iff.mpr ⟨t.kind.earlier, t.kind, later, order, ?_, ?_⟩
  · rw [Token.recognise_kind spelled blank front stops]
    simp only [trim_append blank solid, String.ofList_toList]
  · intro before earlier
    have refused : before.recognise (gap ++ (t.text.toList ++ rest)) = none := by
      rcases TokenKind.earlier_cases earlier with fixed | ⟨rfl, integer⟩
      · rw [TokenKind.recognise_of_fixed fixed, Recogniser.word]
        exact Recogniser.spaced_append_none blank front
          (Recogniser.literal_none (Token.not_prefix_of_unmistakable clear stops earlier fixed))
      · -- a name does not begin with a digit
        obtain ⟨c, cs, heading, digits⟩ := Token.digits_of_integer integer spelled
        refine Recogniser.spaced_append_none blank front ?_
        simp [heading, Recogniser.run, not_isLetter_of_isDigit (digits c (by simp))]
    rw [refused]

/-- There is no token in blanks. -/
theorem Token.scan_blanks (blank : ∀ c ∈ gap, isBlank c)
    : Token.scan gap = none := by
  refine List.findSome?_eq_none_iff.mpr fun kind _ => ?_
  have refused : kind.recognise (gap ++ []) = none := by
    cases kind <;> exact Recogniser.spaced_append_none blank (by simp) rfl
  rw [List.append_nil] at refused
  rw [refused]

end ProgramQuery.Program
