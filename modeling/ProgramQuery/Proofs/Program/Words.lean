import ProgramQuery.Proofs.Program.Tokens

/-! The first token of a text that begins with a word, a run of letters and digits that does not go on,
or with a sign. Of a word, a keyword at its front is read first, and digits at its front are read
alone.
-/

namespace ProgramQuery.Program

open Text

def Token.ofWord (word : List Char) : Token × List Char :=
  match TokenKind.keywords.find? (·.spelling.toList.isPrefixOf word) with
  | some kind => (⟨kind, kind.spelling⟩, word.drop kind.spelling.toList.length)
  | none =>
    if word.head?.any isLetter then (⟨.name, String.ofList word⟩, [])
    else (⟨.integer, String.ofList (word.takeWhile isDigit)⟩, word.dropWhile isDigit)

theorem TokenKind.fixed_of_keyword : ∀ kind ∈ keywords, kind.fixed = true := by
  decide

theorem TokenKind.keyword_or_sign (kind : TokenKind) (fixed : kind.fixed = true)
    : kind ∈ keywords ∨ kind.spelling.toList.length = 1 := by
  revert fixed
  cases kind <;> decide

section Word

variable {gap word rest : List Char} (blank : ∀ c ∈ gap, isBlank c)
include blank

/-- The text of a fixed kind is read wherever it comes first. -/
theorem Token.scan_fixed {kind : TokenKind} (fixed : kind.fixed = true)
    : Token.scan (gap ++ (kind.spelling.toList ++ rest))
      = some (⟨kind, kind.spelling⟩, (gap ++ kind.spelling.toList).length, rest) := by
  have clear : Token.unmistakable ⟨kind, kind.spelling⟩ = true := by
    revert fixed
    cases kind <;> decide
  exact Token.scan_of_unmistakable clear blank fun c _ => Token.stopsAt_of_fixed fixed c

/-- A keyword at the front of a word is read, and the rest of the word stays. -/
theorem Token.scan_keyword {kind : TokenKind} (keyword : kind ∈ TokenKind.keywords)
    (front : kind.spelling.toList <+: word)
    : Token.scan (gap ++ (word ++ rest))
      = some (⟨kind, kind.spelling⟩, (gap ++ kind.spelling.toList).length,
          word.drop kind.spelling.toList.length ++ rest) := by
  obtain ⟨more, rfl⟩ := front
  rw [List.drop_left, List.append_assoc]
  exact Token.scan_fixed blank (TokenKind.fixed_of_keyword kind keyword)

variable (plain : ∀ c ∈ word, isLetterOrDigit c = true)
  (stops : ∀ c ∈ rest.head?, isLetterOrDigit c = false)
include plain stops

/-- A word that begins with a letter and no keyword is read as one name. -/
theorem Token.scan_name {c : Char} (heading : c ∈ word.head?) (letter : isLetter c = true)
    (clear : ∀ kind ∈ TokenKind.keywords, ¬ kind.spelling.toList <+: word)
    : Token.scan (gap ++ (word ++ rest))
      = some (⟨.name, String.ofList word⟩, (gap ++ word).length, rest) := by
  have name : isName (String.ofList word) = true := by
    refine isName_iff.mpr ⟨c, word.tail, ?_, letter, fun d member => plain d (List.mem_of_mem_tail member)⟩
    rw [String.toList_ofList, List.cons_head?_tail heading]
  have unmistakable := Token.unmistakable_name name (by simpa using clear)
  have found := Token.scan_of_unmistakable unmistakable blank (by simpa [Token.stopsAt] using stops)
  rwa [String.toList_ofList] at found

/-- Of a word that begins with a digit the digits in front are read. -/
theorem Token.scan_digits {c : Char} (heading : c ∈ word.head?) (digit : isDigit c = true)
    : Token.scan (gap ++ (word ++ rest))
      = some (⟨.integer, String.ofList (word.takeWhile isDigit)⟩,
          (gap ++ word.takeWhile isDigit).length, word.dropWhile isDigit ++ rest) := by
  have digits : isNumeral (String.ofList (word.takeWhile isDigit)) = true := by
    refine isNumeral_iff.mpr ⟨c, word.tail.takeWhile isDigit, ?_, ?_⟩
    · cases word <;> simp_all
    · exact List.forall_mem_cons.mpr ⟨digit, fun d member => List.mem_takeWhile_imp member⟩
  have stops' : ∀ d ∈ (word.dropWhile isDigit ++ rest).head?, isDigit d = false := by
    intro d member
    cases more : word.dropWhile isDigit with
    | nil =>
      rw [more] at member
      exact (Bool.or_eq_false_iff.mp (stops d member)).2
    | cons e es =>
      rw [more] at member
      cases member
      simpa [more] using List.head?_dropWhile_not isDigit word
  have found := @Token.scan_of_unmistakable ⟨.integer, String.ofList (word.takeWhile isDigit)⟩
    (by simp [Token.unmistakable, Token.wellSpelled, digits]) gap (word.dropWhile isDigit ++ rest)
    blank (by simpa [Token.stopsAt] using stops')
  rwa [String.toList_ofList, ← List.append_assoc (word.takeWhile isDigit),
    List.takeWhile_append_dropWhile] at found

/-- The token at the front of a word is told by the word alone. -/
theorem Token.scan_word (nonempty : word ≠ [])
    : ∃ n, Token.scan (gap ++ (word ++ rest))
        = some ((Token.ofWord word).1, n, (Token.ofWord word).2 ++ rest) := by
  obtain ⟨c, cs, rfl⟩ := List.ne_nil_iff_exists_cons.mp nonempty
  cases found : TokenKind.keywords.find? (·.spelling.toList.isPrefixOf (c :: cs)) with
  | some kind =>
    have front : kind.spelling.toList <+: c :: cs := by
      simpa using List.find?_some found
    simp only [Token.ofWord, found]
    exact ⟨_, Token.scan_keyword blank (List.mem_of_find?_eq_some found) front⟩
  | none =>
    have clear : ∀ kind ∈ TokenKind.keywords, ¬ kind.spelling.toList <+: c :: cs := by
      simpa using found
    have first := plain c (by simp)
    rw [isLetterOrDigit, Bool.or_eq_true] at first
    simp only [Token.ofWord, found]
    rcases first with letter | digit
    · rw [if_pos (by simpa using letter)]
      exact ⟨_, Token.scan_name blank plain stops (by simp) letter clear⟩
    · rw [if_neg (by simpa using not_isLetter_of_isDigit digit)]
      exact ⟨_, Token.scan_digits blank plain stops (by simp) digit⟩

end Word

/-- A character that is no letter or digit is a token alone, or none begins there. -/
theorem Token.scan_sign {gap rest : List Char} {c : Char} (blank : ∀ d ∈ gap, isBlank d)
    (solid : isBlank c = false) (sign : isLetterOrDigit c = false)
    : Token.scan (gap ++ c :: rest)
      = (TokenKind.all.find? (·.spelling.toList == [c])).map
          fun kind => (⟨kind, String.ofList [c]⟩, (gap ++ [c]).length, rest) := by
  have front : ∀ d ∈ (c :: rest).head?, isBlank d = false := by
    simpa using solid
  obtain ⟨noLetter, noDigit⟩ := Bool.or_eq_false_iff.mp sign
  cases found : TokenKind.all.find? (·.spelling.toList == [c]) with
  | some kind =>
    have own : kind.spelling.toList = [c] := by simpa using List.find?_some found
    have fixed : kind.fixed = true := by
      cases kind <;> first | rfl | simp [TokenKind.spelling] at own
    have read := @Token.scan_fixed gap rest blank kind fixed
    rw [own, ← String.ofList_toList (s := kind.spelling), own] at read
    exact read
  | none =>
    refine List.findSome?_eq_none_iff.mpr fun kind listed => ?_
    have other : kind.spelling.toList ≠ [c] := by simpa using List.find?_eq_none.mp found kind listed
    have refused : kind.recognise (gap ++ c :: rest) = none := by
      rcases kind.name_or_integer_or_fixed with rfl | rfl | fixed
      · exact Recogniser.spaced_append_none blank front (by simp [Recogniser.run, noLetter])
      · exact Recogniser.spaced_append_none blank front (by simp [Recogniser.run, noDigit])
      · rw [TokenKind.recognise_of_fixed fixed]
        refine Recogniser.spaced_append_none blank front (Recogniser.literal_none fun front => ?_)
        obtain ⟨d, ds, heading, -⟩ := TokenKind.spelling_head fixed
        rw [heading, List.cons_prefix_cons] at front
        rcases TokenKind.keyword_or_sign kind fixed with keyword | single
        · have letter := TokenKind.keyword_letters keyword d (by simp [heading])
          simp [front.1, noLetter] at letter
        · obtain rfl : ds = [] := by simpa [heading] using single
          exact other (by rw [heading, front.1])
    rw [refused]

end ProgramQuery.Program
