import ProgramQuery.Proofs.Program.Words
import ProgramQuery.Proofs.Query.Tokens
import ProgramQuery.Proofs.Relation.LineAnswers

/-! Names as tokens of programs and, in quotes, of queries. A keyword at the front of a name is read
instead of it, and so is an attribute right behind the opening quote, because any character may stand in
front of an attribute. Behind a space every name in quotes is one token.
-/

namespace ProgramQuery.Query

open Text

theorem TokenKind.before_attr
    : ∀ kind ∈ TokenKind.attr.earlier, kind ∈ TokenKind.quotedName.earlier ∧ kind ≠ .attr := by
  decide

/-- No attribute begins with another, and none holds a quote. -/
theorem attributeWords_apart
    : ∀ w ∈ attributeWords, '"' ∉ w.toList
      ∧ ∀ w' ∈ attributeWords, w'.toList <+: w.toList → w' = w := by
  decide

/-- Right behind a quote an attribute is read, whatever it goes on with. -/
theorem Token.scan_quoted_attribute {w : String} (known : w ∈ attributeWords) (rest : List Char)
    : Token.scan (fun _ => true) ('"' :: (w.toList ++ rest)) = some (⟨.attr, "\"" ++ w⟩, rest) := by
  have accepted : TokenKind.attr.recognise ('"' :: (w.toList ++ rest)) = some ('"' :: w.toList, rest) := by
    have quote : Recogniser.one (· != '\n') ('"' :: (w.toList ++ rest)) = some (['"'], w.toList ++ rest) :=
      rfl
    refine Recogniser.firstOf_map known (fun w' known' other => ?_) ?_
    · have refused : Recogniser.literal w'.toList (w.toList ++ rest) = none := by
        refine Recogniser.literal_none fun front => other ?_
        rcases List.prefix_or_prefix_of_prefix front (List.prefix_append _ rest) with shorter | longer
        · exact (attributeWords_apart w known).2 w' known' shorter
        · exact ((attributeWords_apart w' known').2 w known longer).symm
      simp only [Recogniser.seq, quote, refused]
    · simp only [Recogniser.seq, quote, Recogniser.literal_append, List.singleton_append]
  have found := Token.scan_eq_some (fun _ : TokenKind => rfl) accepted fun before earlier => by
    obtain ⟨earlier, other⟩ := TokenKind.before_attr before earlier
    simpa using @TokenKind.refuses_quote [] (w.toList ++ rest) (by simp) before earlier other
  have text : String.ofList ('"' :: w.toList) = "\"" ++ w := by
    rw [← String.toList_inj]
    simp
  rw [found, text]

end ProgramQuery.Query

namespace ProgramQuery

open Program Query Text

/-- Behind a space a name in quotes is one token. -/
theorem scan_quoted_behind_space {x : String} (name : isName x = true) (rest : List Char)
    : Query.Token.scan (fun _ => true) (' ' :: ((inQuotes x).toList ++ rest))
      = some (⟨.quotedName, " " ++ inQuotes x⟩, rest) := by
  have refused : Query.TokenKind.attr.recognise ([' '] ++ '"' :: (x.toList ++ '"' :: rest)) = none := by
    refine attr_refuses fun w known front => ?_
    obtain ⟨-, c, _, heading, letter⟩ := attributeWord_wordLike known
    rw [heading, List.singleton_append, List.tail_cons, List.cons_prefix_cons] at front
    exact absurd (front.1 ▸ letter) (by decide)
  have found := Query.Token.scan_quotedName (fun _ => rfl) (forall_mem_of_all (by decide)) name refused
  simpa [inQuotes] using found

theorem Analysis.isName_of_known {text : String} {a : Analysis} (accepted : Analysis.ofText text = .ok a)
    {x : String} (known : x ∈ a.knowledge.variableNames ++ a.knowledge.procedureNames)
    : isName x = true := by
  have named := Analysis.named accepted
  have describes := Analysis.describes accepted
  rcases List.mem_append.mp known with asVariable | asProcedure
  · exact named.isName (describes.mem_variableNames.mp asVariable)
  · exact named.isName (describes.mem_procedureNames.mp asProcedure)

/-- A name is read as one token of a program exactly if no keyword begins it, and in quotes
as one token of a query exactly if no attribute begins it; otherwise the keyword or the attribute is
read and the rest of the name stays. Behind a space every name in quotes is one token, and so are all
variables and procedures of a program.
-/
theorem scan_name_iff {x : String} (name : isName x = true) {c : Char}
    (stop : isLetterOrDigit c = false) (rest : List Char)
    : (Program.Token.scan (x.toList ++ c :: rest) = some (⟨.name, x⟩, x.toList.length, c :: rest)
        ↔ ∀ kind ∈ Program.TokenKind.keywords, ¬ kind.spelling.toList <+: x.toList)
      ∧ (∀ kind ∈ Program.TokenKind.keywords, kind.spelling.toList <+: x.toList →
        Program.Token.scan (x.toList ++ c :: rest)
          = some (⟨kind, kind.spelling⟩, kind.spelling.toList.length,
              x.toList.drop kind.spelling.toList.length ++ c :: rest))
      ∧ (Query.Token.scan (fun _ => true) ((inQuotes x).toList ++ rest)
          = some (⟨.quotedName, inQuotes x⟩, rest)
        ↔ ∀ w ∈ attributeWords, ¬ w.toList <+: x.toList)
      ∧ (∀ w ∈ attributeWords, w.toList <+: x.toList →
        Query.Token.scan (fun _ => true) ((inQuotes x).toList ++ rest)
          = some (⟨.attr, "\"" ++ w⟩, x.toList.drop w.toList.length ++ '"' :: rest))
      ∧ Query.Token.scan (fun _ => true) (' ' :: ((inQuotes x).toList ++ rest))
          = some (⟨.quotedName, " " ++ inQuotes x⟩, rest)
      ∧ ∀ text a, Analysis.ofText text = .ok a →
        ∀ y ∈ a.knowledge.variableNames ++ a.knowledge.procedureNames, ∀ rest,
          Query.Token.scan (fun _ => true) (' ' :: ((inQuotes y).toList ++ rest))
            = some (⟨.quotedName, " " ++ inQuotes y⟩, rest) := by
  obtain ⟨first, more, heading, letter, letters⟩ := isName_iff.mp name
  have plain : ∀ d ∈ x.toList, isLetterOrDigit d = true := by
    simpa [heading, isLetterOrDigit, letter] using letters
  have stops : ∀ d ∈ (c :: rest).head?, isLetterOrDigit d = false := forall_head?_cons stop
  have keyword : ∀ kind ∈ Program.TokenKind.keywords, kind.spelling.toList <+: x.toList →
      Program.Token.scan (x.toList ++ c :: rest)
        = some (⟨kind, kind.spelling⟩, kind.spelling.toList.length,
            x.toList.drop kind.spelling.toList.length ++ c :: rest) := fun kind known front =>
    Token.scan_keyword (List.forall_mem_nil _) known front
  have quoted : (inQuotes x).toList ++ rest = '"' :: (x.toList ++ '"' :: rest) := by simp [inQuotes]
  have attr : ∀ w ∈ attributeWords, w.toList <+: x.toList →
      Query.Token.scan (fun _ => true) ((inQuotes x).toList ++ rest)
        = some (⟨.attr, "\"" ++ w⟩, x.toList.drop w.toList.length ++ '"' :: rest) := by
    rintro w known ⟨tail, split⟩
    rw [quoted, ← split, List.drop_left, List.append_assoc]
    exact Query.Token.scan_quoted_attribute known _
  refine ⟨⟨fun found kind known front => ?_, fun clear => ?_⟩, keyword,
    ⟨fun found w known front => ?_, fun clear => ?_⟩, attr, scan_quoted_behind_space name rest,
    fun text a accepted y known rest => ?_⟩
  · rw [keyword kind known front] at found
    have fixed := Program.TokenKind.fixed_of_keyword kind known
    simp only [Option.some.injEq, Prod.mk.injEq, Program.Token.mk.injEq] at found
    rw [found.1.1] at fixed
    cases fixed
  · have found := Token.scan_name (List.forall_mem_nil _) plain stops (by simp [heading]) letter clear
    rwa [String.ofList_toList] at found
  · rw [attr w known front] at found
    simp at found
  · have refused : Query.TokenKind.attr.recognise ([] ++ '"' :: (x.toList ++ '"' :: rest)) = none :=
      attr_refuses fun w known front =>
        clear w known (prefix_of_prefix_cons (attributeWords_apart w known).1 front)
    have found := Query.Token.scan_quotedName (fun _ => rfl) (List.forall_mem_nil _) name refused
    rw [quoted]
    simpa using found
  · exact scan_quoted_behind_space (Analysis.isName_of_known accepted known) rest

/-- The name `x1` in front of a semicolon and in quotes. -/
theorem scan_name_iff_plain
    : isName "x1" = true ∧ isLetterOrDigit ';' = false
      ∧ Program.Token.scan ("x1".toList ++ [';']) = some (⟨.name, "x1"⟩, 2, [';'])
      ∧ Query.Token.scan (fun _ => true) ((inQuotes "x1").toList ++ [])
        = some (⟨.quotedName, inQuotes "x1"⟩, []) :=
  have tokens := scan_name_iff (x := "x1") (c := ';') (by decide) (by decide) []
  ⟨by decide, by decide, tokens.1.mpr (by decide), tokens.2.2.1.mpr (by decide)⟩

/-- The names `iffy` and `value1` are no single tokens, although neither is a keyword. -/
theorem scan_name_split
    : isName "iffy" = true ∧ Program.Token.scan "iffy = 1;".toList = some (⟨.ifWord, "if"⟩, 2, "fy = 1;".toList)
      ∧ isName "value1" = true
      ∧ Query.Token.scan (fun _ => true) "\"value1\"".toList = some (⟨.attr, "\"value"⟩, "1\"".toList) := by
  decide

end ProgramQuery
