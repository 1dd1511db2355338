import ProgramQuery.Proofs.Evaluation.JoinQuery

/-! The titles under which conditions are recorded, and what is read off them again. -/

namespace ProgramQuery

open Text Evaluation

section Texts

variable {c : Char} {part cs : List Char}

theorem splitAt_go_end (absent : c ∉ cs)
    : splitAt.go c part cs = [String.ofList (part.reverse ++ cs)] := by
  induction cs generalizing part with
  | nil => simp [splitAt.go]
  | cons x rest ih =>
    obtain ⟨differs, absent⟩ : c ≠ x ∧ c ∉ rest := by simpa using absent
    rw [splitAt.go, if_neg (by simpa using differs.symm), ih absent]
    simp

theorem splitAt_go_append {rest : List Char} (absent : c ∉ cs)
    : splitAt.go c part (cs ++ c :: rest)
      = String.ofList (part.reverse ++ cs) :: splitAt.go c [] rest := by
  induction cs generalizing part with
  | nil => simp [splitAt.go]
  | cons x cs ih =>
    obtain ⟨differs, absent⟩ : c ≠ x ∧ c ∉ cs := by simpa using absent
    rw [List.cons_append, splitAt.go, if_neg (by simpa using differs.symm), ih absent]
    simp

/-- Three texts without underscores are found again in the text they make up with underscores. -/
theorem splitAt_underscores {r a b : String} (inRelation : '_' ∉ r.toList) (inFirst : '_' ∉ a.toList)
    (inSecond : '_' ∉ b.toList)
    : splitAt '_' (r ++ "_" ++ a ++ "_" ++ b) = [r, a, b] := by
  have list : (r ++ "_" ++ a ++ "_" ++ b).toList
      = r.toList ++ '_' :: (a.toList ++ '_' :: b.toList) := by
    simp [String.toList_append]
  rw [splitAt, list, splitAt_go_append inRelation, splitAt_go_append inFirst,
    splitAt_go_end inSecond]
  simp

theorem occursIn_iff {needle hay : String}
    : occursIn needle hay = true ↔ needle.toList <:+: hay.toList := by
  have go (n cs : List Char) : occursIn.go n cs = true ↔ n <:+: cs := by
    induction cs with
    | nil => simp [occursIn.go]
    | cons c rest ih => simp [occursIn.go, ih, List.infix_cons_iff]
  exact go _ _

/-- What occurs in a text and lacks a letter occurs on one side of that letter. -/
theorem infix_of_absent {α : Type} {n l l' : List α} {x : α} (absent : x ∉ n)
    (occurs : n <:+: l ++ x :: l')
    : n <:+: l ∨ n <:+: l' := by
  obtain ⟨front, back, same⟩ := occurs
  rw [List.append_assoc] at same
  rcases List.append_eq_append_iff.mp same with ⟨middle, rfl, same'⟩ | ⟨middle, rfl, same'⟩
  · -- the text starts before the letter, and must end before it too
    left
    rcases List.append_eq_append_iff.mp same' with ⟨tail, rfl, -⟩ | ⟨tail, rfl, same''⟩
    · exact ⟨front, tail, by simp⟩
    · cases tail with
      | nil => exact ⟨front, [], by simp⟩
      | cons y tail =>
        obtain ⟨rfl, -⟩ : x = y ∧ _ := by simpa using same''
        exact absurd (by simp) absent
  · cases middle with
    | nil =>
      cases n with
      | nil => exact .inl ⟨[], l, by simp⟩
      | cons y n =>
        obtain ⟨rfl, -⟩ : x = y ∧ _ := by simpa using same'
        exact absurd (by simp) absent
    | cons y middle =>
      obtain ⟨-, rfl⟩ : x = y ∧ _ := by simpa using same'
      exact .inr ⟨middle, back, by simp⟩

end Texts

section Synonyms

variable {x : String} {cs : List Char}

theorem synonym_no_underscore (synonym : isSynonym x = true) : '_' ∉ x.toList := by
  obtain ⟨c, ds, heading, letter, digits⟩ := isSynonym_iff.mp synonym
  rw [heading]
  intro member
  rcases List.mem_cons.mp member with rfl | member
  · exact absurd letter (by decide)
  · exact absurd (digits _ member) (by decide)

/-- The second character of a synonym is no letter. -/
theorem synonym_ne_of_letters (synonym : isSynonym x = true) {s : String} {c d : Char}
    (heading : s.toList = c :: d :: cs) (notDigit : isDigit d = false)
    : x ≠ s := by
  rintro rfl
  obtain ⟨c', ds, heading', -, digits⟩ := isSynonym_iff.mp synonym
  rw [heading] at heading'
  obtain ⟨-, rfl⟩ : c = c' ∧ d :: cs = ds := by simpa using heading'
  rw [digits d (by simp)] at notDigit
  cases notDigit

theorem synonym_ne_truthRow (synonym : isSynonym x = true) : x ≠ Sheet.truthRow :=
  synonym_ne_of_letters synonym (by decide : Sheet.truthRow.toList = 'B' :: 'O' :: "OLEAN".toList) (by decide)

theorem synonym_ne_fixedRow (synonym : isSynonym x = true) : x ≠ Sheet.fixedRow :=
  synonym_ne_of_letters synonym (by decide : Sheet.fixedRow.toList = 'C' :: 'O' :: "NST".toList) (by decide)

theorem letter_ne_digit {c d : Char} (letter : isLetter c = true) (digit : isDigit d = true)
    : c ≠ d := by
  rintro rfl
  have lower := toNat_of_isLetter letter
  have upper := toNat_of_isDigit digit
  omega

/-- A synonym is not the first digit of a number. -/
theorem synonym_ne_digit (synonym : isSynonym x = true) {d : Char} (digit : d.isDigit = true)
    : x ≠ d.toString := by
  rintro rfl
  obtain ⟨c, ds, heading, letter, -⟩ := isSynonym_iff.mp synonym
  obtain ⟨rfl, -⟩ : d = c ∧ [] = ds := by simpa [Char.toString] using heading
  exact letter_ne_digit letter digit rfl

/-- A word of several letters does not occur in a synonym. -/
theorem synonym_not_infix (synonym : isSynonym x = true) {n : List Char} {c d : Char}
    (heading : n = c :: d :: cs) (notDigit : isDigit d = false)
    : ¬ n <:+: x.toList := by
  rintro ⟨front, back, same⟩
  obtain ⟨c', ds, heading', -, digits⟩ := isSynonym_iff.mp synonym
  have later : d ∈ ds := by
    subst heading
    rw [heading'] at same
    cases front with
    | nil =>
      obtain ⟨-, rfl⟩ : c = c' ∧ _ := by simpa using same
      simp
    | cons f front =>
      obtain ⟨-, rfl⟩ : f = c' ∧ _ := by simpa using same
      simp
  rw [digits d later] at notDigit
  cases notDigit

end Synonyms

def Term.title : Term → String
  | .synonym x => x
  | .line _ => Sheet.fixedRow

def Condition.title (c : Condition) : String :=
  c.relation.title ++ "_" ++ c.first.title ++ "_" ++ c.second.title

def Condition.Spelled (c : Condition) : Prop :=
  ∀ x ∈ c.synonyms, isSynonym x = true

section Titles

variable {c c' : Condition}

theorem RelationName.title_injective {r r' : RelationName} (same : r.title = r'.title)
    : r = r' := by
  cases r <;> cases r' <;> first | rfl | exact absurd same (by decide)

theorem RelationName.title_no_underscore (r : RelationName) : '_' ∉ r.title.toList := by
  cases r <;> decide

theorem RelationName.ofTitle?_title (r : RelationName) : ofTitle? r.title = some r := by
  cases r <;> decide

theorem Condition.Spelled.first (spelled : c.Spelled) : '_' ∉ c.first.title.toList := by
  cases first : c.first with
  | synonym x => exact synonym_no_underscore (spelled x (by simp [synonyms, first, Term.synonym?]))
  | line n => exact (by decide : '_' ∉ Sheet.fixedRow.toList)

theorem Condition.Spelled.second (spelled : c.Spelled) : '_' ∉ c.second.title.toList := by
  cases second : c.second with
  | synonym x =>
    exact synonym_no_underscore (spelled x (by
      cases first : c.first <;> simp [synonyms, first, second, Term.synonym?]))
  | line n => exact (by decide : '_' ∉ Sheet.fixedRow.toList)

theorem Condition.Spelled.splitAt_title (spelled : c.Spelled)
    : splitAt '_' c.title = [c.relation.title, c.first.title, c.second.title] :=
  splitAt_underscores c.relation.title_no_underscore spelled.first spelled.second

theorem Condition.title_inj (spelled : c.Spelled) (spelled' : c'.Spelled)
    : c.title = c'.title
      ↔ c.relation = c'.relation ∧ c.first.title = c'.first.title
        ∧ c.second.title = c'.second.title := by
  constructor
  · intro same
    have parts := spelled.splitAt_title
    rw [same, spelled'.splitAt_title] at parts
    simp only [List.cons.injEq, and_true] at parts
    exact ⟨RelationName.title_injective parts.1.symm, parts.2.1.symm, parts.2.2.symm⟩
  · rintro ⟨relation, first, second⟩
    rw [title, title, relation, first, second]

/-- No title is the name of another column. -/
theorem Condition.title_ne {column : String} (plain : '_' ∉ column.toList) : c.title ≠ column := by
  rintro rfl
  exact plain (by simp [title, String.toList_append])

theorem Condition.title_ne_columns (c : Condition)
    : c.title ≠ Sheet.typeColumn ∧ c.title ≠ Sheet.finalColumn :=
  ⟨Condition.title_ne (by decide), Condition.title_ne (by decide)⟩

/-- Only the conditions between synonyms are followed up. -/
theorem Condition.isCondition_title (spelled : c.Spelled)
    : isCondition c.title = true ↔ c.link?.isSome = true := by
  have other : otherColumns.contains c.title = false := by
    rw [← Bool.not_eq_true, List.contains_iff_mem]
    intro member
    have plain : ∀ column ∈ otherColumns, '_' ∉ column.toList := by decide
    exact Condition.title_ne (plain _ member) rfl
  have list : c.title.toList
      = c.relation.title.toList ++ '_' :: (c.first.title.toList ++ '_' :: c.second.title.toList) := by
    simp [title, String.toList_append]
  have absent : '_' ∉ Sheet.fixedRow.toList := by decide
  have relation : ¬ Sheet.fixedRow.toList <:+: c.relation.title.toList := by
    rw [← occursIn_iff]
    cases c.relation <;> decide
  rw [isCondition, other, Bool.not_false, Bool.true_and, Bool.not_eq_true', ← Bool.not_eq_true,
    occursIn_iff, list]
  constructor
  · intro unfixed
    match first : c.first, second : c.second with
    | .line n, _ =>
      refine absurd ⟨c.relation.title.toList ++ ['_'], '_' :: c.second.title.toList, ?_⟩ unfixed
      simp [first, Term.title]
    | .synonym a, .line n =>
      refine absurd ⟨c.relation.title.toList ++ '_' :: (a.toList ++ ['_']), [], ?_⟩ unfixed
      simp [first, second, Term.title]
    | .synonym a, .synonym b => simp [link?, first, second]
  · intro isLink occurs
    obtain ⟨a, b, first, second⟩ : ∃ a b, c.first = .synonym a ∧ c.second = .synonym b := by
      unfold link? at isLink
      split at isLink
      next a b first second => exact ⟨a, b, first, second⟩
      next => cases isLink
    have letters : Sheet.fixedRow.toList = 'C' :: 'O' :: ['N', 'S', 'T'] := by decide
    have synonym : isSynonym a = true ∧ isSynonym b = true := by
      constructor <;> exact spelled _ (by simp [synonyms, first, second, Term.synonym?])
    rw [first, second] at occurs
    rcases infix_of_absent absent occurs with inRelation | occurs
    · exact relation inRelation
    · rcases infix_of_absent absent occurs with inFirst | inSecond
      · exact synonym_not_infix synonym.1 letters (by decide) inFirst
      · exact synonym_not_infix synonym.2 letters (by decide) inSecond

end Titles

end ProgramQuery
