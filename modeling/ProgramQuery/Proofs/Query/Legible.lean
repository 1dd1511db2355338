import ProgramQuery.Proofs.Evaluation.Titles
import ProgramQuery.Proofs.Query.Tokens
import ProgramQuery.Proofs.Query.Synonyms

/-! Arguments of conditions with their labels run together. Both can be found again in such a text as long
as no name of a synonym holds the label of a type.
-/

namespace ProgramQuery

open Text ProgramQuery.Tree Query

def nameLabels : List String :=
  "IDENT_QUOTE" :: entityLabels

def argumentLabels : List String :=
  "INTEGER" :: "EVERYTHING" :: nameLabels

theorem prefix_label {label label' : String} (known : label ∈ argumentLabels)
    (known' : label' ∈ argumentLabels) (front : label.toList <+: label'.toList)
    : label = label' := by
  have apart : ∀ label ∈ argumentLabels, ∀ label' ∈ argumentLabels,
      label.toList <+: label'.toList → label = label' := by decide
  exact apart label known label' known' front

theorem suffix_label {label label' : String} (known : label ∈ argumentLabels)
    (known' : label' ∈ argumentLabels) (back : label.toList <:+ label'.toList)
    : label = label' := by
  have apart : ∀ label ∈ argumentLabels, ∀ label' ∈ argumentLabels,
      label.toList <:+ label'.toList → label = label' := by decide
  exact apart label known label' known' back

/-- No label of a name begins inside another one. -/
theorem label_not_inside {label label' : String} (known : label ∈ nameLabels)
    (known' : label' ∈ nameLabels) {front back : List Char} (split : label.toList = front ++ back)
    (nonempty : front ≠ []) (nonempty' : back ≠ [])
    : ¬ back <+: label'.toList ∧ ¬ label'.toList <+: back := by
  have apart : ∀ label ∈ nameLabels, ∀ label' ∈ nameLabels, ∀ n ∈ List.range label.toList.length,
      n ≠ 0 → ¬ label.toList.drop n <+: label'.toList ∧ ¬ label'.toList <+: label.toList.drop n := by
    decide +kernel
  have inside := apart label known label' known' front.length (by
    have := List.length_pos_iff.mpr nonempty'
    simp only [split, List.length_append, List.mem_range]
    omega) (by simpa using nonempty)
  rwa [split, List.drop_left] at inside

/-- An argument whose text can be told from its label. -/
inductive Legible : String → String → Prop
  | synonym {type x : String} (typed : type ∈ entityLabels) (named : isQuotable x = true)
    (free : ∀ label ∈ entityLabels, occursIn label x = false)
    : Legible type x
  | line {digits : String} (numeral : isNumeral digits = true) : Legible "INTEGER" digits
  | everything : Legible "EVERYTHING" "_"
  | quoted {x : String} (named : isQuotable x = true) : Legible "IDENT_QUOTE" x

theorem isQuotable_no_underscore {x : String} (named : isQuotable x = true) : '_' ∉ x.toList := by
  obtain ⟨c, cs, heading, letter, more⟩ := isQuotable_iff.mp named
  rw [heading, List.mem_cons, not_or]
  constructor
  · rintro rfl
    exact absurd letter (by decide)
  · exact fun member => absurd (more _ member) (by decide)

section Legible

variable {label label' text text' b b' more : String} {rest : List Char}

theorem Legible.known (legible : Legible label text) : label ∈ argumentLabels := by
  cases legible with
  | synonym typed => simp [argumentLabels, nameLabels, typed]
  | line => decide
  | everything => decide
  | quoted => decide

theorem Legible.exists_head (legible : Legible label text) : ∃ c cs, text.toList = c :: cs := by
  cases legible with
  | synonym _ named =>
    obtain ⟨c, cs, heading, -⟩ := isQuotable_iff.mp named
    exact ⟨c, cs, heading⟩
  | line numeral =>
    obtain ⟨c, cs, heading, -⟩ := isNumeral_iff.mp numeral
    exact ⟨c, cs, heading⟩
  | everything => exact ⟨'_', [], rfl⟩
  | quoted named =>
    obtain ⟨c, cs, heading, -⟩ := isQuotable_iff.mp named
    exact ⟨c, cs, heading⟩

/-- What starts with a letter has the label of a name. -/
theorem Legible.of_letter (legible : Legible label text) {c : Char} {cs : List Char}
    (heading : text.toList = c :: cs) (letter : isLetter c = true)
    : label ∈ nameLabels := by
  cases legible with
  | synonym typed => exact List.mem_cons_of_mem _ typed
  | quoted => decide
  | line numeral =>
    obtain ⟨d, ds, heading', digits⟩ := isNumeral_iff.mp numeral
    rw [heading] at heading'
    obtain ⟨rfl, -⟩ := List.cons.inj heading'
    rw [not_isLetter_of_isDigit (digits c (by simp))] at letter
    cases letter
  | everything =>
    obtain ⟨rfl, -⟩ := List.cons.inj heading
    cases letter

/-- An underscore makes up the whole of a text. -/
theorem Legible.length_of_underscore (legible : Legible label text) (member : '_' ∈ text.toList)
    : text.toList.length = 1 := by
  cases legible with
  | synonym _ named => exact absurd member (isQuotable_no_underscore named)
  | quoted named => exact absurd member (isQuotable_no_underscore named)
  | everything => rfl
  | line numeral =>
    obtain ⟨d, ds, heading, digits⟩ := isNumeral_iff.mp numeral
    exact absurd (digits _ (heading ▸ member)) (by decide)

/-- A name is not made up of another argument with its label and something more. -/
theorem Legible.name_not_longer (legible : Legible label text) (named : isQuotable text' = true)
    (isName : label' = "IDENT_QUOTE"
      ∨ label' ∈ entityLabels ∧ ∀ label ∈ entityLabels, occursIn label text' = false)
    (second : Legible more b) (nonempty : rest ≠ [])
    (longer : text'.toList = text.toList ++ rest)
    (same : label.toList ++ b.toList = rest ++ (label'.toList ++ b'.toList))
    : False := by
  obtain ⟨c, cs, heading⟩ := legible.exists_head
  have letter : isLetter c = true := by
    obtain ⟨d, ds, heading', letter, -⟩ := isQuotable_iff.mp named
    rw [longer, heading, List.cons_append] at heading'
    obtain ⟨rfl, -⟩ := List.cons.inj heading'
    exact letter
  have known : label ∈ nameLabels := legible.of_letter heading letter
  have known' : label' ∈ nameLabels := by
    rcases isName with rfl | ⟨typed, -⟩
    · decide
    · exact List.mem_cons_of_mem _ typed
  -- the label does not fit into the name
  have outside (back : List Char) (split : rest = label.toList ++ back)
      (same : b.toList = back ++ (label'.toList ++ b'.toList)) : False := by
    have plain := isQuotable_no_underscore named
    rw [longer, split] at plain
    simp only [List.mem_append, not_or] at plain
    have typed : label ∈ entityLabels := by
      rcases List.mem_cons.mp known with rfl | typed
      · exact absurd (by decide) plain.2.1
      · exact typed
    rcases isName with rfl | ⟨-, free⟩
    · have single := second.length_of_underscore (by
        rw [same]
        simp only [List.mem_append]
        exact .inr (.inl (by decide)))
      rw [same] at single
      simp at single
      omega
    · refine absurd ?_ (Bool.eq_false_iff.mp (free label typed))
      rw [occursIn_iff, longer, split]
      exact ⟨text.toList, back, by simp⟩
  rcases List.append_eq_append_iff.mp same with ⟨back, split, same'⟩ | ⟨back, split, same'⟩
  · exact outside back split same'
  · by_cases empty : back = []
    · subst empty
      exact outside [] (by simpa using split.symm) (by simpa using same'.symm)
    · obtain ⟨apart, apart'⟩ := label_not_inside known known' split nonempty empty
      have whole : back <+: label'.toList ++ b'.toList := ⟨_, same'.symm⟩
      rcases List.prefix_or_prefix_of_prefix whole (List.prefix_append ..) with front | front
      · exact apart front
      · exact apart' front

/-- No argument is made up of another one with its label and something more. -/
theorem Legible.not_longer (legible : Legible label text)
    (legible' : Legible label' text') (second : Legible more b)
    (longer : text'.toList = text.toList ++ rest)
    (same : label.toList ++ b.toList = rest ++ (label'.toList ++ b'.toList))
    : rest = [] := by
  by_contra nonempty
  cases legible' with
  | synonym typed named free =>
    exact legible.name_not_longer named (.inr ⟨typed, free⟩) second nonempty longer same
  | quoted named => exact legible.name_not_longer named (.inl rfl) second nonempty longer same
  | everything =>
    obtain ⟨c, cs, heading⟩ := legible.exists_head
    rw [heading, List.cons_append] at longer
    obtain ⟨-, nothing⟩ := List.cons.inj longer
    exact nonempty (List.append_eq_nil_iff.mp nothing.symm).2
  | line numeral =>
    -- the label starts with a letter and the rest of the number with a digit
    obtain ⟨d, ds, heading, digits⟩ := isNumeral_iff.mp numeral
    obtain ⟨e, es, rfl⟩ := List.exists_cons_of_ne_nil nonempty
    have digit : isDigit e = true := by
      refine digits e ?_
      rw [← heading, longer]
      simp
    have starts : ∀ label ∈ argumentLabels, label.toList.head?.any isDigit = false := by decide
    have first : e ∈ label.toList.head? := by
      have nonempty : label.toList ≠ [] := by
        have filled : ∀ label ∈ argumentLabels, label.toList ≠ [] := by decide
        exact filled label legible.known
      obtain ⟨c, cs, spelled⟩ := List.exists_cons_of_ne_nil nonempty
      rw [spelled, List.cons_append, List.cons_append] at same
      obtain ⟨rfl, -⟩ := List.cons.inj same
      simp [spelled]
    rw [(Option.any_eq_false _ _).mp (starts label legible.known) e first] at digit
    cases digit

/-- Two arguments with their labels can be found again in what they make up. -/
theorem Legible.inj {first first' second second' a a' : String} (isFirst : Legible first a)
    (isFirst' : Legible first' a') (isSecond : Legible second b) (isSecond' : Legible second' b')
    (same : (a ++ first ++ (b ++ second)).toList = (a' ++ first' ++ (b' ++ second')).toList)
    : (first = first' ∧ a = a') ∧ second = second' ∧ b = b' := by
  simp only [String.toList_append] at same
  have back : second = second' := by
    have suffix : second.toList <:+ a.toList ++ first.toList ++ (b.toList ++ second.toList) :=
      ⟨_, List.append_assoc ..⟩
    have suffix' : second'.toList <:+ a.toList ++ first.toList ++ (b.toList ++ second.toList) := by
      rw [same]
      exact ⟨_, List.append_assoc ..⟩
    rcases List.suffix_or_suffix_of_suffix suffix suffix' with inside | inside
    · exact suffix_label isSecond.known isSecond'.known inside
    · exact (suffix_label isSecond'.known isSecond.known inside).symm
  subst back
  have same : a.toList ++ (first.toList ++ b.toList) = a'.toList ++ (first'.toList ++ b'.toList) := by
    simpa only [← List.append_assoc, List.append_cancel_right_eq] using same
  have text : a.toList = a'.toList := by
    rcases List.append_eq_append_iff.mp same with ⟨rest, longer, same'⟩ | ⟨rest, longer, same'⟩
    · rw [longer, isFirst.not_longer isFirst' isSecond longer same', List.append_nil]
    · rw [longer, isFirst'.not_longer isFirst isSecond' longer same', List.append_nil]
  have same : first.toList ++ b.toList = first'.toList ++ b'.toList := by
    rwa [text, List.append_cancel_left_eq] at same
  have label : first = first' := by
    have whole : first'.toList <+: first.toList ++ b.toList := ⟨_, same.symm⟩
    rcases List.prefix_or_prefix_of_prefix (List.prefix_append ..) whole with inside | inside
    · exact prefix_label isFirst.known isFirst'.known inside
    · exact (prefix_label isFirst'.known isFirst.known inside).symm
  subst label
  rw [List.append_cancel_left_eq] at same
  exact ⟨⟨rfl, String.toList_inj.mp text⟩, rfl, String.toList_inj.mp same⟩

end Legible

end ProgramQuery
