import ProgramQuery.Proofs.Program.Tokens
import ProgramQuery.Query.Token

/-! Tokens of queries that are read back where they stand. The kinds are tried in one fixed order, so a
token is found if its own kind takes it and all earlier kinds leave it.
-/

namespace ProgramQuery.Query

open Text

def TokenKind.spelling? : TokenKind → Option String
  | .select => some "Select"
  | .suchThat => some "such that"
  | .pattern => some "pattern"
  | .plus => some "+"
  | .minus => some "-"
  | .multiply => some "*"
  | .relation r => some r.spelling
  | .affects => some "Affects"
  | .affectsStar => some "Affects*"
  | .lessThan => some "<"
  | .openParenthesis => some "("
  | .closeParenthesis => some ")"
  | .semicolon => some ";"
  | .equals => some "="
  | .everything => some "_"
  | .attr => none
  | .declaration => none
  | .boolean => some "BOOLEAN"
  | .withWord => some "with"
  | .andWord => some "and"
  | .quotedName => none
  | .quote => some "\""
  | .name => none
  | .integer => none
  | .comma => some ","
  | .dot => some "."

def isQuotable (x : String) : Bool :=
  match x.toList with
  | [] => false
  | c :: cs => isLetter c && cs.all isNameChar

theorem isQuotable_iff {x : String}
    : isQuotable x = true ↔ ∃ c cs, x.toList = c :: cs ∧ isLetter c ∧ ∀ d ∈ cs, isNameChar d := by
  unfold isQuotable
  cases x.toList <;> simp

def inQuotes (x : String) : String :=
  "\"" ++ x ++ "\""

/-- Tokens as they are printed, without blanks. -/
inductive Token.Printed : Token → Prop
  | fixed {kind : TokenKind} {text : String} (spelled : kind.spelling? = some text)
    (unstarred : kind ≠ .affectsStar) (noDot : kind ≠ .dot)
    : Printed ⟨kind, text⟩
  | name {x : String} (synonym : isSynonym x = true) : Printed ⟨.name, x⟩
  | integer {digits : String} (numeral : isNumeral digits = true) : Printed ⟨.integer, digits⟩
  | quotedName {x : String} (quotable : isQuotable x = true) : Printed ⟨.quotedName, inQuotes x⟩
  | attr {word : String} (known : word ∈ attributeWords) : Printed ⟨.attr, "." ++ word⟩
  | declaration {word : String} (known : word ∈ entityWords) : Printed ⟨.declaration, word⟩

theorem TokenKind.recognise_of_spelling {kind : TokenKind} {text : String}
    (spelled : kind.spelling? = some text)
    : kind.recognise = .word text := by
  cases kind <;> cases spelled <;> rfl

/-- What may come after a printed token. -/
def Apart (rest : List Char) : Prop :=
  ∀ c ∈ rest.head?, c = ' ' ∨ c = '.' ∨ c = '"'

/-- Whether a word starts neither a text nor what it goes on with. -/
def keepsOff (word text : List Char) : Bool :=
  !word.isPrefixOf text && [' ', '.', '"'].all fun c => !(text ++ [c]).isPrefixOf word

theorem not_prefix_of_keepsOff {word text rest : List Char} (off : keepsOff word text = true)
    (apart : Apart rest)
    : ¬ word <+: text ++ rest := by
  simp only [keepsOff, List.all_eq_true, Bool.and_eq_true, Bool.not_eq_true', ← Bool.not_eq_true,
    List.isPrefixOf_iff_prefix] at off
  obtain ⟨notText, notBeyond⟩ := off
  intro front
  rcases List.prefix_or_prefix_of_prefix front (List.prefix_append text rest) with inside | beyond
  · exact notText inside
  · obtain ⟨more, rfl⟩ := beyond
    rw [List.prefix_append_right_inj] at front
    cases more with
    | nil => simp at notText
    | cons c more =>
      obtain ⟨tail, rfl⟩ := front
      exact notBeyond c (by simpa using apart c (by simp)) (by simp)

/-- A word that is one sign or goes on with a letter after its first character. -/
def isWordLike : List Char → Bool
  | [] => false
  | [c] => !isLetter c
  | _ :: d :: _ => isLetter d

theorem not_prefix_digits {c : Char} {word digits rest : List Char} (letter : isLetter c = true)
    (areDigits : ∀ d ∈ digits, isDigit d) (apart : Apart rest)
    : ¬ c :: word <+: digits ++ rest := by
  intro front
  cases digits with
  | nil =>
    obtain ⟨tail, rfl⟩ := front
    rcases apart c (by simp) with rfl | rfl | rfl <;> exact absurd letter (by decide)
  | cons d digits =>
    obtain ⟨rfl, -⟩ := List.cons_prefix_cons.mp front
    simp [not_isLetter_of_isDigit (areDigits c (by simp))] at letter

/-- No word starts a synonym, since there are digits or nothing after its first letter. -/
theorem not_prefix_synonym {word rest : List Char} (wordLike : isWordLike word = true) {x : String}
    (synonym : isSynonym x = true) (apart : Apart rest)
    : ¬ word <+: x.toList ++ rest := by
  obtain ⟨c, ds, heading, letter, digits⟩ := isSynonym_iff.mp synonym
  rw [heading, List.cons_append]
  intro front
  match word, wordLike with
  | [a], sign =>
    obtain ⟨rfl, -⟩ := List.cons_prefix_cons.mp front
    simp [isWordLike, letter] at sign
  | a :: b :: more, goesOn =>
    exact not_prefix_digits goesOn digits apart (List.cons_prefix_cons.mp front).2

def TokenKind.earlier (kind : TokenKind) : List TokenKind :=
  TokenKind.all.takeWhile (· != kind)

theorem TokenKind.all_eq (kind : TokenKind)
    : ∃ later, TokenKind.all = kind.earlier ++ kind :: later := by
  cases kind
  case relation r => cases r <;> exact ⟨_, rfl⟩
  all_goals exact ⟨_, rfl⟩

theorem TokenKind.not_earlier {kind before : TokenKind} (earlier : before ∈ kind.earlier)
    (absent : kind.earlier.contains before = false)
    : False := by
  rw [List.contains_iff_mem.mpr earlier] at absent
  cases absent

/-- How the text of a kind begins. -/
theorem TokenKind.spelling_head {kind : TokenKind} {text : String}
    (spelled : kind.spelling? = some text)
    : isWordLike text.toList = true
      ∧ ∃ c cs, text.toList = c :: cs ∧ isBlank c = false ∧ isDigit c = false
        ∧ (c = '"' → kind = .quote) ∧ (c = '.' → kind = .dot)
        ∧ (TokenKind.name ∈ kind.earlier → isLetter c = false) := by
  cases kind
  case relation r => cases r <;> cases spelled <;> exact ⟨by decide, _, _, rfl, by decide⟩
  all_goals cases spelled
  all_goals exact ⟨by decide, _, _, rfl, by decide⟩

/-- No text of a kind begins with that of an earlier kind. -/
theorem TokenKind.keepsOff_of_earlier {kind before : TokenKind} {text word : String}
    (spelled : kind.spelling? = some text) (unstarred : kind ≠ .affectsStar)
    (earlier : before ∈ kind.earlier) (spelled' : before.spelling? = some word)
    : keepsOff word.toList text.toList = true := by
  have checked : kind.earlier.all (fun before =>
      before.spelling?.all fun word => keepsOff word.toList text.toList) = true := by
    cases kind
    case relation r => cases r <;> cases spelled <;> decide
    case affectsStar => exact absurd rfl unstarred
    all_goals cases spelled
    all_goals decide
  have own := List.all_eq_true.mp checked before earlier
  rw [spelled'] at own
  exact own

/-- How the types in declarations begin, and that they begin with no earlier kind and no attribute. -/
theorem entityWord_head {word : String} (known : word ∈ entityWords)
    : ∃ c cs, word.toList = c :: cs ∧ (isLetter c ∧ isWordLike (c :: cs) = true)
      ∧ (∀ w ∈ attributeWords, keepsOff w.toList (c :: cs) = true ∧ keepsOff w.toList cs = true)
      ∧ ∀ before ∈ TokenKind.declaration.earlier, ∀ text, before.spelling? = some text →
          keepsOff text.toList (c :: cs) = true := by
  have checked : entityWords.all (fun word =>
      (isLetter (word.toList.headD ' ') && isWordLike word.toList)
      && attributeWords.all (fun w => keepsOff w.toList word.toList
        && keepsOff w.toList word.toList.tail)
      && TokenKind.declaration.earlier.all (fun before =>
        before.spelling?.all fun text => keepsOff text.toList word.toList)) = true := by
    decide
  have own := List.all_eq_true.mp checked word known
  simp only [Bool.and_eq_true, List.all_eq_true] at own
  obtain ⟨⟨letter, attributes⟩, fixed⟩ := own
  cases heading : word.toList with
  | nil =>
    rw [heading] at letter
    exact absurd letter (by decide)
  | cons c cs =>
    rw [heading] at letter attributes fixed
    refine ⟨c, cs, rfl, letter, attributes, fun before earlier text spelled => ?_⟩
    have own := fixed before earlier
    rwa [spelled] at own

section Refused

variable {t : Token} {gap rest as : List Char} {a : Char} {before : TokenKind}

theorem Token.Printed.head (printed : t.Printed)
    : ∃ c cs, t.text.toList = c :: cs ∧ isBlank c = false := by
  have plain {c : Char} (isPlain : isLetterOrDigit c = true) := not_isBlank_of_isLetterOrDigit isPlain
  cases printed with
  | fixed spelled _ _ =>
    obtain ⟨-, c, cs, heading, solid, -⟩ := TokenKind.spelling_head spelled
    exact ⟨c, cs, heading, solid⟩
  | name synonym =>
    obtain ⟨c, ds, heading, letter, -⟩ := isSynonym_iff.mp synonym
    exact ⟨c, ds, heading, plain (by simp [isLetterOrDigit, letter])⟩
  | integer numeral =>
    obtain ⟨c, ds, heading, digits⟩ := isNumeral_iff.mp numeral
    exact ⟨c, ds, heading, plain (by simp [isLetterOrDigit, digits c (by simp)])⟩
  | @quotedName x _ => exact ⟨'"', x.toList ++ ['"'], by simp [inQuotes], by decide⟩
  | @attr word _ => exact ⟨'.', word.toList, by simp, by decide⟩
  | declaration known =>
    obtain ⟨c, cs, heading, ⟨letter, -⟩, -⟩ := entityWord_head known
    exact ⟨c, cs, heading, plain (by simp [isLetterOrDigit, letter])⟩

theorem forall_head?_cons {p : Char → Bool} {c : Char} {cs : List Char} (refused : p c = false)
    : ∀ d ∈ (c :: cs).head?, p d = false := by
  simpa using refused

theorem not_prefix_of_head {c d : Char} {word text : List Char} (differs : c ≠ d)
    : ¬ c :: word <+: d :: text ++ rest :=
  fun front => differs (List.cons_prefix_cons.mp front).1

/-- A word does not start a printed token if it is told from it by its first characters. -/
theorem Token.Printed.not_prefix (printed : t.Printed) (apart : Apart rest)
    (wordLike : isWordLike (a :: as) = true) (noDigit : isDigit a = false)
    (quote : a = '"' → t.kind ≠ .quotedName) (dot : a = '.' → t.kind ≠ .attr)
    (fixed : t.kind.spelling? = some t.text → t.kind ≠ .affectsStar →
      keepsOff (a :: as) t.text.toList = true)
    (typed : t.kind = .declaration → t.text ∈ entityWords → keepsOff (a :: as) t.text.toList = true)
    : ¬ a :: as <+: t.text.toList ++ rest := by
  cases printed with
  | fixed spelled unstarred _ => exact not_prefix_of_keepsOff (fixed spelled unstarred) apart
  | name synonym => exact not_prefix_synonym wordLike synonym apart
  | integer numeral =>
    obtain ⟨c, ds, heading, digits⟩ := isNumeral_iff.mp numeral
    rw [heading]
    refine not_prefix_of_head ?_
    rintro rfl
    simp [digits a (by simp)] at noDigit
  | @quotedName x _ =>
    have start : (inQuotes x).toList = '"' :: (x.toList ++ ['"']) := by simp [inQuotes]
    rw [start]
    exact not_prefix_of_head fun same => quote same rfl
  | @attr word _ =>
    have start : ("." ++ word).toList = '.' :: word.toList := by simp
    rw [start]
    exact not_prefix_of_head fun same => dot same rfl
  | declaration known => exact not_prefix_of_keepsOff (typed rfl known) apart

/-- A printed token does not begin with the text of an earlier kind. -/
theorem Token.Printed.not_startsWith (printed : t.Printed) {before : TokenKind} {text : String}
    (spelled : before.spelling? = some text) (earlier : before ∈ t.kind.earlier)
    (apart : Apart rest)
    : ¬ text.toList <+: t.text.toList ++ rest := by
  obtain ⟨wordLike, a, as, beginning, -, noDigit, quote, dot, -⟩ := TokenKind.spelling_head spelled
  rw [beginning] at wordLike ⊢
  refine printed.not_prefix apart wordLike noDigit ?_ ?_ ?_ ?_
  · intro same kind
    rw [quote same, kind] at earlier
    exact TokenKind.not_earlier earlier rfl
  · intro same kind
    rw [dot same, kind] at earlier
    exact TokenKind.not_earlier earlier rfl
  · intro spelled' unstarred
    exact beginning ▸ TokenKind.keepsOff_of_earlier spelled' unstarred earlier spelled
  · intro kind known
    obtain ⟨c, cs, heading, -, -, fixed⟩ := entityWord_head known
    rw [heading, ← beginning]
    exact fixed before (kind ▸ earlier) text spelled

/-- What stands in front of a printed token: one space, or nothing before an attribute, at the start,
after a declared type and at the quotes around an expression. -/
def Token.Gap (t : Token) (gap : List Char) : Prop :=
  (gap = [' '] ∧ t.kind ≠ .attr)
    ∨ (gap = []
      ∧ t.kind ∈ [.attr, .declaration, .select, .name, .semicolon, .integer, .openParenthesis, .quote])

theorem Token.Gap.blank (isGap : t.Gap gap) : ∀ c ∈ gap, isBlank c := by
  rcases isGap with ⟨rfl, -⟩ | ⟨rfl, -⟩ <;> exact forall_mem_of_all (by decide)

theorem attr_refuses {cs : List Char} (others : ∀ w ∈ attributeWords, ¬ w.toList <+: cs.tail)
    : TokenKind.attr.recognise cs = none := by
  refine List.findSome?_eq_none_iff.mpr fun r member => ?_
  obtain ⟨w, known, rfl⟩ := List.mem_map.mp member
  unfold Recogniser.seq
  cases cs with
  | nil => rfl
  | cons c cs =>
    simp only [Recogniser.one]
    split
    · rfl
    · next accepted =>
      split at accepted <;> cases accepted
      have other : ¬ w.toList <+: cs := others w known
      rw [Recogniser.literal_none other]

theorem declaration_refuses {cs : List Char} (blank : ∀ c ∈ gap, isBlank c)
    (solid : ∀ c ∈ cs.head?, isBlank c = false) (others : ∀ w ∈ entityWords, ¬ w.toList <+: cs)
    : TokenKind.declaration.recognise (gap ++ cs) = none := by
  refine List.findSome?_eq_none_iff.mpr fun r member => ?_
  obtain ⟨w, known, rfl⟩ := List.mem_map.mp member
  unfold Recogniser.seq Recogniser.word
  rw [Recogniser.spaced_append_none blank solid (Recogniser.literal_none (others w known))]

/-- A kind refuses what begins with none of its texts. -/
theorem TokenKind.refuses {c : Char} {cs : List Char}
    (blank : ∀ c ∈ gap, isBlank c) (solid : isBlank c = false)
    (fixed : ∀ text, before.spelling? = some text → ¬ text.toList <+: c :: cs)
    (attr : before = .attr → ∀ w ∈ attributeWords, ¬ w.toList <+: (gap ++ c :: cs).tail)
    (type : before = .declaration → ∀ w ∈ entityWords, ¬ w.toList <+: c :: cs)
    (quoted : before = .quotedName → c ≠ '"')
    (name : before = .name → isLetter c = false) (integer : before = .integer → isDigit c = false)
    : before.recognise (gap ++ c :: cs) = none := by
  have front : ∀ d ∈ (c :: cs).head?, isBlank d = false := by simpa using solid
  cases own : before.spelling? with
  | some text =>
    rw [TokenKind.recognise_of_spelling own]
    exact Recogniser.spaced_append_none blank front (Recogniser.literal_none (fixed text own))
  | none =>
    cases before with
    | attr => exact attr_refuses (attr rfl)
    | declaration => exact declaration_refuses blank front (type rfl)
    | quotedName =>
      have opening : Recogniser.word "\"" (gap ++ c :: cs) = none := by
        refine Recogniser.spaced_append_none blank front (Recogniser.literal_none fun front => ?_)
        exact quoted rfl (List.cons_prefix_cons.mp front).1.symm
      simp only [TokenKind.recognise, Recogniser.seq, opening]
    | name => exact Recogniser.spaced_append_none blank front (by simp [Recogniser.run, name])
    | integer => exact Recogniser.spaced_append_none blank front (by simp [Recogniser.run, integer])
    | _ => cases own

theorem attributeWord_wordLike {w : String} (known : w ∈ attributeWords)
    : isWordLike w.toList = true ∧ ∃ c cs, w.toList = c :: cs ∧ isLetter c := by
  have checked : attributeWords.all (fun w =>
      isWordLike w.toList && isLetter (w.toList.headD ' ')) = true := by
    decide
  have own := List.all_eq_true.mp checked w known
  rw [Bool.and_eq_true] at own
  cases heading : w.toList with
  | nil =>
    rw [heading] at own
    exact absurd own.2 (by decide)
  | cons c cs =>
    rw [heading] at own
    exact ⟨own.1, c, cs, rfl, own.2⟩

/-- No text of a kind begins with an attribute or a declared type. -/
theorem TokenKind.keepsOff_words {kind : TokenKind} {text : String}
    (spelled : kind.spelling? = some text)
    : (∀ w ∈ attributeWords, keepsOff w.toList text.toList = true)
      ∧ ∀ w ∈ entityWords, keepsOff w.toList text.toList = true := by
  have checked : (attributeWords ++ entityWords).all (fun w => keepsOff w.toList text.toList)
      = true := by
    cases kind
    case relation r => cases r <;> cases spelled <;> decide
    all_goals cases spelled
    all_goals decide
  simpa only [List.all_append, Bool.and_eq_true, List.all_eq_true] using checked

/-- A word that begins with a letter is told from numbers, quotes and dots by it. -/
theorem Token.Printed.not_prefix_letter (printed : t.Printed) (apart : Apart rest)
    (wordLike : isWordLike (a :: as) = true) (letter : isLetter a = true)
    (fixed : t.kind.spelling? = some t.text → keepsOff (a :: as) t.text.toList = true)
    (typed : t.kind = .declaration → t.text ∈ entityWords → keepsOff (a :: as) t.text.toList = true)
    : ¬ a :: as <+: t.text.toList ++ rest := by
  refine printed.not_prefix apart wordLike ?_ ?_ ?_ (fun spelled _ => fixed spelled) typed
  · by_contra digit
    rw [not_isLetter_of_isDigit (by simpa using digit)] at letter
    cases letter
  · rintro rfl
    exact absurd letter (by decide)
  · rintro rfl
    exact absurd letter (by decide)

theorem Token.Printed.not_attribute (printed : t.Printed) (apart : Apart rest) {w : String}
    (known : w ∈ attributeWords)
    : ¬ w.toList <+: t.text.toList ++ rest := by
  obtain ⟨wordLike, a, as, beginning, letter⟩ := attributeWord_wordLike known
  rw [beginning] at wordLike ⊢
  refine printed.not_prefix_letter apart wordLike letter ?_ ?_ <;> rw [← beginning]
  · exact fun spelled => (TokenKind.keepsOff_words spelled).1 w known
  · intro _ known'
    obtain ⟨c, cs, heading, -, attributes, -⟩ := entityWord_head known'
    rw [heading]
    exact (attributes w known).1

/-- A printed token is not taken for an attribute. -/
theorem Token.Printed.not_attribute_behind (printed : t.Printed) (isGap : t.Gap gap)
    (later : TokenKind.attr ∈ t.kind.earlier) (apart : Apart rest) {w : String}
    (known : w ∈ attributeWords)
    : ¬ w.toList <+: (gap ++ (t.text.toList ++ rest)).tail := by
  obtain ⟨-, a, as, beginning, letter⟩ := attributeWord_wordLike known
  rcases isGap with ⟨rfl, -⟩ | ⟨rfl, tight⟩
  · exact printed.not_attribute apart known
  · rw [List.nil_append]
    cases printed with
    | fixed spelled _ _ =>
      simp only [List.mem_cons, List.not_mem_nil, or_false] at tight
      rcases tight with rfl | rfl | rfl | rfl | rfl | rfl | rfl | rfl <;> cases spelled
      · exact (TokenKind.not_earlier later rfl).elim
      · exact (TokenKind.not_earlier later rfl).elim
      · exact (TokenKind.not_earlier later rfl).elim
      · rw [beginning]
        exact not_prefix_digits letter (by simp) apart
    | name synonym =>
      obtain ⟨c, ds, heading, -, digits⟩ := isSynonym_iff.mp synonym
      rw [heading, List.cons_append, List.tail_cons, beginning]
      exact not_prefix_digits letter digits apart
    | integer numeral =>
      obtain ⟨c, ds, heading, digits⟩ := isNumeral_iff.mp numeral
      rw [heading, List.cons_append, List.tail_cons, beginning]
      exact not_prefix_digits letter (fun d member => digits d (by simp [member])) apart
    | quotedName _ => simp at tight
    | attr _ => exact (TokenKind.not_earlier later rfl).elim
    | declaration known' =>
      obtain ⟨c, cs, heading, -, attributes, -⟩ := entityWord_head known'
      rw [heading, List.cons_append, List.tail_cons]
      exact not_prefix_of_keepsOff (attributes w known).2 apart

theorem Token.Printed.not_type (printed : t.Printed) (later : TokenKind.declaration ∈ t.kind.earlier)
    (apart : Apart rest) {w : String} (known : w ∈ entityWords)
    : ¬ w.toList <+: t.text.toList ++ rest := by
  obtain ⟨a, as, beginning, ⟨letter, wordLike⟩, -⟩ := entityWord_head known
  rw [beginning]
  refine printed.not_prefix_letter apart wordLike letter ?_ ?_
  · exact fun spelled => beginning ▸ (TokenKind.keepsOff_words spelled).2 w known
  · intro kind
    rw [kind] at later
    exact (TokenKind.not_earlier later rfl).elim

/-- How no printed token begins whose kind comes after those of quoted names, names and integers. -/
theorem Token.Printed.head_later (printed : t.Printed) {c : Char} {cs : List Char}
    (heading : t.text.toList = c :: cs)
    : (TokenKind.quotedName ∈ t.kind.earlier → c = '"' → t = ⟨.quote, "\""⟩)
      ∧ (TokenKind.name ∈ t.kind.earlier → isLetter c = false)
      ∧ (TokenKind.integer ∈ t.kind.earlier → isDigit c = false) := by
  cases printed with
  | fixed spelled _ _ =>
    obtain ⟨-, d, ds, heading', -, noDigit, quote, -, name⟩ := TokenKind.spelling_head spelled
    obtain ⟨rfl, -⟩ := List.cons.inj (heading.symm.trans heading')
    refine ⟨fun _ same => ?_, name, fun _ => noDigit⟩
    obtain rfl := quote same
    cases spelled
    rfl
  | name synonym =>
    obtain ⟨d, ds, heading', letter, -⟩ := isSynonym_iff.mp synonym
    obtain ⟨rfl, -⟩ := List.cons.inj (heading.symm.trans heading')
    refine ⟨fun _ same => absurd (same ▸ letter) (by decide), fun later => ?_, fun later => ?_⟩
    all_goals exact (TokenKind.not_earlier later rfl).elim
  | integer numeral =>
    obtain ⟨d, ds, heading', digits⟩ := isNumeral_iff.mp numeral
    obtain ⟨rfl, -⟩ := List.cons.inj (heading.symm.trans heading')
    have digit : isDigit c = true := digits c (by simp)
    refine ⟨fun _ same => absurd (same ▸ digit) (by decide), ?_, fun later => ?_⟩
    · exact fun _ => not_isLetter_of_isDigit digit
    · exact (TokenKind.not_earlier later rfl).elim
  | quotedName _ | attr _ | declaration _ =>
    refine ⟨fun later _ => ?_, fun later => ?_, fun later => ?_⟩
    all_goals exact (TokenKind.not_earlier later rfl).elim

theorem quote_taken (blank : ∀ c ∈ gap, isBlank c)
    : Recogniser.word "\"" (gap ++ '"' :: rest) = some (gap ++ ['"'], rest) :=
  Recogniser.spaced_append blank (forall_head?_cons (by decide)) (Recogniser.literal_append ['"'] rest)

theorem quotedName_taken (blank : ∀ c ∈ gap, isBlank c) {x : String} (quotable : isQuotable x = true)
    : TokenKind.quotedName.recognise (gap ++ '"' :: (x.toList ++ '"' :: rest))
      = some (gap ++ ['"'] ++ (x.toList ++ ['"']), rest) := by
  obtain ⟨c, cs, heading, letter, more⟩ := isQuotable_iff.mp quotable
  have inside : Recogniser.run isLetter isNameChar (x.toList ++ '"' :: rest)
      = some (x.toList, '"' :: rest) := by
    rw [heading]
    exact Recogniser.run_append letter more (forall_head?_cons (by decide))
  have closing := Recogniser.literal_append ['"'] rest
  rw [List.singleton_append] at closing
  simp only [TokenKind.recognise, Recogniser.seq, quote_taken blank, inside, closing]

/-- No quoted name is found where no name with a closing quote comes after a quote. -/
theorem quotedName_refuses (blank : ∀ c ∈ gap, isBlank c)
    (lone : ∀ word more, Recogniser.run isLetter isNameChar rest = some (word, more) →
      more.head? ≠ some '"')
    : TokenKind.quotedName.recognise (gap ++ '"' :: rest) = none := by
  simp only [TokenKind.recognise, Recogniser.seq, quote_taken blank]
  cases inside : Recogniser.run isLetter isNameChar rest with
  | none => rfl
  | some result =>
    obtain ⟨word, more⟩ := result
    have other : ¬ ['"'] <+: more := by
      intro ⟨tail, closing⟩
      exact lone word more inside (by simp [← closing])
    simp only [Recogniser.literal_none other]

theorem Apart.no_run (apart : Apart rest) : Recogniser.run isLetter isNameChar rest = none := by
  cases rest with
  | nil => rfl
  | cons d rest => rcases apart d (by simp) with rfl | rfl | rfl <;> rfl

/-- Every earlier kind leaves a printed token. -/
theorem Token.Printed.refused (printed : t.Printed) (isGap : t.Gap gap) (apart : Apart rest)
    (earlier : before ∈ t.kind.earlier)
    : before.recognise (gap ++ (t.text.toList ++ rest)) = none := by
  obtain ⟨c, cs, heading, solid⟩ := printed.head
  obtain ⟨quoted, name, integer⟩ := printed.head_later heading
  by_cases lone : before = .quotedName ∧ c = '"'
  · obtain ⟨rfl, isQuote⟩ := lone
    obtain rfl := quoted earlier isQuote
    exact quotedName_refuses isGap.blank (by simp [apart.no_run])
  · have fixed text spelled :=
      @Token.Printed.not_startsWith t rest printed before text spelled earlier apart
    have attr (isAttr : before = .attr) w known :=
      @Token.Printed.not_attribute_behind t gap rest printed isGap (isAttr ▸ earlier) apart w known
    have type (isType : before = .declaration) w known :=
      @Token.Printed.not_type t rest printed (isType ▸ earlier) apart w known
    rw [heading, List.cons_append] at fixed attr type ⊢
    exact TokenKind.refuses isGap.blank solid fixed attr type
      (fun isQuoted isQuote => lone ⟨isQuoted, isQuote⟩) (fun same => name (same ▸ earlier))
      fun same => integer (same ▸ earlier)

end Refused

theorem TokenKind.before_quote
    : ∀ kind ∈ TokenKind.quote.earlier,
        kind = .quotedName ∨ kind ∈ TokenKind.quotedName.earlier := by
  decide

/-- Apart from attributes nothing that comes before a quoted name begins with a quote. -/
theorem TokenKind.refuses_quote {gap cs : List Char} (blank : ∀ c ∈ gap, isBlank c)
    {before : TokenKind} (earlier : before ∈ TokenKind.quotedName.earlier)
    (other : before ≠ .attr)
    : before.recognise (gap ++ '"' :: cs) = none := by
  refine TokenKind.refuses blank (by decide) (fun text spelled front => ?_)
    (fun isAttr => absurd isAttr other) (fun _ w known front => ?_) ?_ (fun _ => by decide)
    fun _ => by decide
  · obtain ⟨-, c, _, heading, -, -, quote, -⟩ := TokenKind.spelling_head spelled
    rw [heading, List.cons_prefix_cons] at front
    rw [quote front.1] at earlier
    exact TokenKind.not_earlier earlier rfl
  · obtain ⟨c, _, heading, ⟨letter, -⟩, -⟩ := entityWord_head known
    rw [heading, List.cons_prefix_cons] at front
    exact absurd (front.1 ▸ letter) (by decide)
  · rintro rfl
    exact (TokenKind.not_earlier earlier rfl).elim

/-- Whether a kind takes nothing more where a character comes. -/
def TokenKind.stopsAt : TokenKind → Char → Bool
  | .name, c => !isNameChar c
  | .integer, c => !isDigit c
  | _, _ => true

section Found

variable {t : Token} {gap rest : List Char}

theorem not_isNameChar_of_apart (apart : Apart rest) : ∀ d ∈ rest.head?, isNameChar d = false := by
  intro d member
  rcases apart d member with rfl | rfl | rfl <;> decide

/-- No attribute begins with another, and neither does a declared type. -/
theorem not_prefix_of_words {words : List String} (which : words = attributeWords ∨ words = entityWords)
    {w w' : String} (known : w ∈ words) (known' : w' ∈ words) (differs : w ≠ w')
    : ¬ w.toList <+: w'.toList ++ rest := by
  have checked : ∀ words ∈ [attributeWords, entityWords], ∀ w ∈ words, ∀ w' ∈ words, w ≠ w' →
      w.toList.isPrefixOf w'.toList = false := by
    decide
  have apart {w w'} (known : w ∈ words) (known' : w' ∈ words) (differs : w ≠ w')
      : ¬ w.toList <+: w'.toList := by
    rw [← List.isPrefixOf_iff_prefix, checked words (by simpa using which) w known w' known' differs]
    decide
  intro front
  rcases List.prefix_or_prefix_of_prefix front (List.prefix_append _ rest) with inside | beyond
  · exact apart known known' differs inside
  · exact apart known' known differs.symm beyond

/-- A printed token other than a declared type is taken by its own kind. -/
theorem Token.Printed.taken (printed : t.Printed) (blank : ∀ c ∈ gap, isBlank c)
    (tight : t.kind = .attr → gap = []) (stops : ∀ c ∈ rest.head?, t.kind.stopsAt c = true)
    (noType : t.kind ≠ .declaration)
    : t.kind.recognise (gap ++ (t.text.toList ++ rest)) = some (gap ++ t.text.toList, rest) := by
  obtain ⟨c, cs, heading, solid⟩ := printed.head
  have front : ∀ d ∈ (t.text.toList ++ rest).head?, isBlank d = false := by
    simpa [heading] using solid
  cases printed with
  | fixed spelled _ _ =>
    rw [TokenKind.recognise_of_spelling spelled]
    exact Recogniser.spaced_append blank front (Recogniser.literal_append _ rest)
  | name synonym =>
    obtain ⟨d, ds, heading', letter, digits⟩ := isSynonym_iff.mp synonym
    refine Recogniser.spaced_append blank front ?_
    rw [heading']
    refine Recogniser.run_append letter (fun e member => ?_) fun e member => ?_
    · simp [isNameChar, isLetterOrDigit, digits e member]
    · simpa [TokenKind.stopsAt] using stops e member
  | integer numeral =>
    obtain ⟨d, ds, heading', digits⟩ := isNumeral_iff.mp numeral
    refine Recogniser.spaced_append blank front ?_
    rw [heading']
    refine Recogniser.run_append (digits d (by simp))
      (fun e member => digits e (by simp [member])) fun e member => ?_
    simpa [TokenKind.stopsAt] using stops e member
  | @quotedName x quotable =>
    have text : (inQuotes x).toList = '"' :: (x.toList ++ ['"']) := by simp [inQuotes]
    have taken := @quotedName_taken gap rest blank x quotable
    simpa [text] using taken
  | @attr word known =>
    obtain rfl := tight rfl
    have text : ("." ++ word).toList = '.' :: word.toList := by simp
    simp only [text, List.nil_append, List.cons_append]
    refine Recogniser.firstOf_map known (fun w known' differs => ?_) ?_
    · have other := @not_prefix_of_words rest _ (.inl rfl) w word known' known differs
      simp [Recogniser.seq, Recogniser.one, Recogniser.literal_none other]
    · simp [Recogniser.seq, Recogniser.one, Recogniser.literal_append]
  | declaration _ => exact absurd rfl noType

/-- A declared type is taken with the space after it. -/
theorem declaration_taken {word : String} (known : word ∈ entityWords)
    (blank : ∀ c ∈ gap, isBlank c)
    : TokenKind.declaration.recognise (gap ++ (word.toList ++ ' ' :: rest))
      = some (gap ++ word.toList ++ [' '], rest) := by
  obtain ⟨c, cs, heading, ⟨letter, -⟩, -⟩ := entityWord_head known
  have solid : isBlank c = false :=
    not_isBlank_of_isLetterOrDigit (by simp [isLetterOrDigit, letter])
  have front : ∀ d ∈ (word.toList ++ ' ' :: rest).head?, isBlank d = false := by
    simpa [heading] using solid
  refine Recogniser.firstOf_map known (fun w known' differs => ?_) ?_
  · have other := @not_prefix_of_words (' ' :: rest) _ (.inr rfl) w word known' known differs
    simp only [Recogniser.seq, Recogniser.word,
      Recogniser.spaced_append_none blank front (Recogniser.literal_none other)]
  · simp only [Recogniser.seq, Recogniser.word,
      Recogniser.spaced_append blank front (Recogniser.literal_append _ _)]
    rfl

variable {admitted : TokenKind → Bool} (all : ∀ kind, admitted kind = true)
include all

theorem Token.scan_eq_some {kind : TokenKind} {cs lexeme : List Char}
    (taken : kind.recognise cs = some (lexeme, rest))
    (refused : ∀ before ∈ kind.earlier, before.recognise cs = none)
    : Token.scan admitted cs = some (⟨kind, String.ofList lexeme⟩, rest) := by
  obtain ⟨later, order⟩ := kind.all_eq
  refine List.findSome?_eq_some_iff.mpr ⟨kind.earlier, kind, later, order, ?_, ?_⟩
  · simp only [all, if_true, taken]
  · intro before earlier
    simp only [all, if_true, refused before earlier]

/-- A printed token is read where it stands. -/
theorem Token.Printed.scan (printed : t.Printed) (isGap : t.Gap gap) (apart : Apart rest)
    (noType : t.kind ≠ .declaration)
    : Token.scan admitted (gap ++ (t.text.toList ++ rest))
      = some (⟨t.kind, String.ofList (gap ++ t.text.toList)⟩, rest) := by
  have tight (isAttr : t.kind = .attr) : gap = [] := by
    rcases isGap with ⟨-, other⟩ | ⟨tight, -⟩
    · exact absurd isAttr other
    · exact tight
  refine Token.scan_eq_some all (printed.taken isGap.blank tight (fun c member => ?_) noType)
    fun _ earlier => printed.refused isGap apart earlier
  cases t.kind <;> rcases apart c member with rfl | rfl | rfl <;> rfl

theorem Token.scan_declaration {word : String} (known : word ∈ entityWords)
    (isGap : Token.Gap ⟨.declaration, word⟩ gap)
    : Token.scan admitted (gap ++ (word.toList ++ ' ' :: rest))
      = some (⟨.declaration, String.ofList (gap ++ word.toList ++ [' '])⟩, rest) :=
  Token.scan_eq_some all (declaration_taken known isGap.blank) fun _ earlier =>
    (Token.Printed.declaration known).refused isGap (by simp [Apart]) earlier

section Quoted

variable (blank : ∀ c ∈ gap, isBlank c)
include blank

/-- A name in quotes is one token if it is not taken for an attribute. -/
theorem Token.scan_quotedName {x : String} (name : isName x = true)
    (refused : TokenKind.attr.recognise (gap ++ '"' :: (x.toList ++ '"' :: rest)) = none)
    : Token.scan admitted (gap ++ '"' :: (x.toList ++ '"' :: rest))
      = some (⟨.quotedName, String.ofList gap ++ inQuotes x⟩, rest) := by
  obtain ⟨c, ds, heading, letter, more⟩ := isName_iff.mp name
  have quotable : isQuotable x = true := isQuotable_iff.mpr
    ⟨c, ds, heading, letter, fun d member => by simp [isNameChar, more d member]⟩
  have text : String.ofList (gap ++ ['"'] ++ (x.toList ++ ['"'])) = String.ofList gap ++ inQuotes x := by
    rw [← String.toList_inj]
    simp [inQuotes]
  rw [← text]
  refine Token.scan_eq_some all (quotedName_taken blank quotable) fun before earlier => ?_
  by_cases attr : before = .attr
  · rw [attr, refused]
  · exact TokenKind.refuses_quote blank earlier attr

/-- A quote is read alone if neither an attribute nor a name with a closing quote comes after it. -/
theorem Token.scan_lone_quote
    (refused : TokenKind.attr.recognise (gap ++ '"' :: rest) = none)
    (lone : ∀ word more, Recogniser.run isLetter isNameChar rest = some (word, more) →
      more.head? ≠ some '"')
    : Token.scan admitted (gap ++ '"' :: rest)
      = some (⟨.quote, String.ofList (gap ++ ['"'])⟩, rest) := by
  refine Token.scan_eq_some all (quote_taken blank) fun before earlier => ?_
  rcases TokenKind.before_quote before earlier with rfl | earlier
  · exact quotedName_refuses blank lone
  · by_cases attr : before = .attr
    · rw [attr, refused]
    · exact TokenKind.refuses_quote blank earlier attr

end Quoted

theorem Token.scan_quote (isGap : Token.Gap ⟨.quote, "\""⟩ gap)
    (noAttribute : ∀ w ∈ attributeWords, ¬ w.toList <+: rest)
    (lone : ∀ word more, Recogniser.run isLetter isNameChar rest = some (word, more) →
      more.head? ≠ some '"')
    : Token.scan admitted (gap ++ '"' :: rest)
      = some (⟨.quote, String.ofList (gap ++ ['"'])⟩, rest) := by
  refine Token.scan_lone_quote all isGap.blank (attr_refuses fun w known front => ?_) lone
  rcases isGap with ⟨rfl, -⟩ | ⟨rfl, -⟩
  · obtain ⟨-, c, cs, heading, letter⟩ := attributeWord_wordLike known
    rw [heading, List.singleton_append, List.tail_cons, List.cons_prefix_cons] at front
    exact absurd (front.1 ▸ letter) (by decide)
  · exact noAttribute w known front

theorem Token.scan_nil : Token.scan admitted [] = none := by
  have refused (kind : TokenKind) : kind.recognise [] = none := by
    cases kind
    case relation r => cases r <;> rfl
    all_goals rfl
  exact List.findSome?_eq_none_iff.mpr fun kind _ => by simp only [all, if_true, refused]

end Found

end ProgramQuery.Query
