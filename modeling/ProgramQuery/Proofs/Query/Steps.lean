import ProgramQuery.Proofs.Query.Layout
import ProgramQuery.Proofs.Text.Spaces

/-! The query parser on the tokens of a text. What the parser does is said by the tokens before it, the
token that it took last and what it has recorded, so that no step depends on the layout of the text.
-/

namespace ProgramQuery.Query

open Text

structure Frame where
  declarations : Keyed (Option String)
  selected : String
  parts : List Tree

namespace ParserState

def Ahead (s : ParserState) : List Token → Prop
  | [] => s.next = none ∧ s.rest = []
  | t :: more => (∃ shown, s.next = some shown ∧ shown.Shows t) ∧ t.kind ≠ .dot ∧ Lexes s.rest more

/-- Where a parser stands: what it has recorded, which token it took last and which come next. -/
structure At (s : ParserState) (last : Option Token) (place : Frame × List Token) : Prop where
  declarations : s.declarations = place.1.declarations
  selected : s.selected = place.1.selected
  parts : s.parts = place.1.parts
  prev : ∀ t ∈ last, ∃ shown, s.prev = some shown ∧ shown.Shows t
  ahead : s.Ahead place.2

variable {s : ParserState} {last : Option Token} {t : Token} {tokens more : List Token}
  {frame : Frame}

/-- Unless a dot was taken, the next token is read off the input, whatever it is. -/
theorem ahead_advance (noDot : ∀ shown ∈ s.prev, shown.kind ≠ .dot) (lexes : Lexes s.rest tokens)
    : s.advance.Ahead tokens := by
  have free : ¬ s.prev.map (·.kind) = some .dot := by
    intro dot
    obtain ⟨shown, taken, isDot⟩ := Option.map_eq_some_iff.mp dot
    exact noDot shown taken isDot
  cases left : s.rest with
  | nil =>
    rw [left] at lexes
    cases lexes with
    | nil => simp [Ahead, advance, read, free, left, Token.scan_nil]
    | cons _ _ _ shorter _ => cases shorter
  | cons c cs =>
    rw [left] at lexes
    cases lexes with
    | cons found shows noDot' _ lexes =>
      simp only [Ahead, advance, read, free, left, decide_false, Bool.not_false, Bool.true_or,
        found]
      exact ⟨⟨_, rfl, shows⟩, noDot', lexes⟩

theorem Ahead.length_le (ahead : s.Ahead tokens) : tokens.length + 2 ≤ s.budget := by
  cases tokens with
  | nil => simp [budget]
  | cons t more =>
    have := ahead.2.2.length_le
    simp only [budget, List.length_cons]
    omega

/-- Reading a token records nothing. -/
theorem advance_kept (s : ParserState)
    : s.advance.declarations = s.declarations ∧ s.advance.selected = s.selected
      ∧ s.advance.parts = s.parts ∧ s.advance.prev = s.prev := by
  simp only [advance, read]
  split <;> exact ⟨rfl, rfl, rfl, rfl⟩

def shifted (s : ParserState) : ParserState :=
  { s with prev := s.next }.advance

/-- One thing that a parser does to the state. -/
inductive Step : ParserState → ParserState → Prop
  | shift (s : ParserState) : Step s s.shifted
  | declare (s : ParserState) (declarations : Keyed (Option String)) : Step s { s with declarations }
  | select (s : ParserState) (selected : String) : Step s { s with selected }

/-- No step adds to the parts. -/
theorem parts_of_steps {s' : ParserState} (steps : Relation.ReflTransGen Step s s')
    : s'.parts = s.parts := by
  induction steps with
  | refl => rfl
  | @tail b c _ last ih =>
    cases last with
    | shift => exact (advance_kept { b with prev := b.next }).2.2.1.trans ih
    | declare => exact ih
    | select => exact ih

theorem At.shift (here : s.At last (frame, t :: more))
    : ({ s with prev := s.next }.advance).At (some t) (frame, more) := by
  obtain ⟨declarations, selected, parts, -, ⟨shown, next, shows⟩, noDot, lexes⟩ := here
  have ahead : ({ s with prev := s.next }.advance).Ahead more := by
    refine ahead_advance (fun shown' taken => ?_) lexes
    obtain rfl : shown = shown' := by simpa [next] using taken
    rw [shows.kind]
    exact noDot
  obtain ⟨keptDeclarations, keptSelected, keptParts, keptPrev⟩ :=
    advance_kept { s with prev := s.next }
  refine ⟨keptDeclarations.trans declarations, keptSelected.trans selected, keptParts.trans parts,
    fun t' taken => ?_, ahead⟩
  cases taken
  exact ⟨shown, keptPrev.trans next, shows⟩

section Texts

variable {held : Option Token} {c d : Char}

/-- What the parser holds is a token as it is read off the text. -/
def Shown (held : Option Token) (t : Token) : Prop :=
  ∃ shown, held = some shown ∧ shown.Shows t

theorem At.taken {place : Frame × List Token} (here : s.At (some t) place) : Shown s.prev t :=
  here.prev t rfl

theorem At.coming (here : s.At last (frame, t :: more)) : Shown s.next t :=
  here.ahead.1

theorem Shown.titleOf_eq (isShown : Shown held t) : titleOf held = t.kind.title := by
  obtain ⟨shown, rfl, shows⟩ := isShown
  simp only [titleOf, shows.kind]

theorem Shown.plainText_eq (isShown : Shown held t) : plainText held = trim t.text := by
  obtain ⟨shown, rfl, shows⟩ := isShown
  obtain ⟨before, after, text, spaces⟩ := shows.text
  rw [plainText, rawText, text, trim_spaces spaces, String.ofList_toList]

theorem Shown.without_eq (isShown : Shown held t) (solid : c ≠ ' ')
    : trim (without c (rawText held)) = trim (without c t.text) := by
  obtain ⟨shown, rfl, shows⟩ := isShown
  obtain ⟨before, after, text, spaces⟩ := shows.text
  rw [rawText, text, trim_without_spaces spaces solid, String.ofList_toList]

theorem Shown.without_without_eq (isShown : Shown held t) (solid : c ≠ ' ') (solid' : d ≠ ' ')
    : trim (without c (without d (rawText held))) = trim (without c (without d t.text)) := by
  obtain ⟨shown, rfl, shows⟩ := isShown
  obtain ⟨before, after, text, spaces⟩ := shows.text
  rw [rawText, text, without_spaces spaces solid', trim_without_spaces spaces solid,
    String.ofList_toList, String.ofList_toList]

theorem Shown.rawText_eq (isShown : Shown held t) (isAttr : t.kind = .attr) : rawText held = t.text := by
  obtain ⟨shown, rfl, shows⟩ := isShown
  rw [rawText, shows.close isAttr]

theorem Shown.readNumeral_eq (isShown : Shown held t)
    : readNumeral (rawText held) = readNumeral t.text := by
  obtain ⟨shown, rfl, shows⟩ := isShown
  obtain ⟨before, after, text, spaces⟩ := shows.text
  rw [rawText, text, readNumeral_spaces spaces, String.ofList_toList]

end Texts

end ParserState

namespace Parser

variable {α β : Type} {scope : Scope} {m : Parser α} {a : α} {b : β} {t : Token}
  {last last' last'' : Option Token} {frame : Frame} {before middle after : Frame × List Token}
  {more : List Token}

/-- From one place the parser gives a value and gets to another place. Which token was taken last is
said only where that matters. -/
def Takes (scope : Scope) (m : Parser α) (last : Option Token) (before : Frame × List Token) (a : α)
    (last' : Option Token) (after : Frame × List Token) : Prop :=
  ∀ s, s.At last before → ∃ s', m scope s = .ok a s' ∧ s'.At last' after

theorem Takes.pure : Takes scope (Pure.pure a) last before a last before :=
  fun s here => ⟨s, rfl, here⟩

theorem Takes.bind {f : α → Parser β} (first : Takes scope m last before a last' middle)
    (then_ : Takes scope (f a) last' middle b last'' after)
    : Takes scope (m >>= f) last before b last'' after := by
  intro s here
  obtain ⟨s', given, here'⟩ := first s here
  obtain ⟨s'', given', here''⟩ := then_ s' here'
  refine ⟨s'', ?_, here''⟩
  simp only [Bind.bind, ReaderT.bind, EStateM.bind, given]
  exact given'

theorem Takes.forget (takes : Takes scope m last before a last' after)
    : Takes scope m last before a none after := by
  intro s here
  obtain ⟨s', given, here'⟩ := takes s here
  exact ⟨s', given, { here' with prev := nofun }⟩

/-- A look at the state changes nothing. -/
theorem Takes.get {f : ParserState → Parser α}
    (takes : ∀ s, s.At last before → Takes scope (f s) last before a last' after)
    : Takes scope (MonadState.get >>= f) last before a last' after :=
  fun s here => takes s here s here

/-- A parser that sets its fuel by the input left has enough for all tokens ahead. -/
theorem Takes.of_budget {m : Nat → Parser α}
    (takes : ∀ fuel, before.2.length + 2 ≤ fuel → Takes scope (m fuel) last before a last' after)
    : Takes scope (MonadState.get >>= fun s => m s.budget) last before a last' after :=
  .get fun s here => takes s.budget here.ahead.length_le

theorem takes_peek
    : Takes scope peek last (frame, t :: more) (some t.kind) last (frame, t :: more) := by
  intro s here
  refine ⟨s, ?_, here⟩
  obtain ⟨⟨shown, next, shows⟩, -⟩ := here.ahead
  change EStateM.Result.ok (s.next.map (·.kind)) s = _
  rw [next, Option.map_some, shows.kind]

/-- A look at whatever comes next, also if nothing does. -/
theorem takes_look
    : Takes scope peek last (frame, more) (more.head?.map (·.kind)) last (frame, more) := by
  cases more with
  | nil =>
    intro s here
    refine ⟨s, ?_, here⟩
    change EStateM.Result.ok (s.next.map (·.kind)) s = _
    rw [here.ahead.1]
    rfl
  | cons t more => exact takes_peek

theorem takes_shift : Takes scope shift last (frame, t :: more) () (some t) (frame, more) :=
  fun _ here => ⟨_, rfl, here.shift⟩

theorem takes_expectTitle
    : Takes scope (expectTitle t.kind.title) last (frame, t :: more) () (some t) (frame, more) := by
  refine .get fun s here => ?_
  rw [here.coming.titleOf_eq, if_pos rfl]
  exact takes_shift

theorem takes_expect {kind : TokenKind} {text : String}
    : Takes scope (expect kind) last (frame, ⟨kind, text⟩ :: more) () (some ⟨kind, text⟩)
        (frame, more) :=
  takes_expectTitle

theorem takes_takenLeaf {text : Option Token → String} {shown : String}
    (same : ∀ s : ParserState, s.At (some t) before → text s.prev = shown)
    : Takes scope (takenLeaf text) (some t) before (.leaf t.kind.title shown) (some t) before := by
  refine .get fun s here => ?_
  rw [here.taken.titleOf_eq, same s here]
  exact .pure

theorem trim_of_isSynonym {x : String} (synonym : isSynonym x = true) : trim x = x := by
  obtain ⟨c, ds, heading, letter, digits⟩ := isSynonym_iff.mp synonym
  refine trim_of_solid fun d member => not_isBlank_of_isLetterOrDigit ?_
  rw [heading] at member
  rcases List.mem_cons.mp member with rfl | inside
  · simp [isLetterOrDigit, letter]
  · simp [isLetterOrDigit, digits d inside]

theorem takes_declaredType {x type : String}
    (known : frame.declarations.get? x = some (some type))
    : Takes scope (declaredType x) last (frame, more) (some type) last (frame, more) := by
  refine .get fun s here => ?_
  have found : s.declaredType x = some type := by
    simp [ParserState.declaredType, here.declarations, known]
  rw [found]
  exact .pure

/-- A declared name is taken with its type. -/
theorem takes_typed {complaint : String → String} {x type : String}
    (known : frame.declarations.get? x = some (some type)) (synonym : isSynonym x = true)
    : Takes scope (typed complaint) last (frame, synonymToken x :: more) (type, x)
        (some (synonymToken x)) (frame, more) := by
  refine takes_expect.bind (.get fun s here => ?_)
  have name : plainText s.prev = x := here.taken.plainText_eq.trans (trim_of_isSynonym synonym)
  rw [name]
  exact (takes_declaredType known).bind .pure

/-- The declarations of a query have been recorded. -/
structure Holds (q : Query) (frame : Frame) : Prop where
  declared : ∀ x type, q.typeOf? x = some type →
    frame.declarations.get? x = some (some type.label)
  synonyms : ∀ x type, q.typeOf? x = some type → isSynonym x = true

theorem isQuotable_solid {x : String} (quotable : isQuotable x = true)
    : ∀ c ∈ x.toList, isBlank c = false ∧ c ≠ '"' ∧ c ≠ '.' := by
  obtain ⟨d, ds, heading, letter, named⟩ := isQuotable_iff.mp quotable
  have plain {c : Char} (isPlain : isLetterOrDigit c = true)
      : isBlank c = false ∧ c ≠ '"' ∧ c ≠ '.' := by
    refine ⟨not_isBlank_of_isLetterOrDigit isPlain, ?_, ?_⟩
    · rintro rfl
      exact absurd isPlain (by decide)
    · rintro rfl
      exact absurd isPlain (by decide)
  rw [heading]
  refine List.forall_mem_cons.mpr ⟨plain (by simp [isLetterOrDigit, letter]), fun c member => ?_⟩
  have isNamed := named c member
  rw [isNameChar, Bool.or_eq_true, beq_iff_eq] at isNamed
  rcases isNamed with isPlain | rfl
  · exact plain isPlain
  · decide

theorem without_inQuotes {x : String} (quotable : isQuotable x = true)
    : without '"' (inQuotes x) = x := by
  have kept : without '"' x = x :=
    without_of_not_mem fun member => (isQuotable_solid quotable _ member).2.1 rfl
  have dropped : (inQuotes x).toList.filter (· != '"') = x.toList.filter (· != '"') := by
    simp [inQuotes]
  rw [without, dropped]
  exact kept

theorem inQuotes_solid {x : String} (quotable : isQuotable x = true)
    : ∀ c ∈ (inQuotes x).toList, isBlank c = false := by
  intro c member
  have text : (inQuotes x).toList = '"' :: (x.toList ++ ['"']) := by simp [inQuotes]
  rw [text] at member
  simp only [List.mem_cons, List.mem_append, List.not_mem_nil, or_false] at member
  rcases member with rfl | inside | rfl
  · decide
  · exact (isQuotable_solid quotable c inside).1
  · decide

theorem trim_inQuotes {x : String} (quotable : isQuotable x = true)
    : trim (inQuotes x) = inQuotes x :=
  trim_of_solid (inQuotes_solid quotable)

theorem trim_of_isNumeral {digits : String} (numeral : isNumeral digits = true)
    : trim digits = digits := by
  obtain ⟨c, cs, heading, areDigits⟩ := isNumeral_iff.mp numeral
  refine trim_of_solid fun d member => not_isBlank_of_isLetterOrDigit ?_
  rw [heading] at member
  simp [isLetterOrDigit, areDigits d member]

theorem Takes.read {f : Scope → Parser α}
    (takes : Takes scope (f scope) last before a last' after)
    : Takes scope (MonadReader.read >>= f) last before a last' after :=
  takes

section References

variable {q : Query} {x : String} {r : Reference}

theorem Holds.typed (holds : Holds q frame) {x : String} {type : EntityType}
    (found : q.typeOf? x = some type) {complaint : String → String}
    : Takes scope (typed complaint) last (frame, synonymToken x :: more) (type.label, x)
        (some (synonymToken x)) (frame, more) :=
  takes_typed (holds.declared x type found) (holds.synonyms x type found)

theorem synonymTree_eq {type : EntityType} (found : q.typeOf? x = some type)
    (children : List Tree)
    : q.synonymTree x children = .node type.label x 0 children := by
  simp [synonymTree, found]

/-- A number of the program is taken. -/
theorem takes_lineNumber {text : Option Token → String} {digits : String}
    (line : scope.HasLine digits)
    (same : ∀ s : ParserState, s.At last (frame, ⟨.integer, digits⟩ :: more) →
      readNumeral (text s.next) = readNumeral digits)
    : Takes scope (lineNumber text) last (frame, ⟨.integer, digits⟩ :: more) ()
        (some ⟨.integer, digits⟩) (frame, more) := by
  obtain ⟨-, n, value, small⟩ := line
  refine .get fun s here => ?_
  have given : Takes scope (numeral (text s.next)) last (frame, ⟨.integer, digits⟩ :: more) n last
      (frame, ⟨.integer, digits⟩ :: more) := by
    rw [numeral, same s here, value]
    exact .pure
  refine given.bind (.read ?_)
  simp only [small, decide_true, Bool.not_true, Bool.false_eq_true, if_false]
  exact takes_expect

theorem takes_stmtRef (holds : Holds q frame) (fits : q.FitsLine scope r)
    : Takes scope stmtRef last (frame, r.token :: more) (q.referenceTree r) none (frame, more) := by
  refine takes_peek.bind ?_
  cases r with
  | synonym x =>
    obtain ⟨type, found, numbered⟩ := fits
    refine (holds.typed found).bind ?_
    have line : lineTypes.contains type.label = true := by
      cases type <;> first | decide | cases numbered
    simp only [line, if_true]
    rw [referenceTree, synonymTree_eq found]
    exact Takes.pure.forget
  | anything =>
    exact (takes_expect.bind (takes_takenLeaf fun s here => here.taken.plainText_eq)).forget
  | line digits =>
    have plain := trim_of_isNumeral fits.1
    refine ((takes_lineNumber fits fun s here => ?_).bind (takes_takenLeaf fun s here => ?_)).forget
    · rw [here.coming.plainText_eq, plain]
    · exact here.taken.plainText_eq.trans plain
  | name x => cases fits

theorem unquoted_prev_anything {s : ParserState}
    (here : s.At (some TokenKind.everything.token) before)
    : unquoted s.prev = "_" := by
  rw [unquoted, here.taken.plainText_eq]
  rfl

theorem unquoted_prev_name {s : ParserState} (quotable : isQuotable x = true)
    (here : s.At (some ⟨.quotedName, inQuotes x⟩) before)
    : unquoted s.prev = x := by
  rw [unquoted, here.taken.plainText_eq, trim_inQuotes quotable, without_inQuotes quotable]

theorem unquoted_next_name {s : ParserState} (quotable : isQuotable x = true)
    (here : s.At last (frame, ⟨.quotedName, inQuotes x⟩ :: more))
    : unquoted s.next = x := by
  rw [unquoted, here.coming.plainText_eq, trim_inQuotes quotable, without_inQuotes quotable]

theorem takes_procRef (holds : Holds q frame) (fits : q.FitsProcedure scope r)
    : Takes scope procRef last (frame, r.token :: more) (q.referenceTree r) none (frame, more) := by
  refine takes_peek.bind ?_
  cases r with
  | synonym x =>
    refine (holds.typed fits).bind ?_
    rw [referenceTree, synonymTree_eq fits]
    exact Takes.pure.forget
  | anything =>
    exact (takes_expect.bind (takes_takenLeaf fun s here => unquoted_prev_anything here)).forget
  | line digits => cases fits
  | name x =>
    obtain ⟨quotable, known⟩ := fits
    refine .read (.get fun s here => ?_)
    have listed : scope.procedures.contains (unquoted s.next) = true := by
      rw [unquoted_next_name quotable here]
      exact List.contains_iff_mem.mpr known
    simp only [listed, Bool.not_true, Bool.false_eq_true, if_false]
    refine (takes_expect.bind (takes_takenLeaf fun s here => ?_)).forget
    exact unquoted_prev_name quotable here

theorem takes_varRef (holds : Holds q frame) (fits : q.FitsVariable scope r)
    : Takes scope varRef last (frame, r.token :: more) (q.referenceTree r) none (frame, more) := by
  refine takes_peek.bind ?_
  cases r with
  | synonym x =>
    refine (holds.typed fits).bind ?_
    rw [referenceTree, synonymTree_eq fits]
    exact Takes.pure.forget
  | anything =>
    exact (takes_expect.bind (takes_takenLeaf fun s here => unquoted_prev_anything here)).forget
  | line digits => cases fits
  | name x =>
    obtain ⟨quotable, known⟩ := fits
    refine .read (.get fun s here => takes_expect.bind ?_)
    have listed : scope.variableNames.contains (unquoted s.next) = true := by
      rw [unquoted_next_name quotable here]
      exact List.contains_iff_mem.mpr known
    simp only [listed, Bool.not_true, Bool.false_eq_true, if_false]
    refine (takes_takenLeaf fun s here => ?_).forget
    exact unquoted_prev_name quotable here

end References

end Parser

end ProgramQuery.Query
