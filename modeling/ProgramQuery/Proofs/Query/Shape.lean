import ProgramQuery.Proofs.Query.Steps
import ProgramQuery.Proofs.Query.Synonyms

/-! The shape of the trees that queries are read into, whatever the text. -/

namespace ProgramQuery.Query

open Text ProgramQuery.Tree Query.Parser

/-- An argument of a relation. Where nothing is written, it repeats the token before. -/
inductive IsReference : Tree → Prop
  | synonym {type x : String} (typed : type ∈ entityLabels) (named : isQuotable x = true)
    : IsReference (.leaf type x)
  | line {digits : String} (numeral : isNumeral digits = true)
    : IsReference (.leaf "INTEGER" digits)
  | everything : IsReference (.leaf "EVERYTHING" "_")
  | quoted {x : String} (named : isQuotable x = true) : IsReference (.leaf "IDENT_QUOTE" x)
  | opening : IsReference (.leaf "OPEN_PARENTHESIS" "(")
  | comma : IsReference (.leaf "COMMA" ",")

inductive IsRelation : Tree → Prop
  | missing : IsRelation .missing
  | node (r : RelationName) {first second : Tree} (first_ : IsReference first)
    (second_ : IsReference second)
    : IsRelation (.node r.title "" 0 [first, second])

/-- A pattern of a synonym, with something that may be a variable and parts without synonyms. -/
inductive IsPattern : Tree → Prop
  | node {title type x kind text : String} {rest : List Tree} (typed : type ∈ entityLabels)
    (named : isQuotable x = true) (target : IsReference (.leaf kind text))
    (variable_ : kind ∈ ["VARIABLE", "EVERYTHING", "IDENT_QUOTE"])
    (plain : ∀ t ∈ rest, t.synonyms = [])
    : IsPattern (.node title "" 0 (.leaf type x :: .leaf kind text :: rest))

inductive IsComparison : Tree → Prop
  | node {type x : String} {attributes : List Tree} {compared : Tree} (typed : type ∈ entityLabels)
    (named : isQuotable x = true) (plain : ∀ t ∈ attributes, t.synonyms = [])
    (others : ∀ y ∈ compared.synonyms, isQuotable y = true)
    : IsComparison (.node "ATTR" "" 0 [.node type x 0 attributes, compared])

/-- A part of a query. A selected synonym need not be declared. -/
inductive IsPart : Tree → Prop
  | truth : IsPart (.node "RESULT" "" 0 [.leaf "BOOLEAN" "BOOLEAN"])
  | result {type x : String} (typed : type = "" ∨ type ∈ entityLabels)
    (named : isQuotable x = true)
    : IsPart (.node "RESULT" "" 0 [.leaf type x])
  | comparisons {ts : List Tree} (all : ∀ t ∈ ts, IsComparison t) : IsPart (.node "WITH" "" 0 ts)
  | patterns {ts : List Tree} (all : ∀ t ∈ ts, IsPattern t) : IsPart (.node "PATTERN" "" 0 ts)
  | relations {ts : List Tree} (all : ∀ t ∈ ts, IsRelation t)
    : IsPart (.node "SUCH_THAT" "" 0 ts)

def Token.Scanned (t : Token) : Prop :=
  ∃ cs rest, t.kind.recognise cs = some (t.text.toList, rest)

theorem Token.scanned_of_scan {admitted : TokenKind → Bool} {cs rest : List Char} {t : Token}
    (found : Token.scan admitted cs = some (t, rest))
    : t.Scanned := by
  obtain ⟨kind, -, found⟩ := List.exists_of_findSome?_eq_some found
  split at found
  · split at found
    next lexeme rest' accepted =>
      cases found
      exact ⟨cs, rest, by simpa using accepted⟩
    next => cases found
  · cases found

/-- Blanks have no capital letters. -/
theorem capitals_of_isBlank {c : Char} (blank : isBlank c = true) : capitals c = [c] := by
  have kept : ∀ n ∈ List.range' 0x09 5 ++ List.range' 0x1C 5 ++ List.range' 0x2000 11
      ++ [0x85, 0xA0, 0x1680, 0x2028, 0x2029, 0x202F, 0x205F, 0x3000],
      capitals (Char.ofNat n) = [Char.ofNat n] := by
    decide +kernel
  simp only [isBlank, Bool.or_eq_true, Bool.and_eq_true, decide_eq_true_eq, beq_iff_eq] at blank
  have same := kept c.toNat (by
    simp only [List.mem_append, List.mem_range'_1, List.mem_cons, List.not_mem_nil, or_false]
    omega)
  rwa [Char.ofNat_toNat] at same

theorem flatMap_capitals {gap : List Char} (blank : ∀ c ∈ gap, isBlank c)
    : gap.flatMap capitals = gap := by
  induction gap with
  | nil => rfl
  | cons c rest ih =>
    obtain ⟨here, later⟩ := List.forall_mem_cons.mp blank
    rw [List.flatMap_cons, capitals_of_isBlank here, ih later, List.singleton_append]

section Scanned

variable {t : Token} (scanned : t.Scanned)
include scanned

theorem Token.Scanned.name (isName : t.kind = .name) : isQuotable (trim t.text) = true := by
  obtain ⟨cs, rest, accepted⟩ := scanned
  rw [isName] at accepted
  obtain ⟨word, front, inner⟩ := Recogniser.spaced_eq_some accepted
  obtain ⟨c, tail, rfl, letter, more, -⟩ := Recogniser.run_eq_some inner
  have named : isQuotable (String.ofList (c :: tail)) = true :=
    isQuotable_iff.mpr ⟨c, tail, by simp, letter, more⟩
  have text : trim t.text = String.ofList (c :: tail) := by
    rw [← t.text.ofList_toList, front]
    refine trim_append (fun d member => List.mem_takeWhile_imp member) fun d member => ?_
    exact (isQuotable_solid named d (by simpa using member)).1
  rwa [text]

theorem Token.Scanned.integer (isInteger : t.kind = .integer)
    : isNumeral (trim t.text) = true := by
  obtain ⟨cs, rest, accepted⟩ := scanned
  rw [isInteger] at accepted
  obtain ⟨word, front, inner⟩ := Recogniser.spaced_eq_some accepted
  obtain ⟨c, tail, rfl, digit, more, -⟩ := Recogniser.run_eq_some inner
  have digits : ∀ d ∈ c :: tail, isDigit d = true := List.forall_mem_cons.mpr ⟨digit, more⟩
  have text : trim t.text = String.ofList (c :: tail) := by
    rw [← t.text.ofList_toList, front]
    refine trim_append (fun d member => List.mem_takeWhile_imp member) fun d member => ?_
    exact not_isBlank_of_isLetterOrDigit (by simp [isLetterOrDigit, digits d member])
  rw [text]
  exact isNumeral_iff.mpr ⟨c, tail, by simp, digits⟩

theorem Token.Scanned.spelled {word : String} (spelled : t.kind.spelling? = some word)
    (solid : ∀ c ∈ word.toList, isBlank c = false)
    : trim t.text = word := by
  obtain ⟨cs, rest, accepted⟩ := scanned
  rw [TokenKind.recognise_of_spelling spelled] at accepted
  obtain ⟨word', front, inner⟩ := Recogniser.spaced_eq_some accepted
  obtain ⟨rfl, -⟩ := Recogniser.literal_eq_some inner
  rw [← t.text.ofList_toList, front, trim_append (fun d member => List.mem_takeWhile_imp member) solid,
    String.ofList_toList]

theorem Token.Scanned.quotedName (isQuoted : t.kind = .quotedName)
    : isQuotable (without '"' (trim t.text)) = true := by
  obtain ⟨cs, rest, accepted⟩ := scanned
  rw [isQuoted] at accepted
  obtain ⟨opening, later, rest', outer, inner, front⟩ := Recogniser.seq_eq_some accepted
  obtain ⟨word, quote, rest'', named, closing, rfl⟩ := Recogniser.seq_eq_some inner
  obtain ⟨mark, rfl, marked⟩ := Recogniser.spaced_eq_some outer
  obtain ⟨rfl, -⟩ := Recogniser.literal_eq_some marked
  obtain ⟨rfl, -⟩ := Recogniser.literal_eq_some closing
  obtain ⟨c, tail, rfl, letter, more, -⟩ := Recogniser.run_eq_some named
  have quotable : isQuotable (String.ofList (c :: tail)) = true :=
    isQuotable_iff.mpr ⟨c, tail, by simp, letter, more⟩
  have text : trim t.text = inQuotes (String.ofList (c :: tail)) := by
    have lexeme : t.text.toList
        = cs.takeWhile isBlank ++ (inQuotes (String.ofList (c :: tail))).toList := by
      rw [front]
      simp [inQuotes]
    rw [← t.text.ofList_toList, lexeme, trim_append (fun d member => List.mem_takeWhile_imp member)
      (inQuotes_solid quotable), String.ofList_toList]
  rwa [text, without_inQuotes quotable]

theorem Token.Scanned.declaration (isDeclaration : t.kind = .declaration)
    : trim (upper t.text) ∈ entityLabels := by
  obtain ⟨cs, rest, accepted⟩ := scanned
  rw [isDeclaration] at accepted
  obtain ⟨r, listed, accepted⟩ := List.exists_of_findSome?_eq_some accepted
  obtain ⟨word, known, rfl⟩ := List.mem_map.mp listed
  obtain ⟨spelled, after, middle, outer, inner, text⟩ := Recogniser.seq_eq_some accepted
  obtain ⟨word', rfl, marked⟩ := Recogniser.spaced_eq_some outer
  obtain ⟨rfl, -⟩ := Recogniser.literal_eq_some marked
  have front : ∀ c ∈ cs.takeWhile isBlank, isBlank c := fun c member => List.mem_takeWhile_imp member
  have back : ∀ c ∈ after, isBlank c := by
    obtain ⟨c, rfl, blank⟩ := Recogniser.one_eq_some inner
    simpa using blank
  have labels : ∀ word ∈ entityWords,
      trim (String.ofList (word.toList.flatMap capitals)) ∈ entityLabels := by
    decide +kernel
  have trimmed : trim (upper t.text) = trim (String.ofList (word.toList.flatMap capitals)) := by
    rw [upper, text, List.append_assoc, List.flatMap_append, List.flatMap_append,
      flatMap_capitals front, flatMap_capitals back]
    simp only [trim, dropBlanks, String.toList_ofList, dropEnds_append front back]
  rw [trimmed]
  exact labels word known

end Scanned

/-- What is known of the parser at any time, and what is declared where that is fixed. -/
structure ParserState.Regular (s : ParserState) (fixed : Option (Keyed (Option String))) : Prop where
  next : ∀ t ∈ s.next, t.Scanned
  prev : ∀ t ∈ s.prev, t.Scanned
  types : ∀ entry ∈ s.declarations, ∃ type ∈ entityLabels, entry.2 = some type
  parts : ∀ t ∈ s.parts, IsPart t
  declared : ∀ declarations ∈ fixed, s.declarations = declarations

theorem ParserState.Regular.advance {s : ParserState} {fixed : Option (Keyed (Option String))}
    (prev : ∀ t ∈ s.prev, t.Scanned)
    (types : ∀ entry ∈ s.declarations, ∃ type ∈ entityLabels, entry.2 = some type)
    (parts : ∀ t ∈ s.parts, IsPart t) (declared : ∀ declarations ∈ fixed, s.declarations = declarations)
    : s.advance.Regular fixed := by
  unfold ParserState.advance ParserState.read
  simp only
  split
  next t rest found =>
    refine ⟨?_, prev, types, parts, declared⟩
    rintro _ ⟨⟩
    exact Token.scanned_of_scan found
  next => exact ⟨by simp, prev, types, parts, declared⟩

namespace Parser

open ParserState (Step)

variable {α β : Type} {fixed : Option (Keyed (Option String))} {scope : Scope} {s : ParserState} {m : Parser α}
  {post : α → ParserState → Prop}

/-- What a parser gives in a regular state is as it should be, and the parser has only taken steps and
stays regular. -/
structure Reads (fixed : Option (Keyed (Option String))) (scope : Scope) (s : ParserState)
    (m : Parser α) (post : α → ParserState → Prop)
    : Prop where
  given : s.Regular fixed → ∀ a s', m scope s = .ok a s' →
    s'.Regular fixed ∧ Relation.ReflTransGen Step s s' ∧ post a s'

theorem Reads.regularly (reads : s.Regular fixed → Reads fixed scope s m post)
    : Reads fixed scope s m post :=
  ⟨fun regular => (reads regular).given regular⟩

theorem Reads.pure {a : α} (holds : post a s) : Reads fixed scope s (Pure.pure a) post := by
  constructor
  rintro regular _ _ ⟨⟩
  exact ⟨regular, .refl, holds⟩

theorem Reads.throw (failure : Failure) : Reads fixed scope s (throw failure) post := by
  constructor
  rintro _ _ _ ⟨⟩

theorem Reads.mono {weaker : α → ParserState → Prop} (reads : Reads fixed scope s m post)
    (implies : ∀ a s', post a s' → weaker a s')
    : Reads fixed scope s m weaker := by
  constructor
  intro regular a s' given
  obtain ⟨regular', steps, holds⟩ := reads.given regular a s' given
  exact ⟨regular', steps, implies a s' holds⟩

theorem Reads.stepping (reads : Reads fixed scope s m post)
    : Reads fixed scope s m fun a s' => post a s' ∧ Relation.ReflTransGen Step s s' := by
  constructor
  intro regular a s' given
  obtain ⟨regular', steps, holds⟩ := reads.given regular a s' given
  exact ⟨regular', steps, holds, steps⟩

/-- Where a computation in two parts ends, its first part has ended. -/
theorem bind_eq_ok {f : α → Parser β} {b : β} {s' : ParserState} (given : (m >>= f) scope s = .ok b s')
    : ∃ a s₁, m scope s = .ok a s₁ ∧ f a scope s₁ = .ok b s' := by
  simp only [Bind.bind, ReaderT.bind, EStateM.bind] at given
  split at given
  next a s₁ taken => exact ⟨a, s₁, taken, given⟩
  next => cases given

theorem Reads.bind {f : α → Parser β} {then_ : β → ParserState → Prop}
    (first : Reads fixed scope s m post)
    (next : ∀ a s', post a s' → Reads fixed scope s' (f a) then_)
    : Reads fixed scope s (m >>= f) then_ := by
  constructor
  intro regular b s'' given
  obtain ⟨a, s', taken, given⟩ := bind_eq_ok given
  obtain ⟨regular', steps, holds⟩ := first.given regular a s' taken
  obtain ⟨regular'', steps', holds'⟩ := (next a s' holds).given regular' b s'' given
  exact ⟨regular'', steps.trans steps', holds'⟩

theorem Reads.get {f : ParserState → Parser α} (reads : Reads fixed scope s (f s) post)
    : Reads fixed scope s (MonadState.get >>= f) post :=
  ⟨reads.given⟩

theorem Reads.peek {f : Option TokenKind → Parser α}
    (reads : Reads fixed scope s (f (s.next.map (·.kind))) post)
    : Reads fixed scope s (Parser.peek >>= f) post :=
  ⟨reads.given⟩

theorem Reads.inProgram {line : Int} {f : Bool → Parser α}
    (reads : Reads fixed scope s (f (decide (line ≤ scope.lastLine))) post)
    : Reads fixed scope s (Parser.inProgram line >>= f) post :=
  ⟨reads.given⟩

theorem Reads.declaredType {name : String} {f : Option String → Parser α}
    (reads : Reads fixed scope s (f (s.declaredType name)) post)
    : Reads fixed scope s (Parser.declaredType name >>= f) post :=
  ⟨reads.given⟩

theorem Reads.read {f : Scope → Parser α} (reads : Reads fixed scope s (f scope) post)
    : Reads fixed scope s (MonadReader.read >>= f) post :=
  ⟨reads.given⟩

def Taken (kind : TokenKind) (s : ParserState) : Prop :=
  ∃ t, s.prev = some t ∧ t.kind = kind

theorem reads_shift : Reads fixed scope s shift fun _ s' => s'.prev = s.next := by
  constructor
  rintro regular _ _ ⟨⟩
  refine ⟨.advance regular.next regular.types regular.parts regular.declared, .single (.shift s), ?_⟩
  exact (ParserState.advance_kept { s with prev := s.next }).2.2.2

theorem TokenKind.title_injective {kind kind' : TokenKind} (same : kind.title = kind'.title)
    : kind = kind' := by
  have listed (kind : TokenKind) : kind ∈ TokenKind.all := by
    cases kind
    case relation r => cases r <;> decide
    all_goals decide
  have apart : ∀ kind ∈ TokenKind.all, ∀ kind' ∈ TokenKind.all,
      kind.title = kind'.title → kind = kind' := by
    decide +kernel
  exact apart kind (listed kind) kind' (listed kind') same

theorem reads_expectTitle {wanted : String}
    : Reads fixed scope s (expectTitle wanted) fun _ s' => titleOf s'.prev = wanted := by
  refine .get ?_
  split
  next same => exact reads_shift.mono fun _ s' taken => by rw [taken, same]
  next => exact .throw _

theorem taken_of_titleOf {kind : TokenKind} (title : titleOf s.prev = kind.title)
    : Taken kind s := by
  cases prev : s.prev with
  | none =>
    rw [prev] at title
    have titled : kind.title ≠ "" := by
      cases kind
      case relation r => cases r <;> decide
      all_goals decide
    exact absurd title.symm titled
  | some t =>
    rw [prev] at title
    exact ⟨t, prev, TokenKind.title_injective title⟩

theorem reads_expect {kind : TokenKind}
    : Reads fixed scope s (expect kind) fun _ s' => Taken kind s' :=
  reads_expectTitle.mono fun _ _ title => taken_of_titleOf title

section Taken

variable {kind : TokenKind} (taken : Taken kind s)
include taken

theorem Taken.titleOf_prev : titleOf s.prev = kind.title := by
  obtain ⟨t, prev, rfl⟩ := taken
  rw [prev, titleOf]

theorem Taken.plainText_prev (regular : s.Regular fixed) {word : String} (spelled : kind.spelling? = some word)
    (solid : ∀ c ∈ word.toList, isBlank c = false)
    : plainText s.prev = word := by
  obtain ⟨t, prev, rfl⟩ := taken
  rw [plainText, prev, rawText]
  exact (regular.prev t prev).spelled spelled solid

end Taken

theorem isQuotable_of_taken (regular : s.Regular fixed) (taken : Taken .name s)
    : isQuotable (plainText s.prev) = true := by
  obtain ⟨t, prev, isName⟩ := taken
  rw [plainText, prev, rawText]
  exact (regular.prev t prev).name isName

/-- A name is declared with a type, or it is not declared and has none. -/
def Finds (declarations : Keyed (Option String)) (type x : String) : Prop :=
  declarations.get? x = none ∧ type = "" ∨ declarations.get? x = some (some type)

theorem reads_typed {complaint : String → String}
    : Reads fixed scope s (typed complaint) fun found s' =>
        ((found.1 = "" ∨ found.1 ∈ entityLabels) ∧ ∀ known ∈ fixed, Finds known found.1 found.2)
        ∧ isQuotable found.2 = true ∧ Taken .name s' ∧ found.2 = plainText s'.prev := by
  refine reads_expect.bind fun _ s' taken => .regularly fun regular => ?_
  have named := isQuotable_of_taken regular taken
  refine .get (.declaredType ?_)
  unfold ParserState.declaredType
  cases found : s'.declarations.get? (plainText s'.prev) with
  | none =>
    exact .pure ⟨⟨.inl rfl, fun _ isFixed => .inl ⟨regular.declared _ isFixed ▸ found, rfl⟩⟩,
      named, taken, rfl⟩
  | some type =>
    obtain ⟨label, known, rfl⟩ := regular.types _ (Keyed.mem_of_get? found)
    exact .pure ⟨⟨.inr known, fun _ isFixed => .inr (regular.declared _ isFixed ▸ found)⟩,
      named, taken, rfl⟩

end Parser

end ProgramQuery.Query
