import ProgramQuery.Proofs.Query.Conditions

/-! Reading a query undoes printing it. The conditions of each kind are collected over all clauses, and
every synonym gets the type that it was declared with.
-/

namespace ProgramQuery

namespace Keyed

variable {α : Type} {table : Keyed α} {key : String}

theorem put_of_fresh (fresh : key ∉ table.keys) (value : α)
    : table.put key value = table ++ [(key, value)] := by
  induction table with
  | nil => rfl
  | cons entry rest ih =>
    obtain ⟨k, old⟩ := entry
    simp only [keys, List.map_cons, List.mem_cons, not_or] at fresh
    have other : (k == key) = false := by simpa using fun same => fresh.1 same.symm
    simp only [put, other, Bool.false_eq_true, if_false, List.cons_append, ih fresh.2]

theorem get?_append (table more : Keyed α) (key : String)
    : get? (table ++ more) key = (table.get? key).or (more.get? key) := by
  induction table with
  | nil => rfl
  | cons entry rest ih =>
    obtain ⟨k, old⟩ := entry
    by_cases same : k = key <;> simp [get?, same, ih]

end Keyed

namespace Query

open Text

/-- The names of a query with their types, as they are declared. -/
def Declaration.entries (d : Declaration) : Keyed (Option String) :=
  d.names.map fun x => (x, some d.type.label)

def table (q : Query) : Keyed (Option String) :=
  q.declarations.flatMap Declaration.entries

theorem Declaration.get?_entries (d : Declaration) (x : String)
    : d.entries.get? x = if d.names.contains x then some (some d.type.label) else none := by
  unfold Declaration.entries
  induction d.names with
  | nil => rfl
  | cons y names ih =>
    rw [List.map_cons, Keyed.get?, ih]
    by_cases same : y = x
    · simp [same]
    · simp [same, Ne.symm same]

/-- The first declaration of a name counts. -/
theorem get?_table (q : Query) (x : String)
    : q.table.get? x = (q.typeOf? x).map fun type => some type.label := by
  unfold table typeOf?
  induction q.declarations with
  | nil => rfl
  | cons d rest ih =>
    rw [List.flatMap_cons, Keyed.get?_append, ih, Declaration.get?_entries, List.find?_cons]
    cases d.names.contains x <;> simp

theorem WellFormed.holds {scope : Scope} {q : Query} (formed : q.WellFormed scope) {frame : Frame}
    (entered : frame.declarations = q.table)
    : Parser.Holds q frame := by
  refine ⟨fun x type found => ?_, fun x type found => formed.isSynonym found⟩
  rw [entered, get?_table, found, Option.map_some]

namespace Parser

variable {scope : Scope} {last : Option Token} {frame : Frame} {q : Query} {more : List Token}
  {fuel : Nat} {before after : Frame × List Token}

theorem length_le_separated {α : Type} {between : Token} {tokens : α → List Token} (xs : List α)
    : xs.length ≤ (separated between tokens xs).length + 1 := by
  induction xs with
  | nil => simp
  | cons x xs ih =>
    cases xs with
    | nil => simp
    | cons y rest =>
      simp only [separated, List.length_append, List.length_cons] at ih ⊢
      omega

section Joined

variable {α : Type} {condition : Parser Tree} {tokens : α → List Token} {tree : α → Tree}
  {xs : List α}

theorem takes_joinedWithin (nonempty : xs ≠ [])
    (reads : ∀ x ∈ xs, ∀ {last more}, Takes scope condition last (frame, tokens x ++ more) (tree x)
      none (frame, more))
    {fuel : Nat} (enough : xs.length ≤ fuel)
    (stop : ∀ t ∈ more.head?, t.kind ≠ .andWord)
    : Takes scope (joined condition fuel) last
        (frame, separated TokenKind.andWord.token tokens xs ++ more) (xs.map tree) none
        (frame, more) := by
  induction xs generalizing fuel last with
  | nil => exact absurd rfl nonempty
  | cons x xs ih =>
    obtain ⟨fuel, rfl⟩ : ∃ spare, fuel = spare + 1 :=
      ⟨fuel - 1, by simp only [List.length_cons] at enough; omega⟩
    obtain ⟨first, others⟩ := List.forall_mem_cons.mp reads
    cases xs with
    | nil =>
      have ended : more.head?.map (·.kind) ≠ some .andWord := by
        intro isAnd
        obtain ⟨t, next, kind⟩ := Option.map_eq_some_iff.mp isAnd
        exact stop t next kind
      refine first.bind (takes_look.bind ?_)
      rw [if_neg ended]
      exact .pure
    | cons y rest =>
      rw [separated, List.append_assoc, List.cons_append]
      refine first.bind (takes_peek.bind (takes_shift.bind ?_))
      exact (ih (List.cons_ne_nil _ _) others (by simpa using enough)).bind .pure

theorem takes_joined (nonempty : xs ≠ [])
    (reads : ∀ x ∈ xs, ∀ {last more}, Takes scope condition last (frame, tokens x ++ more) (tree x)
      none (frame, more))
    (stop : ∀ t ∈ more.head?, t.kind ≠ .andWord)
    : Takes scope (do joined condition (← get).budget) last
        (frame, separated TokenKind.andWord.token tokens xs ++ more) (xs.map tree) none
        (frame, more) := by
  refine .of_budget fun fuel enough => takes_joinedWithin nonempty reads ?_ stop
  have listed : xs.length ≤ (separated TokenKind.andWord.token tokens xs).length + 1 :=
    length_le_separated xs
  rw [List.length_append] at enough
  omega

end Joined

def Clauses.add (found : Clauses) (q : Query) (more : List Clause) : Clauses where
  withs := found.withs ++ more.flatMap q.comparisons
  patterns := found.patterns ++ more.flatMap q.patterns
  relations := found.relations ++ more.flatMap q.relations

theorem Clauses.add_nil (found : Clauses) : found.add q [] = found := by
  simp [Clauses.add]

theorem Clauses.add_cons (found : Clauses) (clause : Clause) (more : List Clause)
    : found.add q (clause :: more) = (found.add q [clause]).add q more := by
  simp [Clauses.add]

def goesOn (kind : TokenKind) : Bool :=
  [.suchThat, .withWord, .pattern, .andWord].contains kind

theorem Clause.head_tokens (clauses : List Clause) (stop : ∀ t ∈ more.head?, goesOn t.kind = false)
    : ∀ t ∈ (clauses.flatMap Clause.tokens ++ more).head?, t.kind ≠ .andWord := by
  cases clauses with
  | nil =>
    rintro t member kind
    have stopped := stop t member
    rw [kind] at stopped
    cases stopped
  | cons clause rest => cases clause <;> simp [Clause.tokens, TokenKind.token]

theorem Clause.length_le_tokens (clauses : List Clause)
    : clauses.length ≤ (clauses.flatMap Clause.tokens).length := by
  induction clauses with
  | nil => simp
  | cons clause rest ih =>
    have some_token : 0 < clause.tokens.length := by cases clause <;> simp [Clause.tokens]
    simp only [List.flatMap_cons, List.length_cons, List.length_append]
    omega

theorem takes_clauses (holds : Holds q frame) (listed : List Clause)
    (accepted : ∀ clause ∈ listed, clause.Accepted scope q) (enough : listed.length < fuel)
    (found : Clauses) (stop : ∀ t ∈ more.head?, goesOn t.kind = false)
    : Takes scope (clauses fuel found) last (frame, listed.flatMap Clause.tokens ++ more)
        (found.add q listed) none (frame, more) := by
  induction listed generalizing fuel found last with
  | nil =>
    obtain ⟨fuel, rfl⟩ : ∃ spare, fuel = spare + 1 := ⟨fuel - 1, by simp at enough; omega⟩
    rw [Clauses.add_nil, List.flatMap_nil, List.nil_append]
    have other {kind : TokenKind} (clause : goesOn kind = true)
        : more.head?.map (·.kind) ≠ some kind := by
      intro next
      obtain ⟨t, first, same⟩ := Option.map_eq_some_iff.mp next
      rw [← same, stop t first] at clause
      cases clause
    refine takes_look.bind ?_
    split
    · next same => exact absurd same (other rfl)
    · next same => exact absurd same (other rfl)
    · next same => exact absurd same (other rfl)
    · exact Takes.pure.forget
  | cons clause rest ih =>
    obtain ⟨fuel, rfl⟩ : ∃ spare, fuel = spare + 1 := ⟨fuel - 1, by omega⟩
    obtain ⟨own, others⟩ := List.forall_mem_cons.mp accepted
    rw [Clauses.add_cons, List.flatMap_cons, List.append_assoc]
    have stop' := Clause.head_tokens rest stop
    have further {found : Clauses} {last : Option Token}
        : Takes scope (clauses fuel found) last (frame, rest.flatMap Clause.tokens ++ more)
          (found.add q rest) none (frame, more) :=
      ih others (by simpa using enough) found
    cases clause with
    | suchThat conditions =>
      have added : found.add q [.suchThat conditions]
          = { found with relations := found.relations ++ conditions.map q.relationTree } := by
        simp [Clauses.add, comparisons, patterns, relations]
      rw [added]
      refine takes_peek.bind (takes_shift.bind ((takes_joined own.1 ?_ stop').bind further))
      exact fun c member => takes_relRef holds (own.2 c member)
    | comparing conditions =>
      have added : found.add q [.comparing conditions]
          = { found with withs := found.withs ++ conditions.map q.attributeTree } := by
        simp [Clauses.add, comparisons, patterns, relations]
      rw [added]
      refine takes_peek.bind (takes_shift.bind ((takes_joined own.1 ?_ stop').bind further))
      exact fun c member => takes_attrCond holds (own.2 c member)
    | pattern conditions =>
      have added : found.add q [.pattern conditions]
          = { found with patterns := found.patterns ++ conditions.map q.patternTree } := by
        simp [Clauses.add, comparisons, patterns, relations]
      rw [added]
      refine takes_peek.bind (takes_shift.bind ((takes_joined own.1 ?_ stop').bind further))
      exact fun c member => takes_patternCond holds (own.2 c member)

theorem takes_set {s : ParserState} (there : s.At last after)
    : Takes scope (set s) last before () last after :=
  fun _ _ => ⟨s, rfl, there⟩

def enter (frame : Frame) (entries : Keyed (Option String)) : Frame :=
  { frame with declarations := frame.declarations ++ entries }

theorem enter_enter (entries entries' : Keyed (Option String))
    : enter (enter frame entries) entries' = enter frame (entries ++ entries') := by
  simp [enter]

/-- Names that are new are entered one after the other. -/
theorem takes_declared {type : String} {names : List String}
    (fresh : (frame.declarations.keys ++ names).Nodup) (synonyms : ∀ x ∈ names, isSynonym x = true)
    (enough : names.length < fuel)
    : Takes scope (declared type fuel) last
        (frame, separated TokenKind.comma.token (fun x => [synonymToken x]) names
          ++ TokenKind.semicolon.token :: more) ()
        none (enter frame (names.map fun x => (x, some type)), more) := by
  induction names generalizing fuel last frame with
  | nil =>
    obtain ⟨fuel, rfl⟩ : ∃ spare, fuel = spare + 1 := ⟨fuel - 1, by simp at enough; omega⟩
    have same : enter frame ([].map fun x => (x, some type)) = frame := by simp [enter]
    refine .get fun s here => ?_
    have ended : titleOf s.next = TokenKind.semicolon.title := here.coming.titleOf_eq
    rw [same, if_pos ended]
    exact takes_shift.forget
  | cons x names ih =>
    obtain ⟨fuel, rfl⟩ : ∃ spare, fuel = spare + 1 := ⟨fuel - 1, by omega⟩
    obtain ⟨synonym, synonyms⟩ := List.forall_mem_cons.mp synonyms
    have new : x ∉ frame.declarations.keys := by
      intro known
      exact (List.nodup_append.mp fresh).2.2 x known x (by simp) rfl
    have fresh' : ((enter frame [(x, some type)]).declarations.keys ++ names).Nodup := by
      simpa [Keyed.keys, enter] using fresh
    have goesOn {last : Option Token}
        : Takes scope (declared type fuel) last
          (enter frame [(x, some type)],
            separated TokenKind.comma.token (fun x => [synonymToken x]) names
              ++ TokenKind.semicolon.token :: more) ()
          none (enter frame ((x :: names).map fun x => (x, some type)), more) := by
      have entered : enter frame ((x :: names).map fun x => (x, some type))
          = enter (enter frame [(x, some type)]) (names.map fun x => (x, some type)) := by
        rw [enter_enter]
        rfl
      rw [entered]
      exact ih fresh' synonyms (by simpa using enough)
    obtain ⟨after, tokens, passes⟩ : ∃ after,
        separated TokenKind.comma.token (fun x => [synonymToken x]) (x :: names)
          ++ TokenKind.semicolon.token :: more = synonymToken x :: after
        ∧ ∀ {last}, Takes scope (do
            if (← peek) = some .comma then shift
            declared type fuel) last (enter frame [(x, some type)], after) ()
            none (enter frame ((x :: names).map fun x => (x, some type)), more) := by
      cases names with
      | nil => exact ⟨_, rfl, takes_peek.bind goesOn⟩
      | cons y names => exact ⟨_, rfl, takes_peek.bind (takes_shift.bind goesOn)⟩
    rw [tokens]
    refine .get fun s here => ?_
    have title : titleOf s.next ≠ TokenKind.semicolon.title := by
      rw [here.coming.titleOf_eq]
      exact show TokenKind.name.title ≠ TokenKind.semicolon.title by decide
    have name : plainText s.next = x := here.coming.plainText_eq.trans (trim_of_isSynonym synonym)
    have absent : ¬ s.declarations.has x = true := by
      rw [Keyed.has_iff, here.declarations]
      exact new
    rw [if_neg title, name]
    rw [if_neg absent]
    have there : ({ s with declarations := s.declarations.put x (some type) } : ParserState).At last
        (enter frame [(x, some type)], synonymToken x :: after) := by
      refine { here with declarations := ?_ }
      change s.declarations.put x (some type) = frame.declarations ++ [(x, some type)]
      rw [here.declarations, Keyed.put_of_fresh new]
    exact (takes_set there).bind (takes_expect.bind passes)

theorem takes_declaration {d : Declaration}
    (fresh : (frame.declarations.keys ++ d.names).Nodup)
    (synonyms : ∀ x ∈ d.names, isSynonym x = true)
    : Takes scope declaration (some ⟨.declaration, d.type.word⟩)
        (frame, separated TokenKind.comma.token (fun x => [synonymToken x]) d.names
          ++ TokenKind.semicolon.token :: more) ()
        none (enter frame d.entries, more) := by
  refine .get fun s here => ?_
  have type : trim (upper (rawText s.prev)) = d.type.label := by
    obtain ⟨shown, taken, shows⟩ := here.prev _ rfl
    obtain ⟨before, after, text, spaces⟩ := shows.text
    rw [taken, rawText, text, trim_upper_spaces spaces, String.ofList_toList]
    cases d.type <;> decide +kernel
  rw [type]
  refine takes_declared fresh synonyms ?_
  have enough := here.ahead.length_le
  have listed : d.names.length
      ≤ (separated TokenKind.comma.token (fun x => [synonymToken x]) d.names).length + 1 :=
    length_le_separated d.names
  rw [List.length_append, List.length_cons] at enough
  omega

theorem takes_declarations {listed : List Declaration}
    (fresh : (frame.declarations.keys ++ listed.flatMap Declaration.names).Nodup)
    (synonyms : ∀ d ∈ listed, ∀ x ∈ d.names, isSynonym x = true)
    {fuel : Nat} (enough : listed.length < fuel)
    : Takes scope (declarations fuel) last
        (frame, listed.flatMap Declaration.tokens ++ TokenKind.select.token :: more) ()
        none (enter frame (listed.flatMap Declaration.entries), TokenKind.select.token :: more) := by
  induction listed generalizing fuel last frame with
  | nil =>
    obtain ⟨fuel, rfl⟩ : ∃ spare, fuel = spare + 1 := ⟨fuel - 1, by simp at enough; omega⟩
    have same : enter frame ([].flatMap Declaration.entries) = frame := by simp [enter]
    rw [same]
    exact takes_peek.bind Takes.pure.forget
  | cons d listed ih =>
    obtain ⟨fuel, rfl⟩ : ∃ spare, fuel = spare + 1 := ⟨fuel - 1, by omega⟩
    obtain ⟨own, others⟩ := List.forall_mem_cons.mp synonyms
    rw [List.flatMap_cons, ← List.append_assoc] at fresh
    have fresh' : ((enter frame d.entries).declarations.keys
        ++ listed.flatMap Declaration.names).Nodup := by
      simpa [Keyed.keys, enter, Declaration.entries, Function.comp_def] using fresh
    have goesOn {last : Option Token}
        : Takes scope (declarations fuel) last
          (enter frame d.entries,
            listed.flatMap Declaration.tokens ++ TokenKind.select.token :: more) ()
          none (enter frame ((d :: listed).flatMap Declaration.entries),
            TokenKind.select.token :: more) := by
      rw [List.flatMap_cons, ← enter_enter]
      exact ih fresh' others (by simpa using enough)
    rw [List.flatMap_cons, Declaration.tokens, List.cons_append, List.append_assoc, List.cons_append,
      List.append_assoc]
    exact takes_peek.bind (takes_shift.bind
      ((takes_declaration (List.nodup_append.mp fresh).1 own).bind goesOn))

theorem takes_modify {f : ParserState → ParserState}
    (changes : ∀ s : ParserState, s.At last before → (f s).At last after)
    : Takes scope (modify f) last before () last after :=
  fun s here => ⟨f s, rfl, changes s here⟩

theorem takes_selection (holds : Holds q frame)
    (known : ∀ x ∈ q.selected, ∃ type, q.typeOf? x = some type)
    : Takes scope selection last (frame, selectedToken q.selected :: more) q.resultTree none
        ({ frame with selected := (selectedToken q.selected).kind.title }, more) := by
  have noted : Takes scope (modify fun s => { s with selected := titleOf s.next }) last
      (frame, selectedToken q.selected :: more) () last
      ({ frame with selected := (selectedToken q.selected).kind.title },
        selectedToken q.selected :: more) :=
    takes_modify fun s here => { here with selected := here.coming.titleOf_eq }
  refine noted.bind (takes_peek.bind ?_)
  have holds' : Holds q { frame with selected := (selectedToken q.selected).kind.title } :=
    ⟨holds.declared, holds.synonyms⟩
  unfold resultTree
  cases chosen : q.selected with
  | none => exact takes_shift.bind Takes.pure.forget
  | some x =>
    obtain ⟨type, found⟩ := known x chosen
    rw [chosen] at holds'
    simp only [synonymTree_eq found]
    exact (holds'.typed found).bind Takes.pure.forget

theorem takes_addParts {parts : List Tree}
    : Takes scope (addParts parts) last (frame, more) () last
        ({ frame with parts := frame.parts ++ parts }, more) :=
  takes_modify fun s here => { here with parts := by rw [here.parts] }

theorem clauseNode_eq (label : String) (conditions : List Tree)
    : clauseNode label conditions = part label conditions := by
  cases conditions <;> rfl

theorem length_le_declarations (listed : List Declaration)
    : listed.length ≤ (listed.flatMap Declaration.tokens).length := by
  induction listed with
  | nil => simp
  | cons d rest ih =>
    simp only [List.flatMap_cons, Declaration.tokens, List.length_cons, List.length_append]
    omega

/-- A parser that starts with nothing recorded gets to the end of a query and has its tree then,
whatever comes after it. -/
theorem takes_selectClause_before (formed : q.WellFormed scope)
    (stop : ∀ t ∈ more.head?, goesOn t.kind = false)
    : ∃ frame, Takes scope selectClause none (⟨[], "", []⟩, q.tokens ++ more) () none (frame, more)
      ∧ .node "QUERY" "query" 0 frame.parts = q.tree := by
  have declared : Takes scope designEntity none (⟨[], "", []⟩, q.tokens ++ more) () none
      (⟨q.table, "", []⟩, TokenKind.select.token :: selectedToken q.selected
        :: (q.clauses.flatMap Clause.tokens ++ more)) := by
    rw [tokens, List.append_assoc]
    refine .of_budget fun fuel enough => ?_
    have listed := length_le_declarations q.declarations
    simp only [List.length_append] at enough
    have fresh : (Frame.declarations ⟨[], "", []⟩).keys
        ++ q.declarations.flatMap Declaration.names |>.Nodup := formed.distinct
    exact takes_declarations fresh formed.synonyms (by omega)
  have holds {selected : String} {parts : List Tree} : Holds q ⟨q.table, selected, parts⟩ :=
    formed.holds rfl
  have collected {frame : Frame} (holds : Holds q frame) {s : ParserState} {last : Option Token}
      (here : s.At last (frame, q.clauses.flatMap Clause.tokens ++ more))
      : Takes scope (clauses s.budget {}) last (frame, q.clauses.flatMap Clause.tokens ++ more)
        (Clauses.add {} q q.clauses) none (frame, more) := by
    have enough := here.ahead.length_le
    have listed := Clause.length_le_tokens q.clauses
    simp only [List.length_append] at enough
    exact takes_clauses holds q.clauses formed.clauses (by omega) {} stop
  let found := Clauses.add {} q q.clauses
  refine ⟨⟨q.table, (selectedToken q.selected).kind.title, [] ++ [.node "RESULT" "" 0 [q.resultTree]]
    ++ (clauseNode "WITH" found.withs ++ clauseNode "PATTERN" found.patterns
      ++ clauseNode "SUCH_THAT" found.relations)⟩, ?_, ?_⟩
  · refine declared.bind (takes_expect.bind ((takes_selection holds formed.selected).bind
      (takes_addParts.bind (.get fun s here => ?_))))
    exact (collected holds here).bind takes_addParts.forget
  · simp only [found, clauseNode_eq, Clauses.add, List.nil_append]
    rfl

theorem takes_selectClause (formed : q.WellFormed scope)
    : ∃ frame, Takes scope selectClause none (⟨[], "", []⟩, q.tokens) () none (frame, [])
      ∧ .node "QUERY" "query" 0 frame.parts = q.tree := by
  have nothing : ∀ t ∈ ([] : List Token).head?, goesOn t.kind = false := by simp
  simpa using takes_selectClause_before formed nothing

end Parser

variable {scope : Scope}

theorem Reading.ofText_eq {text : String} {stop : ParserState}
    (read : Parser.selectClause scope ((ParserState.start []).reopen text).advance = .ok () stop)
    : Reading.ofText scope text = .ok ⟨stop.tree, stop⟩ := by
  have whole : Parser.queryText text scope (.start []) = .ok () stop := read
  unfold Reading.ofText
  rw [whole]

/-- A printed query is read as it would be alone if tokens come behind it that start no clause and no
further condition. -/
theorem Reading.ofText_laidOut_before {scope : Scope} {q : Query} (formed : q.WellFormed scope)
    (tight : Bool) {more : List Token} (plain : ∀ t ∈ more, t.Plain)
    (stop : ∀ t ∈ more.head?, Parser.goesOn t.kind = false)
    : ∃ stop, Reading.ofText scope (String.ofList (laidOut tight (q.tokens ++ more)))
        = .ok ⟨q.tree, stop⟩ ∧ stop.Ahead more := by
  obtain ⟨frame, takes, tree⟩ := Parser.takes_selectClause_before formed stop
  have readable : Readable tight more := by
    have nothing : Readable tight [] := trivial
    simpa using nothing.append plain
  have whole : Readable tight (q.tokens ++ more) := formed.joins more readable
  have here : ((ParserState.start []).reopen
      (String.ofList (laidOut tight (q.tokens ++ more)))).advance.At none
      (⟨[], "", []⟩, q.tokens ++ more) := by
    obtain ⟨declarations, selected, parts, -⟩ := ((ParserState.start []).reopen
      (String.ofList (laidOut tight (q.tokens ++ more)))).advance_kept
    refine ⟨declarations, selected, parts, nofun, ParserState.ahead_advance nofun ?_⟩
    rw [ParserState.reopen, String.toList_ofList, laidOut_filter_newline whole.printed]
    exact formed.lexes_before readable
  obtain ⟨stop, read, there⟩ := takes _ here
  refine ⟨stop, ?_, there.ahead⟩
  have same : stop.tree = q.tree := by
    rw [ParserState.tree, there.parts]
    exact tree
  rw [Reading.ofText_eq read, same]

theorem Reading.exists_ofText_print {q : Query} (formed : q.WellFormed scope)
    (tight : Bool)
    : ∃ stop, Reading.ofText scope (q.print tight) = .ok ⟨q.tree, stop⟩ ∧ stop.Ahead [] := by
  have before := @Reading.ofText_laidOut_before _ _ formed tight [] nofun nofun
  rwa [List.append_nil] at before

/-- Reading undoes printing. -/
theorem ofText_print {scope : Scope} {q : Query} (formed : q.WellFormed scope) (tight : Bool)
    : ∃ stop, Reading.ofText scope (q.print tight) = .ok ⟨q.tree, stop⟩ ∧ stop.rest = [] := by
  obtain ⟨stop, read, ahead⟩ := Reading.exists_ofText_print formed tight
  exact ⟨stop, read, ahead.2⟩

/-- A query with clauses of all three kinds and an expression in quotes. -/
theorem ofText_print_clauses
    : ∃ q : Query, q.WellFormed ⟨["p"], ["x"], 3⟩
      ∧ q.print true = "stmt s ; assign a1 ; Select s such that Follows ( s , 2 )"
        ++ " pattern a1 ( _ , _ \"x + 1\" _ ) with s.stmt# = 1"
      ∧ ∃ stop, Reading.ofText ⟨["p"], ["x"], 3⟩ (q.print true) = .ok ⟨q.tree, stop⟩
        ∧ stop.rest = [] := by
  let q : Query := {
    declarations := [⟨.statement, ["s"]⟩, ⟨.assignment, ["a1"]⟩]
    selected := some "s"
    clauses := [.suchThat [⟨.follows, .synonym "s", .line "2"⟩],
      .pattern [.assignment "a1" .anything (.part (.binary .plus (.name "x") (.literal "1")))],
      .comparing [⟨"s", some .number, .line "1"⟩]] }
  have formed : q.WellFormed ⟨["p"], ["x"], 3⟩ := by
    refine ⟨by decide, by decide, ?_, ?_⟩
    · intro x chosen
      cases chosen
      exact ⟨.statement, rfl⟩
    · have spelled : IsSpelled (.binary .plus (.name "x") (.literal "1")) :=
        ⟨by decide, by decide⟩
      refine List.forall_mem_cons.mpr ⟨⟨nofun, ?_⟩, List.forall_mem_cons.mpr ⟨⟨nofun, ?_⟩,
        List.forall_mem_singleton.mpr ⟨nofun, ?_⟩⟩⟩
      · exact List.forall_mem_singleton.mpr
          ⟨⟨.statement, rfl, rfl⟩, ⟨rfl, 2, rfl, by decide⟩, .inl (by decide)⟩
      · exact List.forall_mem_singleton.mpr ⟨rfl, trivial, spelled⟩
      · exact List.forall_mem_singleton.mpr ⟨.statement, rfl, rfl, rfl, 1, rfl, by decide⟩
  exact ⟨q, formed, by decide, ofText_print formed true⟩

end Query

end ProgramQuery
