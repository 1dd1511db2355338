import ProgramQuery.Proofs.Evaluation.Outcomes

/-! The conditions of a query are applied one after the other. What is left to the synonym that they
restrict is what all conditions applied so far allow, so that a condition fails only where no value
is left by all.
-/

namespace ProgramQuery

open Text ProgramQuery.Relation Evaluation

namespace Query

def Unmet (q : Query) (subject : Subject) (x : String) : Prop :=
  ¬ ∃ t, ∀ r ∈ q.restrictions, q.Allows subject x r t

/-- Some conditions of a query have been applied, and what is left to the synonym is what they allow. -/
structure Applied (q : Query) (subject : Subject) (x : String) (fine : Entity → Prop)
    (done : List Restriction) (s : State)
    : Prop where
  restricted : s.sheet.Restricted x fine (q.Allows subject x) done
  inside : ∀ r ∈ done, r ∈ q.restrictions

section Applied

variable {q : Query} {subject : Subject} {x : String} {fine : Entity → Prop}
  {done : List Restriction} {s : State} {r : Restriction}

theorem Applied.unmet (applied : q.Applied subject x fine done s) (member : r ∈ q.restrictions)
    (excludes : Excludes (q.Allows subject x) done r)
    : q.Unmet subject x :=
  fun ⟨t, all⟩ => excludes t (fun d isDone => all d (applied.inside d isDone)) (all r member)

theorem Applied.after (applied : q.Applied subject x fine done s) (member : r ∈ q.restrictions)
    {s' : State} (restricted : s'.sheet.Restricted x fine (q.Allows subject x) (done ++ [r]))
    : q.Applied subject x fine (done ++ [r]) s' where
  restricted := restricted
  inside d isDone := by
    rcases List.mem_append.mp isDone with isDone | isDone
    · exact applied.inside d isDone
    · exact List.mem_singleton.mp isDone ▸ member

/-- Conditions are applied one after the other. -/
theorem Applied.ends_forM {γ : Type} {restriction : γ → Restriction} {work : γ → EvalM PUnit}
    {conditions : List γ}
    (each : ∀ c ∈ conditions, ∀ done s, q.Applied subject x fine done s →
      Ends subject (q.Unmet subject x) s (work c) fun _ =>
        q.Applied subject x fine (done ++ [restriction c]))
    (applied : q.Applied subject x fine done s)
    : Ends subject (q.Unmet subject x) s (conditions.forM work) fun _ =>
        q.Applied subject x fine (done ++ conditions.map restriction) := by
  induction conditions generalizing done s with
  | nil =>
    rw [List.map_nil, List.append_nil]
    exact .pure applied
  | cons c rest ih =>
    refine .bind ((each c (by simp) done s applied).mono fun _ s' applied' => ?_)
    rw [List.map_cons, List.append_cons]
    exact ih (fun c member => each c (by simp [member])) applied'

end Applied

section Clauses

variable {q : Query} {subject : Subject} {x : String} {fine : Entity → Prop}
  {done : List Restriction} {s : State} {r : Restriction}

/-- A condition whose outcome does not depend on what is left to the synonym. -/
theorem Applied.ends_outcome (applied : q.Applied subject x fine done s)
    (beside : x ≠ Sheet.truthRow ∧ x ≠ Sheet.fixedRow) (member : r ∈ q.restrictions)
    (alike : ∀ e e', fine e → fine e' → e.text = e'.text → e = e')
    (inside : ∀ values, q.outcome subject x r = .ok (some values) → ∀ e ∈ values.members, fine e)
    (title type : String) (differs : title ≠ Sheet.finalColumn) (quiet : isCondition title = false)
    : Ends subject (q.Unmet subject x) s (do
        modifySheet (·.declare x (.text type))
        let found ← ask (q.outcome subject x r)
        narrow title x (setCell found)) fun _ => q.Applied subject x fine (done ++ [r]) := by
  have declared := @Sheet.Restricted.declare _ _ _ _ _ _ (.text type) applied.restricted
  have row : x ∈ (s.sheet.declare x (.text type)).cells.rowNames :=
    Sheet.mem_rowNames_declare.mpr (.inl rfl)
  refine .bind (.modifySheet (.bind (.ask ?_)))
  cases found : q.outcome subject x r with
  | error fault =>
    refine applied.unmet member fun t _ ⟨values, found', _⟩ => ?_
    cases found.symm.trans found'
  | ok values? =>
    cases values? with
    | none =>
      -- no assignment has the variable of the pattern, and what is no set is refused
      have refused := Sheet.narrow_datum title row beside.2 .missing
      change Ends _ _ _ (narrow title x (.datum .missing)) _
      rw [Ends, narrow, refused]
      refine applied.unmet member fun t _ ⟨values, found', _⟩ => ?_
      cases found.symm.trans found'
    | some values =>
      have picks : Sheet.Picks _ x fine (q.Allows subject x) done r values.members :=
        declared.picks_of_alike alike (fun t => by simp [Allows, found]) (inside values found)
      exact (ends_narrow declared beside row differs quiet picks (applied.unmet member)).mono
        fun _ s' => applied.after member

variable (restricts : q.Restricts subject.knowledge.scope x)
  (alike : ∀ e e', fine e → fine e' → e.text = e'.text → e = e')
  (inside : ∀ r ∈ q.restrictions, r.relation? = none → ∀ values,
    q.outcome subject x r = .ok (some values) → ∀ e ∈ values.members, fine e)
include restricts alike inside

theorem Applied.ends_comparison {c : AttributeCondition} (member : .comparison c ∈ q.restrictions)
    (applied : q.Applied subject x fine done s)
    : Ends subject (q.Unmet subject x) s (comparison (q.attributeTree c)) fun _ =>
        q.Applied subject x fine (done ++ [.comparison c]) := by
  obtain ⟨rfl, -⟩ := restricts.concerns _ member
  have ends := applied.ends_outcome restricts.name member alike (inside _ member rfl)
    "WITH" (q.typeText c.synonym) (by decide) (by decide)
  have same : comparison (q.attributeTree c) subject s = (do
      modifySheet (·.declare c.synonym (.text (q.typeText c.synonym)))
      let found ← ask (q.outcome subject c.synonym (.comparison c))
      narrow "WITH" c.synonym (setCell found)) subject s := by
    change (do
      modifySheet (·.declare c.synonym (.text (q.typeText c.synonym)))
      let found ← ask (Clause.withValues subject.knowledge (q.attributeTree c))
      narrow "WITH" c.synonym (.set found)) subject s = _
    rw [outcome]
    cases Clause.withValues subject.knowledge (q.attributeTree c) <;> rfl
  rw [Ends] at ends ⊢
  rwa [same]

theorem Applied.ends_pattern {c : PatternCondition} (member : .pattern c ∈ q.restrictions)
    (applied : q.Applied subject x fine done s)
    : Ends subject (q.Unmet subject x) s (pattern (q.patternTree c)) fun _ =>
        q.Applied subject x fine (done ++ [.pattern c]) := by
  obtain ⟨rfl, -⟩ := restricts.concerns _ member
  obtain ⟨title, rest, shape⟩ := patternTree_eq q c
  have ends := applied.ends_outcome restricts.name member alike (inside _ member rfl)
    "PATTERN" (q.typeText c.synonym) (by decide) (by decide)
  rw [outcome, shape] at ends
  rw [shape]
  exact ends

end Clauses

def referenceLabel (q : Query) : Reference → String
  | .synonym x => q.typeText x
  | .anything => "EVERYTHING"
  | .line _ => "INTEGER"
  | .name _ => "IDENT_QUOTE"

theorem referenceTree_eq (q : Query) (a : Reference)
    : q.referenceTree a = .leaf (q.referenceLabel a) a.text := by
  cases a <;> rfl

theorem argument_of_isFixed {q : Query} {a : Reference} (fixed : a.IsFixed) (v : Entity)
    : argument (q.referenceLabel a) v = pure (.fixed v) := by
  cases a with
  | synonym => exact fixed.elim
  | anything => rfl
  | line => rfl
  | name => rfl

theorem suchThat_relationTree (q : Query) (c : RelationCondition)
    : suchThat (q.relationTree c) = (do
        let first ← argument (q.referenceLabel c.first) (.name c.first.text)
        let second ← argument (q.referenceLabel c.second) (.name c.second.text)
        execute c.relation.title first second) := by
  rw [relationTree, referenceTree_eq, referenceTree_eq]
  rfl

section Relations

variable {q : Query} {subject : Subject} {x : String} {fine : Entity → Prop}
  {done : List Restriction} {s : State} {c : RelationCondition} {cell : Cell} {title : String}
  {scope : Scope} {a : Reference}

theorem relate_first (first : c.first = .synonym x)
    : relate c.relation.title (.synonym x cell) (.fixed (.name c.second.text)) = (do
        let found ← ask (c.found (modes (← read).knowledge c.relation.title) cell)
        narrowTo (c.relation.title ++ "_" ++ x ++ "_" ++ Sheet.fixedRow) x found
        narrow (c.relation.title ++ "_" ++ x ++ "_" ++ Sheet.fixedRow) Sheet.fixedRow
          (.ofEntity (.name c.second.text))) := by
  obtain ⟨relation, _, second⟩ := c
  cases first
  cases cell <;> rfl

theorem relate_second (fixed : c.first.IsFixed) (second : c.second = .synonym x)
    : relate c.relation.title (.fixed (.name c.first.text)) (.synonym x cell) = (do
        let found ← ask (c.found (modes (← read).knowledge c.relation.title) cell)
        narrow (c.relation.title ++ "_" ++ Sheet.fixedRow ++ "_" ++ x) Sheet.fixedRow
          (.ofEntity (.name c.first.text))
        narrowTo (c.relation.title ++ "_" ++ Sheet.fixedRow ++ "_" ++ x) x found) := by
  obtain ⟨relation, first, _⟩ := c
  cases second
  cases first with
  | synonym => exact fixed.elim
  | anything => cases cell <;> rfl
  | line => cases cell <;> rfl
  | name => cases cell <;> rfl

/-- What is recorded with a fixed argument is not a condition between two synonyms. -/
theorem isCondition_of_occurs (occurs : Sheet.fixedRow.toList <:+: title.toList)
    : isCondition title = false ∧ title ≠ Sheet.finalColumn := by
  have inTitle := occursIn_iff.mpr occurs
  refine ⟨by simp [isCondition, inTitle], ?_⟩
  rintro rfl
  exact absurd inTitle (by decide)

theorem text_ne_empty
    (fits : q.FitsLine scope a ∨ q.FitsProcedure scope a ∨ q.FitsVariable scope a) (fixed : a.IsFixed)
    : a.text ≠ "" := by
  cases a with
  | synonym => exact fixed.elim
  | anything => exact (by decide : "_" ≠ "")
  | line digits =>
    obtain ⟨numeral, -⟩ := fits.resolve_right (Or.elim · id id)
    rintro (rfl : digits = "")
    exact absurd numeral (by decide)
  | name a =>
    have quotable : isQuotable a = true := by
      rcases fits with fits | fits | fits
      · exact fits.elim
      · exact fits.1
      · exact fits.1
    rintro rfl
    exact absurd quotable (by decide)

theorem RelationCondition.Accepted.fits (accepted : c.Accepted scope q)
    (side : a = c.first ∨ a = c.second)
    : q.FitsLine scope a ∨ q.FitsProcedure scope a ∨ q.FitsVariable scope a := by
  obtain ⟨relation, first, second⟩ := c
  cases relation <;> simp only [RelationCondition.Accepted] at accepted <;> grind

variable (applied : q.Applied subject x fine done s)
  (beside : x ≠ Sheet.truthRow ∧ x ≠ Sheet.fixedRow) (row : x ∈ s.sheet.cells.rowNames)
  (member : .relation c ∈ q.restrictions)
  (finds : Answers (Excludes (q.Allows subject x) done (.relation c))
    (c.found (modes subject.knowledge c.relation.title) cell)
    (s.sheet.Picks x fine (q.Allows subject x) done (.relation c)))
include applied beside row member finds

/-- A condition that begins with the synonym. -/
theorem Applied.ends_execute_first (first : c.first = .synonym x) (filled : c.second.text ≠ "")
    : Ends subject (q.Unmet subject x) s
        (execute c.relation.title (.synonym x cell) (.fixed (.name c.second.text))) fun _ =>
        q.Applied subject x fine (done ++ [.relation c]) := by
  obtain ⟨title, named⟩ : ∃ title, c.relation.title ++ "_" ++ x ++ "_" ++ Sheet.fixedRow = title :=
    ⟨_, rfl⟩
  obtain ⟨quiet, differs⟩ : isCondition title = false ∧ title ≠ Sheet.finalColumn :=
    isCondition_of_occurs ⟨(c.relation.title ++ "_" ++ x ++ "_").toList, [], by simp [← named]⟩
  have titled : conditionTitle c.relation.title (.synonym x cell) (.fixed (.name c.second.text))
      = title := named
  unfold execute
  refine .bind (.sheet ?_)
  rw [executeWithin_succ titled, relate_first first, named]
  refine .bind (.bind (.read (.bind (.ask ?_))))
  refine (finds.because (applied.unmet member)).mono fun found picks => .bind ?_
  refine (ends_narrow applied.restricted beside row differs quiet picks.ofList
    (applied.unmet member)).mono fun _ s₁ restricted => ?_
  refine (ends_note restricted beside quiet filled).mono fun _ s₂ ⟨restricted, _⟩ => .bind ?_
  -- no condition between two synonyms is recorded, so nothing hangs on this one
  refine (ends_followUp restricted).mono fun _ s₃ same => ?_
  exact .pure (applied.after member (same ▸ restricted))

/-- A condition that ends with the synonym. -/
theorem Applied.ends_execute_second (fixed : c.first.IsFixed) (second : c.second = .synonym x)
    (filled : c.first.text ≠ "")
    : Ends subject (q.Unmet subject x) s
        (execute c.relation.title (.fixed (.name c.first.text)) (.synonym x cell)) fun _ =>
        q.Applied subject x fine (done ++ [.relation c]) := by
  obtain ⟨title, named⟩ : ∃ title, c.relation.title ++ "_" ++ Sheet.fixedRow ++ "_" ++ x = title :=
    ⟨_, rfl⟩
  obtain ⟨quiet, differs⟩ : isCondition title = false ∧ title ≠ Sheet.finalColumn :=
    isCondition_of_occurs ⟨(c.relation.title ++ "_").toList, ("_" ++ x).toList, by simp [← named]⟩
  have titled : conditionTitle c.relation.title (.fixed (.name c.first.text)) (.synonym x cell)
      = title := named
  unfold execute
  refine .bind (.sheet ?_)
  rw [executeWithin_succ titled, relate_second fixed second, named]
  refine .bind (.bind (.read (.bind (.ask ?_))))
  refine (finds.because (applied.unmet member)).mono fun found picks => .bind ?_
  refine (ends_note applied.restricted beside quiet filled).mono fun _ s₁ ⟨restricted, same, rows⟩ => ?_
  refine (ends_narrow restricted beside (rows x row) differs quiet (picks.congr same).ofList
    (applied.unmet member)).mono fun _ s₂ restricted => ?_
  refine .bind (.pure ((ends_followUp restricted).mono fun _ s₃ same => ?_))
  exact applied.after member (same ▸ restricted)

end Relations

def conditionKey (q : Query) (c : RelationCondition) : String :=
  c.relation.plain.title ++ (c.first.text ++ q.referenceLabel c.first
    ++ (c.second.text ++ q.referenceLabel c.second))

def heaviness (q : Query) (c : RelationCondition) : Nat :=
  relationWeight c.relation + (laxity? (q.referenceLabel c.first)).getD 0
    + (laxity? (q.referenceLabel c.second)).getD 0

section Order

variable {q : Query} {subject : Subject} {x : String} {type : EntityType} {a a' : Reference}
  {c c' : RelationCondition}

theorem digest_node {r : RelationName} {first second a b : String}
    : (Tree.node r.title "" 0 [.leaf first a, .leaf second b]).digest
      = .ok (r.plain.title ++ (a ++ first ++ (b ++ second))) := by
  have digest : (Tree.node r.title "" 0 [.leaf first a, .leaf second b]).digest
      = .ok ("" ++ Tree.plainLabel r.title ++ String.join [a ++ first, b ++ second]) := rfl
  rw [digest, plainLabel_title]
  simp [String.join, String.append_assoc]

theorem digest_relationTree (q : Query) (c : RelationCondition)
    : (q.relationTree c).digest = .ok (q.conditionKey c) := by
  rw [relationTree, referenceTree_eq, referenceTree_eq, digest_node]
  rfl

theorem referenceLabel_of_isFixed (fixed : a.IsFixed)
    : q.referenceLabel a ∈ argumentLabels ∧ Argument.isFixedKind (q.referenceLabel a) = true := by
  cases a with
  | synonym => exact fixed.elim
  | anything => rw [referenceLabel]; decide
  | line => rw [referenceLabel]; decide
  | name => rw [referenceLabel]; decide

theorem referenceLabel_synonym (typed : q.typeOf? x = some type)
    : q.referenceLabel (.synonym x) ∈ argumentLabels
      ∧ Argument.isFixedKind (q.referenceLabel (.synonym x)) = false := by
  rw [referenceLabel, typeText_eq typed]
  cases type <;> decide

/-- A text is cut off where its label begins. -/
theorem append_label_inj {text text' label label' : String} (known : label ∈ argumentLabels)
    (known' : label' ∈ argumentLabels) (same : text ++ label = text' ++ label')
    : text = text' ∧ label = label' := by
  have suffix : label.toList <:+ (text ++ label).toList := by simp
  have suffix' : label'.toList <:+ (text ++ label).toList := by simp [same]
  obtain rfl : label = label' := by
    rcases List.suffix_or_suffix_of_suffix suffix suffix' with shorter | shorter
    · exact suffix_label known known' shorter
    · exact (suffix_label known' known shorter).symm
  exact ⟨by simpa using same, rfl⟩

theorem eq_of_inscription (fixed : a.IsFixed) (fixed' : a'.IsFixed)
    (same : a.text ++ q.referenceLabel a = a'.text ++ q.referenceLabel a')
    : a = a' := by
  obtain ⟨text, label⟩ := append_label_inj (referenceLabel_of_isFixed fixed).1
    (referenceLabel_of_isFixed fixed').1 same
  cases a <;> cases a' <;> simp_all [Reference.IsFixed, Reference.text, referenceLabel]

/-- Conditions on one synonym that are not told apart differ at most by a star. -/
theorem conditionKey_inj (typed : q.typeOf? x = some type)
    (concerns : (Restriction.relation c).Concerns x)
    (concerns' : (Restriction.relation c').Concerns x)
    (plain : c.relation.plain ∈ plainRelations) (plain' : c'.relation.plain ∈ plainRelations)
    (same : q.conditionKey c = q.conditionKey c')
    : c.relation.plain = c'.relation.plain ∧ c.first = c'.first ∧ c.second = c'.second := by
  obtain ⟨known, isSynonym⟩ := referenceLabel_synonym typed
  obtain ⟨relation, letters⟩ := plain_inj plain plain'
    ((String.toList_append ..).symm.trans ((congrArg String.toList same).trans (String.toList_append ..)))
  have rest := String.toList_inj.mp letters
  refine ⟨relation, ?_⟩
  -- the label at the end tells on which side the synonym stands
  have apart {a : Reference} {front back : String} (fixed : a.IsFixed)
      (mixed : front ++ q.referenceLabel a = back ++ q.referenceLabel (.synonym x)) : False := by
    obtain ⟨-, label⟩ := append_label_inj (referenceLabel_of_isFixed fixed).1 known mixed
    rw [← label, (referenceLabel_of_isFixed fixed).2] at isSynonym
    cases isSynonym
  rcases concerns with ⟨first, fixed⟩ | ⟨fixed, second⟩ <;>
    rcases concerns' with ⟨first', fixed'⟩ | ⟨fixed', second'⟩
  · rw [first, first'] at rest ⊢
    exact ⟨rfl, eq_of_inscription fixed fixed' (by simpa using rest)⟩
  · rw [first, second', ← String.append_assoc, ← String.append_assoc] at rest
    exact (apart fixed rest).elim
  · rw [second, first', ← String.append_assoc, ← String.append_assoc] at rest
    exact (apart fixed' rest.symm).elim
  · rw [second, second'] at rest ⊢
    exact ⟨eq_of_inscription fixed fixed' (by simpa using rest), rfl⟩

theorem conditionLaxity_relationTree (q : Query) (c : RelationCondition)
    : conditionLaxity (q.relationTree c) = (do
        let relation ← laxity c.relation.title
        let first ← laxity (q.referenceLabel c.first)
        let second ← laxity (q.referenceLabel c.second)
        return relation + first + second) := by
  rw [relationTree, referenceTree_eq, referenceTree_eq]
  rfl

theorem conditionLaxity_eq_ok {knowledge : KnowledgeBase} {m : Modes}
    (typed : q.typeOf? x = some type) (concerns : (Restriction.relation c).Concerns x)
    (asked : c.relation.modes? knowledge = some m)
    : conditionLaxity (q.relationTree c) = .ok (q.heaviness c) := by
  have relation : (laxity? c.relation.title).isSome = true := by
    revert asked
    cases c.relation <;> intro asked <;> first | rfl | cases asked
  have labels : ∀ label ∈ argumentLabels, (laxity? label).isSome = true := by decide
  obtain ⟨first, second⟩ : q.referenceLabel c.first ∈ argumentLabels
      ∧ q.referenceLabel c.second ∈ argumentLabels := by
    have synonym := (referenceLabel_synonym typed).1
    rcases concerns with ⟨first, fixed⟩ | ⟨fixed, second⟩
    · exact ⟨first ▸ synonym, (referenceLabel_of_isFixed fixed).1⟩
    · exact ⟨(referenceLabel_of_isFixed fixed).1, second ▸ synonym⟩
  rw [conditionLaxity_relationTree, laxity_eq relation, laxity_eq (labels _ first),
    laxity_eq (labels _ second)]
  rfl

theorem mapM_eq_error {α β : Type} {f : α → Asked β} {xs : List α} {x : α} {fault : Fault}
    (member : x ∈ xs) (fails : f x = .error fault)
    : ∃ fault, xs.mapM f = .error fault := by
  induction xs with
  | nil => cases member
  | cons y rest ih =>
    rw [List.mapM_cons]
    cases tried : f y with
    | error fault => exact ⟨fault, rfl⟩
    | ok b =>
      have inRest : x ∈ rest := by
        refine (List.mem_cons.mp member).resolve_left fun same => ?_
        cases (same ▸ fails).symm.trans tried
      obtain ⟨fault, failed⟩ := ih inRest
      rw [failed]
      exact ⟨fault, rfl⟩

/-- Relations that cannot be asked have no place in the order. -/
theorem arranged_eq_error {conditions : List RelationCondition} (member : c ∈ conditions)
    (unknown : c.relation.modes? subject.knowledge = none)
    : ∃ fault, arranged subject.order (conditions.map q.relationTree) = .error fault := by
  obtain ⟨fault, unordered⟩ : ∃ fault, laxity c.relation.title = .error fault := by
    revert unknown
    cases c.relation <;> intro unknown <;> first | exact ⟨_, rfl⟩ | cases unknown
  have fails : (do return (← conditionLaxity (q.relationTree c), q.relationTree c) : Asked _)
      = .error fault := by
    rw [conditionLaxity_relationTree, unordered]
    rfl
  obtain ⟨fault', failed⟩ := mapM_eq_error
    (f := fun tree => do return (← conditionLaxity tree, tree)) (List.mem_map_of_mem member) fails
  rw [arranged, byLaxity, failed]
  exact ⟨fault', rfl⟩

/-- Conditions with a fixed argument form no cycle. -/
theorem formCycle_relationTrees {conditions : List RelationCondition}
    (concerns : ∀ c ∈ conditions, (Restriction.relation c).Concerns x)
    : formCycle (conditions.map q.relationTree) = .ok false := by
  have unlinked (c : RelationCondition) (member : c ∈ conditions)
      : linked? (q.relationTree c) = .ok none := by
    have sides : linked? (q.relationTree c)
        = if Argument.isFixedKind (q.referenceLabel c.first) then .ok none
          else if Argument.isFixedKind (q.referenceLabel c.second) then .ok none
          else .ok (some (c.first.text, c.second.text)) := by
      rw [relationTree, referenceTree_eq, referenceTree_eq]
      rfl
    rw [sides]
    rcases concerns c member with ⟨-, fixed⟩ | ⟨fixed, -⟩
    · rw [(referenceLabel_of_isFixed fixed).2, if_pos rfl, ite_self]
    · rw [(referenceLabel_of_isFixed fixed).2, if_pos rfl]
  have edges : (conditions.map q.relationTree).filterMapM linked? = .ok [] := by
    change List.filterMapM.loop linked? (conditions.map q.relationTree) [] = .ok []
    clear concerns
    induction conditions with
    | nil => rfl
    | cons c rest ih =>
      rw [List.map_cons, List.filterMapM.loop, unlinked c (by simp)]
      exact ih fun c member => unlinked c (by simp [member])
  rw [formCycle, linksOf, edges]
  rfl

end Order

section SuchThat

variable {p : Program} {q : Query} {subject : Subject} {x : String} {kind : Kind}
  {done : List Restriction} {s : State} {c : RelationCondition}
  (setting : Setting p subject.knowledge) (restricts : q.Restricts subject.knowledge.scope x)
  (kindOf : q.kindOf? x = some kind)
include setting restricts kindOf

/-- The synonym of a condition gets its row, and what is found for it then is what the condition
allows. -/
theorem Applied.ends_argument (member : .relation c ∈ q.restrictions)
    (applied : q.Applied subject x (Suits p (some kind)) done s)
    : Ends subject (q.Unmet subject x) s (argument (q.referenceLabel (.synonym x)) (.name x))
        fun argument s' => q.Applied subject x (Suits p (some kind)) done s'
          ∧ x ∈ s'.sheet.cells.rowNames ∧ ∃ cell, argument = .synonym x cell
          ∧ Answers (Excludes (q.Allows subject x) done (.relation c))
            (c.found (modes subject.knowledge c.relation.title) cell)
            (s'.sheet.Picks x (Suits p (some kind)) (q.Allows subject x) done (.relation c)) := by
  have concerns := restricts.concerns _ member
  have steady : c.Steady (some kind) := kindOf ▸ restricts.steady _ member
  have accepted := restricts.accepted _ member
  obtain ⟨type, typed, -⟩ := exists_type_of_kindOf kindOf
  have free : Argument.isFixedKind (q.typeText x) = false :=
    typeText_eq typed ▸ isFixedKind_label type
  refine (Evaluation.ends_argument applied.restricted free).mono ?_
  rintro argument s' ⟨restricted, row, ⟨rfl, leaves⟩ | ⟨final, rfl, leaves⟩⟩
  · exact ⟨⟨restricted, applied.inside⟩, row, _, rfl,
      answers_found_open setting concerns kindOf steady accepted restricted leaves⟩
  · exact ⟨⟨restricted, applied.inside⟩, row, _, rfl,
      answers_found_set setting concerns kindOf steady accepted restricted leaves⟩

theorem Applied.ends_suchThat (member : .relation c ∈ q.restrictions)
    (applied : q.Applied subject x (Suits p (some kind)) done s)
    : Ends subject (q.Unmet subject x) s (suchThat (q.relationTree c)) fun _ =>
        q.Applied subject x (Suits p (some kind)) (done ++ [.relation c]) := by
  have accepted : c.Accepted subject.knowledge.scope q := restricts.accepted _ member
  rw [suchThat_relationTree]
  rcases restricts.concerns _ member with ⟨first, fixed⟩ | ⟨fixed, second⟩
  · have filled := text_ne_empty (accepted.fits (.inr rfl)) fixed
    rw [argument_of_isFixed fixed, first]
    refine .bind ((applied.ends_argument setting restricts kindOf member).mono ?_)
    rintro _ s' ⟨applied', row, cell, rfl, finds⟩
    exact .bind (.pure (applied'.ends_execute_first restricts.name row member finds first filled))
  · have filled := text_ne_empty (accepted.fits (.inl rfl)) fixed
    rw [argument_of_isFixed fixed, second]
    refine .bind (.pure (.bind ((applied.ends_argument setting restricts kindOf member).mono ?_)))
    rintro _ s' ⟨applied', row, cell, rfl, finds⟩
    exact applied'.ends_execute_second restricts.name row member finds fixed second filled

theorem Restricts.answers_arranged
    : Answers (q.Unmet subject x)
        (arranged subject.order (q.relationConditions.map q.relationTree)) fun trees =>
        ∃ kept : List RelationCondition, trees = kept.map q.relationTree
          ∧ (∀ c ∈ kept, .relation c ∈ q.restrictions)
          ∧ ∀ c ∈ q.relationConditions, ∃ c' ∈ kept, ∀ t,
            q.Allows subject x (.relation c') t → q.Allows subject x (.relation c) t := by
  by_cases asked : ∀ c ∈ q.relationConditions, ∃ m, c.relation.modes? subject.knowledge = some m
  · obtain ⟨type, typed, -⟩ := exists_type_of_kindOf kindOf
    have concerns (c : RelationCondition) (member : c ∈ q.relationConditions) :=
      restricts.concerns _ (mem_relationConditions.mp member)
    have plain (c : RelationCondition) (member : c ∈ q.relationConditions)
        : c.relation.plain ∈ plainRelations := by
      obtain ⟨m, asked⟩ := asked c member
      revert asked
      cases c.relation <;> simp [RelationName.modes?, RelationName.plain, plainRelations]
    obtain ⟨kept, arrangedAs, subset, -, covers⟩ := exists_arranged_of subject.order
      (fun c member => conditionLaxity_eq_ok typed (concerns c member) (asked c member).choose_spec)
      fun c _ => digest_relationTree q c
    rw [arrangedAs]
    refine Answers.ok ⟨kept, rfl, fun c isKept => mem_relationConditions.mp (subset c isKept),
      fun c member => ?_⟩
    obtain ⟨c', isKept, same, order⟩ := covers c member
    have member' := subset c' isKept
    refine ⟨c', isKept, fun t allowed => ?_⟩
    obtain ⟨relation, first, second⟩ := conditionKey_inj typed (concerns c' member')
      (concerns c member) (plain c' member') (plain c member) same
    have lighter : relationWeight c'.relation ≤ relationWeight c.relation := by
      rcases order with rfl | lighter
      · exact Nat.le_refl _
      · simp only [heaviness, first, second] at lighter
        omega
    rcases eq_or_plain_of_weight relation lighter with equal | isPlain
    · obtain rfl : c' = c := by
        cases c
        cases c'
        simp_all
      exact allowed
    · exact restricts.allows_of_plain setting kindOf (mem_relationConditions.mp member)
        (mem_relationConditions.mp member') first second isPlain allowed
  · obtain ⟨c, member, unknown⟩ : ∃ c ∈ q.relationConditions,
        c.relation.modes? subject.knowledge = none := by
      simpa [Option.eq_none_iff_forall_ne_some] using asked
    obtain ⟨fault, failed⟩ := @arranged_eq_error q subject _ _ member unknown
    rw [failed]
    rintro ⟨t, all⟩
    exact not_allows_of_modes unknown (all _ (mem_relationConditions.mp member))

/-- Several conditions are applied in order, and then there is nothing to settle. -/
theorem Applied.ends_arranged {kept : List RelationCondition}
    (inside : ∀ c ∈ kept, .relation c ∈ q.restrictions)
    (applied : q.Applied subject x (Suits p (some kind)) done s)
    : Ends subject (q.Unmet subject x) s (do
        (kept.map q.relationTree).forM suchThat
        settle
        if ← ask (formCycle (kept.map q.relationTree)) then resolveCycle (kept.map q.relationTree))
        fun _ => q.Applied subject x (Suits p (some kind)) (done ++ kept.map .relation) := by
  rw [List.forM_eq_forM, List.forM_map,
    formCycle_relationTrees fun c isKept => restricts.concerns _ (inside c isKept)]
  refine .bind ((applied.ends_forM fun c isKept done s applied =>
    applied.ends_suchThat setting restricts kindOf (inside c isKept)).mono fun _ s₁ applied₁ => ?_)
  refine .bind ((ends_settle applied₁.restricted).mono fun _ s₂ same => ?_)
  exact .bind (.ask (.ok (.pure (same ▸ applied₁))))

theorem Applied.ends_suchThatAll (nonempty : q.relationConditions ≠ [])
    (applied : q.Applied subject x (Suits p (some kind)) done s)
    : Ends subject (q.Unmet subject x) s (suchThatAll (q.relationConditions.map q.relationTree))
        fun _ s' => ∃ kept : List RelationCondition,
          q.Applied subject x (Suits p (some kind)) (done ++ kept.map .relation) s'
          ∧ ∀ c ∈ q.relationConditions, ∃ c' ∈ kept, ∀ t,
            q.Allows subject x (.relation c') t → q.Allows subject x (.relation c) t := by
  match given : q.relationConditions with
  | [] => exact absurd given nonempty
  | [c] =>
    have member : .relation c ∈ q.restrictions := mem_relationConditions.mp (by simp [given])
    refine (applied.ends_suchThat setting restricts kindOf member).mono fun _ s' applied' => ?_
    exact ⟨[c], applied', fun c' isGiven => ⟨c', isGiven, fun _ => id⟩⟩
  | first :: second :: rest =>
    rw [← given]
    have several : suchThatAll (q.relationConditions.map q.relationTree) = (do
        let conditions ← ask (arranged (← read).order (q.relationConditions.map q.relationTree))
        conditions.forM suchThat
        settle
        if ← ask (formCycle conditions) then resolveCycle conditions) := by
      rw [given]
      rfl
    rw [several]
    refine .bind (.read (.bind (.ask ((restricts.answers_arranged setting kindOf).mono ?_))))
    rintro _ ⟨kept, rfl, inside, covers⟩
    exact (applied.ends_arranged setting restricts kindOf inside).mono fun _ s' applied' =>
      ⟨kept, applied', covers⟩

end SuchThat

end Query

end ProgramQuery
