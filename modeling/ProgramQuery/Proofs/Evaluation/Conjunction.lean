import ProgramQuery.Proofs.Evaluation.Applying

/-! A query whose conditions all restrict the synonym that it selects is answered with what all of them
leave to it, whatever their order.
-/

namespace ProgramQuery

open Text ProgramQuery.Relation Evaluation

/-- The values that an answer lists, by their texts. -/
def answerTexts (answer : String) : List String :=
  if answer = "" then [] else (splitAt ',' answer).map trim

/-- The values that a query is answered with; there are none where it has no answer. -/
def Evaluation.Subject.answered (subject : Subject) (root : Tree) : List String :=
  ((subject.response? root).map answerTexts).getD []

def IsWord (t : String) : Prop :=
  t ≠ "" ∧ ∀ c ∈ t.toList, isLetterOrDigit c = true

section Answers

variable {t : String} {ts : List String}

theorem IsPlace.isWord {e : Entity} (place : IsPlace e) : IsWord e.text := by
  match e, place with
  | .line _, ⟨n, rfl⟩ =>
    obtain ⟨nonempty, digits⟩ := showInt_digits n
    refine ⟨fun empty => nonempty (by simp [show showInt n = "" from empty]), fun c member => ?_⟩
    exact (Bool.or_eq_true _ _).mpr (.inr (digits c member))
  | .name a, isName =>
    obtain ⟨c, cs, heading, letter, more⟩ := isName_iff.mp isName
    refine ⟨fun empty => by simp [show a = "" from empty] at heading, fun d member => ?_⟩
    rw [show (Entity.name a).text.toList = c :: cs from heading] at member
    rcases List.mem_cons.mp member with rfl | member
    · exact (Bool.or_eq_true _ _).mpr (.inl letter)
    · exact more d member

theorem IsWord.solid (word : IsWord t) : ∀ c ∈ t.toList, isBlank c = false :=
  fun c member => not_isBlank_of_isLetterOrDigit (word.2 c member)

theorem IsWord.no_comma (word : IsWord t) : ',' ∉ t.toList :=
  fun member => absurd (word.2 ',' member) (by decide)

theorem IsWord.trim_gap {gap : List Char} (word : IsWord t) (blank : ∀ c ∈ gap, c = ' ')
    : ',' ∉ gap ++ t.toList ∧ trim (String.ofList (gap ++ t.toList)) = t := by
  constructor
  · intro member
    rcases List.mem_append.mp member with member | member
    · exact absurd (blank ',' member) (by decide)
    · exact word.no_comma member
  · rw [trim_append (fun c member => blank c member ▸ by decide) word.solid, String.ofList_toList]

theorem splitAt_listed {gap : List Char} (blank : ∀ c ∈ gap, c = ' ') (words : ∀ u ∈ t :: ts, IsWord u)
    : (splitAt.go ',' [] (gap ++ (Sheet.listed (t :: ts)).toList)).map trim = t :: ts := by
  induction ts generalizing t gap with
  | nil =>
    obtain ⟨absent, trimmed⟩ := (words t (by simp)).trim_gap blank
    rw [Sheet.listed, String.intercalate_singleton, splitAt_go_end absent]
    simpa using trimmed
  | cons u rest ih =>
    obtain ⟨absent, trimmed⟩ := (words t (by simp)).trim_gap blank
    have text : gap ++ (Sheet.listed (t :: u :: rest)).toList
        = (gap ++ t.toList) ++ ',' :: ([' '] ++ (Sheet.listed (u :: rest)).toList) := by
      simp [Sheet.listed, String.intercalate_cons_cons]
    rw [text, splitAt_go_append absent, List.map_cons, List.reverse_nil, List.nil_append, trimmed,
      ih (by simp) (List.forall_mem_cons.mp words).2]

theorem answerTexts_listed (words : ∀ t ∈ ts, IsWord t) : answerTexts (Sheet.listed ts) = ts := by
  cases ts with
  | nil => rfl
  | cons t rest =>
    have nonempty : Sheet.listed (t :: rest) ≠ "" := by
      intro empty
      have parts := @splitAt_listed t rest [] (by simp) words
      rw [List.nil_append, empty] at parts
      obtain ⟨rfl, -⟩ : "" = t ∧ [] = rest := by simpa [splitAt.go, trim, dropBlanks] using parts
      exact (words "" (by simp)).1 rfl
    rw [answerTexts, if_neg nonempty]
    exact @splitAt_listed t rest [] (by simp) words

end Answers
namespace Query

section Whole

variable {p : Program} {q : Query} {subject : Subject} {x : String} {type : EntityType}
  {done : List Restriction} {s : State}

/-- A part of a query with conditions of one kind is worked out condition by condition. -/
theorem ends_part {reason : Prop} {label : String} {trees : List Tree} {work : Tree → EvalM Unit}
    {post : Unit → State → Prop} (worked : Evaluation.part (.node label "" 0 trees) = trees.forM work)
    (ends : Ends subject reason s (trees.forM work) post)
    : Ends subject reason s ((part label trees).forM Evaluation.part) post := by
  cases trees with
  | nil => exact ends
  | cons tree rest =>
    change Ends subject reason s (do Evaluation.part _; pure PUnit.unit) post
    rw [worked]
    exact .bind (ends.mono fun _ _ => .pure)

variable (setting : Setting p subject.knowledge) (restricts : q.Restricts subject.knowledge.scope x)
  (typed : q.typeOf? x = some type)
include setting restricts typed

theorem Applied.ends_relations (applied : q.Applied subject x (Suits p type.kind?) done s)
    : Ends subject (q.Unmet subject x) s
        ((part "SUCH_THAT" (q.relationConditions.map q.relationTree)).forM Evaluation.part)
        fun _ s' => ∃ kept : List RelationCondition,
          q.Applied subject x (Suits p type.kind?) (done ++ kept.map .relation) s'
          ∧ ∀ c ∈ q.relationConditions, ∃ c' ∈ kept, ∀ t,
            q.Allows subject x (.relation c') t → q.Allows subject x (.relation c) t := by
  by_cases none : q.relationConditions = []
  · rw [none]
    exact .pure ⟨[], by simpa using applied, fun c member => nomatch member⟩
  · obtain ⟨c, member⟩ := List.exists_mem_of_ne_nil _ none
    obtain ⟨kind, kindOf, -⟩ := (restricts.steady _ (mem_relationConditions.mp member)).typed
    have isKind : type.kind? = some kind := by rwa [kindOf?, typed] at kindOf
    rw [isKind] at applied ⊢
    have parts : part "SUCH_THAT" (q.relationConditions.map q.relationTree)
        = [.node "SUCH_THAT" "" 0 (q.relationConditions.map q.relationTree)] := by
      cases given : q.relationConditions with
      | nil => exact absurd given none
      | cons => rfl
    rw [parts]
    exact .bind ((applied.ends_suchThatAll setting restricts kindOf none).mono fun _ _ => id)

/-- All conditions are applied, or what they leave is left by others. -/
theorem Restricts.ends_clauses
    (applied : ∀ fine, q.Applied subject x fine [] s)
    : Ends subject (q.Unmet subject x) s
        ((part "WITH" (q.attributeConditions.map q.attributeTree)
          ++ part "PATTERN" (q.patternConditions.map q.patternTree)
          ++ part "SUCH_THAT" (q.relationConditions.map q.relationTree)).forM Evaluation.part)
        fun _ s' => ∃ done, q.Applied subject x (Suits p type.kind?) done s'
          ∧ ∀ r ∈ q.restrictions, ∃ r' ∈ done, ∀ t,
            q.Allows subject x r' t → q.Allows subject x r t := by
  obtain ⟨shape, alike, inside⟩ :=
    restricts.exists_shape rfl setting.describes setting.named typed
  let fine (e : Entity) : Prop := shape e ∧ Suits p type.kind? e
  have alike' (e e' : Entity) (first : fine e) (second : fine e') := alike e e' first.1 second.1
  refine .forM_append (.forM_append (ends_part rfl ?_))
  rw [List.forM_eq_forM, List.forM_map]
  refine ((applied fine).ends_forM fun c member done s applied =>
    applied.ends_comparison restricts alike' inside (mem_attributeConditions.mp member)).mono ?_
  intro _ s₁ applied₁
  refine ends_part rfl ?_
  rw [List.forM_eq_forM, List.forM_map]
  refine (applied₁.ends_forM fun c member done s applied =>
    applied.ends_pattern restricts alike' inside (mem_patternConditions.mp member)).mono ?_
  intro _ s₂ applied₂
  have suits : q.Applied subject x (Suits p type.kind?) _ s₂ :=
    ⟨applied₂.restricted.mono fun e isFine => isFine.2, applied₂.inside⟩
  refine (suits.ends_relations setting restricts typed).mono ?_
  rintro _ s₃ ⟨kept, applied₃, covers⟩
  refine ⟨_, applied₃, fun r member => ?_⟩
  cases r with
  | comparison c => exact ⟨.comparison c, by simp [mem_attributeConditions.mpr member], fun _ => id⟩
  | pattern c => exact ⟨.pattern c, by simp [mem_patternConditions.mpr member], fun _ => id⟩
  | relation c =>
    obtain ⟨c', isKept, implies⟩ := covers c (mem_relationConditions.mpr member)
    exact ⟨.relation c', by simp [isKept], implies⟩

omit setting typed in
/-- Once all conditions are applied, the answer lists what they all allow. -/
theorem Applied.answers_answer (applied : q.Applied subject x (Suits p type.kind?) done s)
    (covers : ∀ r ∈ q.restrictions, ∃ r' ∈ done, ∀ t,
      q.Allows subject x r' t → q.Allows subject x r t)
    : Answers (q.Unmet subject x) (s.sheet.answer subject.knowledge) fun answer =>
        ∀ t, t ∈ answerTexts answer ↔ ∀ r ∈ q.restrictions, q.Allows subject x r t := by
  have all (t : String) : (∀ r ∈ done, q.Allows subject x r t)
      ↔ ∀ r ∈ q.restrictions, q.Allows subject x r t := by
    refine ⟨fun each r member => ?_, fun each r isDone => each r (applied.inside r isDone)⟩
    obtain ⟨r', isDone, implies⟩ := covers r member
    exact implies t (each r' isDone)
  rcases applied.restricted.left with ⟨-, rfl⟩ | ⟨final, leaves, texts, suits⟩
  · obtain ⟨r, member⟩ := List.exists_mem_of_ne_nil _ restricts.restricted
    obtain ⟨r', isDone, -⟩ := covers r member
    cases isDone
  · have answer : s.sheet.answer subject.knowledge
        = .ok (Sheet.listed (final.members.map Entity.text)) := by
      simp [Sheet.answer, applied.restricted.selected, leaves.1, restricts.name.1,
        Sheet.entriesText?]
    have words : ∀ t ∈ final.members.map Entity.text, IsWord t := by
      intro t member
      obtain ⟨e, isLeft, rfl⟩ := List.mem_map.mp member
      obtain ⟨y, place, same, -⟩ := suits e isLeft
      exact same ▸ place.isWord
    rw [answer]
    refine Answers.ok fun t => ?_
    rw [answerTexts_listed words, List.mem_map, texts, all]

omit typed in
/-- A query is answered with what its conditions allow. -/
theorem Restricts.mem_answered_iff {t : String}
    : t ∈ subject.answered q.tree ↔ ∀ r ∈ q.restrictions, q.Allows subject x r t := by
  obtain ⟨type, typed⟩ := restricts.exists_type
  have ends : Ends subject (q.Unmet subject x) .start (query q.tree) fun answer _ =>
      ∀ t, t ∈ answerTexts answer ↔ ∀ r ∈ q.restrictions, q.Allows subject x r t := by
    have result : q.resultTree = q.synonymTree x [] := by rw [resultTree, restricts.selected]
    rw [tree_eq, result]
    unfold query
    refine .bind (.ask (show Answers _ (.ok _) _ from Ends.bind ?_))
    -- the first part only says which synonym is selected
    change Ends subject _ ⟨{ Sheet.start with selected := (q.typeText x, x) }, []⟩ (List.forM
      (part "WITH" (q.attributeConditions.map q.attributeTree)
        ++ part "PATTERN" (q.patternConditions.map q.patternTree)
        ++ part "SUCH_THAT" (q.relationConditions.map q.relationTree)) Evaluation.part) _
    refine (restricts.ends_clauses setting typed fun fine =>
      ⟨.start _, fun r isDone => (nomatch isDone)⟩).mono ?_
    rintro _ s' ⟨done, applied, covers⟩
    exact .bind (.sheet (.bind (.read (.ask (applied.answers_answer restricts covers)))))
  unfold Subject.answered Subject.response?
  unfold Ends at ends
  split at ends
  next answer s' answered =>
    rw [answered]
    exact ends t
  next fault s' failed =>
    rw [failed]
    exact ⟨fun member => (nomatch member), fun all => absurd ⟨t, all⟩ ends⟩

end Whole

end Query

/-- What a query on one synonym is answered with is what is answered to each of its conditions alone, so
that the order of the conditions and their clauses do not matter, nor that of any set. A relation alone
is answered with the things that it holds for.
-/
theorem Analysis.conjunction_is_intersection [Order] {text file : String} {a : Analysis} {q : Query}
    {x : String} (accepted : Analysis.ofText text = .ok a) (filled : a.program.Filled)
    (declared : a.program.CalleesDeclared) (short : a.program.Short)
    (restricts : q.Restricts a.knowledge.scope x)
    : (∀ t, t ∈ (a.subject file).answered q.tree
        ↔ ∀ r ∈ q.restrictions, t ∈ (a.subject file).answered (q.alone r).tree)
      ∧ (∀ q' : Query, q'.declarations = q.declarations → q'.selected = q.selected →
        (∀ r, r ∈ q'.restrictions ↔ r ∈ q.restrictions) →
          ∀ t, t ∈ (a.subject file).answered q'.tree ↔ t ∈ (a.subject file).answered q.tree)
      ∧ ∀ c, .relation c ∈ q.restrictions → ∀ kind, q.kindOf? x = some kind →
        ∀ t, t ∈ (a.subject file).answered (q.alone (.relation c)).tree
          ↔ ∃ e, a.program.Fits kind e ∧ c.Says (a.program.Holds c.relation) e ∧ e.text = t := by
  have setting : Setting a.program (a.subject file).knowledge :=
    ⟨(Analysis.ofText_eq_ok accepted).2, Analysis.named accepted, filled, declared, short⟩
  have alone {r : Query.Restriction} (member : r ∈ q.restrictions) {t : String}
      : t ∈ (a.subject file).answered (q.alone r).tree ↔ q.Allows (a.subject file) x r t := by
    rw [(restricts.alone member).mem_answered_iff setting, Query.restrictions_alone]
    simp only [List.mem_singleton, forall_eq]
    rfl
  refine ⟨fun t => ?_, fun q' declarations selected same t => ?_, fun c member kind kindOf t => ?_⟩
  · rw [restricts.mem_answered_iff setting]
    exact forall₂_congr fun r member => (alone member).symm
  · have restricts' := restricts.of_subset declarations selected
      (fun none => restricts.restricted (List.eq_nil_iff_forall_not_mem.mpr fun r member => by
        simpa [none] using (same r).mpr member)) fun r => (same r).mp
    rw [restricts'.mem_answered_iff setting, restricts.mem_answered_iff setting]
    simp only [same, Query.allows_congr declarations]
  · rw [alone member]
    exact restricts.allows_iff setting kindOf member

/-- The assignments in a loop that something follows. -/
theorem Analysis.conjunction_of_three
    : ∃ a, Analysis.ofText "procedure p \x7b while i \x7b x = 1; y = 2; \x7d z = 3; \x7d" = .ok a
      ∧ ∃ q : Query, q.Restricts a.knowledge.scope "a" ∧ q.restrictions.length = 3
        ∧ "2" ∈ (a.subject "code.txt").answered q.tree
        ∧ "3" ∉ (a.subject "code.txt").answered q.tree := by
  let parent : Query.Restriction := .relation ⟨.parent, .anything, .synonym "a"⟩
  let follows : Query.Restriction := .relation ⟨.follows, .synonym "a", .anything⟩
  let pattern : Query.Restriction := .pattern (.assignment "a" .anything .anything)
  let q : Query := {
    declarations := [⟨.assignment, ["a"]⟩]
    selected := some "a"
    clauses := [.suchThat [⟨.parent, .anything, .synonym "a"⟩, ⟨.follows, .synonym "a", .anything⟩],
      .pattern [.assignment "a" .anything .anything]]
  }
  have three : q.restrictions = [parent, follows, pattern] := rfl
  have restricts (scope : Query.Scope) : q.Restricts scope "a" := {
    selected := rfl
    name := by decide
    restricted := by simp [three]
    concerns := by
      simp [three, parent, follows, pattern, Query.Restriction.Concerns, Query.Reference.IsFixed,
        Query.PatternCondition.synonym, Query.PatternCondition.target]
    accepted := by
      simp [three, parent, follows, pattern, q, Query.Restriction.Accepted,
        Query.RelationCondition.Accepted, Query.PatternCondition.Accepted, Query.FitsLine,
        Query.FitsVariable, Query.RightSide.Accepted, Query.Reference.Differ, Query.Reference.text,
        Query.typeOf?, Query.EntityType.isNumbered]
    steady := by
      have steady {c : Query.RelationCondition} (relation : c.relation = .parent ∨ c.relation = .follows)
          (first : c.relation = .follows → c.first ≠ .anything)
          : c.Steady (q.kindOf? "a") :=
        ⟨⟨.assignment, by decide, by rcases relation with same | same <;> simp [same]⟩,
          by rcases relation with same | same <;> simp_all,
          by rcases relation with same | same <;> simp [same]⟩
      rw [three]
      refine List.forall_mem_cons.mpr ⟨steady (.inl rfl) (by simp), List.forall_mem_cons.mpr ?_⟩
      exact ⟨steady (.inr rfl) (by simp), List.forall_mem_singleton.mpr trivial⟩
    alike := fun _ _ _ => .inl (by simp [three, parent, follows, pattern, Query.Restriction.LeavesTexts])
  }
  refine exists_ok_of (fun a => a.program.Filled ∧ a.program.CalleesDeclared ∧ a.program.Short
      ∧ (∀ r ∈ [parent, follows, pattern],
        "2" ∈ (a.subject "code.txt").answered (q.alone r).tree)
      ∧ "3" ∉ (a.subject "code.txt").answered (q.alone follows).tree)
    (by decide +kernel) fun a source checked => ?_
  obtain ⟨filled, declared, short, each, last⟩ := checked
  have intersection := (@Analysis.conjunction_is_intersection .asGiven _ "code.txt" a q "a" source filled
    declared short (restricts a.knowledge.scope)).1
  refine ⟨q, restricts _, rfl, (intersection "2").mpr each, fun answered => last ?_⟩
  exact (intersection "3").mp answered follows (by simp [three])

set_option maxRecDepth 10000 in
/-- A statement is compared by its number as a text and found by a pattern as a number, and the two are
taken for different things.
-/
theorem Analysis.conjunction_of_text_and_number
    : ∃ a, Analysis.ofText "procedure p \x7b x = 1; \x7d" = .ok a
      ∧ a.program.Filled ∧ a.program.CalleesDeclared ∧ a.program.Short
      ∧ ∃ q : Query, q.selected = some "a"
        ∧ (∀ r ∈ q.restrictions, r.Concerns "a" ∧ r.Accepted a.knowledge.scope q
          ∧ r.Steady (q.kindOf? "a") ∧ (a.subject "code.txt").answered (q.alone r).tree = ["1"])
        ∧ (a.subject "code.txt").answered q.tree = [] := by
  let number : Query.Restriction := .comparison ⟨"a", some .number, .line "1"⟩
  let pattern : Query.Restriction := .pattern (.assignment "a" .anything .anything)
  let q : Query := {
    declarations := [⟨.assignment, ["a"]⟩]
    selected := some "a"
    clauses := [.comparing [⟨"a", some .number, .line "1"⟩],
      .pattern [.assignment "a" .anything .anything]]
  }
  have two : q.restrictions = [number, pattern] := rfl
  refine exists_ok_of (fun a => a.program.Filled ∧ a.program.CalleesDeclared ∧ a.program.Short
      ∧ a.knowledge.statements.length = 1
      ∧ (∀ r ∈ [number, pattern], (a.subject "code.txt").answered (q.alone r).tree = ["1"])
      ∧ (a.subject "code.txt").answered q.tree = [])
    (by decide +kernel) fun a source ⟨filled, declared, short, count, each, together⟩ => ?_
  have line : a.knowledge.scope.HasLine "1" :=
    ⟨by decide, 1, by decide +kernel, by simp [KnowledgeBase.scope, count]⟩
  refine ⟨filled, declared, short, q, rfl, fun r member => ?_, together⟩
  have answered := each r (two ▸ member)
  have typed : q.typeOf? "a" = some .assignment := by decide
  rw [two] at member
  rcases List.mem_cons.mp member with rfl | member
  · exact ⟨⟨rfl, trivial⟩, ⟨.assignment, typed, rfl, line⟩, fun digits same => ⟨1, by
      obtain rfl := Query.Comparand.line.inj same
      decide⟩, answered⟩
  · obtain rfl := List.mem_singleton.mp member
    exact ⟨⟨rfl, trivial⟩, ⟨typed, trivial, trivial⟩, trivial, answered⟩

end ProgramQuery
