import ProgramQuery.Proofs.Evaluation.Narrowing

/-! Working out one condition narrows its synonyms to the values with a related value on the other
side.
-/

namespace ProgramQuery.Evaluation

open Text ProgramQuery.Relation

variable {p : Program} {kinds : String → Kind} {all done : List Condition} {s s' : State}
  {subject : Subject} {c : Condition} {x y : String} {e : Entity} {lefts rights : Entity → Prop}
  {first second : Argument} {relation : RelationName}

/-- What an argument of a condition can be when the condition is worked out: a number, the values left
to a synonym, or anything of the kind of the synonym. -/
inductive Offers (p : Program) (kinds : String → Kind) : Argument → Term → (Entity → Prop) → Prop
  | number (n : Nat) : Offers p kinds (.fixed (.name (showInt n))) (.line n) (· = .line n)
  | values (x : String) (values : EntitySet) (fits : ∀ e ∈ values.members, p.Fits (kinds x) e)
    : Offers p kinds (.synonym x (.set values)) (.synonym x) (· ∈ values.members)
  | kind (x : String)
    : Offers p kinds (.synonym x (.text (kinds x).label)) (.synonym x) (p.Fits (kinds x))

theorem Offers.title {argument : Argument} {t : Term} {range : Entity → Prop}
    (offers : Offers p kinds argument t range)
    : argument.title = t.title := by
  cases offers <;> rfl

theorem Offers.fits {argument : Argument} {t : Term} {range : Entity → Prop}
    (offers : Offers p kinds argument t range)
    : ∀ x, t = .synonym x → ∀ e, range e → p.Fits (kinds x) e := by
  rintro x rfl e inRange
  cases offers with
  | values _ _ fits => exact fits e inRange
  | kind => exact inRange

theorem conditionTitle_eq (offers : Offers p kinds first c.first lefts)
    (offers' : Offers p kinds second c.second rights)
    : conditionTitle c.relation.title first second = c.title := by
  rw [conditionTitle, offers.title, offers'.title, Condition.title]

def Matched (p : Program) (relation : RelationName) (lefts rights : Entity → Prop) (e : Entity)
    : Prop :=
  lefts e ∧ ∃ e', rights e' ∧ p.Holds relation e e'

def MatchedBack (p : Program) (relation : RelationName) (lefts rights : Entity → Prop) (e : Entity)
    : Prop :=
  rights e ∧ ∃ e', lefts e' ∧ p.Holds relation e' e

/-- A condition between two ranges of values has been worked out. -/
structure Narrows (p : Program) (kinds : String → Kind) (all done : List Condition) (c : Condition)
    (lefts rights : Entity → Prop) (s s' : State)
    : Prop where
  met : ∃ e e', lefts e ∧ rights e' ∧ p.Holds c.relation e e'
  inv : Inv p kinds all done s'
  progress : Progress p kinds s s'
  recorded : ∀ x ∈ c.synonyms, c.title ∈ s'.sheet.columns x
  left : ∀ y e, isSynonym y = true → (s'.sheet.Left p kinds y e
    ↔ s.sheet.Left p kinds y e
      ∧ (c.first = .synonym y → Matched p c.relation lefts rights e)
      ∧ (c.second = .synonym y → MatchedBack p c.relation lefts rights e))

/-- All that meets the conditions is in the ranges that a condition is worked out for. -/
def Covers (p : Program) (kinds : String → Kind) (all : List Condition) (t : Term)
    (range : Entity → Prop)
    : Prop :=
  ∀ choice, Meets p kinds all choice → range (t.value choice)

section

variable (regular : Regular p kinds all) (member : c ∈ all)

include regular member in
/-- A relation only holds between things of the kinds that its arguments count as. -/
theorem Regular.fits {choice : String → Entity} (meets : Meets p kinds all choice)
    : p.Fits (c.firstKind kinds) (c.first.value choice)
      ∧ p.Fits (c.secondKind kinds) (c.second.value choice) := by
  have holds := meets.holds c member
  have listed (n : Nat) (isLine : c.first = .line n ∨ c.second = .line n)
      : p.Fits .statement (.line n) :=
    Program.fits_statement_line.mpr (regular.lines c member n isLine)
  constructor
  · cases first : c.first with
    | synonym x =>
      simpa [Condition.firstKind, first, Term.synonym?, Term.value]
        using meets.fits c member x (Condition.mem_synonyms.mpr (.inl first))
    | line n =>
      rw [first] at holds
      simp only [Condition.firstKind, first, Term.synonym?, Option.map_none, Option.getD_none,
        Term.value]
      cases relation : c.relation <;> rw [relation] at holds <;>
        first | exact listed n (.inl first) | exact holds.elim
  · cases second : c.second with
    | synonym x =>
      simpa [Condition.secondKind, second, Term.synonym?, Term.value]
        using meets.fits c member x (Condition.mem_synonyms.mpr (.inr second))
    | line n =>
      rw [second] at holds
      simp only [Condition.secondKind, second, Term.synonym?, Option.map_none, Option.getD_none,
        Term.value]
      cases relation : c.relation <;> rw [relation] at holds <;>
        first
        | exact listed n (.inr second)
        | exact holds.elim
        | cases value : c.first.value choice <;> rw [value] at holds <;> exact holds.elim

include regular member in
theorem Regular.unsolvable_of_unrelated
    (unrelated : p.Unrelated (p.Holds c.relation) (c.firstKind kinds) (c.secondKind kinds))
    : Unsolvable p kinds all := by
  rintro ⟨choice, meets⟩
  have fits := regular.fits member meets
  exact unrelated _ _ fits.1 fits.2 (meets.holds c member)

theorem Offers.askable {argument : Argument} {t : Term} {range : Entity → Prop} {kind : Kind}
    (offers : Offers p kinds argument t range) (isKind : ∀ x, t = .synonym x → kind = kinds x)
    (listed : ∀ n, t = .line n → ∃ s, (n, s) ∈ p.listing) (inRange : range e)
    : p.Askable kind e := by
  cases offers with
  | number n =>
    subst inRange
    exact .inr (Program.fits_statement_line.mpr (listed n rfl))
  | values x values fits => exact .inl (isKind x rfl ▸ fits e inRange)
  | kind x => exact .inl (isKind x rfl ▸ inRange)

end

section Collecting

variable {reason : Prop} {rel : Entity → Entity → Prop}

theorem answers_collect {members : List Entity} {find : Entity → Asked (List Entity)}
    {others : Entity → Prop}
    (each : ∀ e ∈ members, Answers reason (find e) fun found =>
      ∀ e', e' ∈ found ↔ others e' ∧ rel e e')
    : Answers reason (collect members find) fun result =>
        (∀ e, e ∈ result.1 ↔ e ∈ members ∧ ∃ e', others e' ∧ rel e e')
        ∧ ∀ e', e' ∈ result.2 ↔ others e' ∧ ∃ e ∈ members, rel e e' := by
  have find (e : Entity) (member : e ∈ members)
      : Answers reason (do return (e, ← find e)) fun hit =>
          hit.1 = e ∧ ∀ e', e' ∈ hit.2 ↔ others e' ∧ rel e e' :=
    (each e member).bind fun found exact_ => .ok ⟨rfl, exact_⟩
  refine (Answers.mapM find).bind fun finds pairs => .ok ?_
  have paired := mem_of_forall₂ pairs
  have hits (hit : Entity × List Entity) (isFind : hit ∈ finds)
      : hit.1 ∈ members ∧ ∀ e', e' ∈ hit.2 ↔ others e' ∧ rel hit.1 e' := by
    obtain ⟨e, member, same, exact_⟩ := paired.2 hit isFind
    exact ⟨same ▸ member, same ▸ exact_⟩
  constructor
  · intro e
    simp only [List.mem_map, List.mem_filter, Bool.not_eq_true', List.isEmpty_eq_false_iff_exists_mem]
    constructor
    · rintro ⟨hit, ⟨isFind, e', found⟩, rfl⟩
      exact ⟨(hits hit isFind).1, e', ((hits hit isFind).2 e').mp found⟩
    · rintro ⟨member, e', related⟩
      obtain ⟨hit, isFind, same, exact_⟩ := paired.1 e member
      exact ⟨hit, ⟨isFind, e', (exact_ e').mpr related⟩, same⟩
  · intro e'
    simp only [List.mem_flatMap, List.mem_filter, Bool.not_eq_true',
      List.isEmpty_eq_false_iff_exists_mem]
    constructor
    · rintro ⟨hit, ⟨isFind, -⟩, found⟩
      have related := ((hits hit isFind).2 e').mp found
      exact ⟨related.1, hit.1, (hits hit isFind).1, related.2⟩
    · rintro ⟨other, e, member, related⟩
      obtain ⟨hit, isFind, same, exact_⟩ := paired.1 e member
      have found := (exact_ e').mpr ⟨other, related⟩
      exact ⟨hit, ⟨isFind, e', found⟩, found⟩

theorem answers_related {firsts seconds : List Entity} {holds : Entity → Entity → Asked Bool}
    (each : ∀ e ∈ firsts, ∀ e' ∈ seconds,
      Answers reason (holds e e') fun holds => holds = true ↔ rel e e')
    : Answers reason (related firsts seconds holds) fun result =>
        (∀ e, e ∈ result.1 ↔ e ∈ firsts ∧ ∃ e' ∈ seconds, rel e e')
        ∧ ∀ e', e' ∈ result.2 ↔ e' ∈ seconds ∧ ∃ e ∈ firsts, rel e e' := by
  unfold related
  refine (Answers.filterM fun e member => .anyM fun e' member' => each e member e' member').bind
    fun lefts leftsExact => ?_
  refine (Answers.filterM fun e' member' => .anyM fun e member => each e member e' member').bind
    fun rights rightsExact => ?_
  exact .ok ⟨leftsExact, rightsExact⟩

end Collecting

def record (title : String) (values : List Entity) : Term → EvalM Unit
  | .synonym x => narrowTo title x values
  | .line n => narrow title Sheet.fixedRow (.ofEntity (.name (showInt n)))

section Recording

variable (regular : Regular p kinds all) (inv : Inv p kinds all done s) (member : c ∈ all)
  (isDone : c ∈ done) (rows : ∀ x ∈ c.synonyms, x ∈ s.sheet.cells.rowNames)
include regular inv member isDone rows

/-- One side of a condition is narrowed to what the other side matches. -/
theorem Inv.ends_record {t : Term} {values : List Entity} {matched : Entity → Prop}
    (side : ∀ x, t = .synonym x → x ∈ c.synonyms)
    (fits : ∀ x, t = .synonym x → ∀ e, matched e → p.Fits (kinds x) e)
    (exact_ : ∀ x, t = .synonym x → ∀ e, e ∈ values ↔ matched e) (covers : Covers p kinds all t matched)
    : Ends subject (Unsolvable p kinds all) s (record c.title values t) fun _ s' =>
        Inv p kinds all done s' ∧ Progress p kinds s s'
        ∧ (∀ x, t = .synonym x → (∃ e, matched e) ∧ c.title ∈ s'.sheet.columns x)
        ∧ ∀ y e, isSynonym y = true → (s'.sheet.Left p kinds y e
          ↔ s.sheet.Left p kinds y e ∧ (t = .synonym y → matched e)) := by
  cases t with
  | line n =>
    refine (inv.ends_note regular isDone n).mono ?_
    rintro - s' ⟨inv', progress, left⟩
    exact ⟨inv', progress, by simp, by simpa using left⟩
  | synonym x =>
    have exact_ := exact_ x rfl
    have occurs := side x rfl
    refine (inv.ends_narrowTo regular member isDone occurs (rows x occurs) ?_ ?_).mono ?_
    · exact fun e found => fits x rfl e ((exact_ e).mp found)
    · exact fun choice meets => (exact_ _).mpr (covers choice meets)
    · simp only [exact_]
      rintro - s' ⟨some_, inv', progress, recorded, left⟩
      refine ⟨inv', progress, ?_, fun y e synonym => ?_⟩
      · rintro _ ⟨⟩
        exact ⟨some_, recorded⟩
      · rw [left y e synonym, Term.synonym.injEq, @eq_comm _ x y]

/-- Both sides are narrowed to what matches, where one of them at least is a synonym. -/
theorem Inv.ends_records {t t' : Term} {values values' : List Entity} (first : c.first = t)
    (second : c.second = t') (linked : ∃ x, t = .synonym x ∨ t' = .synonym x)
    (coversFirst : Covers p kinds all c.first lefts) (coversSecond : Covers p kinds all c.second rights)
    (fits : ∀ x, t = .synonym x → ∀ e, lefts e → p.Fits (kinds x) e)
    (fits' : ∀ x, t' = .synonym x → ∀ e, rights e → p.Fits (kinds x) e)
    (exact_ : ∀ x, t = .synonym x → ∀ e, e ∈ values ↔ Matched p c.relation lefts rights e)
    (exact' : ∀ x, t' = .synonym x → ∀ e, e ∈ values' ↔ MatchedBack p c.relation lefts rights e)
    : Ends subject (Unsolvable p kinds all) s
        (do
          record c.title values t
          record c.title values' t')
        fun _ s' => Narrows p kinds all done c lefts rights s s' := by
  subst first second
  refine .bind ((inv.ends_record regular member isDone rows
    (fun x first => Condition.mem_synonyms.mpr (.inl first)) (fun x first e matched =>
      fits x first e matched.1) exact_ fun choice meets => ⟨coversFirst choice meets, _,
      coversSecond choice meets, meets.holds c member⟩).mono ?_)
  rintro - s₁ ⟨inv₁, progress₁, recorded₁, left₁⟩
  refine (inv₁.ends_record regular member isDone (fun x occurs => progress₁.rows x (rows x occurs))
    (fun x second => Condition.mem_synonyms.mpr (.inr second)) (fun x second e matched =>
      fits' x second e matched.1) exact' fun choice meets => ⟨coversSecond choice meets, _,
      coversFirst choice meets, meets.holds c member⟩).mono ?_
  rintro - s₂ ⟨inv₂, progress₂, recorded₂, left₂⟩
  refine ⟨?_, inv₂, progress₁.trans progress₂, fun x occurs => ?_, fun y e synonym => ?_⟩
  · obtain ⟨x, first | second⟩ := linked
    · obtain ⟨⟨e, isLeft, e', isRight, holds⟩, -⟩ := recorded₁ x first
      exact ⟨e, e', isLeft, isRight, holds⟩
    · obtain ⟨⟨e', isRight, e, isLeft, holds⟩, -⟩ := recorded₂ x second
      exact ⟨e, e', isLeft, isRight, holds⟩
  · rcases Condition.mem_synonyms.mp occurs with first | second
    · exact progress₂.columns x _ (recorded₁ x first).2
    · exact (recorded₂ x second).2
  · rw [left₂ y e synonym, left₁ y e synonym, and_assoc]

end Recording

theorem matched_eq {e' : Entity}
    : Matched p relation lefts (· = e') e ↔ lefts e ∧ p.Holds relation e e' := by
  simp [Matched]

theorem matchedBack_eq {e' : Entity}
    : MatchedBack p relation (· = e') rights e ↔ rights e ∧ p.Holds relation e' e := by
  simp [MatchedBack]

theorem stands_byText (e : Entity) : Stands e.byText e :=
  .inr rfl

theorem stands_number (n : Nat) : Stands (.name (showInt n)) (.line n) :=
  .inr rfl

theorem modes_eq_ok {knowledge : KnowledgeBase} {m : Modes}
    (found : c.relation.modes? knowledge = some m)
    : modes knowledge c.relation.title = .ok m := by
  simp [modes, RelationName.ofTitle?_title, found]

/-- Working out a condition between two ranges of values. -/
theorem Inv.ends_relate (setting : Setting p subject.knowledge) (regular : Regular p kinds all)
    (inv : Inv p kinds all done s) (member : c ∈ all) (isDone : c ∈ done)
    (rows : ∀ x ∈ c.synonyms, x ∈ s.sheet.cells.rowNames)
    (offersFirst : Offers p kinds first c.first lefts)
    (offersSecond : Offers p kinds second c.second rights)
    (coversFirst : Covers p kinds all c.first lefts)
    (coversSecond : Covers p kinds all c.second rights)
    : Ends subject (Unsolvable p kinds all) s (relate c.relation.title first second) fun _ s' =>
        Narrows p kinds all done c lefts rights s s' := by
  obtain ⟨m, found, plain, exact_⟩ := setting.modes_exact (regular.allowed c member)
  have known := modes_eq_ok found
  have titled := conditionTitle_eq offersFirst offersSecond
  have firstKind (a : String) (first : c.first = .synonym a) : c.firstKind kinds = kinds a := by
    simp [Condition.firstKind, first, Term.synonym?]
  have secondKind (b : String) (second : c.second = .synonym b) : c.secondKind kinds = kinds b := by
    simp [Condition.secondKind, second, Term.synonym?]
  have askableFirst {e : Entity} (inRange : lefts e) := offersFirst.askable firstKind
    (fun n isLine => regular.lines c member n (.inl isLine)) inRange
  have askableSecond {e : Entity} (inRange : rights e) := offersSecond.askable secondKind
    (fun n isLine => regular.lines c member n (.inr isLine)) inRange
  have unsolvable := regular.unsolvable_of_unrelated member
  unfold relate
  refine .bind (.read ?_)
  simp only [known, titled]
  generalize isFirst : c.first = t₁ at offersFirst firstKind
  generalize isSecond : c.second = t₂ at offersSecond secondKind
  have records (values values' : List Entity) (linked : ∃ x, t₁ = .synonym x ∨ t₂ = .synonym x) :=
    @Inv.ends_records _ _ _ _ s subject c _ _ regular inv member isDone rows t₁ t₂ values values'
      isFirst isSecond linked coversFirst coversSecond offersFirst.fits offersSecond.fits
  cases offersFirst with
  | values a xs fits =>
    cases offersSecond with
    | values b ys fits' =>
      refine .bind (.ask ((answers_related fun e inXs e' inYs => ?_).mono fun result exact' =>
        records result.1 result.2 ⟨a, .inl rfl⟩ (fun _ _ => exact'.1) fun _ _ => exact'.2))
      exact (exact_.member (askableFirst inXs) (askableSecond inYs) (stands_byText e)
        (stands_byText e')).because unsolvable
    | kind b =>
      refine .bind (.ask ((answers_collect fun e inXs => ?_).mono fun result exact' =>
        records result.1 result.2 ⟨a, .inl rfl⟩ (fun _ _ => exact'.1) fun _ _ => exact'.2))
      have answers := exact_.after (askableFirst inXs) (stands_byText e)
      rw [secondKind b rfl] at answers
      exact answers.because (secondKind b rfl ▸ unsolvable)
    | number n =>
      have fixed := (askableSecond rfl).ne_anything setting.named (stands_number n)
      have answers : Answers (Unsolvable p kinds all)
          (xs.members.filterM fun e => m.memberFixed e.byText (.name (showInt n))) fun kept =>
            ∀ e, e ∈ kept ↔ e ∈ xs.members ∧ p.Holds c.relation e (.line n) := by
        refine .filterM fun e inXs => ?_
        rw [plain.memberFixed fixed]
        exact (exact_.member (askableFirst inXs) (askableSecond rfl) (stands_byText e)
          (stands_number n)).because unsolvable
      refine .bind (.ask (answers.mono fun result exact' => ?_))
      exact records result [] ⟨a, .inl rfl⟩ (fun _ _ e => (exact' e).trans matched_eq.symm) (by simp)
  | kind a =>
    cases offersSecond with
    | values b ys fits' =>
      refine .bind (.ask ((answers_collect fun e' inYs => ?_).mono fun result exact' =>
        records result.2 result.1 ⟨a, .inl rfl⟩ (fun _ _ => exact'.2) fun _ _ => exact'.1))
      have answers := exact_.before (askableSecond inYs) (stands_byText e')
      rw [firstKind a rfl] at answers
      exact (answers.because (firstKind a rfl ▸ unsolvable)).bind fun found exact' => .ok exact'
    | kind b =>
      have answers := exact_.sides
      rw [firstKind a rfl, secondKind b rfl] at answers
      refine .bind (.ask ((answers.because ?_).mono fun result exact' =>
        records result.1 result.2 ⟨a, .inl rfl⟩ (fun _ _ => exact'.1) fun _ _ => exact'.2))
      exact firstKind a rfl ▸ secondKind b rfl ▸ unsolvable
    | number n =>
      have fixed := (askableSecond rfl).ne_anything setting.named (stands_number n)
      have answers := exact_.beforeFixed (askableSecond rfl) (stands_number n) fixed
      rw [firstKind a rfl] at answers
      refine .bind (.ask ((answers.because ?_).mono fun result exact' => ?_))
      · exact firstKind a rfl ▸ unsolvable
      · exact records result [] ⟨a, .inl rfl⟩ (fun _ _ e => (exact' e).trans matched_eq.symm) (by simp)
  | number n =>
    have fixed := (askableFirst rfl).ne_anything setting.named (stands_number n)
    cases offersSecond with
    | values b ys fits' =>
      have answers : Answers (Unsolvable p kinds all)
          (ys.members.filterM fun e => m.fixedMember (.name (showInt n)) e.byText) fun kept =>
            ∀ e, e ∈ kept ↔ e ∈ ys.members ∧ p.Holds c.relation (.line n) e := by
        refine .filterM fun e inYs => ?_
        rw [plain.fixedMember fixed]
        exact (exact_.member (askableFirst rfl) (askableSecond inYs) (stands_number n)
          (stands_byText e)).because unsolvable
      refine .bind (.ask (answers.mono fun result exact' => ?_))
      exact records [] result ⟨b, .inr rfl⟩ (by simp) fun _ _ e => (exact' e).trans matchedBack_eq.symm
    | kind b =>
      have answers := exact_.after (askableFirst rfl) (stands_number n)
      rw [← plain.fixedOpen fixed, secondKind b rfl] at answers
      refine .bind (.ask ((answers.because ?_).mono fun result exact' => ?_))
      · exact secondKind b rfl ▸ unsolvable
      · exact records [] result ⟨b, .inr rfl⟩ (by simp) fun _ _ e => (exact' e).trans matchedBack_eq.symm
    | number n' =>
      have fixed' := (askableSecond rfl).ne_anything setting.named (stands_number n')
      have answers := exact_.member (askableFirst rfl) (askableSecond rfl) (stands_number n)
        (stands_number n')
      rw [← plain.fixedFixed fixed fixed'] at answers
      refine .bind (.ask ((answers.because unsolvable).mono fun holds exact' => ?_))
      cases holds with
      | false =>
        refine .failing ?_
        rintro ⟨choice, meets⟩
        have holds := meets.holds c member
        rw [isFirst, isSecond] at holds
        simpa using exact'.mpr holds
      | true =>
        rw [if_pos rfl]
        refine .modifySheet ?_
        have same : Sheet.SameSynonyms s.sheet { s.sheet with
            cells := s.sheet.cells.put Sheet.truthRow Sheet.finalColumn (.flag true) } :=
          Sheet.sameSynonyms_put inv.sound.truth (.inl rfl)
        have kept := inv.of_sameSynonyms regular same
          (fun y column member => Grid.mem_columnsOf_put.mpr (.inr member))
          fun y column member _ => by
            rcases Grid.mem_columnsOf_put.mp member with ⟨-, final⟩ | old
            · exact .inr (.inl final)
            · exact .inl old
        refine ⟨⟨_, _, rfl, rfl, exact'.mp rfl⟩, kept.1, kept.2, fun x occurs => ?_, fun y e synonym => ?_⟩
        · simp [Condition.mem_synonyms, isFirst, isSecond] at occurs
        · rw [isFirst, isSecond, same.left synonym]
          simp

end ProgramQuery.Evaluation
