import ProgramQuery.Proofs.Evaluation.Propagation

/-! Working out a condition together with all that hangs on it, by induction on the number of
conditions that are not yet being followed up.
-/

namespace ProgramQuery.Evaluation

open Text ProgramQuery.Relation

variable {p : Program} {kinds : String → Kind} {all done : List Condition} {s s' : State}
  {subject : Subject} {c t : Condition} {x y : String} {lefts rights : Entity → Prop}
  {again : String → Argument → Argument → EvalM Unit} {first second : Argument}

/-- The conditions to follow up for a synonym are the open ones that it occurs in. -/
theorem Held.mem_followed (held : Held p kinds all done s) (regular : Regular p kinds all)
    (subset : ∀ c ∈ done, c ∈ all) (synonym : isSynonym x = true) (c : Condition) (column : String)
    : column ∈ ((s.sheet.columns x).filter fun column =>
          isCondition column && column != c.title && !s.pending.contains column)
      ↔ ∃ t, Open done (c.title :: s.pending) t ∧ x ∈ t.synonyms ∧ t.title = column := by
  simp only [List.mem_filter, Bool.and_eq_true, bne_iff_ne, Bool.not_eq_true', List.contains_eq_mem,
    decide_eq_false_iff_not, Open, List.mem_cons, not_or]
  constructor
  · rintro ⟨recorded, ⟨isCondition, differs⟩, absent⟩
    rcases held.inv.only x column recorded with rfl | rfl | ⟨t, isDone, rfl, occurs⟩
    · exact absurd isCondition (by decide)
    · exact absurd isCondition (by decide)
    · have joins := Condition.exists_joins_iff.mpr
        ((Condition.isCondition_title (regular.spelled t (subset t isDone))).mp isCondition)
      exact ⟨t, ⟨isDone, joins, differs, absent⟩, occurs synonym, rfl⟩
  · rintro ⟨t, ⟨isDone, joins, differs, absent⟩, occurs, rfl⟩
    have isCondition := (Condition.isCondition_title (regular.spelled t (subset t isDone))).mpr
      (Condition.exists_joins_iff.mp joins)
    exact ⟨held.recorded t isDone x occurs, ⟨isCondition, differs⟩, absent⟩

/-- Following up the conditions of a synonym carries a change at it through them all. -/
theorem Held.ends_followUp (held : Held p kinds all done s) (regular : Regular p kinds all)
    (subset : ∀ c ∈ done, c ∈ all) (synonym : isSynonym x = true) {follow : String → EvalM Unit}
    (follows : FollowsUp subject p kinds all done (c.title :: s.pending) x follow)
    : Ends subject (Unsolvable p kinds all) s (followUp c.title x follow) fun _ =>
        FollowedUp p kinds all done (c.title :: s.pending) x s := by
  unfold followUp
  refine .bind (.get ?_)
  have followed := held.mem_followed regular subset synonym c
  dsimp only
  generalize (s.sheet.columns x).filter _ = conditions at followed
  cases conditions with
  | nil =>
    refine .pure ⟨held, .refl, fun _ => .refl fun t y isOpen joins => ?_⟩
    simpa using (followed t.title).mpr ⟨t, isOpen, joins.mem_synonyms.1, rfl⟩
  | cons column rest =>
    have each (column' : String) (member : column' ∈ column :: rest) (s₁ : State)
        (held₁ : Held p kinds all done s₁) (pending₁ : s₁.pending = c.title :: s.pending)
        : Ends subject (Unsolvable p kinds all) s₁ (follow column') fun _ =>
            FollowedUp p kinds all done (c.title :: s.pending) x s₁ := by
      obtain ⟨t, isOpen, occurs, rfl⟩ := (followed column').mp member
      exact follows t isOpen occurs s₁ held₁ pending₁
    let s₀ : State := { s with pending := c.title :: s.pending }
    have held₀ : Held p kinds all done s₀ := held.of_sheet rfl
    have all_ : Ends subject (Unsolvable p kinds all) s₀ ((column :: rest).forM follow)
        fun _ => FollowedUp p kinds all done (c.title :: s.pending) x s₀ := by
      refine .bind ((each column (by simp) s₀ held₀ rfl).mono fun _ s₁ holds => ?_)
      refine Ends.forM (fun column' member s₁ holds => ?_) holds
      obtain ⟨held₁, progress₁, carries₁⟩ := holds
      refine (each column' (by simp [member]) s₁ held₁ progress₁.pending).mono ?_
      rintro _ s₂ ⟨held₂, progress₂, carries₂⟩
      exact ⟨held₂, progress₁.trans progress₂, fun tame => (carries₁ tame).trans (carries₂ tame)⟩
    refine .bind (.modify (.bind (all_.mono ?_)))
    rintro _ s₁ ⟨held₁, progress₁, carries₁⟩
    refine .modify ⟨held₁.of_sheet rfl, ?_, fun tame => (carries₁ tame).of_sheets rfl rfl⟩
    refine ⟨?_, progress₁.selected, progress₁.rows, progress₁.columns, progress₁.left⟩
    simp [progress₁.pending, s₀]

def waiting (done : List Condition) (pending : List String) : Nat :=
  (done.filter fun c => c.link?.isSome && !pending.contains c.title).length

theorem waiting_cons {pending : List String} (isOpen : Open done pending t)
    : waiting done (t.title :: pending) < waiting done pending := by
  obtain ⟨isDone, joins, absent⟩ := isOpen
  have split : (done.filter fun c => c.link?.isSome && !(t.title :: pending).contains c.title)
      = (done.filter fun c => c.link?.isSome && !pending.contains c.title).filter
          fun c => c.title != t.title := by
    rw [List.filter_filter]
    refine List.filter_congr fun c _ => ?_
    by_cases same : c.title = t.title <;> simp [same]
  rw [waiting, waiting, split]
  refine List.length_filter_lt_length_iff_exists.mpr ⟨t, ?_, by simp⟩
  simp [List.mem_filter, isDone, Condition.exists_joins_iff.mp joins, absent]

/-- One condition is worked out and then followed up from both of its arguments. -/
theorem executeWithin_succ {fuel : Nat} {relation title : String}
    : conditionTitle relation first second = title →
      executeWithin (fuel + 1) relation first second = (do
        relate relation first second
        (match first with
          | .synonym a _ => followUp title a (followFirst (executeWithin fuel) title a second)
          | .fixed _ => pure ()) >>= fun _ =>
        match second with
          | .synonym b _ => followUp title b (followSecond (executeWithin fuel) first b)
          | .fixed _ => pure ()) := by
  rintro rfl
  cases first <;> rfl

section Executing

variable (setting : Setting p subject.knowledge) (regular : Regular p kinds all)
  (subset : ∀ c ∈ done, c ∈ all)
include setting regular subset

omit setting in
/-- A condition is followed up from one of its arguments. -/
theorem Held.ends_argument (held : Held p kinds all done s) {argument : Argument} {term : Term}
    {range : Entity → Prop} (offers : Offers p kinds argument term range)
    (spelled : ∀ a, term = .synonym a → isSynonym a = true) {follow : String → String → EvalM Unit}
    (follows : ∀ a, term = .synonym a →
      FollowsUp subject p kinds all done (c.title :: s.pending) a (follow a))
    : Ends subject (Unsolvable p kinds all) s
        (match argument with
          | .synonym a _ => followUp c.title a (follow a)
          | .fixed _ => pure ()) fun _ s' =>
        Held p kinds all done s' ∧ Progress p kinds s s'
        ∧ (Tame all → CarriesFrom p kinds (Open done (c.title :: s.pending)) term s s') := by
  cases offers with
  | number n => exact .pure ⟨held, .refl, fun _ => rfl⟩
  | values a values fits => exact held.ends_followUp regular subset (spelled a rfl) (follows a rfl)
  | kind a => exact held.ends_followUp regular subset (spelled a rfl) (follows a rfl)

/-- Working out a condition refines the sheet. The fuel bounds the conditions still waiting. -/
theorem Inv.ends_executeWithin {fuel : Nat} (inv : Inv p kinds all done s) (isDone : c ∈ done)
    (others : ∀ t ∈ done, t ≠ c → ∀ x ∈ t.synonyms, t.title ∈ s.sheet.columns x)
    (rows : ∀ x ∈ c.synonyms, x ∈ s.sheet.cells.rowNames)
    (offers : Offers p kinds first c.first lefts) (offers' : Offers p kinds second c.second rights)
    (covers : Covers p kinds all c.first lefts) (covers' : Covers p kinds all c.second rights)
    (enough : waiting done (c.title :: s.pending) < fuel)
    : Ends subject (Unsolvable p kinds all) s
        (executeWithin fuel c.relation.title first second) fun _ =>
        WorkedOut p kinds all done s.pending c lefts rights s := by
  induction fuel generalizing s c lefts rights first second with
  | zero => omega
  | succ fuel ih =>
    have member := subset c isDone
    have repeats : Repeats subject p kinds all done (c.title :: s.pending)
        (executeWithin fuel) := by
      intro t isOpen first second lefts rights s₁ held₁ pending₁ offers offers' covers covers'
      rw [← pending₁] at isOpen ⊢
      refine ih held₁.inv isOpen.1 (fun t isDone _ => held₁.recorded t isDone)
        (fun x => held₁.recorded.row isOpen.1) offers offers' covers covers' ?_
      have fewer := waiting_cons isOpen
      rw [pending₁] at fewer ⊢
      omega
    rw [executeWithin_succ (conditionTitle_eq offers offers')]
    refine .bind ((inv.ends_relate setting regular member isDone rows offers offers' covers
      covers').mono fun _ s₁ narrows => ?_)
    have held₁ : Held p kinds all done s₁ := by
      refine ⟨narrows.inv, fun t isDone' x occurs => ?_⟩
      by_cases same : t = c
      · subst same
        exact narrows.recorded x occurs
      · exact narrows.progress.columns x _ (others t isDone' same x occurs)
    have spelled := regular.spelled c member
    rw [← narrows.progress.pending] at repeats
    refine .bind ((held₁.ends_argument regular subset offers
      (fun a same => spelled a (Condition.mem_synonyms.mpr (.inl same))) fun a same =>
      followsUp_followFirst regular subset repeats setting isDone (by simp) same offers').mono ?_)
    rintro _ s₂ ⟨held₂, progress₂, carries₂⟩
    rw [← progress₂.pending] at repeats
    refine (held₂.ends_argument regular subset offers'
      (fun b same => spelled b (Condition.mem_synonyms.mpr (.inr same))) fun b same =>
      followsUp_followSecond regular subset repeats isDone (by simp) same offers).mono ?_
    rintro _ s₃ ⟨held₃, progress₃, carries₃⟩
    refine ⟨held₃, (narrows.progress.trans progress₂).trans progress₃, fun tame ready => ?_⟩
    rw [progress₂.pending] at carries₃
    rw [narrows.progress.pending] at carries₂ carries₃
    refine narrows.refined regular member (fun t isOpen => subset t isOpen.1) ready
      (fun a b joins linked => ?_) (carries₂ tame) (carries₃ tame)
    refine tame c member a b joins (linked.mono fun t isOpen => ⟨subset t isOpen.1, ?_⟩)
    rintro rfl
    exact isOpen.2.2 (by simp)

omit setting in
/-- Each condition that waits has a column of its own. -/
theorem Inv.waiting_le (inv : Inv p kinds all done s) (unique : done.Nodup)
    (others : ∀ t ∈ done, t ≠ c → ∀ x ∈ t.synonyms, t.title ∈ s.sheet.columns x)
    : waiting done (c.title :: s.pending) ≤ s.sheet.cells.allColumns.length := by
  have listed (t : Condition)
      (member : t ∈ done.filter fun t => t.link?.isSome && !(c.title :: s.pending).contains t.title)
      : t ∈ done ∧ (∃ x y, t.Joins x y) ∧ t ≠ c := by
    simp only [List.mem_filter, Bool.and_eq_true, Bool.not_eq_true', List.contains_eq_mem,
      decide_eq_false_iff_not, List.mem_cons, not_or] at member
    refine ⟨member.1, Condition.exists_joins_iff.mpr member.2.1, ?_⟩
    rintro rfl
    exact member.2.2.1 rfl
  rw [waiting, ← List.length_map Condition.title]
  refine List.Subperm.length_le (List.subperm_of_subset ?_ fun title isTitle => ?_)
  · refine List.Nodup.map_on (fun t member t' member' same => ?_) (unique.filter _)
    obtain ⟨isDone', ⟨x, y, joins'⟩, -⟩ := listed t' member'
    exact regular.title_inj (subset t' isDone') (subset t (listed t member).1) joins' same
  · obtain ⟨t, member, rfl⟩ := List.mem_map.mp isTitle
    obtain ⟨isDone, ⟨x, y, joins⟩, differs⟩ := listed t member
    exact inv.sound.orderly.mem_allColumns.mpr ⟨x, others t isDone differs x joins.mem_synonyms.1⟩

/-- Working out a condition with all that hangs on it. -/
theorem Inv.ends_execute (inv : Inv p kinds all done s) (unique : done.Nodup) (isDone : c ∈ done)
    (others : ∀ t ∈ done, t ≠ c → ∀ x ∈ t.synonyms, t.title ∈ s.sheet.columns x)
    (rows : ∀ x ∈ c.synonyms, x ∈ s.sheet.cells.rowNames)
    (offers : Offers p kinds first c.first lefts) (offers' : Offers p kinds second c.second rights)
    (covers : Covers p kinds all c.first lefts) (covers' : Covers p kinds all c.second rights)
    : Ends subject (Unsolvable p kinds all) s (execute c.relation.title first second) fun _ =>
        WorkedOut p kinds all done s.pending c lefts rights s := by
  unfold execute
  refine .bind (.sheet ?_)
  refine inv.ends_executeWithin setting regular subset isDone others rows offers offers' covers
    covers' ?_
  have bound := inv.waiting_le regular subset (c := c) unique others
  omega

end Executing

end ProgramQuery.Evaluation
