import ProgramQuery.Proofs.Evaluation.Sheets

/-! How a computation on a sheet ends, step by step. A computation may fail only for a given reason,
which will be that the conditions of the query cannot be met.
-/

namespace ProgramQuery.Evaluation

open Text

/-- The answer to a query, or nothing if it fails. -/
def Subject.response? (subject : Subject) (root : Tree) : Option String :=
  match query root subject .start with
  | .ok answer _ => some answer
  | .error _ _ => none

variable {α β : Type}

/-- A computation ends in a state as it should be, or there is a reason for its failure. -/
def Ends (subject : Subject) (reason : Prop) (s : State) (m : EvalM α) (post : α → State → Prop)
    : Prop :=
  match m subject s with
  | .ok a s' => post a s'
  | .error _ _ => reason

variable {subject : Subject} {reason : Prop} {s : State} {m : EvalM α} {post : α → State → Prop}
  {f : α → EvalM β} {xs : List α}

theorem Ends.pure {a : α} (holds : post a s) : Ends subject reason s (pure a) post :=
  holds

theorem Ends.bind {then_ : β → State → Prop}
    (first : Ends subject reason s m fun a s' => Ends subject reason s' (f a) then_)
    : Ends subject reason s (m >>= f) then_ := by
  simp only [Ends, Bind.bind, ReaderT.bind, EStateM.bind] at first ⊢
  split at first <;> simp_all

theorem Ends.mono {weaker : α → State → Prop} (ends : Ends subject reason s m post)
    (implies : ∀ a s', post a s' → weaker a s')
    : Ends subject reason s m weaker := by
  unfold Ends at ends ⊢
  split at ends
  · exact implies _ _ ends
  · exact ends

theorem Ends.failing (why : reason) {fault : Fault} : Ends subject reason s (throw fault) post :=
  why

theorem Ends.ask {asked : Asked α} (answers : Answers reason asked fun a => post a s)
    : Ends subject reason s (ask asked) post := by
  cases asked with
  | ok a => exact answers
  | error _ => exact answers

theorem Ends.read {post : Subject → State → Prop} (holds : post subject s)
    : Ends subject reason s read post :=
  holds

theorem Ends.get {post : State → State → Prop} (holds : post s s)
    : Ends subject reason s get post :=
  holds

theorem Ends.sheet {post : Sheet → State → Prop} (holds : post s.sheet s)
    : Ends subject reason s sheet post :=
  holds

theorem Ends.modify {f : State → State} {post : PUnit → State → Prop} (holds : post ⟨⟩ (f s))
    : Ends subject reason s (modify f) post :=
  holds

theorem Ends.modifySheet {f : Sheet → Sheet} {post : Unit → State → Prop}
    (holds : post () { s with sheet := f s.sheet })
    : Ends subject reason s (modifySheet f) post :=
  holds

/-- What every step keeps up is kept up by all of them. -/
theorem Ends.forM {f : α → EvalM PUnit} {invariant : State → Prop}
    (each : ∀ x ∈ xs, ∀ s, invariant s → Ends subject reason s (f x) fun _ => invariant)
    (holds : invariant s)
    : Ends subject reason s (xs.forM f) fun _ => invariant := by
  induction xs generalizing s with
  | nil => exact holds
  | cons x rest ih =>
    refine Ends.bind ((each x (by simp) s holds).mono fun _ s' holds => ?_)
    exact ih (fun x member => each x (by simp [member])) holds

theorem Ends.forM_append {f : α → EvalM PUnit} {ys : List α} {post : PUnit → State → Prop}
    (first : Ends subject reason s (xs.forM f) fun _ s' => Ends subject reason s' (ys.forM f) post)
    : Ends subject reason s ((xs ++ ys).forM f) post := by
  rw [List.forM_eq_forM, List.forM_append]
  exact .bind first

/-- What holds of the members gone through so far holds of all of them in the end. -/
theorem Ends.forIn_through {f : α → PUnit → EvalM (ForInStep PUnit)}
    {invariant : List α → State → Prop} {through xs : List α}
    (each : ∀ through, ∀ x ∈ xs, ∀ s, invariant through s →
      Ends subject reason s (f x ⟨⟩) fun step s' =>
        step = .yield ⟨⟩ ∧ invariant (through ++ [x]) s')
    (holds : invariant through s)
    : Ends subject reason s (forIn xs PUnit.unit f) fun _ => invariant (through ++ xs) := by
  induction xs generalizing s through with
  | nil =>
    rw [List.append_nil]
    exact holds
  | cons x rest ih =>
    rw [List.forIn_cons]
    refine Ends.bind ((each through x (by simp) s holds).mono ?_)
    rintro _ s' ⟨rfl, holds⟩
    rw [List.append_cons]
    exact ih (fun through x member => each through x (by simp [member])) holds

theorem Ends.forIn {f : α → PUnit → EvalM (ForInStep PUnit)} {invariant : State → Prop}
    {xs : List α}
    (each : ∀ x ∈ xs, ∀ s, invariant s →
      Ends subject reason s (f x ⟨⟩) fun step s' => step = .yield ⟨⟩ ∧ invariant s')
    (holds : invariant s)
    : Ends subject reason s (forIn xs PUnit.unit f) fun _ => invariant :=
  @Ends.forIn_through _ _ _ s _ (fun _ => invariant) [] xs (fun _ => each) holds

/-- Steps that each find something and leave the state alone. -/
theorem Ends.mapM {good : α → β → Prop}
    (each : ∀ x ∈ xs, Ends subject reason s (f x) fun b s' => s' = s ∧ good x b)
    : Ends subject reason s (xs.mapM f) fun bs s' => s' = s ∧ List.Forall₂ good xs bs := by
  induction xs with
  | nil => exact ⟨rfl, .nil⟩
  | cons x rest ih =>
    rw [List.mapM_cons]
    refine Ends.bind ((each x (by simp)).mono ?_)
    rintro b _ ⟨rfl, fine⟩
    refine Ends.bind ((ih fun x member => each x (by simp [member])).mono ?_)
    rintro bs _ ⟨rfl, all⟩
    exact ⟨rfl, .cons fine all⟩

end ProgramQuery.Evaluation
