import ProgramQuery.Proofs.Program.Reading

/-! Parsers that write something down while they read, side by side with the parser that only reads. -/

namespace ProgramQuery.Program

open Text

/-- Parsers with something written beside their state. The failure that is none of the parser's stands
for a write that is not possible. -/
abbrev Recorder (σ : Type) := EStateM (Option Failure) (ParserState × σ)

namespace Recorder

variable {σ α β γ : Type}

def lift (m : Parser α) : Recorder σ α := fun (s, g) =>
  match m s with
  | .ok a s' => .ok a (s', g)
  | .error failure s' => .error (some failure) (s', g)

def write (f : σ → Option σ) : Recorder σ Unit := fun (s, g) =>
  match f g with
  | some g' => .ok () (s, g')
  | none => .error none (s, g)

def lineNow : Recorder σ Nat := do
  return (← get).1.line

/-- The parser that writes does what the other one does, and something holds of both results. -/
def Tracks (m : Parser α) (r : Recorder σ β) (s : ParserState) (g : σ)
    (post : α → ParserState → β → σ → Prop)
    : Prop :=
  match m s with
  | .ok a s' => ∃ b g', r (s, g) = .ok b (s', g') ∧ post a s' b g'
  | .error failure s' => ∃ g', r (s, g) = .error (some failure) (s', g')

variable {m : Parser α} {r : Recorder σ β} {s : ParserState} {g : σ}
  {post : α → ParserState → β → σ → Prop} {good : α → ParserState → Prop}
  {k : Nat → Recorder σ β}

theorem Tracks.pure {a : α} {b : β} (holds : post a s b g)
    : Tracks (Pure.pure a) (Pure.pure b) s g post :=
  ⟨b, g, rfl, holds⟩

theorem Tracks.throw (failure : Failure)
    : Tracks (MonadExcept.throw failure : Parser α) (lift (MonadExcept.throw failure) : Recorder σ β) s g
        post :=
  ⟨g, rfl⟩

theorem Tracks.mono {weaker : α → ParserState → β → σ → Prop} (tracks : Tracks m r s g post)
    (weaken : ∀ a s' b g', post a s' b g' → weaker a s' b g')
    : Tracks m r s g weaker := by
  unfold Tracks at tracks ⊢
  split at tracks
  · obtain ⟨b, g', same, holds⟩ := tracks
    exact ⟨b, g', same, weaken _ _ _ _ holds⟩
  · exact tracks

theorem Tracks.bind {α' β' : Type} {f : α → Parser α'} {k : β → Recorder σ β'}
    {then_ : α' → ParserState → β' → σ → Prop} (first : Tracks m r s g post)
    (second : ∀ a s' b g', post a s' b g' → Tracks (f a) (k b) s' g' then_)
    : Tracks (m >>= f) (r >>= k) s g then_ := by
  unfold Tracks at first second ⊢
  simp only [Bind.bind, EStateM.bind]
  cases given : m s with
  | ok a s' =>
    rw [given] at first
    obtain ⟨b, g', same, holds⟩ := first
    simp only [same]
    exact second a s' b g' holds
  | error failure s' =>
    rw [given] at first
    obtain ⟨g', same⟩ := first
    exact ⟨g', by simp only [same]⟩

/-- Nothing comes after a failure. -/
theorem Tracks.throw_bind {α' β' : Type} (failure : Failure) (f : α' → Parser α)
    (k : β' → Recorder σ β)
    : Tracks ((MonadExcept.throw failure : Parser α') >>= f)
        ((lift (MonadExcept.throw failure) : Recorder σ β') >>= k) s g post :=
  ⟨g, rfl⟩

theorem Tracks.lift (gives : ∀ a s', m s = .ok a s' → good a s')
    : Tracks m (Recorder.lift m) s g fun a s' b g' => a = b ∧ g = g' ∧ good a s' := by
  unfold Tracks
  cases given : m s with
  | ok a s' => exact ⟨a, g, by simp [Recorder.lift, given], rfl, rfl, gives a s' given⟩
  | error failure s' => exact ⟨g, by simp [Recorder.lift, given]⟩

theorem Tracks.write {g' : σ} {f : σ → Option σ} {k : Unit → Recorder σ β}
    (written : f g = some g') (tracks : Tracks m (k ()) s g' post)
    : Tracks m (Recorder.write f >>= k) s g post := by
  have step : (Recorder.write f >>= k) (s, g) = k () (s, g') := by
    simp [Bind.bind, EStateM.bind, Recorder.write, written]
  unfold Tracks at tracks ⊢
  rwa [step]

theorem Tracks.lineNow (tracks : Tracks m (k s.line) s g post)
    : Tracks m (Recorder.lineNow >>= k) s g post :=
  tracks

theorem Tracks.peek {f : Option TokenKind → Parser α} {k : Option TokenKind → Recorder σ β}
    (tracks : Tracks (f s.next.kind?) (k s.next.kind?) s g post)
    : Tracks (Parser.peek >>= f) (Recorder.lift Parser.peek >>= k) s g post :=
  tracks

theorem Tracks.modify (f : ParserState → ParserState)
    : Tracks (modify f) (Recorder.lift (modify f)) s g fun _ s' _ g' => f s = s' ∧ g = g' :=
  ⟨(), g, rfl, rfl, rfl⟩

theorem Tracks.get
    : Tracks get (Recorder.lift get) s g fun a s' b g' => s = a ∧ s = s' ∧ s = b ∧ g = g' :=
  ⟨s, g, rfl, rfl, rfl, rfl, rfl⟩

/-- Parsers that set their steps by the input that is left. -/
theorem Tracks.of_budget {m : Nat → Parser α}
    (tracks : Tracks (m s.budget) (k s.budget) s g post)
    : Tracks (fun s => m s.budget s) (fun state => k state.1.budget state) s g post :=
  tracks

theorem Tracks.word (kind : TokenKind)
    : Tracks (discard (Parser.expect kind)) (Recorder.lift (discard (Parser.expect kind))) s g
        fun _ s' _ g' => g = g' ∧ s'.line = s.line := by
  have gives : Parser.Gives [] (discard (Parser.expect kind)) s _ := Parser.gives_word kind
  refine (Tracks.lift fun a s' given => gives.of_ok given).mono ?_
  rintro _ s' _ _ ⟨-, rfl, t, -, passes⟩
  exact ⟨rfl, passes.line⟩

theorem Tracks.expect (kind : TokenKind)
    : Tracks (Parser.expect kind) (Recorder.lift (Parser.expect kind)) s g
        fun a s' b g' => a = b ∧ g = g' ∧ s'.line = s.line := by
  have gives : Parser.Gives [] (Parser.expect kind) s _ := Parser.gives_expect kind
  refine (Tracks.lift fun a s' given => gives.of_ok given).mono ?_
  rintro _ s' _ _ ⟨rfl, rfl, t, -, -, passes⟩
  exact ⟨rfl, rfl, passes.line⟩

theorem Tracks.expression
    : Tracks Parser.expression (Recorder.lift Parser.expression) s g
        fun a s' b g' => a = b ∧ g = g' ∧ s'.line = s.line := by
  have gives : Parser.Gives [] Parser.expression s _ := Parser.gives_expression s
  refine (Tracks.lift fun a s' given => gives.of_ok given).mono ?_
  rintro _ s' _ _ ⟨rfl, rfl, used, -, passes⟩
  exact ⟨rfl, rfl, passes.line⟩

theorem Tracks.and_gives {whole : List Token}
    (tracks : Tracks m r s g post) (gives : Parser.Gives whole m s good)
    : Tracks m r s g fun a s' b g' => post a s' b g' ∧ good a s' := by
  unfold Tracks at tracks ⊢
  cases given : m s with
  | ok a s' =>
    rw [given] at tracks
    obtain ⟨b, g', same, holds⟩ := tracks
    exact ⟨b, g', same, holds, gives.of_ok given⟩
  | error failure s' =>
    rw [given] at tracks
    exact tracks

end Recorder

end ProgramQuery.Program
