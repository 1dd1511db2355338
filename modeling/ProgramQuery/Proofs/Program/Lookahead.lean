import ProgramQuery.Program.Parser.Statement
import ProgramQuery.Proofs.Program.Tokens

/-! What the parser of programs looks at. The tokens that a state has before it are those of the input
that is left, behind the lookahead, and every step of the parser takes the first of them or none.
-/

namespace ProgramQuery.Program

open Text

/-- The tokens that a text is read as, one after the other up to where there is none. -/
inductive Lexes : List Char → List Token → Prop
  | nil {cs : List Char} (nothing : Token.scan cs = none) : Lexes cs []
  | cons {t : Token} {n : Nat} {more : List Token} {cs rest : List Char}
    (found : Token.scan cs = some (t, n, rest)) (lexes : Lexes rest more)
    : Lexes cs (t :: more)

variable {cs : List Char}

theorem Lexes.length_le {tokens : List Token} (lexes : Lexes cs tokens)
    : tokens.length ≤ cs.length := by
  induction lexes with
  | nil _ => simp
  | cons found _ ih =>
    have shorter := (Token.scan_eq_some found).2
    simp only [List.length_cons]
    omega

def tokensIn (cs : List Char) : List Token :=
  match _found : Token.scan cs with
  | some (t, _, rest) => t :: tokensIn rest
  | none => []
termination_by cs.length
decreasing_by exact (Token.scan_eq_some _found).2

theorem tokensIn_of_scan {rest : List Char} {t : Token} {n : Nat}
    (found : Token.scan cs = some (t, n, rest))
    : tokensIn cs = t :: tokensIn rest := by
  rw [tokensIn]
  split
  next found' =>
    rw [found] at found'
    cases found'
    rfl
  next nothing =>
    rw [found] at nothing
    cases nothing

theorem tokensIn_of_scan_none (nothing : Token.scan cs = none)
    : tokensIn cs = [] := by
  rw [tokensIn]
  split
  next found =>
    rw [nothing] at found
    cases found
  next => rfl

theorem lexes_tokensIn (cs : List Char) : Lexes cs (tokensIn cs) := by
  fun_induction tokensIn cs with
  | case1 cs t n rest found ih => exact .cons found ih
  | case2 cs nothing => exact .nil nothing

theorem wellSpelled_of_mem_tokensIn {t : Token} (member : t ∈ tokensIn cs)
    : t.wellSpelled = true := by
  fun_induction tokensIn cs with
  | case1 cs t' n rest found ih =>
    rcases List.mem_cons.mp member with rfl | member
    · exact (Token.scan_eq_some found).1
    · exact ih member
  | case2 cs nothing => cases member

namespace ParserState

variable {s : ParserState} {t : Token} {tokens more : List Token}

/-- The parser looks at the first of some tokens and has the others before it. -/
def Faces (s : ParserState) : List Token → Prop
  | [] => s.next = .nothing
  | t :: more => s.next = .token t ∧ Lexes s.rest more

theorem faces_advance (lexes : Lexes s.rest tokens) : s.advance.Faces tokens := by
  cases lexes with
  | nil nothing => simp [Faces, advance, read, nothing]
  | cons found lexes =>
    simp only [Faces, advance, read, found]
    exact ⟨trivial, lexes⟩

def shifted (s : ParserState) : ParserState :=
  { s.advance with prev := s.next }

theorem Faces.shifted (faces : s.Faces (t :: more)) : s.shifted.Faces more := by
  have ahead := faces_advance faces.2
  cases more with
  | nil => exact ahead
  | cons t more => exact ahead

theorem Faces.kind (faces : s.Faces (t :: more)) : s.next.kind? = some t.kind := by
  rw [faces.1]
  rfl

theorem Faces.length_le (faces : s.Faces tokens) : tokens.length + 2 ≤ s.budget := by
  cases tokens with
  | nil => simp [budget]
  | cons t more =>
    have short := faces.2.length_le
    simp only [budget, List.length_cons]
    omega

def pending (s : ParserState) : List Token :=
  match s.next with
  | .token t => t :: tokensIn s.rest
  | _ => tokensIn s.rest

theorem pending_advance (s : ParserState) : s.advance.pending = tokensIn s.rest := by
  cases found : Token.scan s.rest with
  | none => simp [pending, advance, read, found]
  | some result =>
    obtain ⟨t, n, rest⟩ := result
    simp [pending, advance, read, found, tokensIn_of_scan found]

theorem line_advance (s : ParserState) : s.advance.line = s.line := by
  simp only [advance, read]
  split <;> rfl

theorem line_shifted (s : ParserState) : s.shifted.line = s.line :=
  s.line_advance

theorem pending_length_le (s : ParserState) : s.pending.length + 2 ≤ s.budget := by
  have short := (lexes_tokensIn s.rest).length_le
  unfold pending budget
  split
  · simp only [List.length_cons]
    omega
  · omega

end ParserState

theorem Lookahead.kind?_eq_some {next : Lookahead} {kind : TokenKind}
    : next.kind? = some kind ↔ ∃ t, next = .token t ∧ t.kind = kind := by
  cases next <;> simp [Lookahead.kind?]

namespace Parser

variable {α : Type} {s : ParserState} {f : PUnit → Parser α} {wanted : TokenKind}

theorem peek_bind {f : Option TokenKind → Parser α} : (peek >>= f) s = f s.next.kind? s :=
  rfl

theorem expect_eq : expect wanted s
      = if s.next.kind? = some wanted then .ok s.next.text s.shifted else .error .rejected s := by
  change (if s.next.kind? = some wanted then (do shift; return s.next.text) else throw .rejected
    : Parser String) s = _
  split <;> rfl

theorem expect_bind {f : String → Parser α}
    (found : s.next.kind? = some wanted)
    : (expect wanted >>= f) s = f s.next.text s.shifted := by
  simp only [Bind.bind, EStateM.bind, expect_eq, if_pos found]

theorem word_bind (found : s.next.kind? = some wanted)
    : (Functor.discard (expect wanted) >>= f) s = f .unit s.shifted := by
  simp only [Bind.bind, EStateM.bind, Functor.discard, Functor.mapConst, EStateM.map, expect_eq,
    if_pos found, Function.comp]

theorem word_bind_error (other : s.next.kind? ≠ some wanted)
    : (Functor.discard (expect wanted) >>= f) s = .error .rejected s := by
  simp only [Bind.bind, EStateM.bind, Functor.discard, Functor.mapConst, EStateM.map, expect_eq,
    if_neg other, Function.comp]

end Parser

end ProgramQuery.Program
