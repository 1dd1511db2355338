import Mathlib
import ProgramQuery.Text.Lexeme
import ProgramQuery.Text.Numeral

/-! Decimal numerals are read back as the numbers they were written for, and no name is a numeral.
Reading is limited in length, writing is not, so only the reading back of a number needs a bound.
-/

namespace ProgramQuery.Text

theorem toList_showInt (n : Nat) : (showInt n).toList = Nat.toDigits 10 n := by
  exact String.toList_ofList

variable {m n : Nat}

/-- Different numbers have different numerals, since the digits give the number back. -/
theorem showInt_injective (same : showInt m = showInt n)
    : m = n := by
  have digits : Nat.toDigits 10 m = Nat.toDigits 10 n := by
    rw [← toList_showInt, ← toList_showInt, same]
  have values := congrArg (fun cs => Nat.ofDigitChars 10 cs 0) digits
  simpa only [Nat.ofDigitChars_ten_toDigits] using values

@[simp]
theorem showInt_inj : showInt m = showInt n ↔ m = n :=
  ⟨showInt_injective, fun same => by rw [same]⟩

/-- A numeral consists of digits, at least one. -/
theorem showInt_digits (n : Nat)
    : (showInt n).toList ≠ [] ∧ ∀ c ∈ (showInt n).toList, c.isDigit := by
  rw [toList_showInt]
  exact ⟨Nat.toDigits_ne_nil, fun _ member => Nat.isDigit_of_mem_toDigits (by decide) (by decide) member⟩

theorem toNat_of_isDigit {c : Char} (digit : c.isDigit) : 0x30 ≤ c.toNat ∧ c.toNat ≤ 0x39 := by
  simp only [Char.isDigit, Bool.and_eq_true, decide_eq_true_eq] at digit
  exact ⟨UInt32.le_iff_toNat_le.mp digit.1, UInt32.le_iff_toNat_le.mp digit.2⟩

/-- The first row of decimal digits holds the digits of ASCII. -/
theorem digitValue?_of_isDigit {c : Char} (digit : c.isDigit)
    : digitValue? c = some (c.toNat - 0x30) := by
  obtain ⟨low, high⟩ := toNat_of_isDigit digit
  have first : (decide (0x30 ≤ c.toNat) && decide (c.toNat < 0x30 + 10)) = true := by
    simp only [Bool.and_eq_true, decide_eq_true_eq]
    omega
  simp only [digitValue?, decimalZeros, List.find?_cons, first, Option.map_some]

/-- Reading goes through a run of digits to its end. Digits are no underscores, so each is read
as it stands. -/
theorem readDigits_of_isDigit (cs : List Char) (digits : ∀ c ∈ cs, c.isDigit) (value count : Nat)
    : readDigits cs value count = (Nat.ofDigitChars 10 cs value, count + cs.length, []) := by
  induction cs generalizing value count with
  | nil => simp [readDigits]
  | cons c rest ih =>
    have digit : c.isDigit := digits c (by simp)
    have plain : c ≠ '_' := by
      rintro rfl
      exact absurd digit (by decide)
    have step : readDigits (c :: rest) value count
        = readDigits rest (10 * value + (c.toNat - 0x30)) (count + 1) := by
      rw [readDigits.eq_def]
      split
      · next heading => exact absurd (List.cons.inj heading).1 plain
      · next heading =>
        obtain ⟨rfl, rfl⟩ := List.cons.inj heading
        simp only [digitValue?_of_isDigit digit]
      · next heading => cases heading
    rw [step, ih (fun d member => digits d (by simp [member])), Nat.ofDigitChars_cons,
      List.length_cons]
    simp only [Char.reduceToNat, Nat.add_assoc, Nat.add_comm 1]

theorem not_isNumeralBlank_of_isDigit {c : Char} (digit : c.isDigit)
    : isNumeralBlank c = false := by
  obtain ⟨low, high⟩ := toNat_of_isDigit digit
  have plain : isBlank c = false := by
    simp only [isBlank, Bool.or_eq_false_iff, Bool.and_eq_false_iff, decide_eq_false_iff_not,
      beq_eq_false_iff_ne]
    omega
  simp only [isNumeralBlank, plain, Bool.false_and]

variable {cs : List Char}

/-- Nothing is cut off a text that neither starts nor ends with a blank. -/
theorem bare_of_no_blanks (plain : ∀ c ∈ cs, isNumeralBlank c = false)
    : ((cs.dropWhile isNumeralBlank).reverse.dropWhile isNumeralBlank).reverse = cs := by
  have keep {ds : List Char} (plain : ∀ c ∈ ds, isNumeralBlank c = false)
      : ds.dropWhile isNumeralBlank = ds := by
    cases ds with
    | nil => rfl
    | cons d rest => simp [plain d (by simp)]
  rw [keep plain, keep (fun c member => plain c (List.mem_reverse.mp member)), List.reverse_reverse]

variable {s : String}

/-- Digits are read as the number they write, unless there are too many. -/
theorem readInt?_of_isDigit (nonempty : s.toList ≠ [])
    (digits : ∀ c ∈ s.toList, c.isDigit = true)
    : readInt? s = if s.toList.length > mostDigits then none
        else some ((Nat.ofDigitChars 10 s.toList 0 : Nat) : Int) := by
  have bare := bare_of_no_blanks fun c member => not_isNumeralBlank_of_isDigit (digits c member)
  cases heading : s.toList with
  | nil => exact absurd heading nonempty
  | cons c rest =>
    rw [heading] at bare digits
    have digit : c.isDigit := digits c (by simp)
    have unsigned : c ≠ '-' ∧ c ≠ '+' := by
      constructor <;>
        · rintro rfl
          exact absurd digit (by decide)
    have value : Nat.ofDigitChars 10 (c :: rest) 0
        = Nat.ofDigitChars 10 rest (c.toNat - 0x30) := by
      rw [Nat.ofDigitChars_cons, Nat.mul_zero, Nat.zero_add]
      rfl
    have whole : readNat (c :: rest) = if 1 + rest.length > mostDigits
        then .error (.tooLong (1 + rest.length))
        else .ok (Nat.ofDigitChars 10 (c :: rest) 0) := by
      simp only [readNat, digitValue?_of_isDigit digit,
        readDigits_of_isDigit rest (fun d member => digits d (by simp [member])),
        List.isEmpty_nil, if_true, value]
    simp only [readInt?, readNumeral, heading, bare]
    split
    · next same => exact absurd (List.cons.inj same).1 unsigned.1
    · next same => exact absurd (List.cons.inj same).1 unsigned.2
    · rw [whole, List.length_cons, Nat.add_comm rest.length 1]
      split <;> rfl

theorem ofDigitChars_showInt (n : Nat) : Nat.ofDigitChars 10 (showInt n).toList 0 = n := by
  rw [toList_showInt, Nat.ofDigitChars_ten_toDigits]

/-- A number is read back unless its numeral is too long. -/
theorem readInt?_showInt_eq (n : Nat)
    : readInt? (showInt n) = if n < 10 ^ mostDigits then some (n : Int) else none := by
  obtain ⟨nonempty, digits⟩ := showInt_digits n
  have brief : (showInt n).toList.length ≤ mostDigits ↔ n < 10 ^ mostDigits := by
    rw [toList_showInt]
    exact Nat.length_toDigits_le_iff (by decide) (by decide)
  rw [readInt?_of_isDigit nonempty digits, ofDigitChars_showInt]
  simp only [gt_iff_lt, ← Nat.not_le, brief, ite_not]

theorem readInt?_showInt (short : n < 10 ^ mostDigits)
    : readInt? (showInt n) = some (n : Int) := by
  rw [readInt?_showInt_eq, if_pos short]

theorem toNat_of_isLetter {c : Char} (letter : isLetter c)
    : 0x41 ≤ c.toNat ∧ c.toNat ≤ 0x7A := by
  simp only [isLetter, Bool.or_eq_true, Bool.and_eq_true, decide_eq_true_eq, Char.le_def,
    UInt32.le_iff_toNat_le] at letter
  have small : c.toNat = c.val.toNat := rfl
  rcases letter with ⟨low, high⟩ | ⟨low, high⟩
  · have low' : 97 ≤ c.toNat := low
    have high' : c.toNat ≤ 122 := high
    omega
  · have low' : 65 ≤ c.toNat := low
    have high' : c.toNat ≤ 90 := high
    omega

/-- A letter is no decimal digit: it lies between the first row of digits and all others. -/
theorem digitValue?_of_isLetter {c : Char} (letter : isLetter c) : digitValue? c = none := by
  obtain ⟨low, high⟩ := toNat_of_isLetter letter
  have rows : ∀ row ∈ decimalZeros, row = 0x30 ∨ 0x660 ≤ row := by decide
  simp only [digitValue?, Option.map_eq_none_iff, List.find?_eq_none, Bool.and_eq_true,
    decide_eq_true_eq]
  intro row member
  rcases rows row member with rfl | high' <;> omega

theorem not_isDigits_of_isLetter {c : Char}
    (heading : s.toList = c :: cs) (letter : isLetter c)
    : isDigits s = false := by
  obtain ⟨low, high⟩ := toNat_of_isLetter letter
  have outside : inRanges looseDigits c.toNat = false := by
    have above : ¬ (0xB2 : Nat) ≤ c.toNat := by omega
    simp [looseDigits, inRanges, above]
  simp [isDigits, heading, digitValue?_of_isLetter letter, outside]

/-- A text that starts with a letter is not read as a number. -/
theorem readInt?_of_isLetter {c : Char}
    (heading : s.toList = c :: cs) (letter : isLetter c)
    : readInt? s = none := by
  obtain ⟨low, high⟩ := toNat_of_isLetter letter
  have plain : isNumeralBlank c = false := by
    have : isBlank c = false := by
      simp only [isBlank, Bool.or_eq_false_iff, Bool.and_eq_false_iff, decide_eq_false_iff_not,
        beq_eq_false_iff_ne]
      omega
    simp only [isNumeralBlank, this, Bool.false_and]
  have front : ∃ more, ((s.toList.dropWhile isNumeralBlank).reverse.dropWhile
      isNumeralBlank).reverse = c :: more := by
    rw [heading, List.dropWhile_cons_of_neg (by simp [plain]), List.reverse_cons,
      List.dropWhile_append]
    split
    · exact ⟨[], by simp [plain]⟩
    · exact ⟨_, by rw [List.reverse_append]; rfl⟩
  obtain ⟨more, bare⟩ := front
  have refused : readNat (c :: more) = .error .misspelt := by
    simp only [readNat, digitValue?_of_isLetter letter]
  have unsigned : c ≠ '-' ∧ c ≠ '+' := by
    constructor <;>
      · rintro rfl
        revert letter
        decide
  simp only [readInt?, readNumeral, bare]
  split
  · next same => exact absurd (List.cons.inj same).1 unsigned.1
  · next same => exact absurd (List.cons.inj same).1 unsigned.2
  · simp [refused, Except.map, Except.toOption]

/-- A text that starts with a letter is no numeral of a statement. -/
theorem ne_showInt_of_isLetter {c : Char}
    (heading : s.toList = c :: cs) (letter : isLetter c) (n : Nat)
    : s ≠ showInt n := by
  rintro rfl
  have digit : c.isDigit := (showInt_digits n).2 c (by rw [heading]; simp)
  have low := (toNat_of_isLetter letter).1
  have high := (toNat_of_isDigit digit).2
  omega

/-- The numeral of a number is recognised as digits. -/
theorem isDigits_showInt (n : Nat) : isDigits (showInt n) = true := by
  obtain ⟨nonempty, digits⟩ := showInt_digits n
  have filled : (showInt n).isEmpty = false := by
    rw [String.isEmpty_eq_false_iff]
    intro same
    rw [same] at nonempty
    exact nonempty rfl
  simp only [isDigits, filled, Bool.not_false, Bool.true_and, List.all_eq_true, Bool.or_eq_true]
  intro c member
  exact Or.inl (by rw [digitValue?_of_isDigit (digits c member)]; rfl)

/-- A numeral with a minus sign is no numeral of a statement. -/
theorem showInt_negSucc_ne {k : Nat} : showInt (Int.negSucc k) ≠ showInt n := by
  intro same
  have minus : '-' ∈ (showInt n).toList := by
    rw [← same]
    simp [showInt]
  exact absurd ((showInt_digits n).2 _ minus) (by decide)

/-- Numbers are told apart by their numerals. -/
theorem injective_showInt : Function.Injective showInt := by
  intro x y same
  cases x with
  | ofNat m =>
    cases y with
    | ofNat n => exact congrArg Int.ofNat (showInt_injective same)
    | negSucc k => exact absurd same.symm showInt_negSucc_ne
  | negSucc j =>
    cases y with
    | ofNat n => exact absurd same showInt_negSucc_ne
    | negSucc k =>
      have digits : showInt (j + 1 : Nat) = showInt (k + 1 : Nat) :=
        congrArg String.ofList (List.cons.inj (String.ofList_injective same)).2
      rw [Nat.succ.inj (showInt_injective digits)]

end ProgramQuery.Text
