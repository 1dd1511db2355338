import ProgramQuery.Proofs.Program.Tokens
import ProgramQuery.Text.Case

/-! Spaces at the ends of a text, which make no difference to what is read from it. -/

namespace ProgramQuery.Text

variable {before after cs : List Char} {s : String}

/-- What is cut off at both ends is cut off around more of the same. -/
theorem dropEnds_append {p : Char → Bool} (front : ∀ c ∈ before, p c) (back : ∀ c ∈ after, p c)
    : (((before ++ (cs ++ after)).dropWhile p).reverse.dropWhile p).reverse
      = ((cs.dropWhile p).reverse.dropWhile p).reverse := by
  rw [List.dropWhile_append_of_pos front, List.dropWhile_append]
  split
  · next gone =>
    have nothing : after.dropWhile p = [] := List.dropWhile_eq_nil_iff.mpr back
    rw [nothing, List.isEmpty_iff.mp gone]
  · rw [List.reverse_append, List.dropWhile_append_of_pos]
    exact fun c member => back c (List.mem_reverse.mp member)

section Spaces

variable (spaces : ∀ c ∈ before ++ after, c = ' ') {c : Char}
include spaces

theorem trim_spaces : trim (String.ofList (before ++ (cs ++ after))) = trim (String.ofList cs) := by
  have blank (c : Char) (member : c ∈ before ++ after) : isBlank c := by
    rw [spaces c member]
    decide
  obtain ⟨front, back⟩ := List.forall_mem_append.mp blank
  simp only [trim, dropBlanks, String.toList_ofList, dropEnds_append front back]

theorem readNumeral_spaces
    : readNumeral (String.ofList (before ++ (cs ++ after))) = readNumeral (String.ofList cs) := by
  have blank (c : Char) (member : c ∈ before ++ after) : isNumeralBlank c := by
    rw [spaces c member]
    decide
  obtain ⟨front, back⟩ := List.forall_mem_append.mp blank
  simp only [readNumeral, String.toList_ofList, dropEnds_append front back]

theorem without_spaces (solid : c ≠ ' ')
    : without c (String.ofList (before ++ (cs ++ after)))
      = String.ofList (before ++ ((without c (String.ofList cs)).toList ++ after)) := by
  have kept (d : Char) (member : d ∈ before ++ after) : (d != c) = true := by
    rw [spaces d member]
    exact bne_iff_ne.mpr solid.symm
  obtain ⟨front, back⟩ := List.forall_mem_append.mp kept
  simp only [without, String.toList_ofList, List.filter_append, List.filter_eq_self.mpr front,
    List.filter_eq_self.mpr back]

theorem trim_without_spaces (solid : c ≠ ' ')
    : trim (without c (String.ofList (before ++ (cs ++ after))))
      = trim (without c (String.ofList cs)) := by
  rw [without_spaces spaces solid, trim_spaces spaces, String.ofList_toList]

theorem trim_upper_spaces
    : trim (upper (String.ofList (before ++ (cs ++ after)))) = trim (upper (String.ofList cs)) := by
  have kept {ds : List Char} (spaces : ∀ c ∈ ds, c = ' ') : ds.flatMap capitals = ds := by
    have space : capitals ' ' = [' '] := by decide +kernel
    induction ds with
    | nil => rfl
    | cons d rest ih =>
      obtain ⟨first, others⟩ := List.forall_mem_cons.mp spaces
      rw [List.flatMap_cons, ih others, first, space, List.singleton_append]
  obtain ⟨front, back⟩ := List.forall_mem_append.mp spaces
  simp only [upper, String.toList_ofList, List.flatMap_append, kept front, kept back]
  exact trim_spaces spaces

end Spaces

/-- Nothing is cut off a text without blanks. -/
theorem trim_of_solid (solid : ∀ c ∈ s.toList, isBlank c = false) : trim s = s := by
  have kept := @trim_append [] s.toList (by simp) solid
  rwa [List.nil_append, String.ofList_toList] at kept

theorem without_of_not_mem {c : Char} (absent : c ∉ s.toList) : without c s = s := by
  have kept : s.toList.filter (· != c) = s.toList := by
    rw [List.filter_eq_self]
    intro d member
    rw [bne_iff_ne]
    rintro rfl
    exact absent member
  rw [without, kept, String.ofList_toList]

end ProgramQuery.Text
