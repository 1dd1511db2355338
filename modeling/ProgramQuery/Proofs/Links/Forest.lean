import Mathlib
import ProgramQuery.Links

/-! Graphs with repeated edges and no cycles: every edge is a bridge, so that its ends are not
connected without it.
-/

open Relation (ReflTransGen)

namespace ProgramQuery.Links

variable {edges fewer : List (Nat × Nat)} {e f : Nat × Nat} {u v w x y : Nat}

def Between (e : Nat × Nat) (v w : Nat) : Prop :=
  e = (v, w) ∨ e = (w, v)

def Joined (edges : List (Nat × Nat)) : Nat → Nat → Prop :=
  ReflTransGen fun v w => ∃ e ∈ edges, Between e v w

/-- Without one copy of an edge, its ends are not connected. -/
def Bridge (edges : List (Nat × Nat)) (e : Nat × Nat) : Prop :=
  ¬ Joined (edges.erase e) e.1 e.2

def Acyclic (edges : List (Nat × Nat)) : Prop :=
  ∀ e ∈ edges, Bridge edges e

def otherEnds (v : Nat) (e : Nat × Nat) : List Nat :=
  (if e.1 = v then [e.2] else []) ++ if e.2 = v then [e.1] else []

/-- The other ends of the edges at a vertex, in the order of the edges. -/
def incident (edges : List (Nat × Nat)) (v : Nat) : List Nat :=
  edges.flatMap (otherEnds v)

theorem Between.symm (between : Between e v w) : Between e w v :=
  Or.symm between

theorem Between.other {w' : Nat} (between : Between e v w) (between' : Between e v w') : w' = w := by
  rcases between with rfl | rfl <;> rcases between' with same | same <;> simp_all

theorem Between.ends {y z : Nat} (between : Between e v w) (between' : Between e y z)
    : y = v ∨ z = v := by
  rcases between with rfl | rfl <;> rcases between' with same | same <;> simp_all

theorem Joined.symm (joined : Joined edges v w) : Joined edges w v := by
  induction joined with
  | refl => exact .refl
  | tail _ step ih =>
    obtain ⟨e, member, between⟩ := step
    exact .head ⟨e, member, between.symm⟩ ih

theorem Joined.mono (joined : Joined fewer v w) (subset : ∀ e ∈ fewer, e ∈ edges)
    : Joined edges v w := by
  induction joined with
  | refl => exact .refl
  | tail _ step ih =>
    obtain ⟨e, member, between⟩ := step
    exact ih.tail ⟨e, subset e member, between⟩

theorem Bridge.not_joined (bridge : Bridge edges e) (between : Between e v w)
    : ¬ Joined (edges.erase e) v w := by
  rcases between with rfl | rfl
  · exact bridge
  · exact fun joined => bridge joined.symm

theorem mem_otherEnds : w ∈ otherEnds v e ↔ Between e v w := by
  obtain ⟨a, b⟩ := e
  simp only [otherEnds, Between, Prod.mk.injEq, List.mem_append]
  split <;> split <;> simp_all [eq_comm]

theorem mem_incident : w ∈ incident edges v ↔ ∃ e ∈ edges, Between e v w := by
  simp only [incident, List.mem_flatMap, mem_otherEnds]

theorem mem_incident_comm : w ∈ incident edges v ↔ v ∈ incident edges w := by
  rw [mem_incident, mem_incident]
  exact exists_congr fun e => and_congr_right fun _ => ⟨.symm, .symm⟩

theorem Acyclic.tail (acyclic : Acyclic (e :: edges)) : Acyclic edges := by
  intro f member joined
  refine acyclic f (by simp [member]) (joined.mono fun g rest => ?_)
  by_cases same : e = f
  · subst same
    rw [List.erase_cons_head]
    exact List.mem_of_mem_erase rest
  · rw [List.erase_cons_tail (by simpa using same)]
    exact List.mem_cons_of_mem _ rest

theorem Acyclic.ne (acyclic : Acyclic edges) (member : e ∈ edges) (between : Between e v w)
    : v ≠ w := by
  rintro rfl
  exact (acyclic e member).not_joined between .refl

/-- Without a cycle there are no two edges between the same vertices. -/
theorem Acyclic.nodup_incident (acyclic : Acyclic edges) : (incident edges v).Nodup := by
  induction edges with
  | nil => exact List.nodup_nil
  | cons e edges ih =>
    refine List.nodup_append.mpr ⟨?_, ih acyclic.tail, ?_⟩
    · have differs : ¬ (e.1 = v ∧ e.2 = v) := fun ⟨first, second⟩ =>
        acyclic.ne (by simp) (.inl rfl) (first.trans second.symm)
      unfold otherEnds
      split <;> split <;> simp_all
    · intro w here w' there same
      subst same
      obtain ⟨f, member, between⟩ := mem_incident.mp there
      refine (acyclic e (by simp)).not_joined (mem_otherEnds.mp here) ?_
      rw [List.erase_cons_head]
      exact .single ⟨f, member, between⟩

/-- What is connected without getting to a vertex is connected by the edges away from it. -/
theorem Joined.avoiding (joined : Joined fewer x u) (apart : ¬ Joined fewer x v)
    (kept : ∀ e ∈ fewer, ∀ y z, Between e y z → y ≠ v → z ≠ v → e ∈ edges)
    : Joined edges x u := by
  induction joined with
  | refl => exact .refl
  | @tail y z joined step ih =>
    obtain ⟨e, member, between⟩ := step
    refine ih.tail ⟨e, kept e member y z between ?_ ?_, between⟩
    · rintro rfl
      exact apart joined
    · rintro rfl
      exact apart (joined.tail ⟨e, member, between⟩)

/-- A neighbour of a vertex belongs to a part of the graph that is left only from the neighbour to
the vertex. -/
def Branch (edges : List (Nat × Nat)) (v w : Nat) : Prop :=
  ∃ inside : Nat → Prop, inside w ∧ ¬ inside v
    ∧ ∀ u, inside u → ∀ x ∈ incident edges u, inside x ∨ (u = w ∧ x = v)

theorem two_le_count_incident (member : e ∈ edges) (other : f ∈ edges.erase e)
    (between : Between e v w) (between' : Between f v w)
    : 2 ≤ (incident edges v).count w := by
  have order : edges.Perm (e :: f :: (edges.erase e).erase f) :=
    (List.perm_cons_erase member).trans ((List.perm_cons_erase other).cons e)
  have counts : (incident edges v).count w = (incident (e :: f :: (edges.erase e).erase f) v).count w :=
    (order.flatMap_right _).count_eq w
  have first := List.one_le_count_iff.mpr (mem_otherEnds.mpr between)
  have second := List.one_le_count_iff.mpr (mem_otherEnds.mpr between')
  rw [counts, incident, List.flatMap_cons, List.flatMap_cons, List.count_append, List.count_append]
  omega

/-- The only edge to a branch is a bridge. -/
theorem Branch.bridge (branch : Branch edges v w) (once : (incident edges v).count w ≤ 1)
    (member : e ∈ edges) (between : Between e v w)
    : Bridge edges e := by
  obtain ⟨inside, within, outside, closed⟩ := branch
  have stays {y : Nat} (joined : Joined (edges.erase e) w y) : inside y := by
    induction joined with
    | refl => exact within
    | @tail y z _ step ih =>
      obtain ⟨f, other, between'⟩ := step
      rcases closed y ih z (mem_incident.mpr ⟨f, List.mem_of_mem_erase other, between'⟩)
        with stays | ⟨rfl, rfl⟩
      · exact stays
      · have := two_le_count_incident member other between between'.symm
        omega
  intro joined
  refine outside (stays ?_)
  rcases between with rfl | rfl
  · exact joined.symm
  · exact joined

end ProgramQuery.Links
