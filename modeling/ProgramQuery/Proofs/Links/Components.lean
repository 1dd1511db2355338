import ProgramQuery.Proofs.Links.Search

/-! Cycles and components. A graph has a cycle unless all its edges are bridges, and each bridge joins two
components into one. So the search finds no cycle exactly if the edges and the components together are as
many as the vertices.
-/

namespace ProgramQuery.Links

variable {edges path : List (Nat × Nat)} {e : Nat × Nat} {n u v w x y : Nat} {passed : List Nat}

/-- One goes along some edges in turn, leaving some vertices in turn. -/
inductive Walk : List (Nat × Nat) → List Nat → Nat → Nat → Prop
  | stay (v : Nat) : Walk [] [] v v
  | go {e : Nat × Nat} {path : List (Nat × Nat)} {passed : List Nat} {u v w : Nat}
    (between : Between e u v) (rest : Walk path passed v w)
    : Walk (e :: path) (u :: passed) u w

/-- A way around that leaves no vertex twice and takes no edge more often than there are copies of it. An
edge from a vertex to itself is one, and so are two edges between the same vertices. -/
def Cyclic (edges : List (Nat × Nat)) : Prop :=
  ∃ path passed v, path ≠ [] ∧ Walk path passed v v ∧ passed.Nodup ∧ path.Subperm edges

theorem Walk.joined (walk : Walk path passed v w) (inside : ∀ e ∈ path, e ∈ edges)
    : Joined edges v w := by
  induction walk with
  | stay v => exact .refl
  | go between _ ih =>
    exact .head ⟨_, inside _ (by simp), between⟩ (ih fun e member => inside e (by simp [member]))

/-- The rest of a walk from a vertex that it passes. -/
theorem Walk.exists_rest (walk : Walk path passed v w) (member : x ∈ passed)
    : ∃ path' passed', Walk path' passed' x w ∧ path' <:+ path ∧ passed' <:+ passed := by
  induction walk with
  | stay v => cases member
  | @go e path passed u v w between rest ih =>
    rcases List.mem_cons.mp member with rfl | member
    · exact ⟨_, _, .go between rest, List.suffix_refl _, List.suffix_refl _⟩
    · obtain ⟨path', passed', walk, inPath, inPassed⟩ := ih member
      exact ⟨path', passed', walk, inPath.trans (List.suffix_cons ..),
        inPassed.trans (List.suffix_cons ..)⟩

/-- What is connected is connected by a walk that comes to each vertex once. -/
theorem Joined.exists_walk (joined : Joined edges v w)
    : ∃ path passed, Walk path passed v w ∧ (passed ++ [w]).Nodup ∧ ∀ e ∈ path, e ∈ edges := by
  induction joined using Relation.ReflTransGen.head_induction_on with
  | refl => exact ⟨[], [], .stay w, by simp, by simp⟩
  | @head u v step _ ih =>
    obtain ⟨e, member, between⟩ := step
    obtain ⟨path, passed, walk, unique, inside⟩ := ih
    by_cases again : u ∈ passed
    · obtain ⟨path', passed', walk', inPath, inPassed⟩ := walk.exists_rest again
      refine ⟨path', passed', walk', unique.sublist (inPassed.sublist.append_right _), ?_⟩
      exact fun f member => inside f (inPath.mem member)
    · by_cases last : u = w
      · subst last
        exact ⟨[], [], .stay u, by simp, by simp⟩
      · refine ⟨e :: path, u :: passed, .go between walk, ?_, by simpa [member] using inside⟩
        rw [List.cons_append, List.nodup_cons]
        exact ⟨by simp [again, last], unique⟩

/-- The ends of the edges of a walk are vertices that it comes to. -/
theorem Walk.ends (walk : Walk path passed v w) (member : e ∈ path) (between : Between e x y)
    : x ∈ passed ++ [w] := by
  induction walk with
  | stay v => cases member
  | @go f path passed u v w between' rest ih =>
    have first : v ∈ passed ++ [w] := by
      cases rest <;> simp
    rcases List.mem_cons.mp member with rfl | member
    · rcases between'.ends between with rfl | rfl
      · simp
      · rw [between'.other between.symm]
        exact List.mem_cons_of_mem _ first
    · exact List.mem_cons_of_mem _ (ih member)

/-- A walk that comes to each vertex once takes each edge once. -/
theorem Walk.nodup (walk : Walk path passed v w) (unique : (passed ++ [w]).Nodup) : path.Nodup := by
  induction walk with
  | stay v => exact List.nodup_nil
  | @go e path passed u v w between rest ih =>
    rw [List.cons_append, List.nodup_cons] at unique
    exact List.nodup_cons.mpr ⟨fun again => unique.1 (rest.ends again between), ih unique.2⟩

/-- There is a cycle unless all edges are bridges. -/
theorem cyclic_iff : Cyclic edges ↔ ¬ Acyclic edges := by
  constructor
  · rintro ⟨path, passed, v, some_, walk, -, inside⟩ acyclic
    cases walk with
    | stay v => exact some_ rfl
    | @go e path passed v u _ between rest =>
      have member : e ∈ edges := inside.subset (by simp)
      have inside : path.Subperm (edges.erase e) := by
        simpa using inside.erase e
      refine (acyclic e member).not_joined between.symm ?_
      exact rest.joined fun f member => inside.subset member
  · intro cyclic
    simp only [Acyclic, not_forall] at cyclic
    obtain ⟨e, member, other⟩ := cyclic
    obtain ⟨path, passed, walk, unique, inside⟩ := (not_not.mp other).exists_walk
    refine ⟨e :: path, e.2 :: passed, e.2, by simp, .go (.inr rfl) walk, ?_, ?_⟩
    · exact (List.perm_append_singleton e.2 passed).nodup_iff.mp unique
    · have rest : path.Subperm (edges.erase e) := (walk.nodup unique).subperm inside
      exact ((List.subperm_cons e).mpr rest).trans (List.perm_cons_erase member).symm.subperm

/-- Vertices are in the same component if one gets from one to the other. -/
def connected (edges : List (Nat × Nat)) (n : Nat) : Setoid (Fin n) where
  r v w := Joined edges v w
  iseqv := ⟨fun _ => .refl, fun joined => joined.symm, fun first second => first.trans second⟩

noncomputable def components (edges : List (Nat × Nat)) (n : Nat) : Nat :=
  Nat.card (Quotient (connected edges n))

/-- A way along one more edge takes it at most once. -/
theorem joined_cons : Joined (e :: edges) x y ↔ Joined edges x y
    ∨ ∃ v w, Between e v w ∧ Joined edges x v ∧ Joined edges w y := by
  constructor
  · intro joined
    induction joined with
    | refl => exact .inl .refl
    | @tail y z _ step ih =>
      obtain ⟨f, member, between⟩ := step
      rcases List.mem_cons.mp member with rfl | member
      · rcases ih with joined | ⟨v, w, between', first, -⟩
        · exact .inr ⟨y, z, between, joined, .refl⟩
        · -- the edge was taken before, so that the way comes back to one of its ends
          rcases between'.ends between with rfl | rfl
          · exact .inr ⟨y, z, between, first, .refl⟩
          · exact .inl first
      · exact ih.imp (·.tail ⟨f, member, between⟩) fun ⟨v, w, between', first, second⟩ =>
          ⟨v, w, between', first, second.tail ⟨f, member, between⟩⟩
  · have more (f : Nat × Nat) (member : f ∈ edges) : f ∈ e :: edges := List.mem_cons_of_mem e member
    rintro (joined | ⟨v, w, between, first, second⟩)
    · exact joined.mono more
    · exact (first.mono more).trans (.head ⟨e, by simp, between⟩ (second.mono more))

theorem Joined.of_between (joined : Joined edges v w) (between : Between e v w)
    : Joined edges e.1 e.2 := by
  rcases between with rfl | rfl
  · exact joined
  · exact joined.symm

/-- With one more edge there is still no cycle if its ends were not connected. -/
theorem acyclic_cons : Acyclic (e :: edges) ↔ Acyclic edges ∧ ¬ Joined edges e.1 e.2 := by
  have head : Bridge (e :: edges) e ↔ ¬ Joined edges e.1 e.2 := by
    rw [Bridge, List.erase_cons_head]
  refine ⟨fun acyclic => ⟨acyclic.tail, head.mp (acyclic e (by simp))⟩, ?_⟩
  rintro ⟨acyclic, apart⟩ f member
  by_cases same : e = f
  · exact same ▸ head.mpr apart
  have member : f ∈ edges := (List.mem_cons.mp member).resolve_left (Ne.symm same)
  rw [Bridge, List.erase_cons_tail (by simpa using same), joined_cons]
  rintro (joined | ⟨v, w, between, first, second⟩)
  · exact acyclic f member joined
  · -- around the other edge, which is not the new one, the ends of the new one are connected
    have rest (g : Nat × Nat) (member : g ∈ edges.erase f) : g ∈ edges := List.mem_of_mem_erase member
    have around : Joined edges v w :=
      (first.mono rest).symm.trans (.head ⟨f, member, .inl rfl⟩ (second.mono rest).symm)
    exact apart (around.of_between between)

theorem components_nil (n : Nat) : components [] n = n := by
  have single {v w : Fin n} (joined : Joined [] v w) : v = w := by
    rcases Relation.ReflTransGen.cases_head joined with same | ⟨_, ⟨_, none, _⟩, _⟩
    · exact Fin.ext same
    · cases none
  have bijective : Function.Bijective (Quotient.mk (connected [] n)) :=
    ⟨fun v w same => single (Quotient.exact same), Quotient.mk_surjective⟩
  rw [components, ← Nat.card_eq_of_bijective _ bijective, Nat.card_fin]

/-- An edge within a component changes nothing. -/
theorem components_cons_of_joined (joined : Joined edges e.1 e.2)
    : components (e :: edges) n = components edges n := by
  have same : connected (e :: edges) n = connected edges n := by
    refine Setoid.ext fun v w => joined_cons.trans ⟨?_, .inl⟩
    rintro (joined' | ⟨x, y, rfl | rfl, first, second⟩)
    · exact joined'
    · exact first.trans (joined.trans second)
    · exact first.trans (joined.symm.trans second)
  rw [components, same, components]

/-- An edge between two components makes them one. The component of its second end is left out to count
those that there are then.
-/
theorem components_cons_of_not_joined (bound : e.1 < n ∧ e.2 < n) (apart : ¬ Joined edges e.1 e.2)
    : components (e :: edges) n + 1 = components edges n := by
  let first : Fin n := ⟨e.1, bound.1⟩
  let second : Fin n := ⟨e.2, bound.2⟩
  let merged : Quotient (connected edges n) → Quotient (connected (e :: edges) n) :=
    Quotient.map id fun _ _ joined => joined_cons.mpr (.inl joined)
  let left (q : { q : Quotient (connected edges n) // q ≠ ⟦second⟧ }) := merged q.1
  have bijective : Function.Bijective left := by
    constructor
    · rintro ⟨q, other⟩ ⟨q', other'⟩ same
      induction q, q' using Quotient.inductionOn₂ with | h v w => ?_
      refine Subtype.ext (Quotient.sound ?_)
      rcases joined_cons.mp (Quotient.exact same) with joined | ⟨x, y, rfl | rfl, before, after⟩
      · exact joined
      · exact absurd (Quotient.sound after.symm) other'
      · exact absurd (Quotient.sound before) other
    · intro q
      induction q using Quotient.inductionOn with | h v => ?_
      by_cases same : (⟦v⟧ : Quotient (connected edges n)) = ⟦second⟧
      · refine ⟨⟨⟦first⟧, fun joined => apart (Quotient.exact joined)⟩, Quotient.sound ?_⟩
        exact joined_cons.mpr (.inr ⟨e.1, e.2, .inl rfl, .refl, (Quotient.exact same).symm⟩)
      · exact ⟨⟨⟦v⟧, same⟩, rfl⟩
  classical
  rw [components, components, ← Nat.card_eq_of_bijective _ bijective, ← Finite.card_option]
  exact Nat.card_congr (Equiv.optionSubtypeNe _)

/-- There are at least as many edges as it takes to join the components, and no more if there is no
cycle. -/
theorem components_spec (bounds : ∀ e ∈ edges, e.1 < n ∧ e.2 < n)
    : n ≤ edges.length + components edges n
      ∧ (edges.length + components edges n = n ↔ Acyclic edges) := by
  induction edges with
  | nil => simp [components_nil, Acyclic]
  | cons e edges ih =>
    obtain ⟨least, exact_⟩ := ih fun f member => bounds f (by simp [member])
    rw [acyclic_cons, List.length_cons]
    by_cases joined : Joined edges e.1 e.2
    · rw [components_cons_of_joined joined]
      exact ⟨by omega, ⟨fun many => by omega, fun both => absurd joined both.2⟩⟩
    · have fewer := components_cons_of_not_joined (bounds e (by simp)) joined
      rw [← exact_]
      exact ⟨by omega, ⟨fun many => ⟨by omega, joined⟩, fun ⟨many, _⟩ => by omega⟩⟩

/-- The search of a graph ends, whatever edges were added. It finds a cycle exactly if there is one, and
none exactly if the edges and the components together are as many as the vertices.
-/
theorem hasCycle_exact (bounds : ∀ e ∈ edges, e.1 < n ∧ e.2 < n)
    : ∃ found, (ofEdges n edges).hasCycle = .ok found ∧ (found = true ↔ Cyclic edges)
      ∧ (found = false ↔ edges.length + components edges n = n) := by
  obtain ⟨found, searched, acyclic⟩ := exists_hasCycle bounds
  refine ⟨found, searched, ?_, acyclic.trans (components_spec bounds).2.symm⟩
  rw [cyclic_iff, ← acyclic, Bool.not_eq_false]

/-- Two edges between the same vertices are a cycle, and so is an edge from a vertex to itself. Four
vertices with two edges that make no cycle fall into two components.
-/
theorem hasCycle_exact_on_small_graphs
    : Cyclic [(0, 1), (2, 1), (1, 2)] ∧ Cyclic [(0, 1), (2, 2)] ∧ components [(0, 1), (2, 1)] 4 = 2 := by
  obtain ⟨found, searched, cyclic, -⟩ := @hasCycle_exact [(0, 1), (2, 1), (1, 2)] 3 (by decide)
  obtain ⟨found', searched', cyclic', -⟩ := @hasCycle_exact [(0, 1), (2, 2)] 3 (by decide)
  obtain ⟨found'', searched'', -, count⟩ := @hasCycle_exact [(0, 1), (2, 1)] 4 (by decide)
  have parallel : (ofEdges 3 [(0, 1), (2, 1), (1, 2)]).hasCycle = .ok true := by rfl
  have loop : (ofEdges 3 [(0, 1), (2, 2)]).hasCycle = .ok true := by rfl
  have tree : (ofEdges 4 [(0, 1), (2, 1)]).hasCycle = .ok false := by rfl
  rw [parallel] at searched
  rw [loop] at searched'
  rw [tree] at searched''
  refine ⟨cyclic.mp (Except.ok.inj searched).symm, cyclic'.mp (Except.ok.inj searched').symm, ?_⟩
  have total := count.mp (Except.ok.inj searched'').symm
  simp only [List.length_cons, List.length_nil] at total
  omega

end ProgramQuery.Links
