import ProgramQuery.Proofs.Links.Forest

/-! The search for a cycle finds one exactly in the graphs that are not acyclic. What the search from a
vertex reaches is closed but for the way back to where it came from, and if no cycle is found, every
edge within is a bridge.
-/

namespace ProgramQuery.Links

variable {α β : Type} {edges fewer : List (Nat × Nat)} {e : Nat × Nat} {n u v w x : Nat}
  {parent : Int} {s s₀ s' : Search} {through : List Nat} {m : SearchM α}

def ofEdges (n : Nat) (edges : List (Nat × Nat)) : Links :=
  edges.foldl (fun g e => g.addEdge e.1 e.2) (.start n)

theorem lookup_touch (g : Links) (i : Int) : ((g.touch i).entries.lookup i).isSome = true := by
  unfold touch
  split
  next found => exact found
  next => simp [List.lookup_append, List.lookup]

theorem neighbours_touch (g : Links) (i j : Int) : (g.touch i).neighbours j = g.neighbours j := by
  unfold touch
  split
  next => rfl
  next =>
    unfold neighbours
    rw [List.lookup_append]
    cases g.entries.lookup j with
    | some ns => rfl
    | none => cases same : j == i <;> simp [List.lookup, same]

theorem neighbours_push (g : Links) (i j k : Int)
    : (g.push i j).neighbours k = g.neighbours k ++ if k = i then [j] else [] := by
  have pushed (entries : List (Int × List Int))
      : (entries.map fun e => if e.1 = i then (e.1, e.2 ++ [j]) else (e.1, e.2)).lookup k
        = (entries.lookup k).map fun ns => if k = i then ns ++ [j] else ns := by
    induction entries with
    | nil => rfl
    | cons entry rest ih =>
      obtain ⟨u, ns⟩ := entry
      have entry : (if u = i then (u, ns ++ [j]) else (u, ns))
          = (u, if u = i then ns ++ [j] else ns) := by
        split <;> rfl
      simp only [List.map_cons, entry, List.lookup_cons, ih]
      cases same : k == u with
      | true =>
        obtain rfl : k = u := by simpa using same
        rfl
      | false => rfl
  have entries : (g.push i j).entries = (g.touch i).entries.map fun e =>
      if e.1 = i then (e.1, e.2 ++ [j]) else (e.1, e.2) := rfl
  rw [← neighbours_touch g i k]
  simp only [neighbours, entries, pushed]
  by_cases same : k = i
  · subst same
    obtain ⟨ns, found⟩ := Option.isSome_iff_exists.mp (lookup_touch g k)
    simp [found]
  · simp [same]

theorem size_ofEdges : (ofEdges n edges).size = n := by
  have touched (g : Links) (i : Int) : (g.touch i).size = g.size := by
    unfold touch
    split <;> rfl
  have pushed (g : Links) (i j : Int) : (g.push i j).size = g.size := touched g i
  suffices fold : ∀ g : Links, (edges.foldl (fun g e => g.addEdge e.1 e.2) g).size = g.size from
    fold (.start n)
  intro g
  induction edges generalizing g with
  | nil => rfl
  | cons e rest ih => rw [List.foldl_cons, ih, addEdge, pushed, pushed]

/-- The neighbours of a vertex are the other ends of its edges. -/
theorem neighbours_ofEdges (v : Nat)
    : (ofEdges n edges).neighbours v = (incident edges v).map fun (w : Nat) => (w : Int) := by
  suffices fold : ∀ g : Links, (edges.foldl (fun g e => g.addEdge e.1 e.2) g).neighbours v
      = g.neighbours v ++ (incident edges v).map fun (w : Nat) => (w : Int) by
    rw [ofEdges, fold]
    rfl
  intro g
  induction edges generalizing g with
  | nil => simp [incident]
  | cons e rest ih =>
    have split : incident (e :: rest) v = otherEnds v e ++ incident rest v := List.flatMap_cons
    rw [List.foldl_cons, ih, addEdge, neighbours_push, neighbours_push, split, List.map_append,
      otherEnds]
    have casts (a : Nat) : ((v : Int) = (a : Int)) = (a = v) := by
      exact propext ⟨by omega, by omega⟩
    by_cases first : e.1 = v <;> by_cases second : e.2 = v <;> simp [first, second, casts]

/-- A step of the search succeeds and ends as it should. -/
def Finds (s : Search) (m : SearchM α) (post : α → Search → Prop) : Prop :=
  ∃ a s', m s = .ok a s' ∧ post a s'

theorem Finds.pure {post : α → Search → Prop} {a : α} (holds : post a s)
    : Finds s (pure a) post :=
  ⟨a, s, rfl, holds⟩

theorem Finds.bind {f : α → SearchM β} {post : β → Search → Prop}
    (first : Finds s m fun a s' => Finds s' (f a) post)
    : Finds s (m >>= f) post := by
  obtain ⟨a, s₁, run, b, s₂, run', holds⟩ := first
  refine ⟨b, s₂, ?_, holds⟩
  simp only [Bind.bind, EStateM.bind, run]
  exact run'

theorem Finds.mono {post weaker : α → Search → Prop} (finds : Finds s m post)
    (implies : ∀ a s', post a s' → weaker a s')
    : Finds s m weaker := by
  obtain ⟨a, s', run, holds⟩ := finds
  exact ⟨a, s', run, implies a s' holds⟩

/-- A search in the graph with some edges. -/
structure Searching (edges : List (Nat × Nat)) (n : Nat) (s : Search) : Prop where
  neighbours : ∀ v : Nat, s.graph.neighbours v = (incident edges v).map fun (w : Nat) => (w : Int)
  size : s.visited.length = n

def Seen (s : Search) (v : Nat) : Prop :=
  s.visited[v]? = some true

def New (s s' : Search) (v : Nat) : Prop :=
  Seen s' v ∧ ¬ Seen s v

def unseen (s : Search) : Nat :=
  s.visited.count false

theorem position?_eq (bound : v < n) : position? n v = some v := by
  simp [position?, bound]

theorem Searching.finds_wasVisited (searching : Searching edges n s) (bound : v < n)
    : Finds s (wasVisited v) fun found s' => s' = s ∧ (found = true ↔ Seen s v) := by
  obtain ⟨seen, read⟩ : ∃ seen, s.visited[v]? = some seen :=
    ⟨_, List.getElem?_eq_getElem (searching.size.symm ▸ bound)⟩
  refine ⟨seen, s, ?_, rfl, by simp [Seen, read]⟩
  simp [wasVisited, position?_eq (searching.size.symm ▸ bound), read, get, getThe, MonadStateOf.get,
    EStateM.get, Bind.bind, EStateM.bind, Pure.pure, EStateM.pure]

/-- A vertex is reached, and nothing else. -/
theorem Searching.finds_visit (searching : Searching edges n s) (bound : v < n)
    (fresh : ¬ Seen s v)
    : Finds s (visit v) fun _ s' =>
        Searching edges n s' ∧ unseen s' < unseen s ∧ ∀ u, Seen s' u ↔ u = v ∨ Seen s u := by
  have inside : v < s.visited.length := searching.size.symm ▸ bound
  have unread : s.visited[v] = false := by
    simpa [Seen, List.getElem?_eq_getElem inside] using fresh
  refine ⟨(), { s with visited := s.visited.set v true }, ?_, ⟨searching.neighbours, ?_⟩, ?_, ?_⟩
  · simp [visit, position?_eq inside, get, getThe, MonadStateOf.get, set, EStateM.get, EStateM.set,
      Bind.bind, EStateM.bind]
  · simpa using searching.size
  · have some_ : 0 < s.visited.count false :=
      List.count_pos_iff.mpr (unread ▸ List.getElem_mem inside)
    rw [unseen, List.count_set inside, unread, if_pos (beq_self_eq_true false),
      if_neg (by decide : ¬ (true == false) = true)]
    exact Nat.sub_one_lt (Nat.ne_of_gt some_)
  · intro u
    simp only [Seen, List.getElem?_set]
    by_cases same : v = u
    · subst same
      simp [inside]
    · simp [same, Ne.symm same]

theorem Searching.finds_look (searching : Searching edges n s)
    : Finds s (look v) fun ns s' => ns = (incident edges v).map (fun (w : Nat) => (w : Int))
        ∧ Searching edges n s' ∧ s'.visited = s.visited := by
  refine ⟨_, { s with graph := s.graph.touch v }, rfl, ?_, ⟨fun u => ?_, searching.size⟩, rfl⟩
  · exact (neighbours_touch ..).trans (searching.neighbours v)
  · exact (neighbours_touch ..).trans (searching.neighbours u)

/-- Before the search from a vertex, nothing was reached that is connected with it by some of the
edges, which are all but one to where the search came from. -/
structure Beyond (edges fewer : List (Nat × Nat)) (v : Nat) (parent : Int) (s : Search) : Prop where
  subset : ∀ e ∈ fewer, e ∈ edges
  others : ∀ e ∈ edges, e ∉ fewer → ∃ w : Nat, Between e v w ∧ (w : Int) = parent
  fresh : ∀ u, Seen s u → ¬ Joined fewer v u

structure Explored (edges : List (Nat × Nat)) (n v : Nat) (parent : Int) (s : Search) (found : Bool)
    (s' : Search)
    : Prop where
  searching : Searching edges n s'
  fewer : unseen s' ≤ unseen s
  grows : ∀ u, Seen s u → Seen s' u
  reached : Seen s' v
  closed : found = false → ∀ u, New s s' u → ∀ x ∈ incident edges u,
    New s s' x ∨ (u = v ∧ (x : Int) = parent)
  bridges : found = false → ∀ e ∈ edges, New s s' e.1 → New s s' e.2 → Bridge edges e
  tree : Acyclic edges → ∀ fewer, Beyond edges fewer v parent s →
    found = false ∧ ∀ u, New s s' u → Joined fewer v u

/-- The search from a vertex has gone through some of its neighbours without finding a cycle. -/
structure Scanned (edges : List (Nat × Nat)) (n v : Nat) (parent : Int) (through : List Nat)
    (s₀ s : Search)
    : Prop where
  searching : Searching edges n s
  grows : ∀ u, Seen s₀ u → Seen s u
  reached : New s₀ s v
  closed : ∀ u, New s₀ s u → u ≠ v → ∀ x ∈ incident edges u, New s₀ s x
  branches : ∀ x ∈ through, (x : Int) ≠ parent →
    New s₀ s x ∧ Branch edges v x ∧ through.count x ≤ 1
  bridges : ∀ e ∈ edges, New s₀ s e.1 → New s₀ s e.2 → e.1 ≠ v → e.2 ≠ v → Bridge edges e
  tree : Acyclic edges → ∀ fewer, Beyond edges fewer v parent s₀ → ∀ u, New s₀ s u → u = v
    ∨ ∃ e ∈ edges, ∃ w ∈ through, (w : Int) ≠ parent ∧ Between e v w ∧ Joined (edges.erase e) w u

/-- In a graph without cycles, what is connected with another neighbour without the edge to it is
connected with the vertex. -/
theorem Beyond.joined (beyond : Beyond edges fewer v parent s) (acyclic : Acyclic edges)
    (member : e ∈ edges) (between : Between e v x) (notParent : (x : Int) ≠ parent)
    (joined : Joined (edges.erase e) x u)
    : Joined fewer v u := by
  have inFewer : e ∈ fewer := by
    by_contra removed
    obtain ⟨w, between', isParent⟩ := beyond.others e member removed
    exact notParent (between.other between' ▸ isParent)
  refine .head ⟨e, inFewer, between⟩ (joined.avoiding ((acyclic e member).not_joined between.symm) ?_)
  intro f other y z between' notFirst notSecond
  by_contra removed
  obtain ⟨w, between'', -⟩ := beyond.others f (List.mem_of_mem_erase other) removed
  rcases between''.ends between' with same | same
  · exact notFirst same
  · exact notSecond same

/-- In a graph without cycles, nothing beyond the next neighbour was reached. -/
theorem Scanned.beyond (scanned : Scanned edges n v parent through s₀ s) (acyclic : Acyclic edges)
    (beyond : Beyond edges fewer v parent s₀) (member : e ∈ edges) (between : Between e v x)
    (notParent : (x : Int) ≠ parent) (next : x ∉ through)
    : Beyond edges (edges.erase e) x v s := by
  have apart : ¬ Joined (edges.erase e) x v := (acyclic e member).not_joined between.symm
  refine ⟨fun f other => List.mem_of_mem_erase other, fun f isEdge removed => ?_, fun u seen joined => ?_⟩
  · have same : f = e := by
      by_contra differs
      exact removed ((List.mem_erase_of_ne differs).mpr isEdge)
    exact ⟨v, same ▸ between.symm, rfl⟩
  by_cases old : Seen s₀ u
  · -- it was reached before the search came to the vertex
    exact beyond.fresh u old (beyond.joined acyclic member between notParent joined)
  · rcases scanned.tree acyclic fewer beyond u ⟨seen, old⟩ with rfl | ⟨f, isEdge, w, inThrough, -,
      between', joined'⟩
    · exact apart joined
    · -- it was reached from another neighbour, so that there is a cycle
      have differs : f ≠ e := by
        rintro rfl
        exact next (between.other between' ▸ inThrough)
      have back : Joined (edges.erase e) w u := by
        refine joined'.avoiding ((acyclic f isEdge).not_joined between'.symm) ?_
        intro g other y z between'' notFirst notSecond
        refine (List.mem_erase_of_ne ?_).mpr (List.mem_of_mem_erase other)
        rintro rfl
        rcases between.ends between'' with same | same
        · exact notFirst same
        · exact notSecond same
      refine apart ((joined.trans back.symm).tail ⟨f, ?_, between'.symm⟩)
      exact (List.mem_erase_of_ne differs).mpr isEdge

theorem New.trans_left (new : New s₀ s u) (grows : ∀ u, Seen s u → Seen s' u) : New s₀ s' u :=
  ⟨grows u new.1, new.2⟩

theorem New.trans_right (new : New s s' u) (grows : ∀ u, Seen s₀ u → Seen s u) : New s₀ s' u :=
  ⟨new.1, fun seen => new.2 (grows u seen)⟩

theorem New.cases (new : New s₀ s' u) : New s₀ s u ∨ New s s' u := by
  by_cases seen : Seen s u
  · exact .inl ⟨seen, new.2⟩
  · exact .inr ⟨new.1, seen⟩

/-- The way back to where the search came from is passed over. -/
theorem Scanned.skip (scanned : Scanned edges n v parent through s₀ s) (isParent : (x : Int) = parent)
    : Scanned edges n v parent (through ++ [x]) s₀ s where
  searching := scanned.searching
  grows := scanned.grows
  reached := scanned.reached
  closed := scanned.closed
  branches y inThrough notParent := by
    have differs : y ≠ x := by
      rintro rfl
      exact notParent isParent
    obtain ⟨new, branch, once⟩ := scanned.branches y (by simpa [differs] using inThrough) notParent
    refine ⟨new, branch, ?_⟩
    rwa [List.count_append, List.count_singleton, if_neg (by simpa using differs.symm), Nat.add_zero]
  bridges := scanned.bridges
  tree acyclic fewer beyond u new := by
    refine (scanned.tree acyclic fewer beyond u new).imp_right ?_
    exact fun ⟨e, member, w, inThrough, rest⟩ => ⟨e, member, w, by simp [inThrough], rest⟩

/-- What was reached from a neighbour is a branch of its own. -/
theorem Scanned.descend (scanned : Scanned edges n v parent through s₀ s)
    (parentSeen : ∀ u : Nat, (u : Int) = parent → Seen s₀ u) (neighbour : x ∈ incident edges v)
    (fresh : ¬ Seen s x) (explored : Explored edges n x v s false s')
    : Scanned edges n v parent (through ++ [x]) s₀ s' := by
  have next : x ∉ through := by
    intro inThrough
    refine fresh ?_
    by_cases isParent : (x : Int) = parent
    · exact scanned.grows x (parentSeen x isParent)
    · exact (scanned.branches x inThrough isParent).1.1
  have notParent : (x : Int) ≠ parent := fun isParent =>
    fresh (scanned.grows x (parentSeen x isParent))
  have newV : ¬ New s s' v := fun new => new.2 scanned.reached.1
  have inside {u y : Nat} (new : New s s' u) (isNeighbour : y ∈ incident edges u)
      : New s s' y ∨ y = v := by
    refine (explored.closed rfl u new y isNeighbour).imp_right fun ⟨_, same⟩ => ?_
    exact Int.ofNat_inj.mp same
  constructor
  case searching => exact explored.searching
  case grows => exact fun u seen => explored.grows u (scanned.grows u seen)
  case reached => exact scanned.reached.trans_left explored.grows
  case closed =>
    intro u new differs y isNeighbour
    rcases new.cases (s := s) with old | new
    · exact (scanned.closed u old differs y isNeighbour).trans_left explored.grows
    · rcases inside new isNeighbour with new' | rfl
      · exact new'.trans_right scanned.grows
      · exact scanned.reached.trans_left explored.grows
  case branches =>
    intro y inThrough notParent'
    by_cases same : y = x
    · subst same
      refine ⟨⟨explored.reached, fun seen => fresh (scanned.grows y seen)⟩, ?_, ?_⟩
      · refine ⟨New s s', ⟨explored.reached, fresh⟩, newV, fun u new z isNeighbour => ?_⟩
        refine (explored.closed rfl u new z isNeighbour).imp_right fun ⟨isStart, same⟩ => ?_
        exact ⟨isStart, Int.ofNat_inj.mp same⟩
      · rw [List.count_append, List.count_eq_zero_of_not_mem next, Nat.zero_add]
        simp
    · obtain ⟨new, branch, once⟩ :=
        scanned.branches y (by simpa [same] using inThrough) notParent'
      refine ⟨new.trans_left explored.grows, branch, ?_⟩
      rwa [List.count_append, List.count_singleton, if_neg (by simpa using Ne.symm same),
        Nat.add_zero]
  case bridges =>
    intro e member first second notFirst notSecond
    have forth : e.2 ∈ incident edges e.1 := mem_incident.mpr ⟨e, member, .inl rfl⟩
    have back : e.1 ∈ incident edges e.2 := mem_incident_comm.mp forth
    rcases first.cases (s := s) with old | new
    · rcases second.cases (s := s) with old' | new'
      · exact scanned.bridges e member old old' notFirst notSecond
      · rcases inside new' back with new | same
        · exact absurd old.1 new.2
        · exact absurd same notFirst
    · rcases inside new forth with new' | same
      · exact explored.bridges rfl e member new new'
      · exact absurd same notSecond
  case tree =>
    intro acyclic fewer beyond u new
    rcases new.cases (s := s) with old | new
    · refine (scanned.tree acyclic fewer beyond u old).imp_right ?_
      exact fun ⟨e, member, w, inThrough, rest⟩ => ⟨e, member, w, by simp [inThrough], rest⟩
    · obtain ⟨e, member, between⟩ := mem_incident.mp neighbour
      have beyond' := scanned.beyond acyclic beyond member between notParent next
      exact .inr ⟨e, member, x, by simp, notParent, between,
        (explored.tree acyclic _ beyond').2 u new⟩

section Exploring

variable (bounds : ∀ e ∈ edges, e.1 < n ∧ e.2 < n) {fuel : Nat}
include bounds

theorem lt_of_mem_incident (neighbour : w ∈ incident edges v) : w < n := by
  obtain ⟨e, member, rfl | rfl⟩ := mem_incident.mp neighbour
  · exact (bounds _ member).2
  · exact (bounds _ member).1

/-- All neighbours of a vertex are gone through, unless a cycle is found before. -/
theorem Scanned.finds_someNeighbour {descend : Int → SearchM Bool} {rest : List Nat}
    (descends : ∀ (x : Nat) s, x < n → Searching edges n s → ¬ Seen s x → Seen s v →
      unseen s < fuel → Finds s (descend x) (Explored edges n x v s))
    (parentSeen : ∀ u : Nat, (u : Int) = parent → Seen s₀ u)
    (scanned : Scanned edges n v parent through s₀ s)
    (listed : incident edges v = through ++ rest) (enough : unseen s < fuel)
    : Finds s (someNeighbour descend parent (rest.map fun (w : Nat) => (w : Int))) fun found s' =>
        (Searching edges n s' ∧ unseen s' ≤ unseen s ∧ ∀ u, Seen s u → Seen s' u)
        ∧ (found = false → Scanned edges n v parent (incident edges v) s₀ s')
        ∧ (Acyclic edges → ∀ fewer, Beyond edges fewer v parent s₀ → found = false) := by
  induction rest generalizing through s with
  | nil =>
    rw [List.append_nil] at listed
    refine .pure ⟨⟨scanned.searching, Nat.le_refl _, fun _ seen => seen⟩, fun _ => ?_,
      fun _ _ _ => rfl⟩
    rw [listed]
    exact scanned
  | cons x rest ih =>
    have neighbour : x ∈ incident edges v := by simp [listed]
    have listed' : incident edges v = through ++ [x] ++ rest := by simp [listed]
    obtain ⟨e, member, between⟩ := mem_incident.mp neighbour
    have beyond (acyclic : Acyclic edges) {fewer : List (Nat × Nat)}
        (beyond : Beyond edges fewer v parent s₀) (notParent : (x : Int) ≠ parent)
        : Beyond edges (edges.erase e) x v s := by
      refine scanned.beyond acyclic beyond member between notParent fun inThrough => ?_
      have unique := acyclic.nodup_incident (v := v)
      rw [listed] at unique
      exact (List.nodup_append.mp unique).2.2 x inThrough x (by simp) rfl
    refine .bind ((scanned.searching.finds_wasVisited (lt_of_mem_incident bounds neighbour)).mono ?_)
    rintro visited s₁ ⟨rfl, isSeen⟩
    cases visited with
    | true =>
      by_cases isParent : parent = x
      · simp only [if_true, ne_eq, isParent, not_true_eq_false, if_false]
        rw [← isParent]
        exact ih (scanned.skip isParent.symm) listed' enough
      · simp only [if_true, ne_eq, isParent, not_false_eq_true]
        refine .pure ⟨⟨scanned.searching, Nat.le_refl _, fun _ seen => seen⟩, nofun, ?_⟩
        intro acyclic fewer isBeyond
        exact absurd .refl
          ((beyond acyclic isBeyond (Ne.symm isParent)).fresh x (isSeen.mp rfl))
    | false =>
      have fresh : ¬ Seen s₁ x := fun seen => by simpa using isSeen.mpr seen
      have notParent : (x : Int) ≠ parent := fun isParent =>
        fresh (scanned.grows x (parentSeen x isParent))
      refine .bind ((descends x s₁ (lt_of_mem_incident bounds neighbour) scanned.searching fresh
        scanned.reached.1 enough).mono ?_)
      intro found s₂ explored
      cases found with
      | true =>
        refine .pure ⟨⟨explored.searching, explored.fewer, explored.grows⟩, nofun, ?_⟩
        intro acyclic fewer isBeyond
        exact (explored.tree acyclic _ (beyond acyclic isBeyond notParent)).1
      | false =>
        refine (ih (scanned.descend parentSeen neighbour fresh explored) listed'
          (Nat.lt_of_le_of_lt explored.fewer enough)).mono ?_
        rintro found s₃ ⟨⟨searching, fewer, grows⟩, rest⟩
        exact ⟨⟨searching, Nat.le_trans fewer explored.fewer,
          fun u seen => grows u (explored.grows u seen)⟩, rest⟩

/-- The search from a vertex that was not reached before. -/
theorem Searching.finds_cycleFrom (searching : Searching edges n s) (bound : v < n)
    (fresh : ¬ Seen s v) (parentSeen : ∀ u : Nat, (u : Int) = parent → Seen s u)
    (enough : unseen s < fuel)
    : Finds s (cycleFrom fuel v parent) (Explored edges n v parent s) := by
  induction fuel generalizing v parent s with
  | zero => omega
  | succ fuel ih =>
    unfold cycleFrom
    refine .bind ((searching.finds_visit bound fresh).mono ?_)
    rintro _ s₁ ⟨searching₁, fewer₁, seen₁⟩
    refine .bind ((searching₁.finds_look (v := v)).mono ?_)
    rintro neighbours s₂ ⟨rfl, searching₂, same⟩
    have seen₂ (u : Nat) : Seen s₂ u ↔ u = v ∨ Seen s u := by
      rw [← seen₁, Seen, same, Seen]
    have new₂ (u : Nat) : New s s₂ u ↔ u = v := by
      rw [New, seen₂]
      constructor
      · exact fun ⟨seen, new⟩ => seen.resolve_right new
      · rintro rfl
        exact ⟨.inl rfl, fresh⟩
    have scanned : Scanned edges n v parent [] s s₂ := by
      refine ⟨searching₂, fun u seen => (seen₂ u).mpr (.inr seen), (new₂ v).mpr rfl, ?_, by simp, ?_,
        fun _ _ _ u new => .inl ((new₂ u).mp new)⟩
      · exact fun u new differs => absurd ((new₂ u).mp new) differs
      · exact fun e _ first _ differs => absurd ((new₂ _).mp first) differs
    have unseen₂ : unseen s₂ = unseen s₁ := by rw [unseen, same, unseen]
    refine (scanned.finds_someNeighbour bounds (fun x s' bound searching fresh seen enough =>
      ih searching bound fresh (fun u same => Int.ofNat_inj.mp same ▸ seen) enough) parentSeen rfl
      (by omega)).mono ?_
    rintro found s₃ ⟨⟨searching₃, fewer₃, grows₃⟩, finished, tree⟩
    have grows (u : Nat) (seen : Seen s u) : Seen s₃ u := grows₃ u ((seen₂ u).mpr (.inr seen))
    have notParent {u : Nat} (new : New s s₃ u) : (u : Int) ≠ parent :=
      fun isParent => new.2 (parentSeen u isParent)
    constructor
    case searching => exact searching₃
    case fewer => omega
    case grows => exact grows
    case reached => exact grows₃ v ((seen₂ v).mpr (.inl rfl))
    case closed =>
      intro none u new x neighbour
      have scanned₃ := finished none
      by_cases same : u = v
      · subst same
        by_cases isParent : (x : Int) = parent
        · exact .inr ⟨rfl, isParent⟩
        · exact .inl (scanned₃.branches x neighbour isParent).1
      · exact .inl (scanned₃.closed u new same x neighbour)
    case bridges =>
      intro none e member first second
      have scanned₃ := finished none
      have atVertex {w : Nat} (between : Between e v w) (new : New s s₃ w) : Bridge edges e := by
        obtain ⟨-, branch, once⟩ := scanned₃.branches w
          (mem_incident.mpr ⟨e, member, between⟩) (notParent new)
        exact branch.bridge once member between
      by_cases isFirst : e.1 = v
      · exact atVertex (.inl (by rw [← isFirst])) second
      by_cases isSecond : e.2 = v
      · exact atVertex (.inr (by rw [← isSecond])) first
      exact scanned₃.bridges e member first second isFirst isSecond
    case tree =>
      intro acyclic fewer beyond
      have none := tree acyclic fewer beyond
      refine ⟨none, fun u new => ?_⟩
      rcases (finished none).tree acyclic fewer beyond u new with rfl | ⟨e, member, w, -,
        notParent, between, joined⟩
      · exact .refl
      · exact beyond.joined acyclic member between notParent joined

/-- What was reached is cut off from the rest, and all its edges are bridges. -/
structure Complete (edges : List (Nat × Nat)) (n : Nat) (s : Search) : Prop where
  searching : Searching edges n s
  closed : ∀ u, Seen s u → ∀ x ∈ incident edges u, Seen s x
  bridges : ∀ e ∈ edges, Seen s e.1 → Bridge edges e

omit bounds in
theorem Complete.joined (complete : Complete edges n s) (joined : Joined edges u w)
    (seen : Seen s u)
    : Seen s w := by
  induction joined with
  | refl => exact seen
  | @tail y z _ step ih => exact complete.closed y ih z (mem_incident.mpr step)

omit bounds in
/-- The search from a further vertex reaches all that is connected with it. -/
theorem Complete.explored (complete : Complete edges n s)
    (explored : Explored edges n v (-1) s false s')
    : Complete edges n s' := by
  have inside {u x : Nat} (new : New s s' u) (neighbour : x ∈ incident edges u) : New s s' x := by
    refine (explored.closed rfl u new x neighbour).resolve_right fun ⟨_, same⟩ => ?_
    omega
  refine ⟨explored.searching, fun u seen x neighbour => ?_, fun e member seen => ?_⟩
  · by_cases old : Seen s u
    · exact explored.grows x (complete.closed u old x neighbour)
    · exact (inside ⟨seen, old⟩ neighbour).1
  · by_cases old : Seen s e.1
    · exact complete.bridges e member old
    · exact explored.bridges rfl e member ⟨seen, old⟩
        (inside ⟨seen, old⟩ (mem_incident.mpr ⟨e, member, .inl rfl⟩))

theorem Complete.finds_cycleFromAny {vertices : List Nat}
    (complete : Complete edges n s) (inside : ∀ v ∈ vertices, v < n) (enough : unseen s < fuel)
    : Finds s (cycleFromAny fuel (vertices.map fun (v : Nat) => (v : Int))) fun found s' =>
        (found = false → Complete edges n s' ∧ (∀ u, Seen s u → Seen s' u)
          ∧ ∀ v ∈ vertices, Seen s' v)
        ∧ (Acyclic edges → found = false) := by
  induction vertices generalizing s with
  | nil => exact .pure ⟨fun _ => ⟨complete, fun _ seen => seen, by simp⟩, fun _ => rfl⟩
  | cons v rest ih =>
    have bound := inside v (by simp)
    have inside (w : Nat) (member : w ∈ rest) : w < n := inside w (by simp [member])
    refine .bind ((complete.searching.finds_wasVisited bound).mono ?_)
    rintro visited s₁ ⟨rfl, isSeen⟩
    cases visited with
    | true =>
      refine (ih complete inside enough).mono ?_
      rintro found s₂ ⟨finished, acyclic⟩
      refine ⟨fun none => ?_, acyclic⟩
      obtain ⟨complete₂, grows₂, reached⟩ := finished none
      exact ⟨complete₂, grows₂, by simpa using ⟨grows₂ v (isSeen.mp rfl), reached⟩⟩
    | false =>
      have fresh : ¬ Seen s₁ v := fun seen => by simpa using isSeen.mpr seen
      have beyond : Beyond edges edges v (-1) s₁ := by
        refine ⟨fun _ member => member, fun _ member absent => absurd member absent, ?_⟩
        exact fun u seen joined => fresh (complete.joined joined.symm seen)
      refine .bind ((complete.searching.finds_cycleFrom bounds bound fresh
        (fun u same => by omega) enough).mono ?_)
      intro found s₂ explored
      cases found with
      | true => exact .pure ⟨nofun, fun acyclic => (explored.tree acyclic _ beyond).1⟩
      | false =>
        refine (ih (complete.explored explored) inside
          (Nat.lt_of_le_of_lt explored.fewer enough)).mono ?_
        rintro found s₃ ⟨finished, acyclic⟩
        refine ⟨fun none => ?_, acyclic⟩
        obtain ⟨complete₃, grows₃, reached⟩ := finished none
        refine ⟨complete₃, fun u seen => grows₃ u (explored.grows u seen), ?_⟩
        simpa using ⟨grows₃ v explored.reached, reached⟩

/-- The search always ends, and it finds a cycle exactly if there is one. -/
theorem exists_hasCycle
    : ∃ found, (ofEdges n edges).hasCycle = .ok found ∧ (found = false ↔ Acyclic edges) := by
  have unread (v : Nat) : ¬ Seen ⟨ofEdges n edges, List.replicate n false⟩ v := by
    simp [Seen, List.getElem?_replicate]
  have complete : Complete edges n ⟨ofEdges n edges, List.replicate n false⟩ :=
    ⟨⟨neighbours_ofEdges, List.length_replicate⟩, fun u seen => absurd seen (unread u),
      fun e _ seen => absurd seen (unread _)⟩
  have enough : unseen ⟨ofEdges n edges, List.replicate n false⟩ < n + 1 := by simp [unseen]
  obtain ⟨found, s', run, finished, acyclic⟩ := complete.finds_cycleFromAny bounds
    (fun v (inRange : v ∈ List.range n) => List.mem_range.mp inRange) enough
  refine ⟨found, ?_, fun none e member => ?_, acyclic⟩
  · rw [hasCycle, searchAll, size_ofEdges, run]
  · obtain ⟨complete, -, reached⟩ := finished none
    exact complete.bridges e member (reached e.1 (by simpa using (bounds e member).1))

end Exploring

end ProgramQuery.Links
