import Mathlib.Data.List.Basic
import Mathlib.Order.Basic
import Mathlib.Order.Nat

/-! Depth-first search in a graph with a list of the visited nodes: where a node has a result the search stops there, and
otherwise it goes on to the successors that were not visited. -/
namespace Systems

/-- The nodes visited and the results found. -/
abbrev Search (ι β : Type) := List ι × List β

section
variable {ι β : Type} (stops : ι → Option β) (next : ι → List ι)

/-- The search from a place with a result or with successors, at most `n` places deep. -/
def explore [DecidableEq ι] : Nat → Option β → List ι → Search ι β → Option (Search ι β)
  | 0, _, _, _ => none
  | _ + 1, some result, _, state => some (state.1, state.2 ++ [result])
  | n + 1, none, successors, state =>
    successors.foldlM (fun state node =>
      if node ∈ state.1 then some state else explore n (stops node) (next node) (node :: state.1, state.2)) state

/-- The results at the first stops on the paths from a place. -/
inductive Reaches : Option β → List ι → β → Prop
  | here (result : β) (successors : List ι) : Reaches (some result) successors result
  | next {successors : List ι} {node : ι} {result : β} (mem : node ∈ successors)
    (rest : Reaches (stops node) (next node) result) : Reaches none successors result

def Covers (state : Search ι β) (result : Option β) (successors : List ι) : Prop :=
  (∀ found ∈ result, found ∈ state.2) ∧ (result = none → ∀ node ∈ successors, node ∈ state.1)

variable {stops next}

theorem Covers.mono {state state' : Search ι β} {result : Option β} {successors : List ι}
    (covers : Covers state result successors) (nodes : state.1 ⊆ state'.1) (results : state.2 ⊆ state'.2) :
    Covers state' result successors :=
  ⟨fun found mem => results (covers.1 found mem), fun same node mem => nodes (covers.2 same node mem)⟩

/-- What a search adds to what was visited and found before. -/
structure Explores (stops : ι → Option β) (next : ι → List ι) (found : β → Prop) (state state' : Search ι β) : Prop where
  nodes : state.1 ⊆ state'.1
  results : state.2 ⊆ state'.2
  sound : ∀ result ∈ state'.2, result ∈ state.2 ∨ found result
  covered : ∀ node ∈ state'.1, node ∉ state.1 → Covers state' (stops node) (next node)

variable [DecidableEq ι] {nodes : List ι}

def fresh (nodes visited : List ι) : Nat := (nodes.filter (· ∉ visited)).length

private theorem fresh_mono {visited visited' : List ι} (grown : visited ⊆ visited') :
    fresh nodes visited' ≤ fresh nodes visited := by
  apply List.Sublist.length_le
  apply List.monotone_filter_right
  intro node unvisited
  simp only [decide_eq_true_eq] at unvisited ⊢
  exact fun mem => unvisited (grown mem)

/-- A visit leaves fewer nodes to visit. -/
private theorem fresh_cons_lt {visited : List ι} {node : ι} (mem : node ∈ nodes) (unvisited : node ∉ visited) :
    fresh nodes (node :: visited) < fresh nodes visited := by
  have smaller : fresh nodes (node :: visited) ≤ fresh nodes visited := fresh_mono (List.subset_cons_self _ _)
  refine lt_of_le_of_ne smaller fun same => ?_
  have sublist : (nodes.filter (· ∉ node :: visited)).Sublist (nodes.filter (· ∉ visited)) := by
    apply List.monotone_filter_right
    intro other absent
    simp only [decide_eq_true_eq, List.mem_cons, not_or] at absent ⊢
    exact absent.2
  have equal := sublist.eq_of_length same
  have kept : node ∈ nodes.filter (· ∉ visited) := List.mem_filter.mpr ⟨mem, by simpa using unvisited⟩
  rw [← equal] at kept
  simp at kept

/-- The successors of a place, one after the other. -/
private theorem explore_successors {n : Nat}
    (step : ∀ node ∈ nodes, ∀ state : Search ι β, node ∉ state.1 → fresh nodes state.1 ≤ n → ∃ state',
      explore stops next n (stops node) (next node) (node :: state.1, state.2) = some state' ∧
      Explores stops next (Reaches stops next (stops node) (next node)) (node :: state.1, state.2) state' ∧
      Covers state' (stops node) (next node))
    {successors : List ι} (listed : successors ⊆ nodes) (state : Search ι β) (enough : fresh nodes state.1 ≤ n) : ∃ state',
      explore stops next (n + 1) none successors state = some state' ∧
      Explores stops next (Reaches stops next none successors) state state' ∧ ∀ node ∈ successors, node ∈ state'.1 := by
  rw [explore]
  induction successors generalizing state with
  | nil =>
    refine ⟨state, rfl, ⟨List.Subset.refl _, List.Subset.refl _, fun _ mem => .inl mem, fun _ mem fresh => absurd mem fresh⟩, ?_⟩
    intro node mem
    cases mem
  | cons node rest ih =>
    have listed' : rest ⊆ nodes := fun other mem => listed (List.mem_cons_of_mem _ mem)
    rw [List.foldlM_cons]
    by_cases known : node ∈ state.1
    · obtain ⟨state', run, explores, visited⟩ := ih listed' state enough
      rw [if_pos known]
      refine ⟨state', run, ⟨explores.nodes, explores.results, fun result mem => ?_, explores.covered⟩, ?_⟩
      · refine (explores.sound result mem).imp id fun reached => ?_
        cases reached with
        | next mem reached => exact .next (List.mem_cons_of_mem _ mem) reached
      · intro other mem
        rcases List.mem_cons.mp mem with rfl | mem
        · exact explores.nodes known
        · exact visited other mem
    · obtain ⟨state1, first, explores1, covers1⟩ := step node (listed List.mem_cons_self) state known enough
      have grown : state.1 ⊆ state1.1 := fun other mem => explores1.nodes (List.mem_cons_of_mem _ mem)
      obtain ⟨state', run, explores, visited⟩ := ih listed' state1 ((fresh_mono grown).trans enough)
      rw [if_neg known, first]
      refine ⟨state', run, ⟨List.Subset.trans grown explores.nodes, List.Subset.trans explores1.results explores.results, ?_, ?_⟩, ?_⟩
      · intro result mem
        rcases explores.sound result mem with old | reached
        · rcases explores1.sound result old with old | reached
          · exact .inl old
          · exact .inr (.next List.mem_cons_self reached)
        · cases reached with
          | next mem reached => exact .inr (.next (List.mem_cons_of_mem _ mem) reached)
      · intro other mem unvisited
        by_cases first_time : other ∈ state1.1
        · by_cases same : other = node
          · exact same ▸ covers1.mono explores.nodes explores.results
          · have unvisited1 : other ∉ node :: state.1 := by
              rw [List.mem_cons, not_or]
              exact ⟨same, unvisited⟩
            exact (explores1.covered other first_time unvisited1).mono explores.nodes explores.results
        · exact explores.covered other mem first_time
      · intro other mem
        rcases List.mem_cons.mp mem with rfl | mem
        · exact explores.nodes (explores1.nodes List.mem_cons_self)
        · exact visited other mem

/-- With more depth than nodes that are not visited, the search ends and covers what it has visited. -/
private theorem explore_spec (inside : ∀ node, stops node = none → next node ⊆ nodes)
    (n : Nat) {result : Option β} {successors : List ι} (listed : result = none → successors ⊆ nodes)
    (state : Search ι β) (enough : fresh nodes state.1 < n) : ∃ state',
      explore stops next n result successors state = some state' ∧
      Explores stops next (Reaches stops next result successors) state state' ∧ Covers state' result successors := by
  induction n generalizing result successors state with
  | zero => omega
  | succ n ih =>
    cases result with
    | some found =>
      refine ⟨(state.1, state.2 ++ [found]), rfl, ⟨List.Subset.refl _, List.subset_append_left _ _, ?_, ?_⟩, ?_, ?_⟩
      · intro other mem
        refine (List.mem_append.mp mem).imp id fun last => ?_
        obtain rfl := List.mem_singleton.mp last
        exact .here other successors
      · exact fun node mem unvisited => absurd mem unvisited
      · intro other mem
        obtain rfl := Option.some.inj mem
        exact List.mem_append_right _ List.mem_cons_self
      · intro impossible
        cases impossible
    | none =>
      obtain ⟨state', run, explores, visited⟩ := explore_successors (n := n) (fun node mem state unvisited fits =>
        ih (inside node) (node :: state.1, state.2) ((fresh_cons_lt mem unvisited).trans_le fits)) (listed rfl) state
        (Nat.lt_succ_iff.mp enough)
      exact ⟨state', run, explores, (fun found mem => by cases mem), fun _ => visited⟩

/-- From the start the search finds exactly the first stops on the paths. -/
theorem explore_start (inside : ∀ node, stops node = none → next node ⊆ nodes)
    {n : Nat} {result : Option β} {successors : List ι} (listed : result = none → successors ⊆ nodes)
    (enough : nodes.length < n) : ∃ state,
      explore stops next n result successors ([], []) = some state ∧
      ∀ found, found ∈ state.2 ↔ Reaches stops next result successors found := by
  obtain ⟨state, run, explores, covers⟩ := explore_spec inside n listed ([], [])
    ((List.length_filter_le _ _).trans_lt enough)
  refine ⟨state, run, fun found => ⟨fun mem => (explores.sound found mem).resolve_left List.not_mem_nil, fun reached => ?_⟩⟩
  have complete {result : Option β} {successors : List ι} {found : β} (reached : Reaches stops next result successors found)
      (covers : Covers state result successors) : found ∈ state.2 := by
    induction reached with
    | here result successors => exact covers.1 result rfl
    | next mem rest ih => exact ih (explores.covered _ (covers.2 rfl _ mem) List.not_mem_nil)
  exact complete reached covers

omit [DecidableEq ι] in
/-- The images of the results are the first stops of a graph with the images. -/
theorem Reaches.map {α : Type} (f : β → α) {result : Option β} {successors : List ι} {found : β}
    (reaches : Reaches stops next result successors found) :
    Reaches (fun node => (stops node).map f) next (result.map f) successors (f found) := by
  induction reaches with
  | here result successors => exact .here (f result) successors
  | next mem _ ih => exact .next mem ih

/-- A search for images of results finds the images. -/
theorem explore_map {α : Type} (f : β → α) (n : Nat) (result : Option β) (successors : List ι) (state : Search ι β) :
    explore (fun node => (stops node).map f) next n (result.map f) successors (state.1, state.2.map f) =
      (explore stops next n result successors state).map fun state => (state.1, state.2.map f) := by
  induction n generalizing result successors state with
  | zero => rfl
  | succ n ih =>
    cases result with
    | some result => simp [explore]
    | none =>
      rw [Option.map_none, explore, explore]
      induction successors generalizing state with
      | nil => rfl
      | cons node rest ih' =>
        rw [List.foldlM_cons, List.foldlM_cons]
        by_cases known : node ∈ state.1
        · rw [if_pos known, if_pos known]
          exact ih' state
        · rw [if_neg known, if_neg known]
          have first := ih (stops node) (next node) (node :: state.1, state.2)
          rw [first]
          cases explore stops next n (stops node) (next node) (node :: state.1, state.2) with
          | none => rfl
          | some state' => exact ih' state'

end

section
variable {ι β γ : Type} (stops : ι → Option β) (next : ι → List ι) (passes : ι → List γ)

/-- The places behind a place on paths without a stop. -/
inductive Leads : Option β → List ι → ι → Prop
  | here {successors : List ι} {node : ι} (mem : node ∈ successors) : Leads none successors node
  | next {successors : List ι} {node target : ι} (mem : node ∈ successors)
    (rest : Leads (stops node) (next node) target) : Leads none successors target

def exploreLogging [DecidableEq ι] :
    Nat → Option β → List ι → List γ → Search ι β × List γ → Option (Search ι β × List γ)
  | 0, _, _, _, _ => none
  | _ + 1, some result, _, passed, state => some ((state.1.1, state.1.2 ++ [result]), state.2 ++ passed)
  | n + 1, none, successors, passed, state =>
    successors.foldlM (fun state node =>
      if node ∈ state.1.1 then some state
      else exploreLogging n (stops node) (next node) (passes node) ((node :: state.1.1, state.1.2), state.2))
      (state.1, state.2 ++ passed)

variable {stops next passes} [DecidableEq ι]

/-- The log makes no difference to the search. -/
theorem exploreLogging_fst (n : Nat) (result : Option β) (successors : List ι) (passed : List γ)
    (state : Search ι β × List γ) : (exploreLogging stops next passes n result successors passed state).map Prod.fst =
      explore stops next n result successors state.1 := by
  induction n generalizing result successors passed state with
  | zero => rfl
  | succ n ih =>
    cases result with
    | some result => rfl
    | none =>
      rw [exploreLogging, explore]
      generalize state.2 ++ passed = log
      obtain ⟨search, -⟩ := state
      induction successors generalizing search log with
      | nil => rfl
      | cons node rest ih' =>
        rw [List.foldlM_cons, List.foldlM_cons]
        by_cases known : node ∈ search.1
        · rw [if_pos known, if_pos known]
          exact ih' log search
        · rw [if_neg known, if_neg known, ← ih _ _ (passes node) ((node :: search.1, search.2), log)]
          cases exploreLogging stops next passes n (stops node) (next node) (passes node) ((node :: search.1, search.2), log) with
          | none => rfl
          | some state' => exact ih' state'.2 state'.1

/-- The places that a search visits, in order: each once, with its result and what is passed there. -/
structure Traces (stops : ι → Option β) (passes : ι → List γ) (results : List β) (passed : List γ)
    (state state' : Search ι β × List γ) (visited : List ι) : Prop where
  nodes : state'.1.1 = visited.reverse ++ state.1.1
  distinct : visited.Nodup
  fresh : ∀ node ∈ visited, node ∉ state.1.1
  results : state'.1.2 = state.1.2 ++ (results ++ visited.filterMap stops)
  log : state'.2 = state.2 ++ (passed ++ visited.flatMap passes)

/-- The search passes what its trace says. -/
theorem exploreLogging_traces (n : Nat) {result : Option β} {successors : List ι} {passed : List γ}
    {state state' : Search ι β × List γ}
    (run : exploreLogging stops next passes n result successors passed state = some state') :
    ∃ visited, Traces stops passes result.toList passed state state' visited ∧ (result ≠ none → visited = []) := by
  induction n generalizing result successors passed state state' with
  | zero => cases run
  | succ n ih =>
    cases result with
    | some result =>
      rw [exploreLogging] at run
      cases run
      exact ⟨[], ⟨rfl, List.nodup_nil, fun _ mem => absurd mem List.not_mem_nil, by simp, by simp⟩, fun _ => rfl⟩
    | none =>
      rw [exploreLogging] at run
      have loop : ∃ visited, Traces stops passes [] [] (state.1, state.2 ++ passed) state' visited := by
        generalize (state.1, state.2 ++ passed) = start at run
        induction successors generalizing start with
        | nil =>
          cases run
          exact ⟨[], rfl, List.nodup_nil, fun _ mem => absurd mem List.not_mem_nil, by simp, by simp⟩
        | cons node rest ih' =>
          rw [List.foldlM_cons] at run
          by_cases known : node ∈ start.1.1
          · rw [if_pos known] at run
            exact ih' start run
          · rw [if_neg known] at run
            obtain ⟨middle, first, rest⟩ := Option.bind_eq_some_iff.mp run
            obtain ⟨behind, traces, -⟩ := ih first
            obtain ⟨later, traces'⟩ := ih' middle rest
            have here : middle.1.1 = (node :: behind).reverse ++ start.1.1 := by
              rw [traces.nodes]
              simp
            have apart : ∀ other ∈ later, other ∉ node :: behind ∧ other ∉ start.1.1 := by
              intro other mem
              have unknown := traces'.fresh other mem
              rw [here, List.mem_append, List.mem_reverse, not_or] at unknown
              exact unknown
            have distinct : (node :: behind).Nodup := by
              rw [List.nodup_cons]
              exact ⟨fun mem => traces.fresh node mem List.mem_cons_self, traces.distinct⟩
            refine ⟨node :: behind ++ later, ?_, ?_, ?_, ?_, ?_⟩
            · rw [traces'.nodes, here]
              simp
            · exact List.nodup_append.mpr ⟨distinct, traces'.distinct, fun other mem other' mem' same =>
                (apart other' mem').1 (same ▸ mem)⟩
            · intro other mem
              rcases List.mem_append.mp mem with mem | mem
              · rcases List.mem_cons.mp mem with rfl | mem
                · exact known
                · exact fun old => traces.fresh other mem (List.mem_cons_of_mem _ old)
              · exact (apart other mem).2
            · rw [traces'.results, traces.results]
              cases same : stops node <;> simp [same]
            · rw [traces'.log, traces.log]
              simp
      obtain ⟨visited, traces⟩ := loop
      refine ⟨visited, ⟨traces.nodes, traces.distinct, traces.fresh, traces.results, ?_⟩, fun some => absurd rfl some⟩
      rw [traces.log]
      simp

/-- The search visits only places that it is led to. -/
private theorem leads_of_explore (n : Nat) {result : Option β} {successors : List ι} {state state' : Search ι β}
    (run : explore stops next n result successors state = some state') (node : ι) (mem : node ∈ state'.1) :
    node ∈ state.1 ∨ Leads stops next result successors node := by
  induction n generalizing result successors state state' with
  | zero => cases run
  | succ n ih =>
    cases result with
    | some result =>
      cases run
      exact .inl mem
    | none =>
      rw [explore] at run
      have loop (rest : List ι) (listed : rest ⊆ successors) (state : Search ι β)
          (run : rest.foldlM (fun state node => if node ∈ state.1 then some state
            else explore stops next n (stops node) (next node) (node :: state.1, state.2)) state = some state') :
          node ∈ state.1 ∨ Leads stops next none successors node := by
        induction rest generalizing state with
        | nil =>
          cases run
          exact .inl mem
        | cons first rest ih' =>
          obtain ⟨here, listed⟩ := List.cons_subset.mp listed
          rw [List.foldlM_cons] at run
          by_cases known : first ∈ state.1
          · rw [if_pos known] at run
            exact ih' listed state run
          · rw [if_neg known] at run
            obtain ⟨middle, explored, later⟩ := Option.bind_eq_some_iff.mp run
            obtain mem | leads := ih' listed middle later
            · obtain before | leads := ih explored mem
              · obtain rfl | before := List.mem_cons.mp before
                · exact .inr (.here here)
                · exact .inl before
              · exact .inr (.next here leads)
            · exact .inr leads
      exact loop successors (List.Subset.refl successors) state run

/-- From the start the search visits the places that it is led to. -/
theorem explore_leads {nodes : List ι} (inside : ∀ node, stops node = none → next node ⊆ nodes)
    {n : Nat} {result : Option β} {successors : List ι} (listed : result = none → successors ⊆ nodes)
    (enough : nodes.length < n) : ∃ state,
      explore stops next n result successors ([], []) = some state ∧
      ∀ node, node ∈ state.1 ↔ Leads stops next result successors node := by
  obtain ⟨state, run, explores, covers⟩ := explore_spec inside n listed ([], [])
    ((List.length_filter_le _ _).trans_lt enough)
  refine ⟨state, run, fun node => ⟨fun mem => (leads_of_explore n run node mem).resolve_left List.not_mem_nil, fun leads => ?_⟩⟩
  have complete {result : Option β} {successors : List ι} {node : ι} (leads : Leads stops next result successors node)
      (covers : Covers state result successors) : node ∈ state.1 := by
    induction leads with
    | here mem => exact covers.2 rfl _ mem
    | next mem rest ih => exact ih (explores.covered _ (covers.2 rfl _ mem) List.not_mem_nil)
  exact complete leads covers

end

end Systems
