import Roast.Assembly.Layout
import Roast.Optimizations.ConstantFolding
import Roast.Systems.Loops

/-! The search for the definitions that reach a point, `find_definitions` of `cf.c` and of `cp.c`, against the paths of the
graph. An assignment is known by its address, so that equal assignments at two places are two definitions. -/
namespace Roast
open Systems

/-- An assignment with its address: the block that holds it and its index there. -/
structure LlirDefinition where
  block : Nat
  index : Nat
  assignment : LlirAssignment
  deriving DecidableEq, Repr

/-- The loop of `find_definition_in_block` over the first `count` assignments. -/
def lastLocated (block : LlirBlock) (identifier : String) : Nat → Option LlirDefinition
  | 0 => none
  | i + 1 =>
    match block.assignments[i]? with
    | none => lastLocated block identifier i
    | some assignment =>
      if assignment.destination.identifier == identifier then some ⟨block.id, i, assignment⟩
      else lastLocated block identifier i

/-- What the loop of `cp.c` inserts in the mutated set. -/
def passedDestinations (block : LlirBlock) (identifier : String) : Nat → List String
  | 0 => []
  | i + 1 =>
    match block.assignments[i]? with
    | none => passedDestinations block identifier i
    | some assignment =>
      if assignment.destination.identifier == identifier then []
      else assignment.destination.identifier :: passedDestinations block identifier i

section
variable (blocks : List LlirBlock) (identifier : String)

def finalLocated (id : Nat) : Option LlirDefinition :=
  (blockOf blocks id).bind fun block => lastLocated block identifier (turnsFrom block.assignments.length)

def finalPassed (id : Nat) : List String :=
  (blockOf blocks id).elim [] fun block => passedDestinations block identifier (turnsFrom block.assignments.length)

def findLocatedDefinitions (n : Nat) (block : LlirBlock) (index : Nat) : Option (List LlirDefinition) :=
  (explore (finalLocated blocks identifier) (predecessorsOf blocks) n (lastLocated block identifier (turnsFrom index))
    block.predecessors ([], [])).map Prod.snd

def CopyPropagation.findDefinitions (n : Nat) (block : LlirBlock) (index : Nat) :
    Option (List LlirDefinition × List String) :=
  (exploreLogging (finalLocated blocks identifier) (predecessorsOf blocks) (finalPassed blocks identifier) n
    (lastLocated block identifier (turnsFrom index)) block.predecessors
    (passedDestinations block identifier (turnsFrom index)) (([], []), [])).map fun state => (state.1.2, state.2)

end

/-- The ids are different, and the predecessors of a block are the blocks whose terminal leads to it. -/
structure WellFormedCfg (blocks : List LlirBlock) : Prop where
  distinct : (blocks.map LlirBlock.id).Nodup
  predecessors : ∀ block ∈ blocks, ∀ id, id ∈ block.predecessors ↔
    ∃ source ∈ blocks, source.id = id ∧ block.id ∈ source.terminal.successors

/-- No index of a block is negative as an `int32_t`. -/
def ShortBlocks (blocks : List LlirBlock) : Prop := ∀ block ∈ blocks, block.assignments.length ≤ 2 ^ 31

/-- A path between points of the graph on which nothing is assigned to the name. A point is a block and the number of
assignments before it. -/
inductive FreePath (blocks : List LlirBlock) (identifier : String) (source : Nat × Nat) : Nat × Nat → Prop where
  | start : FreePath blocks identifier source source
  | step {block : LlirBlock} {index : Nat} {assignment : LlirAssignment}
    (path : FreePath blocks identifier source (block.id, index)) (mem : block ∈ blocks)
    (here : block.assignments[index]? = some assignment) (other : assignment.destination.identifier ≠ identifier) :
    FreePath blocks identifier source (block.id, index + 1)
  | edge {block : LlirBlock} {successor : Nat}
    (path : FreePath blocks identifier source (block.id, block.assignments.length)) (mem : block ∈ blocks)
    (leads : successor ∈ block.terminal.successors) : FreePath blocks identifier source (successor, 0)

/-- The definition assigns to the name, and a path leads from it to the point with no assignment to the name. -/
structure LlirDefinition.ReachesPoint (blocks : List LlirBlock) (identifier : String) (definition : LlirDefinition)
    (point : Nat × Nat) : Prop where
  located : ∃ block ∈ blocks, block.id = definition.block ∧
    block.assignments[definition.index]? = some definition.assignment
  assigns : definition.assignment.destination.identifier = identifier
  path : FreePath blocks identifier (definition.block, definition.index + 1) point

/-- A path with no assignment to the one name comes to the point from an assignment to the other. -/
def Mutated (blocks : List LlirBlock) (identifier name : String) (point : Nat × Nat) : Prop :=
  name ≠ identifier ∧ ∃ source ∈ blocks, ∃ i assignment, source.assignments[i]? = some assignment ∧
    assignment.destination.identifier = name ∧ FreePath blocks identifier (source.id, i + 1) point

section
variable {blocks : List LlirBlock} {identifier : String} {block : LlirBlock}

private theorem turnsFrom_eq {count : Nat} (short : count ≤ 2 ^ 31) : turnsFrom count = count := by
  have one : (1 : BitVec 32).toNat = 1 := rfl
  rw [turnsFrom, BitVec.toInt_eq_toNat_cond, BitVec.toNat_sub, BitVec.toNat_ofNat, one]
  split <;> omega

/-- The two scans of a block find the same definition. -/
private theorem lastLocated_assignment (block : LlirBlock) (identifier : String) (count : Nat) :
    (lastLocated block identifier count).map LlirDefinition.assignment =
      lastDefinition block.assignments count identifier := by
  induction count with
  | zero => rfl
  | succ i ih =>
    rw [lastLocated, lastDefinition, List.take_add_one]
    cases block.assignments[i]? with
    | none =>
      rw [Option.toList_none, List.append_nil]
      exact ih
    | some assignment =>
      rw [Option.toList_some, List.reverse_append, List.reverse_singleton, List.singleton_append, List.find?_cons]
      dsimp only
      cases assignment.destination.identifier == identifier with
      | true => rfl
      | false => exact ih

/-- The loop stops at the last assignment to the name. -/
private theorem lastLocated_eq_some {count : Nat} {definition : LlirDefinition}
    (found : lastLocated block identifier count = some definition) :
    definition.block = block.id ∧ block.assignments[definition.index]? = some definition.assignment ∧
      definition.assignment.destination.identifier = identifier ∧ definition.index < count ∧
      ∀ i assignment, definition.index < i → i < count → block.assignments[i]? = some assignment →
        assignment.destination.identifier ≠ identifier := by
  induction count with
  | zero => cases found
  | succ i ih =>
    rw [lastLocated] at found
    have later (found : lastLocated block identifier i = some definition)
        (other : ∀ assignment, block.assignments[i]? = some assignment → assignment.destination.identifier ≠ identifier) :
        definition.block = block.id ∧ block.assignments[definition.index]? = some definition.assignment ∧
          definition.assignment.destination.identifier = identifier ∧ definition.index < i + 1 ∧
          ∀ j assignment, definition.index < j → j < i + 1 → block.assignments[j]? = some assignment →
            assignment.destination.identifier ≠ identifier := by
      obtain ⟨place, here, assigns, below, between⟩ := ih found
      refine ⟨place, here, assigns, below.trans (Nat.lt_succ_self i), fun j assignment after before there => ?_⟩
      rcases Nat.lt_succ_iff_lt_or_eq.mp before with before | rfl
      · exact between j assignment after before there
      · exact other assignment there
    cases here : block.assignments[i]? with
    | none =>
      rw [here] at found
      refine later found fun assignment there => ?_
      rw [here] at there
      cases there
    | some assignment =>
      rw [here] at found
      dsimp only at found
      by_cases same : assignment.destination.identifier = identifier
      · rw [if_pos (beq_iff_eq.mpr same)] at found
        cases found
        refine ⟨rfl, here, same, Nat.lt_succ_self i, fun j other after before => ?_⟩
        exact absurd (Nat.lt_succ_iff.mp before) (Nat.not_le.mpr after)
      · rw [if_neg (fun equal => same (beq_iff_eq.mp equal))] at found
        refine later found fun other there => ?_
        rw [here] at there
        cases there
        exact same

/-- Where the scan finds nothing, nothing below the count defines the name. -/
private theorem lastLocated_eq_none {count : Nat} (none : lastLocated block identifier count = none) (i : Nat)
    (assignment : LlirAssignment) (below : i < count) (here : block.assignments[i]? = some assignment) :
    assignment.destination.identifier ≠ identifier := by
  induction count with
  | zero => omega
  | succ k ih =>
    rw [lastLocated] at none
    cases there : block.assignments[k]? with
    | none =>
      rw [there] at none
      rcases Nat.lt_succ_iff_lt_or_eq.mp below with below | rfl
      · exact ih none below
      · rw [here] at there
        cases there
    | some other =>
      rw [there] at none
      dsimp only at none
      split at none
      · cases none
      · rename_i differs
        rcases Nat.lt_succ_iff_lt_or_eq.mp below with below | rfl
        · exact ih none below
        · rw [here] at there
          cases there
          exact fun same => differs (beq_iff_eq.mpr same)

/-- What the loop passes behind the last assignment to the name. -/
private theorem mem_passedDestinations {name : String} {count : Nat}
    (passed : name ∈ passedDestinations block identifier count) :
    name ≠ identifier ∧ ∃ i assignment, block.assignments[i]? = some assignment ∧ assignment.destination.identifier = name ∧
      i < count ∧ ∀ j other, i < j → j < count → block.assignments[j]? = some other →
        other.destination.identifier ≠ identifier := by
  induction count with
  | zero => cases passed
  | succ k ih =>
    have earlier (passed : name ∈ passedDestinations block identifier k)
        (last : ∀ other, block.assignments[k]? = some other → other.destination.identifier ≠ identifier) :
        name ≠ identifier ∧ ∃ i assignment, block.assignments[i]? = some assignment ∧
          assignment.destination.identifier = name ∧ i < k + 1 ∧ ∀ j other, i < j → j < k + 1 →
            block.assignments[j]? = some other → other.destination.identifier ≠ identifier := by
      obtain ⟨differs, i, assignment, here, named, below, between⟩ := ih passed
      refine ⟨differs, i, assignment, here, named, below.trans (Nat.lt_succ_self k), fun j other after before there => ?_⟩
      obtain before | rfl := Nat.lt_succ_iff_lt_or_eq.mp before
      · exact between j other after before there
      · exact last other there
    rw [passedDestinations] at passed
    cases here : block.assignments[k]? with
    | none =>
      rw [here] at passed
      refine earlier passed fun other there => ?_
      rw [here] at there
      cases there
    | some assignment =>
      rw [here] at passed
      dsimp only at passed
      split at passed
      · cases passed
      · rename_i differs
        have differs : assignment.destination.identifier ≠ identifier := fun same => differs (beq_iff_eq.mpr same)
        obtain rfl | passed := List.mem_cons.mp passed
        · exact ⟨differs, k, assignment, here, rfl, Nat.lt_succ_self k, fun j _ after before _ => by omega⟩
        · refine earlier passed fun other there => ?_
          rw [here] at there
          cases there
          exact differs

/-- A path goes on inside a block over assignments to other names. -/
theorem FreePath.inside {source : Nat × Nat} {index count : Nat} (path : FreePath blocks identifier source (block.id, index))
    (mem : block ∈ blocks) (ordered : index ≤ count) (bound : count ≤ block.assignments.length)
    (other : ∀ i assignment, index ≤ i → i < count → block.assignments[i]? = some assignment →
      assignment.destination.identifier ≠ identifier) : FreePath blocks identifier source (block.id, count) := by
  induction count, ordered using Nat.le_induction with
  | base => exact path
  | succ k ordered ih =>
    have before := ih (by omega) fun i assignment after below here => other i assignment after (by omega) here
    have inside : k < block.assignments.length := by omega
    have here : block.assignments[k]? = some block.assignments[k] := List.getElem?_eq_getElem inside
    exact .step before mem here (other k _ ordered (Nat.lt_succ_self k) here)

end

/-- The graphs that the generator lays out are well formed. -/
theorem Llir.WellFormed.cfg {llir : Llir} {g : LlirGenerator} (wellFormed : llir.WellFormed g) {method : LlirMethod}
    (mem : method ∈ llir.methods) : WellFormedCfg method.blocks where
  distinct := by
    have made : (llir.methods.flatMap fun method => method.blocks.map LlirBlock.id).Nodup :=
      wellFormed.made.nodup_iff.mpr List.nodup_range
    exact (List.nodup_flatMap.mp made).1 method mem
  predecessors := by
    intro block mem' id
    rw [((wellFormed.methods method mem).predecessors block mem').mem_iff, LlirMethod.sources, List.mem_flatMap]
    refine exists_congr fun source => and_congr_right fun _ => ?_
    rw [List.mem_map]
    constructor
    · rintro ⟨target, listed, rfl⟩
      obtain ⟨listed, same⟩ := List.mem_filter.mp listed
      exact ⟨rfl, beq_iff_eq.mp same ▸ listed⟩
    · rintro ⟨rfl, listed⟩
      exact ⟨block.id, List.mem_filter.mpr ⟨listed, beq_self_eq_true _⟩, rfl⟩

/-- Different blocks hold different definitions. -/
private theorem finalLocated_injective {blocks : List LlirBlock} {identifier : String} (id id' : Nat)
    (definition : LlirDefinition)
    (here : definition ∈ finalLocated blocks identifier id) (there : definition ∈ finalLocated blocks identifier id') :
    id = id' := by
  have place {id : Nat} (found : definition ∈ finalLocated blocks identifier id) : definition.block = id := by
    obtain ⟨block, listed, last⟩ := Option.bind_eq_some_iff.mp found
    have same : block.id = id := by simpa using List.find?_some listed
    exact (lastLocated_eq_some last).1.trans same
  exact (place here).symm.trans (place there)

section
variable {blocks : List LlirBlock} (wellFormed : WellFormedCfg blocks) (short : ShortBlocks blocks) {identifier : String}
include wellFormed

theorem WellFormedCfg.blockOf_eq {block : LlirBlock} (mem : block ∈ blocks) : blockOf blocks block.id = some block :=
  find?_key wellFormed.distinct mem

include short

/-- Each predecessor is a block with an edge to the block. -/
theorem WellFormedCfg.predecessor (identifier : String) {block : LlirBlock} (mem : block ∈ blocks) {id : Nat}
    (listed : id ∈ block.predecessors) : ∃ source ∈ blocks, source.id = id ∧ block.id ∈ source.terminal.successors ∧
      finalLocated blocks identifier id = lastLocated source identifier source.assignments.length ∧
      predecessorsOf blocks id = source.predecessors := by
  obtain ⟨source, mem', rfl, leads⟩ := (wellFormed.predecessors block mem id).mp listed
  refine ⟨source, mem', rfl, leads, ?_, ?_⟩
  · rw [finalLocated, wellFormed.blockOf_eq mem', Option.bind_some, turnsFrom_eq (short source mem')]
  · rw [predecessorsOf, wellFormed.blockOf_eq mem']
    rfl

/-- Where the search stops, a path begins. -/
private theorem reaches_sound {result : Option LlirDefinition} {successors : List Nat} {definition : LlirDefinition}
    (reaches : Reaches (finalLocated blocks identifier) (predecessorsOf blocks) result successors definition)
    {block : LlirBlock} (mem : block ∈ blocks) {index : Nat} (inside : index ≤ block.assignments.length)
    (scanned : result = lastLocated block identifier index) (listed : successors = block.predecessors) :
    definition.ReachesPoint blocks identifier (block.id, index) := by
  induction reaches generalizing block index with
  | here found successors =>
    obtain ⟨place, here, assigns, below, between⟩ := lastLocated_eq_some scanned.symm
    refine ⟨⟨block, mem, place.symm, here⟩, assigns, ?_⟩
    rw [place]
    exact FreePath.start.inside mem below inside fun i assignment after before there =>
      between i assignment after before there
  | next mem' rest ih =>
    obtain ⟨source, mem'', rfl, leads, final, predecessors⟩ := wellFormed.predecessor short identifier mem (listed ▸ mem')
    obtain ⟨located, assigns, path⟩ := ih mem'' le_rfl final predecessors
    refine ⟨located, assigns, ?_⟩
    exact (FreePath.edge path mem'' leads).inside mem (Nat.zero_le _) inside fun i assignment _ below here =>
      lastLocated_eq_none scanned.symm i assignment below here

/-- By induction on the path: the search from its end stops at the definition. -/
private theorem reaches_complete {definition : LlirDefinition}
    (located : ∃ block ∈ blocks, block.id = definition.block ∧
      block.assignments[definition.index]? = some definition.assignment)
    (assigns : definition.assignment.destination.identifier = identifier) {point : Nat × Nat}
    (path : FreePath blocks identifier (definition.block, definition.index + 1) point) {block : LlirBlock}
    (mem : block ∈ blocks) (place : point.1 = block.id) :
    Reaches (finalLocated blocks identifier) (predecessorsOf blocks) (lastLocated block identifier point.2)
      block.predecessors definition := by
  induction path generalizing block with
  | start =>
    obtain ⟨other, mem', same, here⟩ := located
    obtain rfl : other = block := List.inj_on_of_nodup_map wellFormed.distinct mem' mem (same.trans place)
    rw [lastLocated, here]
    dsimp only
    rw [if_pos (beq_iff_eq.mpr assigns), same]
    exact .here definition _
  | @step source index assignment path mem' here other ih =>
    obtain rfl : source = block := List.inj_on_of_nodup_map wellFormed.distinct mem' mem place
    have before := ih mem rfl
    rw [lastLocated, here]
    dsimp only
    rw [if_neg fun same => other (beq_iff_eq.mp same)]
    exact before
  | @edge source successor path mem' leads ih =>
    have place : successor = block.id := place
    have listed := (wellFormed.predecessors block mem source.id).mpr ⟨source, mem', rfl, place ▸ leads⟩
    have before := ih mem' rfl
    rw [lastLocated]
    apply Reaches.next listed
    rw [finalLocated, predecessorsOf, wellFormed.blockOf_eq mem', Option.bind_some, turnsFrom_eq (short source mem')]
    exact before

def Passed (blocks : List LlirBlock) (identifier : String) (block : LlirBlock) (index : Nat) (name : String) : Prop :=
  name ∈ passedDestinations block identifier index ∨
    ∃ id, Leads (finalLocated blocks identifier) (predecessorsOf blocks) (lastLocated block identifier index)
      block.predecessors id ∧ name ∈ finalPassed blocks identifier id

/-- A destination that a search passes is changed on a way without a definition. -/
private theorem passed_sound {name : String} {block : LlirBlock} (mem : block ∈ blocks) {index : Nat}
    (inside : index ≤ block.assignments.length) (passed : Passed blocks identifier block index name) :
    Mutated blocks identifier name (block.id, index) := by
  have passes {block : LlirBlock} (mem : block ∈ blocks) {count : Nat} (inside : count ≤ block.assignments.length)
      (passed : name ∈ passedDestinations block identifier count) :
      Mutated blocks identifier name (block.id, count) := by
    obtain ⟨differs, i, assignment, here, named, below, between⟩ := mem_passedDestinations passed
    refine ⟨differs, block, mem, i, assignment, here, named, FreePath.start.inside mem below inside ?_⟩
    exact fun j other after before there => between j other after before there
  -- A path to the end of a predecessor leads on to the point in its successor.
  have goes {block : LlirBlock} (mem : block ∈ blocks) {count : Nat} (inside : count ≤ block.assignments.length)
      (nothing : lastLocated block identifier count = none) {source : LlirBlock} (mem' : source ∈ blocks)
      (leads : block.id ∈ source.terminal.successors)
      (mutated : Mutated blocks identifier name (source.id, source.assignments.length)) :
      Mutated blocks identifier name (block.id, count) := by
    obtain ⟨differs, middle, listed, i, assignment, here, named, path⟩ := mutated
    refine ⟨differs, middle, listed, i, assignment, here, named, ?_⟩
    exact (path.edge mem' leads).inside mem (Nat.zero_le count) inside fun j other _ below there =>
      lastLocated_eq_none nothing j other below there
  obtain here | ⟨id, behind, there⟩ := passed
  · exact passes mem inside here
  · generalize found : lastLocated block identifier index = result at behind
    generalize listed : block.predecessors = successors at behind
    induction behind generalizing block index with
    | here mem' =>
      obtain ⟨source, mem'', rfl, leads, -, -⟩ := wellFormed.predecessor short identifier mem (listed ▸ mem')
      refine goes mem inside found mem'' leads (passes mem'' le_rfl ?_)
      rwa [finalPassed, wellFormed.blockOf_eq mem'', Option.elim_some, turnsFrom_eq (short source mem'')] at there
    | next mem' _ ih =>
      obtain ⟨source, mem'', rfl, leads, final, predecessors⟩ :=
        wellFormed.predecessor short identifier mem (listed ▸ mem')
      exact goes mem inside found mem'' leads (ih mem'' le_rfl there final.symm predecessors.symm)

/-- Each destination on a way without a definition is passed. -/
private theorem passed_complete {source : LlirBlock} (mem : source ∈ blocks) {index : Nat} {assignment : LlirAssignment}
    (here : source.assignments[index]? = some assignment) (other : assignment.destination.identifier ≠ identifier)
    {point : Nat × Nat} (path : FreePath blocks identifier (source.id, index + 1) point) {block : LlirBlock}
    (mem' : block ∈ blocks) (place : point.1 = block.id) :
    Passed blocks identifier block point.2 assignment.destination.identifier := by
  induction path generalizing block with
  | start =>
    obtain rfl : source = block := List.inj_on_of_nodup_map wellFormed.distinct mem mem' place
    left
    rw [passedDestinations, here]
    dsimp only
    rw [if_neg fun same => other (beq_iff_eq.mp same)]
    exact List.mem_cons_self
  | @step middle i between path mem'' there differs ih =>
    obtain rfl : middle = block := List.inj_on_of_nodup_map wellFormed.distinct mem'' mem' place
    have before := ih mem' rfl
    dsimp only [Passed] at before ⊢
    rw [passedDestinations, lastLocated, there]
    dsimp only
    rw [if_neg fun same => differs (beq_iff_eq.mp same), if_neg fun same => differs (beq_iff_eq.mp same)]
    exact before.imp (List.mem_cons_of_mem _) id
  | @edge middle successor path mem'' leads ih =>
    have place : successor = block.id := place
    have listed := (wellFormed.predecessors block mem' middle.id).mpr ⟨middle, mem'', rfl, place ▸ leads⟩
    have final : finalLocated blocks identifier middle.id =
        lastLocated middle identifier middle.assignments.length := by
      rw [finalLocated, wellFormed.blockOf_eq mem'', Option.bind_some, turnsFrom_eq (short middle mem'')]
    have predecessors : predecessorsOf blocks middle.id = middle.predecessors := by
      rw [predecessorsOf, wellFormed.blockOf_eq mem'']
      rfl
    right
    rw [lastLocated]
    rcases ih mem'' rfl with passed | ⟨id, behind, passed⟩
    · refine ⟨middle.id, .here listed, ?_⟩
      rw [finalPassed, wellFormed.blockOf_eq mem'', Option.elim_some, turnsFrom_eq (short middle mem'')]
      exact passed
    · refine ⟨id, .next listed ?_, passed⟩
      rw [final, predecessors]
      exact behind

end

private theorem finalDefinition_eq (blocks : List LlirBlock) (identifier : String) : finalDefinition blocks identifier =
    fun id => (finalLocated blocks identifier id).map LlirDefinition.assignment := by
  funext id
  rw [finalDefinition, finalLocated, Option.map_bind]
  congr 1
  funext block
  exact (lastLocated_assignment block identifier _).symm

theorem findDefinitions_eq (blocks : List LlirBlock) (identifier : String) (n : Nat) (block : LlirBlock) (index : Nat) :
    findDefinitions blocks identifier n block index =
      (findLocatedDefinitions blocks identifier n block index).map (List.map LlirDefinition.assignment) := by
  rw [findDefinitions, findDefinitionInBlock, findLocatedDefinitions, finalDefinition_eq, ← lastLocated_assignment]
  have mapped : explore (fun id => (finalLocated blocks identifier id).map LlirDefinition.assignment)
      (predecessorsOf blocks) n ((lastLocated block identifier (turnsFrom index)).map LlirDefinition.assignment)
      block.predecessors ([], []) = _ :=
    explore_map LlirDefinition.assignment n (lastLocated block identifier (turnsFrom index)) block.predecessors ([], [])
  rw [mapped, Option.map_map, Option.map_map]
  rfl

/-- A definition that reaches a point along the paths is one that the folding looks at. -/
theorem LlirDefinition.ReachesPoint.reachingDefinition {blocks : List LlirBlock} (wellFormed : WellFormedCfg blocks)
    (short : ShortBlocks blocks) {block : LlirBlock} (mem : block ∈ blocks) {index : Nat}
    (inside : index ≤ block.assignments.length) {identifier : String} {definition : LlirDefinition}
    (reaches : definition.ReachesPoint blocks identifier (block.id, index)) :
    ReachingDefinition blocks block index identifier definition.assignment := by
  rw [ReachingDefinition, finalDefinition_eq, ← lastLocated_assignment, turnsFrom_eq (inside.trans (short block mem))]
  exact (reaches_complete wellFormed short reaches.located reaches.assigns reaches.path mem rfl).map
    LlirDefinition.assignment

/-- What the search of `cp.c` returns. -/
theorem CopyPropagation.findDefinitions_spec {blocks : List LlirBlock} (wellFormed : WellFormedCfg blocks)
    (short : ShortBlocks blocks) {block : LlirBlock} (mem : block ∈ blocks) {index : Nat}
    (inside : index ≤ block.assignments.length) (identifier : String) {n : Nat} (enough : (predecessorIds blocks).length < n) : ∃ definitions mutated,
      findLocatedDefinitions blocks identifier n block index = some definitions ∧
      CopyPropagation.findDefinitions blocks identifier n block index = some (definitions, mutated) ∧
      definitions.Nodup ∧
      (∀ definition : LlirDefinition, definition ∈ definitions ↔
        definition.ReachesPoint blocks identifier (block.id, index)) ∧
      ∀ name, name ∈ mutated ↔ Mutated blocks identifier name (block.id, index) := by
  have listed {block : LlirBlock} (mem : block ∈ blocks) : block.predecessors ⊆ predecessorIds blocks :=
    fun id listed => List.mem_flatMap.mpr ⟨block, mem, listed⟩
  have next (id : Nat) (_ : finalLocated blocks identifier id = none) :
      predecessorsOf blocks id ⊆ predecessorIds blocks := by
    rw [predecessorsOf]
    cases found : blockOf blocks id with
    | none => exact List.nil_subset _
    | some block => exact listed (List.mem_of_find?_eq_some found)
  have start (_ : lastLocated block identifier index = none) := listed mem
  have turns := turnsFrom_eq (inside.trans (short block mem))
  obtain ⟨state, run, spec⟩ := explore_start next start enough
  obtain ⟨state', run', leads⟩ := explore_leads next start enough
  obtain rfl : state = state' := Option.some.inj (run.symm.trans run')
  have logging : (exploreLogging (finalLocated blocks identifier) (predecessorsOf blocks) (finalPassed blocks identifier) n
      (lastLocated block identifier index) block.predecessors (passedDestinations block identifier index)
      (([], []), [])).map Prod.fst = _ := exploreLogging_fst n _ _ _ _
  rw [run] at logging
  obtain ⟨logged, run'', same⟩ := Option.map_eq_some_iff.mp logging
  obtain ⟨visited, traces, alone⟩ := exploreLogging_traces n run''
  have located : findLocatedDefinitions blocks identifier n block index = some state.2 := by
    rw [findLocatedDefinitions, turns, run]
    rfl
  refine ⟨state.2, logged.2, located, ?_, ?_, ?_, ?_⟩
  · rw [CopyPropagation.findDefinitions, turns, run'', Option.map_some, same]
  · rw [← same, traces.results, List.nil_append]
    cases found : lastLocated block identifier index with
    | some definition =>
      have none_visited := alone (found ▸ Option.some_ne_none definition)
      rw [none_visited]
      exact List.nodup_singleton definition
    | none =>
      exact traces.distinct.filterMap fun id id' definition => finalLocated_injective id id' definition
  · intro definition
    rw [spec]
    constructor
    · exact fun reaches => reaches_sound wellFormed short reaches mem inside rfl rfl
    · rintro ⟨located, assigns, path⟩
      exact reaches_complete wellFormed short located assigns path mem rfl
  · intro name
    have passed : name ∈ logged.2 ↔ Passed blocks identifier block index name := by
      rw [traces.log, List.nil_append, List.mem_append, List.mem_flatMap]
      refine or_congr Iff.rfl (exists_congr fun id => and_congr_left fun _ => ?_)
      rw [← leads, ← same, traces.nodes, List.append_nil, List.mem_reverse]
    rw [passed]
    constructor
    · exact passed_sound wellFormed short mem inside
    · rintro ⟨other, source, mem', i, assignment, here, rfl, path⟩
      exact passed_complete wellFormed short mem' here other path mem rfl

/-- Both searches end and return the definitions that reach the point, each of them once, and the mutated set holds the
destinations of all assignments that the paths without an assignment to the name pass. -/
theorem findDefinitions_exact {blocks : List LlirBlock} (wellFormed : WellFormedCfg blocks)
    (short : ShortBlocks blocks) {block : LlirBlock} (mem : block ∈ blocks) {index : Nat}
    (inside : index ≤ block.assignments.length) (identifier : String) {n : Nat} (enough : (predecessorIds blocks).length < n) : ∃ definitions mutated,
      findLocatedDefinitions blocks identifier n block index = some definitions ∧
      findDefinitions blocks identifier n block index = some (definitions.map LlirDefinition.assignment) ∧
      CopyPropagation.findDefinitions blocks identifier n block index = some (definitions, mutated) ∧
      definitions.Nodup ∧
      (∀ definition : LlirDefinition, definition ∈ definitions ↔
        definition.ReachesPoint blocks identifier (block.id, index)) ∧
      ∀ source ∈ blocks, ∀ i assignment, source.assignments[i]? = some assignment →
        assignment.destination.identifier ≠ identifier →
        FreePath blocks identifier (source.id, i + 1) (block.id, index) →
        assignment.destination.identifier ∈ mutated := by
  obtain ⟨definitions, mutated, located, found, nodup, exactly, passed⟩ :=
    CopyPropagation.findDefinitions_spec wellFormed short mem inside identifier enough
  refine ⟨definitions, mutated, located, ?_, found, nodup, exactly, fun source mem' i assignment here other path => ?_⟩
  · rw [findDefinitions_eq, located]
    rfl
  · exact (passed _).mpr ⟨other, source, mem', i, assignment, here, rfl, path⟩

/-- `x = 1; do { y = x; x = 2; } while (y == 1);` -/
def loopBlocks : List LlirBlock :=
  [{ id := 0, fields := [], assignments := [.unary .move (.literal 1) x], terminal := .jump 1, predecessors := [] },
    { id := 1, fields := [], assignments := [.unary .move (.field x) y, .unary .move (.literal 2) x]
      terminal := .branch ⟨.notEqual, false, .field y, .literal 1, 1, 2⟩, predecessors := [0, 1] },
    { id := 2, fields := [], assignments := [], terminal := .llirReturn (.literal 0), predecessors := [1] }]
where
  x : LlirField := llirFieldNew "x" 1 false 1 none
  y : LlirField := llirFieldNew "y" 1 false 1 none

private theorem loopBlocks_wellFormed : WellFormedCfg loopBlocks where
  distinct := by decide
  predecessors := by
    intro block mem id
    simp only [loopBlocks, List.mem_cons, List.not_mem_nil, or_false] at mem
    rcases mem with rfl | rfl | rfl
    · simp [loopBlocks, LlirTerminal.successors]
    · simp [loopBlocks, LlirTerminal.successors, eq_comm]
    · simp [loopBlocks, LlirTerminal.successors, eq_comm]

/-- The definitions of `x` at the start of the loop. -/
theorem findDefinitions_exact_loop : ∃ definitions mutated,
    findLocatedDefinitions loopBlocks "x@1" 4 (loopBlocks.get ⟨1, by decide⟩) 0 = some definitions ∧
    findDefinitions loopBlocks "x@1" 4 (loopBlocks.get ⟨1, by decide⟩) 0 =
      some (definitions.map LlirDefinition.assignment) ∧
    CopyPropagation.findDefinitions loopBlocks "x@1" 4 (loopBlocks.get ⟨1, by decide⟩) 0 = some (definitions, mutated) ∧
    definitions.Nodup ∧
    (∀ definition : LlirDefinition, definition ∈ definitions ↔ definition.ReachesPoint loopBlocks "x@1" (1, 0)) ∧
    ∀ source ∈ loopBlocks, ∀ i assignment, source.assignments[i]? = some assignment →
      assignment.destination.identifier ≠ "x@1" →
      FreePath loopBlocks "x@1" (source.id, i + 1) (1, 0) → assignment.destination.identifier ∈ mutated :=
  findDefinitions_exact loopBlocks_wellFormed (by unfold ShortBlocks; decide) (List.get_mem loopBlocks ⟨1, by decide⟩)
    (Nat.zero_le _) "x@1" (by decide)

example : (findLocatedDefinitions loopBlocks "x@1" 4 (loopBlocks.get ⟨1, by decide⟩) 0).map
    (List.map fun definition => (definition.block, definition.index)) = some [(0, 0), (1, 1)] := by decide

end Roast
