import Roast.Optimizations.Passes

/-! What a pass has done when it comes to a point: the assignments before the point are optimized, the others are as they
were, and the paths are the same. -/
namespace Roast
open Systems

def FoldStep.key (blocks : List LlirBlock) : FoldStep → Nat × Nat
  | .assignment position index => (position, index)
  | .terminal position => (position, (blocks[position]?.map fun block => block.assignments.length).getD 0)

def KeyLess (key key' : Nat × Nat) : Prop := key.1 < key'.1 ∨ key.1 = key'.1 ∧ key.2 < key'.2

/-- The blocks are visited in the order of the list, each of them from its start. -/
def Earlier (blocks : List LlirBlock) (point point' : Nat × Nat) : Prop :=
  ∃ position position', (blocks[position]?.map LlirBlock.id = some point.1 ∧ blocks[position']?.map LlirBlock.id = some point'.1) ∧
    KeyLess (position, point.2) (position', point'.2)

private theorem KeyLess.asymm {key key' : Nat × Nat} (less : KeyLess key key') : ¬ KeyLess key' key := by
  unfold KeyLess at less ⊢
  omega

/-- The pass visits the assignments of a block before its terminal, and the blocks in order. -/
private theorem LlirMethod.foldSteps_sorted (method : LlirMethod) :
    method.foldSteps.Pairwise fun step step' => KeyLess (step.key method.blocks) (step'.key method.blocks) := by
  rw [foldSteps, List.pairwise_flatMap]
  constructor
  · intro position _
    rw [List.pairwise_append, List.pairwise_map]
    refine ⟨List.pairwise_lt_range.imp fun less => .inr ⟨rfl, less⟩, List.pairwise_singleton _ _, ?_⟩
    intro step listed last same
    obtain ⟨index, inside, rfl⟩ := List.mem_map.mp listed
    obtain rfl := List.mem_singleton.mp same
    exact .inr ⟨rfl, List.mem_range.mp inside⟩
  · have place {position : Nat} {step : FoldStep}
        (listed : step ∈ ((List.range ((method.blocks[position]?.map fun block => block.assignments.length).getD 0)).map
          (FoldStep.assignment position)) ++ [.terminal position]) : (step.key method.blocks).1 = position := by
      obtain listed | last := List.mem_append.mp listed
      · obtain ⟨index, -, rfl⟩ := List.mem_map.mp listed
        rfl
      · obtain rfl := List.mem_singleton.mp last
        rfl
    refine List.pairwise_lt_range.imp fun less step listed step' listed' => .inl ?_
    rw [place listed, place listed']
    exact less

/-- The pass visits each assignment. -/
theorem LlirMethod.mem_foldSteps_assignment {method : LlirMethod} {position index : Nat} :
    .assignment position index ∈ method.foldSteps ↔
      ∃ block, method.blocks[position]? = some block ∧ index < block.assignments.length := by
  simp only [foldSteps, List.mem_flatMap, List.mem_range, List.mem_append, List.mem_map, FoldStep.assignment.injEq,
    List.mem_singleton, reduceCtorEq, or_false]
  constructor
  · rintro ⟨other, inside, other_index, below, rfl, rfl⟩
    rw [List.getElem?_eq_getElem inside] at below ⊢
    exact ⟨_, rfl, below⟩
  · rintro ⟨block, here, below⟩
    refine ⟨position, (List.getElem?_eq_some_iff.mp here).1, index, ?_, rfl, rfl⟩
    rw [here]
    exact below

private theorem LlirMethod.mem_foldSteps_terminal {method : LlirMethod} {position : Nat} :
    .terminal position ∈ method.foldSteps ↔ position < method.blocks.length := by
  simp [foldSteps]

/-- The turns before a turn are those that visit smaller places. -/
private theorem LlirMethod.mem_done_iff {method : LlirMethod} {done rest : List FoldStep} {step step' : FoldStep}
    (split : method.foldSteps = done ++ step :: rest) (listed : step' ∈ method.foldSteps) :
    step' ∈ done ↔ KeyLess (step'.key method.blocks) (step.key method.blocks) := by
  have sorted := method.foldSteps_sorted
  rw [split, List.pairwise_append, List.pairwise_cons] at sorted
  obtain ⟨-, ⟨later, -⟩, earlier⟩ := sorted
  refine ⟨fun before => earlier step' before step List.mem_cons_self, fun less => ?_⟩
  rw [split] at listed
  obtain before | after := List.mem_append.mp listed
  · exact before
  · obtain rfl | after := List.mem_cons.mp after
    · exact absurd less less.asymm
    · exact absurd less (later step' after).asymm

/-- No turn is made twice. -/
theorem LlirMethod.not_mem_done {method : LlirMethod} {done rest : List FoldStep} {step : FoldStep}
    (split : method.foldSteps = done ++ step :: rest) : step ∉ done := fun before => by
  have less := (method.mem_done_iff split (split ▸ List.mem_append_right done List.mem_cons_self)).mp before
  exact less.asymm less

/-- After the turns, an assignment that was visited is a result of its optimization, and nothing else has changed. -/
structure LlirMethod.Swept (method : LlirMethod) (result : Nat × Nat → LlirAssignment → LlirAssignment → Prop)
    (done : List FoldStep) (blocks : List LlirBlock) : Prop where
  skeletons : blocks.map LlirBlock.skeleton = method.blocks.map LlirBlock.skeleton
  visited : ∀ position old new index assignment assignment', method.blocks[position]? = some old →
    blocks[position]? = some new → old.assignments[index]? = some assignment → new.assignments[index]? = some assignment' →
    .assignment position index ∈ done → result (old.id, index) assignment assignment'
  left : ∀ position old new index, method.blocks[position]? = some old → blocks[position]? = some new →
    .assignment position index ∉ done → new.assignments[index]? = old.assignments[index]?
  terminals : ∀ position old new, method.blocks[position]? = some old → blocks[position]? = some new →
    .terminal position ∉ done → new.terminal = old.terminal

theorem twin_at {blocks blocks' : List LlirBlock} (same : blocks'.map LlirBlock.skeleton = blocks.map LlirBlock.skeleton)
    {position : Nat} {block : LlirBlock} (here : blocks[position]? = some block) :
    ∃ block', blocks'[position]? = some block' ∧ block'.skeleton = block.skeleton := by
  have both := congrArg (fun skeletons => skeletons[position]?) same
  rw [List.getElem?_map, List.getElem?_map, here] at both
  exact Option.map_eq_some_iff.mp both

/-- One assignment of one block is another one. -/
private theorem getElem?_set_assignment {blocks : List LlirBlock} {position index : Nat} {block : LlirBlock}
    (here : blocks[position]? = some block) {assignment : LlirAssignment} {position' : Nat} {new : LlirBlock}
    (place : (blocks.set position { block with assignments := block.assignments.set index assignment })[position']? =
      some new) : ∃ old, blocks[position']? = some old ∧ new.terminal = old.terminal ∧
    ∀ index', ¬ (position' = position ∧ index' = index) → new.assignments[index']? = old.assignments[index']? := by
  by_cases same : position = position'
  · subst same
    rw [List.getElem?_set_self (List.getElem?_eq_some_iff.mp here).1] at place
    obtain rfl := Option.some.inj place
    exact ⟨block, here, rfl, fun index' other => List.getElem?_set_ne fun same => other ⟨rfl, same.symm⟩⟩
  · rw [List.getElem?_set_ne same] at place
    exact ⟨new, place, rfl, fun _ _ => rfl⟩

section
variable {m : Type → Type} [Monad m] [LawfulMonad m] (fallible : Fallible m)
  {optimizeAssignment : List LlirBlock → LlirBlock → Nat → LlirAssignment → m LlirAssignment}
  {optimizeTerminal : List LlirBlock → LlirBlock → Nat → LlirTerminal → m LlirTerminal}
  {method : LlirMethod} {result : Nat × Nat → LlirAssignment → LlirAssignment → Prop}

/-- The turn at an assignment. -/
theorem LlirMethod.Swept.assignment {done : List FoldStep} {blocks : List LlirBlock} (swept : method.Swept result done blocks)
    {position index : Nat} (fresh : .assignment position index ∉ done) {block : LlirBlock}
    (here : blocks[position]? = some block) {assignment assignment' : LlirAssignment}
    (listed : block.assignments[index]? = some assignment) (destination : assignment'.destination = assignment.destination)
    (optimized : result (block.id, index) assignment assignment') :
    method.Swept result (done ++ [.assignment position index])
      (blocks.set position { block with assignments := block.assignments.set index assignment' }) := by
  have alike : block.Alike { block with assignments := block.assignments.set index assignment' } :=
    ⟨rfl, map_set_of_same LlirAssignment.destination listed destination⟩
  have within := (List.getElem?_eq_some_iff.mp here).1
  have within' := (List.getElem?_eq_some_iff.mp listed).1
  refine ⟨(map_set_of_same LlirBlock.skeleton here alike.skeleton).trans swept.skeletons, ?_, ?_, ?_⟩
  · intro position' old new index' original changed place place' there there' mem
    by_cases same : position' = position ∧ index' = index
    · obtain ⟨rfl, rfl⟩ := same
      rw [List.getElem?_set_self within] at place'
      obtain rfl := Option.some.inj place'
      rw [List.getElem?_set_self within'] at there'
      obtain rfl := Option.some.inj there'
      rw [swept.left position' old block index' place here fresh, there] at listed
      obtain rfl := Option.some.inj listed
      obtain ⟨block', here', skeleton⟩ := twin_at swept.skeletons place
      obtain rfl := Option.some.inj (here.symm.trans here')
      have id : block.id = old.id := congrArg (fun skeleton => skeleton.1.1) skeleton
      exact id ▸ optimized
    · obtain ⟨before, place', -, kept⟩ := getElem?_set_assignment here place'
      refine swept.visited position' old before index' original changed place place' there (kept index' same ▸ there') ?_
      simpa [same] using mem
  · intro position' old new index' place place' outside
    obtain ⟨outside, other⟩ : .assignment position' index' ∉ done ∧ ¬ (position' = position ∧ index' = index) := by
      simpa using outside
    obtain ⟨before, place', -, kept⟩ := getElem?_set_assignment here place'
    rw [kept index' other]
    exact swept.left position' old before index' place place' outside
  · intro position' old new place place' outside
    obtain ⟨before, place', same, -⟩ := getElem?_set_assignment here place'
    exact same.trans (swept.terminals position' old before place place' (by simpa using outside))

/-- The turn at a terminal. -/
theorem LlirMethod.Swept.terminal {done : List FoldStep} {blocks : List LlirBlock} (swept : method.Swept result done blocks)
    {position : Nat} {block : LlirBlock} (here : blocks[position]? = some block) {terminal' : LlirTerminal}
    (successors : terminal'.successors = block.terminal.successors) :
    method.Swept result (done ++ [.terminal position]) (blocks.set position { block with terminal := terminal' }) := by
  have alike : block.Alike { block with terminal := terminal' } := by
    refine ⟨?_, rfl⟩
    rw [LlirBlock.edges, LlirBlock.edges, successors]
  have within := (List.getElem?_eq_some_iff.mp here).1
  have kept {position' : Nat} {new : LlirBlock}
      (place : (blocks.set position { block with terminal := terminal' })[position']? = some new) :
      ∃ old, blocks[position']? = some old ∧ new.assignments = old.assignments ∧
        (position' ≠ position → new.terminal = old.terminal) := by
    by_cases same : position = position'
    · subst same
      rw [List.getElem?_set_self within] at place
      obtain rfl := Option.some.inj place
      exact ⟨block, here, rfl, fun other => absurd rfl other⟩
    · rw [List.getElem?_set_ne same] at place
      exact ⟨new, place, rfl, fun _ => rfl⟩
  refine ⟨(map_set_of_same LlirBlock.skeleton here alike.skeleton).trans swept.skeletons, ?_, ?_, ?_⟩
  · intro position' old new index original changed place place' there there' mem
    obtain ⟨before, place', same, -⟩ := kept place'
    exact swept.visited position' old before index original changed place place' there (same ▸ there') (by simpa using mem)
  · intro position' old new index place place' outside
    obtain ⟨before, place', same, -⟩ := kept place'
    rw [same]
    exact swept.left position' old before index place place' (by simpa using outside)
  · intro position' old new place place' outside
    obtain ⟨before, place', -, same⟩ := kept place'
    obtain ⟨outside, other⟩ : .terminal position' ∉ done ∧ ¬ position' = position := by simpa using outside
    exact (same other).trans (swept.terminals position' old before place place' outside)

include fallible

/-- By induction on the turns, if each of them optimizes the assignment that it visits. -/
theorem LlirMethod.swept_of_run
    (assignments : ∀ done rest blocks position index block assignment assignment',
      method.foldSteps = done ++ .assignment position index :: rest → method.Swept result done blocks →
      done.foldlM (passTurn optimizeAssignment optimizeTerminal) method.blocks = pure blocks →
      blocks[position]? = some block → block.assignments[index]? = some assignment →
      optimizeAssignment blocks block index assignment = pure assignment' →
      assignment'.destination = assignment.destination ∧ result (block.id, index) assignment assignment')
    (terminals : ∀ blocks block index terminal terminal', optimizeTerminal blocks block index terminal = pure terminal' →
      terminal'.successors = terminal.successors)
    {done rest : List FoldStep} {blocks : List LlirBlock} (split : method.foldSteps = done ++ rest)
    (run : done.foldlM (passTurn optimizeAssignment optimizeTerminal) method.blocks = pure blocks) :
    method.Swept result done blocks := by
  refine fallible.foldlM_prefix (method.Swept result) ?_ ?_ split run
  · refine ⟨rfl, fun _ _ _ _ _ _ _ _ _ _ mem => absurd mem List.not_mem_nil, ?_, ?_⟩
    · intro position old new index here here' _
      obtain rfl := Option.some.inj (here.symm.trans here')
      rfl
    · intro position old new here here' _
      obtain rfl := Option.some.inj (here.symm.trans here')
      rfl
  · intro done step rest blocks blocks' split run swept turned
    have listed : step ∈ method.foldSteps := split ▸ List.mem_append_right done List.mem_cons_self
    cases step with
    | assignment position index =>
      obtain ⟨old, place, inside⟩ := LlirMethod.mem_foldSteps_assignment.mp listed
      obtain ⟨block, here, skeleton⟩ := twin_at swept.skeletons place
      rw [← LlirBlock.length_of_skeleton skeleton] at inside
      have there : block.assignments[index]? = some block.assignments[index] := List.getElem?_eq_getElem inside
      rw [passTurn, here] at turned
      dsimp only at turned
      rw [there] at turned
      obtain ⟨assignment', optimized, turned⟩ := fallible.bind turned
      obtain ⟨destination, optimized⟩ :=
        assignments done rest blocks position index block _ assignment' split swept run here there optimized
      obtain rfl := fallible.pure turned
      exact swept.assignment (LlirMethod.not_mem_done split) here there destination optimized
    | terminal position =>
      have inside := LlirMethod.mem_foldSteps_terminal.mp listed
      obtain ⟨block, here, -⟩ := twin_at swept.skeletons (List.getElem?_eq_getElem inside)
      rw [passTurn, here] at turned
      obtain ⟨terminal', optimized, turned⟩ := fallible.bind turned
      obtain rfl := fallible.pure turned
      exact swept.terminal here (terminals blocks block _ _ terminal' optimized)

end

theorem LlirBlock.id_of_skeleton {block other : LlirBlock} (same : other.skeleton = block.skeleton) : other.id = block.id :=
  congrArg (fun skeleton => skeleton.1.1) same

/-- A path goes over assignments to the same fields along the same edges. -/
theorem FreePath.of_skeletons {blocks blocks' : List LlirBlock}
    (same : blocks'.map LlirBlock.skeleton = blocks.map LlirBlock.skeleton) {identifier : String} {source point : Nat × Nat}
    (path : FreePath blocks identifier source point) : FreePath blocks' identifier source point := by
  induction path with
  | start => exact .start
  | @step block index assignment _ mem here other ih =>
    obtain ⟨twin, listed, skeleton⟩ := twin_of_skeletons same.symm mem
    have destinations := congrArg (fun skeleton => skeleton.2[index]?) skeleton
    simp only [LlirBlock.skeleton, List.getElem?_map, here, Option.map_some] at destinations
    obtain ⟨assignment', here', destination⟩ := Option.map_eq_some_iff.mp destinations
    rw [← LlirBlock.id_of_skeleton skeleton] at ih ⊢
    exact ih.step listed here' (destination ▸ other)
  | @edge block successor _ mem leads ih =>
    obtain ⟨twin, listed, skeleton⟩ := twin_of_skeletons same.symm mem
    have successors : twin.terminal.successors = block.terminal.successors :=
      congrArg (fun skeleton => skeleton.1.2.2) skeleton
    rw [← LlirBlock.id_of_skeleton skeleton, ← LlirBlock.length_of_skeleton skeleton] at ih
    exact ih.edge listed (successors ▸ leads)

/-- The definition at the same place reaches the point. -/
theorem LlirDefinition.ReachesPoint.of_skeletons {blocks blocks' : List LlirBlock}
    (same : blocks'.map LlirBlock.skeleton = blocks.map LlirBlock.skeleton) {identifier : String}
    {definition : LlirDefinition} {point : Nat × Nat} (reaches : definition.ReachesPoint blocks identifier point) :
    ∃ (position : Nat) (old new : LlirBlock) (assignment' : LlirAssignment), blocks[position]? = some old ∧ blocks'[position]? = some new ∧
      old.id = definition.block ∧ new.id = definition.block ∧
      old.assignments[definition.index]? = some definition.assignment ∧
      new.assignments[definition.index]? = some assignment' ∧
      LlirDefinition.ReachesPoint blocks' identifier ⟨definition.block, definition.index, assignment'⟩ point := by
  obtain ⟨⟨old, mem, id, here⟩, assigns, path⟩ := reaches
  obtain ⟨position, place⟩ := List.mem_iff_getElem?.mp mem
  obtain ⟨new, place', skeleton⟩ := twin_at same place
  have destinations := congrArg (fun skeleton => skeleton.2[definition.index]?) skeleton
  simp only [LlirBlock.skeleton, List.getElem?_map, here, Option.map_some] at destinations
  obtain ⟨assignment', here', destination⟩ := Option.map_eq_some_iff.mp destinations
  have id' := (LlirBlock.id_of_skeleton skeleton).trans id
  refine ⟨position, old, new, assignment', place, place', id, id', here, here', ?_⟩
  refine ⟨⟨new, List.mem_of_getElem? place', id', here'⟩, ?_, path.of_skeletons same⟩
  exact (congrArg LlirField.identifier destination).trans assigns

theorem Mutated.of_skeletons {blocks blocks' : List LlirBlock}
    (same : blocks'.map LlirBlock.skeleton = blocks.map LlirBlock.skeleton) {identifier name : String} {point : Nat × Nat}
    (mutated : Mutated blocks identifier name point) : Mutated blocks' identifier name point := by
  obtain ⟨differs, source, mem, index, assignment, here, named, path⟩ := mutated
  have reaches : LlirDefinition.ReachesPoint blocks name ⟨source.id, index, assignment⟩ (source.id, index + 1) :=
    ⟨⟨source, mem, rfl, here⟩, named, .start⟩
  obtain ⟨_, _, new, assignment', -, place, -, id, -, here', -, named', -⟩ := reaches.of_skeletons same
  exact ⟨differs, new, List.mem_of_getElem? place, index, assignment', here', named', id ▸ path.of_skeletons same⟩

/-- What the turn at the point sees of a definition: the result of the pass where it has been there, else the definition. -/
def LlirDefinition.SweptAs (blocks : List LlirBlock) (result : Nat × Nat → LlirAssignment → LlirAssignment → Prop)
    (point : Nat × Nat) (definition : LlirDefinition) (assignment : LlirAssignment) : Prop :=
  (Earlier blocks (definition.block, definition.index) point →
    result (definition.block, definition.index) definition.assignment assignment) ∧
  (¬ Earlier blocks (definition.block, definition.index) point → assignment = definition.assignment)

def LlirBlock.operandsAt (block : LlirBlock) (index : Nat) : List LlirOperand :=
  (block.assignments[index]?.map LlirAssignment.operands).getD block.terminal.operands

def LlirMethod.Uses (method : LlirMethod) (point : Nat × Nat) (field : LlirField) : Prop :=
  ∃ block ∈ method.blocks, block.id = point.1 ∧ point.2 ≤ block.assignments.length ∧
    .field field ∈ block.operandsAt point.2

section
variable {method : LlirMethod} {result : Nat × Nat → LlirAssignment → LlirAssignment → Prop} {done rest : List FoldStep}
  {step : FoldStep} (split : method.foldSteps = done ++ step :: rest) {blocks : List LlirBlock}
  (swept : method.Swept result done blocks)
include split swept

/-- A turn visits what the method had at the place. -/
theorem LlirMethod.Swept.visit {block : LlirBlock} {index : Nat} {operands : List LlirOperand}
    (visit : step.visit blocks = some (block, index, operands)) :
    ∃ position old, method.blocks[position]? = some old ∧ blocks[position]? = some block ∧ old.id = block.id ∧
      step.key method.blocks = (position, index) ∧ index ≤ block.assignments.length ∧
      block.assignments.length = old.assignments.length ∧ old.operandsAt index = operands := by
  have fresh := LlirMethod.not_mem_done split
  cases step with
  | assignment position place =>
    obtain ⟨visited, here, visit⟩ := Option.bind_eq_some_iff.mp visit
    obtain ⟨assignment, there, visit⟩ := Option.bind_eq_some_iff.mp visit
    cases visit
    obtain ⟨old, here', skeleton⟩ := twin_at swept.skeletons.symm here
    refine ⟨position, old, here', here, LlirBlock.id_of_skeleton skeleton, rfl,
      (List.getElem?_eq_some_iff.mp there).1.le, (LlirBlock.length_of_skeleton skeleton).symm, ?_⟩
    rw [LlirBlock.operandsAt, ← swept.left position old block index here' here fresh, there]
    rfl
  | terminal position =>
    obtain ⟨visited, here, visit⟩ := Option.bind_eq_some_iff.mp visit
    cases visit
    obtain ⟨old, here', skeleton⟩ := twin_at swept.skeletons.symm here
    have length := LlirBlock.length_of_skeleton skeleton
    refine ⟨position, old, here', here, LlirBlock.id_of_skeleton skeleton, ?_, le_rfl, length.symm, ?_⟩
    · rw [FoldStep.key, here', ← length]
      rfl
    · rw [LlirBlock.operandsAt, List.getElem?_eq_none length.le, swept.terminals position old block here' here fresh]
      rfl

/-- What was visited before the turn stands before it in the order of the blocks. -/
private theorem LlirMethod.Swept.definition (distinct : (method.blocks.map LlirBlock.id).Nodup) {position index : Nat}
    {here : LlirBlock} (place : method.blocks[position]? = some here) (key : step.key method.blocks = (position, index))
    {other place' : Nat} {old new : LlirBlock} (there : method.blocks[other]? = some old) (there' : blocks[other]? = some new)
    {assignment assignment' : LlirAssignment} (listed : old.assignments[place']? = some assignment)
    (listed' : new.assignments[place']? = some assignment') :
    (Earlier method.blocks (old.id, place') (here.id, index) → result (old.id, place') assignment assignment') ∧
      (¬ Earlier method.blocks (old.id, place') (here.id, index) → assignment' = assignment) := by
  have turn : .assignment other place' ∈ method.foldSteps :=
    LlirMethod.mem_foldSteps_assignment.mpr ⟨old, there, (List.getElem?_eq_some_iff.mp listed).1⟩
  have order : .assignment other place' ∈ done ↔ Earlier method.blocks (old.id, place') (here.id, index) := by
    rw [LlirMethod.mem_done_iff split turn, key]
    constructor
    · exact fun less => ⟨other, position, ⟨by rw [there]; rfl, by rw [place]; rfl⟩, less⟩
    · rintro ⟨first, second, ⟨named, named'⟩, less⟩
      have unique {first second : Nat} {block : LlirBlock} (located : method.blocks[second]? = some block)
          (named : method.blocks[first]?.map LlirBlock.id = some block.id) : first = second := by
        rw [← List.getElem?_map] at named
        refine (List.getElem?_inj (List.getElem?_eq_some_iff.mp named).1 distinct).mp ?_
        rw [named, List.getElem?_map, located]
        rfl
      rwa [unique there named, unique place named'] at less
  refine ⟨fun before => ?_, fun after => ?_⟩
  · exact swept.visited other old new place' assignment assignment' there there' listed listed' (order.mpr before)
  · have same := swept.left other old new place' there there' fun mem => after (order.mp mem)
    rw [listed, listed'] at same
    exact Option.some.inj same

variable (distinct : (method.blocks.map LlirBlock.id).Nodup) {block : LlirBlock} {index : Nat} {operands : List LlirOperand}
  (visit : step.visit blocks = some (block, index, operands)) {identifier : String}
include distinct visit

/-- A definition of the method that reaches the turn, as the turn sees it. -/
theorem LlirMethod.Swept.exists_current {definition : LlirDefinition}
    (reaches : definition.ReachesPoint method.blocks identifier (block.id, index)) :
    ∃ definition' : LlirDefinition, definition'.ReachesPoint blocks identifier (block.id, index) ∧
      definition.SweptAs method.blocks result (block.id, index) definition'.assignment := by
  obtain ⟨position, here, place, -, same, key, -⟩ := swept.visit split visit
  obtain ⟨other, old, new, assignment', there, there', id, -, listed, listed', reaches'⟩ :=
    reaches.of_skeletons swept.skeletons
  have both := swept.definition split distinct place key there there' listed listed'
  rw [id, same] at both
  exact ⟨_, reaches', both⟩

/-- A definition that the turn sees, as it was in the method. -/
theorem LlirMethod.Swept.exists_original {definition' : LlirDefinition}
    (reaches : definition'.ReachesPoint blocks identifier (block.id, index)) :
    ∃ definition : LlirDefinition, definition.ReachesPoint method.blocks identifier (block.id, index) ∧
      definition.SweptAs method.blocks result (block.id, index) definition'.assignment := by
  obtain ⟨position, here, place, -, same, key, -⟩ := swept.visit split visit
  obtain ⟨other, new, old, assignment, there', there, -, id, listed', listed, reaches'⟩ :=
    reaches.of_skeletons swept.skeletons.symm
  have both := swept.definition split distinct place key there there' listed listed'
  rw [id, same] at both
  exact ⟨_, reaches', both⟩

end

/-- Each point of the method has its turn. -/
theorem LlirMethod.exists_turn {method : LlirMethod} {position index : Nat} {block : LlirBlock}
    (here : method.blocks[position]? = some block) (inside : index ≤ block.assignments.length) :
    ∃ done step rest, method.foldSteps = done ++ step :: rest ∧
      ∀ {result : Nat × Nat → LlirAssignment → LlirAssignment → Prop} {blocks : List LlirBlock},
        method.Swept result done blocks → ∃ new, blocks[position]? = some new ∧ new.id = block.id ∧
          step.visit blocks = some (new, index, block.operandsAt index) := by
  obtain inside | rfl := Nat.lt_or_eq_of_le inside
  · have turn := LlirMethod.mem_foldSteps_assignment.mpr ⟨block, here, inside⟩
    obtain ⟨done, rest, split⟩ := List.append_of_mem turn
    refine ⟨done, _, rest, split, fun {result blocks} swept => ?_⟩
    obtain ⟨new, here', skeleton⟩ := twin_at swept.skeletons here
    refine ⟨new, here', LlirBlock.id_of_skeleton skeleton, ?_⟩
    have same := swept.left position block new index here here' (LlirMethod.not_mem_done split)
    rw [List.getElem?_eq_getElem inside] at same
    simp [FoldStep.visit, here', same, LlirBlock.operandsAt, List.getElem?_eq_getElem inside]
  · have turn := LlirMethod.mem_foldSteps_terminal.mpr (List.getElem?_eq_some_iff.mp here).1
    obtain ⟨done, rest, split⟩ := List.append_of_mem turn
    refine ⟨done, _, rest, split, fun {result blocks} swept => ?_⟩
    obtain ⟨new, here', skeleton⟩ := twin_at swept.skeletons here
    refine ⟨new, here', LlirBlock.id_of_skeleton skeleton, ?_⟩
    have same := swept.terminals position block new here here' (LlirMethod.not_mem_done split)
    simp [FoldStep.visit, here', same, LlirBlock.operandsAt, LlirBlock.length_of_skeleton skeleton]

end Roast
