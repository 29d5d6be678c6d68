import Roast.Systems.Loops
import Roast.Assembly.Ssa

/-! The slots of the phis: every edge into a block claims one slot of each phi there, so that at the end the owners of the
slots are the predecessors of the block. -/
namespace Roast
open Systems

def slotOwners (slots : List PhiSlot) : List Nat := slots.filterMap Prod.snd

structure ClaimsSlot (block : Nat) (slots slots' : List PhiSlot) : Prop where
  length : slots'.length = slots.length
  owners : (slotOwners slots').Perm (block :: slotOwners slots)

theorem ClaimsSlot.head (block : Nat) (operand operand' : LlirOperand) (slots : List PhiSlot) :
    ClaimsSlot block ((operand, none) :: slots) ((operand', some block) :: slots) :=
  ⟨rfl, .refl _⟩

theorem ClaimsSlot.cons {block : Nat} {slots slots' : List PhiSlot} (slot : PhiSlot)
    (h : ClaimsSlot block slots slots') : ClaimsSlot block (slot :: slots) (slot :: slots') := by
  refine ⟨congrArg (· + 1) h.length, ?_⟩
  obtain ⟨operand, owner⟩ := slot
  cases owner with
  | none => exact h.owners
  | some owner => exact (h.owners.cons owner).trans (.swap _ _ _)

private theorem claimRenamed_claims {rename : LlirOperand → Option LlirOperand} {block : Nat}
    {slots slots' : List PhiSlot}
    (h : claimRenamed rename block slots = some slots') : ClaimsSlot block slots slots' := by
  induction slots generalizing slots' with
  | nil => cases h
  | cons slot rest ih =>
    obtain ⟨operand, owner⟩ := slot
    cases owner with
    | some owner =>
      obtain ⟨rest', later, rfl⟩ := Option.map_eq_some_iff.mp h
      exact (ih later).cons _
    | none =>
      rw [claimRenamed] at h
      cases renamed : rename operand with
      | none =>
        rw [renamed] at h
        obtain ⟨rest', later, rfl⟩ := Option.map_eq_some_iff.mp h
        exact (ih later).cons _
      | some operand' =>
        rw [renamed] at h
        obtain rfl := Option.some.inj h
        exact .head block operand operand' rest

private theorem claimLast_claims {block : Nat} {slots slots' : List PhiSlot} (h : claimLast block slots = some slots') :
    ClaimsSlot block slots slots' := by
  induction slots generalizing slots' with
  | nil => cases h
  | cons slot rest ih =>
    obtain ⟨operand, owner⟩ := slot
    cases later : claimLast block rest with
    | some rest' =>
      simp only [claimLast, later, Option.some.injEq] at h
      exact h ▸ (ih later).cons _
    | none =>
      cases owner with
      | some owner => simp [claimLast, later] at h
      | none =>
        simp only [claimLast, later, Option.some.injEq] at h
        exact h ▸ .head block operand operand rest

/-- The second strategy fails only when no slot is free. -/
private theorem claimLast_eq_none {block : Nat} {slots : List PhiSlot} (h : claimLast block slots = none) :
    (slotOwners slots).length = slots.length := by
  induction slots with
  | nil => rfl
  | cons slot rest ih =>
    obtain ⟨operand, owner⟩ := slot
    cases later : claimLast block rest with
    | some rest' => simp [claimLast, later] at h
    | none =>
      cases owner with
      | some owner => exact congrArg (· + 1) (ih later)
      | none => simp [claimLast, later] at h

/-- Whichever strategy succeeds, an edge claims one slot of a phi that has a free slot. -/
private theorem claimSlot_claims (rename : LlirOperand → Option LlirOperand) (block : Nat) {slots : List PhiSlot}
    (room : (slotOwners slots).length < slots.length) : ClaimsSlot block slots (claimSlot rename block slots) := by
  rw [claimSlot]
  cases first : claimRenamed rename block slots with
  | some slots' => exact claimRenamed_claims first
  | none =>
    cases second : claimLast block slots with
    | some slots' => exact claimLast_claims second
    | none => exact absurd (claimLast_eq_none second) room.ne

def SsaAssignment.slots : SsaAssignment → Option (List PhiSlot)
  | .plain _ => none
  | .phi _ slots => some slots

def SsaBlock.phiSlots (block : SsaBlock) : List (List PhiSlot) := block.assignments.filterMap SsaAssignment.slots

private theorem SsaBlock.mem_phiSlots {block : SsaBlock} {slots : List PhiSlot} :
    slots ∈ block.phiSlots ↔ ∃ destination, .phi destination slots ∈ block.assignments := by
  constructor
  · intro mem
    obtain ⟨assignment, inside, same⟩ := List.mem_filterMap.mp mem
    cases assignment with
    | plain assignment => cases same
    | phi destination others => exact ⟨destination, Option.some.inj same ▸ inside⟩
  · rintro ⟨destination, mem⟩
    exact List.mem_filterMap.mpr ⟨_, mem, rfl⟩

def SsaBlock.shape (block : SsaBlock) : Nat × List Nat × List Nat :=
  (block.id, block.predecessors, block.terminal.successors)

def SsaBlock.edges (block : SsaBlock) : List (Nat × Nat) :=
  block.terminal.successors.map fun target => (target, block.id)

private theorem SsaBlock.edges_of_shape {block block' : SsaBlock} (h : block.shape = block'.shape) :
    block.edges = block'.edges := by
  obtain ⟨id, rest⟩ := Prod.mk.inj h
  obtain ⟨-, successors⟩ := Prod.mk.inj rest
  rw [SsaBlock.edges, SsaBlock.edges, id, successors]

def sourcesInto (edges : List (Nat × Nat)) (id : Nat) : List Nat := (edges.filter (·.1 == id)).map Prod.snd

private theorem sourcesInto_append (edges edges' : List (Nat × Nat)) (id : Nat) :
    sourcesInto (edges ++ edges') id = sourcesInto edges id ++ sourcesInto edges' id := by
  rw [sourcesInto, List.filter_append, List.map_append]
  rfl

theorem LlirTerminal.renameOperands_successors (rename : LlirOperand → LlirOperand) (terminal : LlirTerminal) :
    (terminal.renameOperands rename).successors = terminal.successors := by
  cases terminal <;> rfl

private theorem SsaAssignment.renameOperands_slots (rename : LlirOperand → LlirOperand) (assignment : SsaAssignment) :
    (assignment.renameOperands rename).slots = assignment.slots := by
  cases assignment <;> rfl

private theorem SsaAssignment.withDestination_slots (destination : LlirField) (assignment : SsaAssignment) :
    (assignment.withDestination destination).slots = assignment.slots := by
  cases assignment <;> rfl

private theorem SsaContext.renameDestination_slots (ssa : SsaContext) (assignment : SsaAssignment) :
    (ssa.renameDestination assignment).2.2.slots = assignment.slots := by
  rw [renameDestination.eq_def]
  split
  · rfl
  · dsimp only
    split
    · rfl
    · exact assignment.withDestination_slots _

/-- The loop over the assignments changes the destinations of the phis only. -/
private theorem SsaContext.transformAssignments_slots (ssa : SsaContext) (assignments : List SsaAssignment) :
    (ssa.transformAssignments assignments).2.2.filterMap SsaAssignment.slots =
      assignments.filterMap SsaAssignment.slots := by
  induction assignments generalizing ssa with
  | nil => rfl
  | cons assignment rest ih =>
    have same := (ssa.renameDestination_slots (assignment.renameOperands ssa.renamed)).trans
      (assignment.renameOperands_slots ssa.renamed)
    rw [transformAssignments, List.filterMap_cons, List.filterMap_cons, same, ih]

private theorem SsaContext.renamePhiOperands_slots (ssa : SsaContext) (block : Nat) (next : SsaBlock) :
    (ssa.renamePhiOperands block next).phiSlots = next.phiSlots.map (claimSlot ssa.renameOperand block) := by
  rw [SsaBlock.phiSlots, SsaBlock.phiSlots, renamePhiOperands, List.filterMap_map, List.map_filterMap]
  congr 1
  funext assignment
  cases assignment <;> rfl

private theorem updateBlock_shape {change : SsaBlock → SsaBlock} (same : ∀ block, (change block).shape = block.shape)
    (id : Nat)
    (blocks : List SsaBlock) : (updateBlock id change blocks).map SsaBlock.shape = blocks.map SsaBlock.shape := by
  rw [updateBlock, List.map_map]
  refine List.map_congr_left fun block _ => ?_
  rw [Function.comp_apply]
  split
  · exact same block
  · rfl

private theorem mem_updateBlock {id : Nat} {change : SsaBlock → SsaBlock} {blocks : List SsaBlock} {block : SsaBlock}
    (mem : block ∈ updateBlock id change blocks) :
    ∃ old ∈ blocks, old.id = id ∧ block = change old ∨ old.id ≠ id ∧ block = old := by
  obtain ⟨old, inside, rfl⟩ := List.mem_map.mp mem
  refine ⟨old, inside, ?_⟩
  by_cases same : old.id = id
  · exact .inl ⟨same, if_pos same⟩
  · exact .inr ⟨same, if_neg same⟩

structure PhisClaimed (edges claimed : List (Nat × Nat)) (blocks : List SsaBlock) : Prop where
  predecessors : ∀ block ∈ blocks, block.predecessors.Perm (sourcesInto edges block.id)
  length : ∀ block ∈ blocks, ∀ slots ∈ block.phiSlots, slots.length = block.predecessors.length
  owners : ∀ block ∈ blocks, ∀ slots ∈ block.phiSlots, (slotOwners slots).Perm (sourcesInto claimed block.id)

section
variable {edges claimed : List (Nat × Nat)} {blocks : List SsaBlock}

/-- An edge that is still to come finds a free slot in every phi of its target. -/
theorem PhisClaimed.room (h : PhisClaimed edges claimed blocks) {target source : Nat} {later : List (Nat × Nat)}
    (split : edges = claimed ++ (target, source) :: later) {block : SsaBlock} (mem : block ∈ blocks)
    (id : block.id = target) {slots : List PhiSlot} (inside : slots ∈ block.phiSlots) :
    (slotOwners slots).length < slots.length := by
  have all := (h.predecessors block mem).length_eq
  have owned := (h.owners block mem slots inside).length_eq
  rw [split, sourcesInto_append, List.length_append, id] at all
  have here : 0 < (sourcesInto ((target, source) :: later) target).length := by
    simp [sourcesInto]
  rw [h.length block mem slots inside, all, owned, id]
  exact Nat.lt_add_of_pos_right here

/-- `rename_phi_operands` lets its edge through. -/
theorem PhisClaimed.renamePhiOperands (h : PhisClaimed edges claimed blocks) (ssa : SsaContext) {target source : Nat}
    {later : List (Nat × Nat)} (split : edges = claimed ++ (target, source) :: later) :
    PhisClaimed edges (claimed ++ [(target, source)])
      (updateBlock target (ssa.renamePhiOperands source) blocks) := by
  have into (id : Nat) : sourcesInto (claimed ++ [(target, source)]) id =
      sourcesInto claimed id ++ if id = target then [source] else [] := by
    rw [sourcesInto_append]
    by_cases same : id = target
    · simp [sourcesInto, same]
    · simp [sourcesInto, same, Ne.symm same]
  constructor
  · intro block mem
    obtain ⟨old, inside, ⟨-, rfl⟩ | ⟨-, rfl⟩⟩ := mem_updateBlock mem
    · exact h.predecessors old inside
    · exact h.predecessors block inside
  · intro block mem slots of
    obtain ⟨old, inside, ⟨id, rfl⟩ | ⟨-, rfl⟩⟩ := mem_updateBlock mem
    · rw [SsaContext.renamePhiOperands_slots] at of
      obtain ⟨slots, known, rfl⟩ := List.mem_map.mp of
      exact (claimSlot_claims _ source (h.room split inside id known)).length.trans (h.length old inside slots known)
    · exact h.length block inside slots of
  · intro block mem slots of
    obtain ⟨old, inside, ⟨id, rfl⟩ | ⟨other, rfl⟩⟩ := mem_updateBlock mem
    · rw [SsaContext.renamePhiOperands_slots] at of
      obtain ⟨slots, known, rfl⟩ := List.mem_map.mp of
      have claims := (claimSlot_claims ssa.renameOperand source (h.room split inside id known)).owners
      refine claims.trans (((h.owners old inside slots known).cons source).trans ?_)
      rw [into, SsaContext.renamePhiOperands, if_pos id]
      exact (List.perm_append_singleton _ _).symm
    · rw [into, if_neg other, List.append_nil]
      exact h.owners block inside slots of

/-- The edges out of one block. -/
theorem PhisClaimed.renamePhis (h : PhisClaimed edges claimed blocks) (ssa : SsaContext) (source : Nat)
    {targets : List Nat} {later : List (Nat × Nat)}
    (split : edges = claimed ++ (targets.map fun target => (target, source)) ++ later) :
    PhisClaimed edges (claimed ++ targets.map fun target => (target, source))
      (targets.foldl (fun blocks next => updateBlock next (ssa.renamePhiOperands source) blocks) blocks) := by
  induction targets generalizing claimed blocks with
  | nil => exact (List.append_nil claimed).symm ▸ h
  | cons target rest ih =>
    have regroup : claimed ++ (target :: rest).map (fun target => (target, source)) =
        (claimed ++ [(target, source)]) ++ rest.map fun target => (target, source) := by
      rw [List.map_cons, List.append_assoc, List.singleton_append]
    have first := h.renamePhiOperands ssa (split.trans (List.append_assoc _ _ _))
    rw [regroup] at split ⊢
    exact ih first split

/-- A block may change while its slots and its place stay as they are. -/
theorem PhisClaimed.set (h : PhisClaimed edges claimed blocks) {position : Nat} {old new : SsaBlock}
    (at_ : blocks[position]? = some old) (shape : new.shape = old.shape) (slots : new.phiSlots = old.phiSlots) :
    PhisClaimed edges claimed (blocks.set position new) := by
  have mem := List.mem_of_getElem? at_
  obtain ⟨id, rest⟩ := Prod.mk.inj shape
  have predecessors := (Prod.mk.inj rest).1
  constructor
  · intro block inside
    obtain inside | rfl := List.mem_or_eq_of_mem_set inside
    · exact h.predecessors block inside
    · exact id ▸ predecessors ▸ h.predecessors old mem
  · intro block inside
    obtain inside | rfl := List.mem_or_eq_of_mem_set inside
    · exact h.length block inside
    · exact slots ▸ predecessors ▸ h.length old mem
  · intro block inside
    obtain inside | rfl := List.mem_or_eq_of_mem_set inside
    · exact h.owners block inside
    · exact slots ▸ id ▸ h.owners old mem

end

private theorem updateBlocks_shape (change : SsaBlock → SsaBlock) (same : ∀ block, (change block).shape = block.shape)
    (ids : List Nat) (blocks : List SsaBlock) :
    (ids.foldl (fun blocks id => updateBlock id change blocks) blocks).map SsaBlock.shape =
      blocks.map SsaBlock.shape := by
  induction ids generalizing blocks with
  | nil => rfl
  | cons id rest ih => exact (ih _).trans (updateBlock_shape same id blocks)

/-- `transform_block` changes its block within its place, and then it lets the edges through. -/
private theorem transformBlock_eq {state : SsaContext × List SsaBlock} {position : Nat} {block : SsaBlock}
    (at_ : state.2[position]? = some block) :
    ∃ ssa new, new.shape = block.shape ∧ new.phiSlots = block.phiSlots ∧ transformBlock state position = (ssa,
      block.terminal.successors.foldl (fun blocks next => updateBlock next (ssa.renamePhiOperands block.id) blocks)
        (state.2.set position new)) := by
  have successors := LlirTerminal.renameOperands_successors
    (state.1.transformAssignments block.assignments).1.renamed block.terminal
  rw [transformBlock, at_, ← successors]
  refine ⟨(state.1.transformAssignments block.assignments).1, { block with
    fields := block.fields ++ (state.1.transformAssignments block.assignments).2.1
    assignments := (state.1.transformAssignments block.assignments).2.2
    terminal := block.terminal.renameOperands (state.1.transformAssignments block.assignments).1.renamed }, ?_, ?_, rfl⟩
  · exact congrArg (fun successors => (block.id, block.predecessors, successors)) successors
  · exact state.1.transformAssignments_slots block.assignments

/-- Transforming a block keeps the ids, the predecessors and the successors. -/
private theorem transformBlock_shape (state : SsaContext × List SsaBlock) (position : Nat) :
    (transformBlock state position).2.map SsaBlock.shape = state.2.map SsaBlock.shape := by
  cases at_ : state.2[position]? with
  | none => rw [transformBlock, at_]
  | some block =>
    obtain ⟨ssa, new, shape, -, run⟩ := transformBlock_eq at_
    have placed : (state.2.set position new).map SsaBlock.shape = state.2.map SsaBlock.shape := by
      obtain ⟨inside, rfl⟩ := List.getElem?_eq_some_iff.mp at_
      rw [List.map_set, shape, ← List.getElem_map SsaBlock.shape]
      · exact List.set_getElem_self _
      · simpa using inside
    rw [run]
    exact (updateBlocks_shape (ssa.renamePhiOperands block.id) (fun _ => rfl) _ _).trans placed

/-- `transform_block` lets the edges out of its block through. -/
private theorem transformBlock_claims {edges claimed : List (Nat × Nat)} (later : List (Nat × Nat))
    {state : SsaContext × List SsaBlock}
    {position : Nat} {block : SsaBlock} (h : PhisClaimed edges claimed state.2)
    (at_ : state.2[position]? = some block) (split : edges = claimed ++ block.edges ++ later) :
    PhisClaimed edges (claimed ++ block.edges) (transformBlock state position).2 := by
  obtain ⟨ssa, new, shape, slots, run⟩ := transformBlock_eq at_
  rw [run]
  exact (h.set at_ shape slots).renamePhis ssa block.id split

private theorem SsaContext.placePhis_shape (ssa : SsaContext) (blocks : List SsaBlock) :
    (ssa.placePhis blocks).map SsaBlock.shape = blocks.map SsaBlock.shape := by
  induction blocks generalizing ssa with
  | nil => rfl
  | cons block rest ih =>
    rw [placePhis, List.map_cons, List.map_cons, ih]
    split
    · rfl
    · rfl

/-- A block before the transform: a phi has one free slot for each predecessor. -/
def SsaBlock.Unclaimed (block : SsaBlock) : Prop :=
  ∀ slots ∈ block.phiSlots, slots.length = block.predecessors.length ∧ slotOwners slots = []

private theorem SsaContext.createPhiAssignments_unclaimed (ssa : SsaContext) {block : SsaBlock}
    (h : block.phiSlots = []) :
    (ssa.createPhiAssignments block).Unclaimed := by
  intro slots mem
  obtain ⟨destination, inside⟩ := SsaBlock.mem_phiSlots.mp mem
  obtain new | old := List.mem_append.mp inside
  · obtain ⟨field, -, same⟩ := List.mem_map.mp (List.mem_reverse.mp new)
    obtain ⟨-, rfl⟩ := SsaAssignment.phi.inj same
    refine ⟨List.length_map _, ?_⟩
    rw [slotOwners, List.filterMap_map]
    exact List.filterMap_eq_nil_iff.mpr fun _ _ => rfl
  · have phi := SsaBlock.mem_phiSlots.mpr ⟨destination, old⟩
    rw [h] at phi
    cases phi

/-- The phis are placed with free slots. -/
private theorem SsaContext.placePhis_unclaimed (ssa : SsaContext) {blocks : List SsaBlock}
    (h : ∀ block ∈ blocks, block.phiSlots = []) : ∀ block ∈ ssa.placePhis blocks, block.Unclaimed := by
  induction blocks generalizing ssa with
  | nil => simp [placePhis]
  | cons block rest ih =>
    obtain ⟨first, others⟩ := List.forall_mem_cons.mp h
    rw [placePhis]
    refine List.forall_mem_cons.mpr ⟨?_, ih _ others⟩
    split
    · exact ssa.createPhiAssignments_unclaimed first
    · intro slots mem
      rw [first] at mem
      cases mem

def LlirMethod.placed (method : LlirMethod) : List SsaBlock :=
  (ssaContextNew.addDefinedFields method.arguments).placePhis (method.blocks.map LlirBlock.toSsa)

private theorem LlirMethod.placed_shape (method : LlirMethod) :
    method.placed.map SsaBlock.shape =
      method.blocks.map fun block => (block.id, block.predecessors, block.terminal.successors) := by
  rw [placed, SsaContext.placePhis_shape, List.map_map]
  rfl

private theorem LlirMethod.placed_edges (method : LlirMethod) : method.placed.flatMap SsaBlock.edges =
    method.blocks.flatMap fun block => block.terminal.successors.map fun target => (target, block.id) := by
  have shapes (blocks : List SsaBlock) : blocks.flatMap SsaBlock.edges = (blocks.map SsaBlock.shape).flatMap
      fun shape => shape.2.2.map fun target => (target, shape.1) := by
    rw [List.flatMap_map]
    rfl
  rw [shapes, placed_shape, List.flatMap_map]

private theorem LlirMethod.placed_unclaimed (method : LlirMethod) : ∀ block ∈ method.placed, block.Unclaimed := by
  apply SsaContext.placePhis_unclaimed
  intro block mem
  obtain ⟨original, -, rfl⟩ := List.mem_map.mp mem
  rw [SsaBlock.phiSlots, LlirBlock.toSsa, List.filterMap_map]
  exact List.filterMap_eq_nil_iff.mpr fun _ _ => rfl

/-- The loop keeps the graph, and after it the edges of the blocks that it has been through have claimed their slots. -/
private theorem transformBlocks_claims {blocks : List SsaBlock} (ssa : SsaContext)
    (start : PhisClaimed (blocks.flatMap SsaBlock.edges) [] blocks) :
    ((List.range blocks.length).foldl transformBlock (ssa, blocks)).2.map SsaBlock.shape = blocks.map SsaBlock.shape ∧
      PhisClaimed (blocks.flatMap SsaBlock.edges) (blocks.flatMap SsaBlock.edges)
        ((List.range blocks.length).foldl transformBlock (ssa, blocks)).2 := by
  have run := @foldl_range_keeps _ transformBlock (fun n state => state.2.map SsaBlock.shape = blocks.map SsaBlock.shape ∧
    PhisClaimed (blocks.flatMap SsaBlock.edges) ((blocks.take n).flatMap SsaBlock.edges) state.2)
    (ssa, blocks) blocks.length ⟨rfl, start⟩
  rw [List.take_length] at run
  refine run fun n inside state ⟨shape, claimed⟩ => ⟨(transformBlock_shape state n).trans shape, ?_⟩
  obtain ⟨block, at_, same⟩ : ∃ block, state.2[n]? = some block ∧ block.shape = blocks[n].shape := by
    have here := congrArg (·[n]?) shape
    simpa [List.getElem?_map, inside] using here
  have taken : (blocks.take (n + 1)).flatMap SsaBlock.edges =
      (blocks.take n).flatMap SsaBlock.edges ++ block.edges := by
    rw [SsaBlock.edges_of_shape same, List.take_succ_eq_append_getElem inside, List.flatMap_append,
      List.flatMap_singleton]
  rw [taken]
  refine transformBlock_claims ((blocks.drop (n + 1)).flatMap SsaBlock.edges) claimed at_ ?_
  rw [← taken, ← List.flatMap_append, List.take_append_drop]

/-- Every phi has one slot for each predecessor of its block, and the predecessors own the slots. -/
def SsaBlock.PhisFilled (block : SsaBlock) : Prop :=
  ∀ destination slots, .phi destination slots ∈ block.assignments →
    slots.length = block.predecessors.length ∧ (slots.map Prod.snd).Perm (block.predecessors.map some)

private theorem slotOwners_map_some {slots : List PhiSlot} (owned : ∀ slot ∈ slots, slot.2.isSome) :
    (slotOwners slots).map some = slots.map Prod.snd := by
  induction slots with
  | nil => rfl
  | cons slot rest ih =>
    obtain ⟨here, others⟩ := List.forall_mem_cons.mp owned
    obtain ⟨owner, same⟩ := Option.isSome_iff_exists.mp here
    have first : slotOwners (slot :: rest) = owner :: slotOwners rest := by
      rw [slotOwners, List.filterMap_cons, same]
      rfl
    rw [first, List.map_cons, List.map_cons, ih others, same]

theorem PhisClaimed.filled {edges : List (Nat × Nat)} {blocks : List SsaBlock} (h : PhisClaimed edges edges blocks)
    {block : SsaBlock} (mem : block ∈ blocks) : block.PhisFilled := by
  intro destination slots phi
  have inside := SsaBlock.mem_phiSlots.mpr ⟨destination, phi⟩
  have length := h.length block mem slots inside
  have owners : (slotOwners slots).Perm block.predecessors :=
    (h.owners block mem slots inside).trans (h.predecessors block mem).symm
  refine ⟨length, ?_⟩
  have owned := List.filterMap_length_eq_length.mp (owners.length_eq.trans length.symm)
  rw [← slotOwners_map_some owned]
  exact owners.map some

theorem LlirMethod.WellFormed.transformMethod {method : LlirMethod} (h : method.WellFormed) :
    (transformMethod method).blocks.map SsaBlock.shape =
        method.blocks.map (fun block => (block.id, block.predecessors, block.terminal.successors)) ∧
      ∀ block ∈ (transformMethod method).blocks, block.PhisFilled := by
  have start : PhisClaimed (method.placed.flatMap SsaBlock.edges) [] method.placed := by
    constructor
    · intro block mem
      have shape := List.mem_map_of_mem (f := SsaBlock.shape) mem
      rw [method.placed_shape] at shape
      obtain ⟨original, inside, same⟩ := List.mem_map.mp shape
      obtain ⟨id, rest⟩ := Prod.mk.inj same
      rw [← id, ← (Prod.mk.inj rest).1, method.placed_edges, sourcesInto, predecessors_of_pairs]
      exact h.predecessors original inside
    · exact fun block mem slots inside => (method.placed_unclaimed block mem slots inside).1
    · intro block mem slots inside
      rw [(method.placed_unclaimed block mem slots inside).2]
      rfl
  obtain ⟨shape, claimed⟩ := transformBlocks_claims ssaContextNew start
  exact ⟨shape.trans method.placed_shape, fun block mem => claimed.filled mem⟩

def phisOf (blocks : List SsaBlock) : List (List (List PhiSlot)) := blocks.map SsaBlock.phiSlots

/-- The copies for a phi with claimed slots are no phis. -/
private theorem removePhiOperands_phis (destination : LlirField) {slots : List PhiSlot}
    (owned : ∀ slot ∈ slots, slot.2.isSome)
    (blocks : List SsaBlock) :
    ∃ blocks', removePhiOperands destination slots blocks = some blocks' ∧ phisOf blocks' = phisOf blocks := by
  induction slots generalizing blocks with
  | nil => exact ⟨blocks, rfl, rfl⟩
  | cons slot rest ih =>
    obtain ⟨here, others⟩ := List.forall_mem_cons.mp owned
    obtain ⟨operand, owner⟩ := slot
    obtain ⟨block, rfl⟩ := Option.isSome_iff_exists.mp here
    obtain ⟨blocks', run, same⟩ := ih others (updateBlock block (SsaBlock.addCopy destination operand) blocks)
    refine ⟨blocks', run, same.trans ?_⟩
    rw [phisOf, phisOf, updateBlock, List.map_map]
    refine List.map_congr_left fun other _ => ?_
    rw [Function.comp_apply]
    split
    · rw [SsaBlock.phiSlots, SsaBlock.addCopy, List.filterMap_append]
      exact List.append_nil _
    · rfl

/-- Where every slot has an owner, no assertion of the inverse fails. -/
private theorem inverseTransformMethod_isSome {method : SsaMethod}
    (owned : ∀ phis ∈ phisOf method.blocks, ∀ slots ∈ phis, ∀ slot ∈ slots, slot.2.isSome) :
    (inverseTransformMethod method).isSome := by
  have step (position : Nat) (_ : position ∈ List.range method.blocks.length) (blocks : List SsaBlock)
      (same : phisOf blocks = phisOf method.blocks) :
      ∃ blocks', inverseTransformBlock blocks position = some blocks' ∧ phisOf blocks' = phisOf method.blocks := by
    rw [inverseTransformBlock]
    cases at_ : blocks[position]? with
    | none => exact ⟨blocks, rfl, same⟩
    | some block =>
      have listed : block.phiSlots ∈ phisOf method.blocks :=
        same ▸ List.mem_map_of_mem (List.mem_of_getElem? at_)
      refine foldlM_keeps same fun assignment mem state known => ?_
      cases assignment with
      | plain assignment => exact ⟨state, rfl, known⟩
      | phi destination slots =>
        have inside := SsaBlock.mem_phiSlots.mpr ⟨destination, mem⟩
        obtain ⟨state', run, kept⟩ := removePhiOperands_phis destination (owned _ listed slots inside) state
        exact ⟨state', run, kept.trans known⟩
  obtain ⟨blocks, run, -⟩ := @foldlM_keeps _ _ inverseTransformBlock (fun blocks => phisOf blocks = phisOf method.blocks)
    method.blocks (List.range method.blocks.length) rfl step
  rw [inverseTransformMethod, run]
  rfl

theorem SsaBlock.PhisFilled.owned {block : SsaBlock} (h : block.PhisFilled) {slots : List PhiSlot}
    (mem : slots ∈ block.phiSlots) : ∀ slot ∈ slots, slot.2.isSome := by
  intro slot inside
  obtain ⟨destination, phi⟩ := SsaBlock.mem_phiSlots.mp mem
  have owner := (h destination slots phi).2.subset (List.mem_map_of_mem inside)
  obtain ⟨predecessor, -, same⟩ := List.mem_map.mp owner
  exact same ▸ rfl

/-- The transform of a lowered program keeps the graphs and fills the slots of every phi, and the way back finds them so. -/
theorem accepts_phisFilled {program analyzed : IrProgram} (source : program.FromSource)
    (accepted : Accepts program analyzed) {llir : Llir} (lowered : llirGeneratorGenerateLlir analyzed = some llir) :
    ((ssaTransform llir).methods.map fun method => method.blocks.map SsaBlock.shape) =
        llir.methods.map (fun method =>
          method.blocks.map fun block => (block.id, block.predecessors, block.terminal.successors)) ∧
      (∀ method ∈ (ssaTransform llir).methods, ∀ block ∈ method.blocks, block.PhisFilled) ∧
      (ssaInverseTransform (ssaTransform llir)).isSome := by
  have wellFormed : ∀ method ∈ llir.methods, method.WellFormed := by
    obtain ⟨rfl, -⟩ := llirGeneratorGenerateLlir_eq lowered
    exact (accepts_ready source accepted).wellFormed.methods
  have filled : ∀ method ∈ (ssaTransform llir).methods, ∀ block ∈ method.blocks, block.PhisFilled := by
    intro method mem
    obtain ⟨original, inside, rfl⟩ := List.mem_map.mp mem
    exact (wellFormed original inside).transformMethod.2
  refine ⟨?_, filled, ?_⟩
  · rw [ssaTransform, List.map_map]
    exact List.map_congr_left fun method mem => (wellFormed method mem).transformMethod.1
  · have back : ∀ method ∈ (ssaTransform llir).methods, (inverseTransformMethod method).isSome := by
      intro method mem
      refine inverseTransformMethod_isSome fun phis listed slots inside => ?_
      obtain ⟨block, of, rfl⟩ := List.mem_map.mp listed
      exact (filled method mem block of).owned inside
    have each (method : SsaMethod) (mem : method ∈ (ssaTransform llir).methods) :
        inverseTransformMethod method = some ((inverseTransformMethod method).getD method) := by
      obtain ⟨inverse, run⟩ := Option.isSome_iff_exists.mp (back method mem)
      rw [run]
      rfl
    rw [ssaInverseTransform, mapM_eq_some each]
    rfl

/-- Here the loop has an unreachable predecessor, and its phis are there. -/
theorem accepts_phisFilled_shadowing :
    (∃ method ∈ (ssaTransform (generateLlir (semanticsAnalyze shadowing).2).1).methods,
      ∃ block ∈ method.blocks, block.phiSlots ≠ []) ∧
    (∀ method ∈ (ssaTransform (generateLlir (semanticsAnalyze shadowing).2).1).methods,
      ∀ block ∈ method.blocks, block.PhisFilled) ∧
    (ssaInverseTransform (ssaTransform (generateLlir (semanticsAnalyze shadowing).2).1)).isSome :=
  ⟨by decide +kernel, (accepts_phisFilled (by decide +kernel : shadowing.FromSource)
    (Prod.ext (by decide +kernel) rfl) (by decide +kernel)).2⟩

end Roast
