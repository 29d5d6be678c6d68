import Roast.Optimizations.Histories

/-! Programs that differ in one block. Where the two blocks do the same in a state, the machine does the same with both
programs. -/
namespace Roast
open Systems

def LlirMethod.signature (method : LlirMethod) : String × List LlirField × Option Nat :=
  (method.identifier, method.arguments, method.blocks.head?.map LlirBlock.id)

def LlirBlock.edges (block : LlirBlock) : Nat × List Nat × List Nat :=
  (block.id, block.predecessors, block.terminal.successors)

def LlirBlock.skeleton (block : LlirBlock) : (Nat × List Nat × List Nat) × List LlirField :=
  (block.edges, block.assignments.map LlirAssignment.destination)

/-- Blocks that a search and a caller cannot tell apart. -/
structure LlirBlock.Alike (old new : LlirBlock) : Prop where
  edges : new.edges = old.edges
  destinations : new.assignments.map LlirAssignment.destination = old.assignments.map LlirAssignment.destination

theorem LlirBlock.Alike.skeleton {old new : LlirBlock} (alike : old.Alike new) : new.skeleton = old.skeleton :=
  Prod.ext alike.edges alike.destinations

theorem LlirBlock.Alike.id {old new : LlirBlock} (alike : old.Alike new) : new.id = old.id := congrArg Prod.fst alike.edges

structure Llir.SameCalls (llir llir' : Llir) : Prop where
  fields : llir'.fields = llir.fields
  signatures : ∀ name, (llir'.method name).map LlirMethod.signature = (llir.method name).map LlirMethod.signature
  destinations : ∀ frame : Frame, (frame.assignment llir').map LlirAssignment.destination =
    (frame.assignment llir).map LlirAssignment.destination

section
variable {llir llir' : Llir} (same : llir'.fields = llir.fields) (environment : Environment) (s : MachineState)
  (frame : Frame)
include same

private theorem Llir.isGlobal_of_fields (name : String) : llir'.IsGlobal name ↔ llir.IsGlobal name := by
  rw [Llir.IsGlobal, Llir.IsGlobal, same]

private theorem Llir.cell_of_fields (field : LlirField) (position : Nat) :
    s.cell llir' frame field position = s.cell llir frame field position := by
  simp only [MachineState.cell, Llir.isGlobal_of_fields same]

private theorem Llir.operand_of_fields (operand : LlirOperand) :
    s.operand llir' environment frame operand = s.operand llir environment frame operand := by
  cases operand with
  | field field => exact congrArg Cell.value (Llir.cell_of_fields same s frame field 0)
  | literal literal => rfl
  | string string => rfl

end

section
variable {llir llir' : Llir} (same : llir.SameCalls llir') (environment : Environment) (s : MachineState) (frame : Frame)
  (rest : List Frame)
include same

theorem Llir.SameCalls.store (field : LlirField) (position : Nat) (value : Word) :
    s.store llir' frame rest field position value = s.store llir frame rest field position value := by
  simp only [MachineState.store, Llir.isGlobal_of_fields same.fields]

/-- A call does the same where the signatures are the same. -/
theorem Llir.SameCalls.callMethod (name : String) (values : List Word) (destination : LlirField) :
    callMethod llir' environment s frame rest name values destination =
      callMethod llir environment s frame rest name values destination := by
  have signature := same.signatures name
  rw [Roast.callMethod, Roast.callMethod]
  dsimp only
  cases found : llir.method name with
  | none =>
    rw [found, Option.map_none, Option.map_eq_none_iff] at signature
    rw [signature]
    dsimp only
    split
    · exact same.store _ frame rest destination 0 _
    · rfl
    · rfl
  | some method =>
    rw [found, Option.map_some] at signature
    obtain ⟨method', found', alike⟩ := Option.map_eq_some_iff.mp signature
    obtain ⟨identifier, alike⟩ := Prod.mk.inj alike
    obtain ⟨arguments, entry⟩ := Prod.mk.inj alike
    have entered (values : List Word) : enterMethod environment s.activations method' values =
        enterMethod environment s.activations method values := by
      rw [enterMethod, enterMethod, identifier, arguments, entry]
    rw [found']
    dsimp only
    rw [arguments, entered]

theorem Llir.SameCalls.stepAssignment (assignment : LlirAssignment) :
    stepAssignment llir' environment s frame rest assignment =
      stepAssignment llir environment s frame rest assignment := by
  have operands : s.operand llir' environment frame = s.operand llir environment frame :=
    funext (Llir.operand_of_fields same.fields environment s frame)
  cases assignment with
  | unary type source destination =>
    rw [Roast.stepAssignment, Roast.stepAssignment, operands, same.store]
  | binary type left right destination =>
    rw [Roast.stepAssignment, Roast.stepAssignment, operands]
    simp only [same.store]
  | arrayUpdate index value destination =>
    rw [Roast.stepAssignment, Roast.stepAssignment, operands]
    simp only [same.store]
  | arrayAccess index array destination guarded =>
    rw [Roast.stepAssignment, Roast.stepAssignment, operands]
    simp only [same.store, Llir.cell_of_fields same.fields]
  | methodCall name arguments destination =>
    rw [Roast.stepAssignment, Roast.stepAssignment, operands, same.callMethod]

theorem Llir.SameCalls.returnValue (value : Word) : returnValue llir' s rest value = returnValue llir s rest value := by
  cases rest with
  | nil => rfl
  | cons caller rest =>
    have destination := same.destinations caller
    rw [Roast.returnValue, Roast.returnValue]
    cases here : caller.assignment llir with
    | none =>
      rw [here, Option.map_none, Option.map_eq_none_iff] at destination
      rw [destination]
    | some assignment =>
      rw [here, Option.map_some] at destination
      obtain ⟨assignment', here', alike⟩ := Option.map_eq_some_iff.mp destination
      rw [here']
      dsimp only
      rw [alike, same.store]

theorem Llir.SameCalls.stepTerminal (terminal : LlirTerminal) :
    stepTerminal llir' environment s frame rest terminal = stepTerminal llir environment s frame rest terminal := by
  cases terminal with
  | branch branch => rw [Roast.stepTerminal, Roast.stepTerminal, Llir.operand_of_fields same.fields, Llir.operand_of_fields same.fields]
  | llirReturn source => rw [Roast.stepTerminal, Roast.stepTerminal, Llir.operand_of_fields same.fields, same.returnValue]
  | unknown | jump | shitYourself => rfl

theorem Llir.SameCalls.stepBlock (block : LlirBlock) :
    stepBlock llir' environment s frame rest block = stepBlock llir environment s frame rest block := by
  rw [Roast.stepBlock, Roast.stepBlock]
  split
  · exact same.stepAssignment environment s frame rest _
  · exact same.stepTerminal environment s frame rest _

end

structure Llir.Replaced (llir llir' : Llir) (method : LlirMethod) (position : Nat) (old new : LlirBlock) : Prop where
  fields : llir'.fields = llir.fields
  distinct : (method.blocks.map LlirBlock.id).Nodup
  here : method.blocks[position]? = some old
  before : llir.method method.identifier = some method
  after : llir'.method method.identifier = some { method with blocks := method.blocks.set position new }
  others : ∀ name, name ≠ method.identifier → llir'.method name = llir.method name
  alike : old.Alike new

section
variable {llir llir' : Llir} {method : LlirMethod} {position : Nat} {old new : LlirBlock}
  (replaced : llir.Replaced llir' method position old new)
include replaced

/-- A frame in the block finds the new one. -/
private theorem Llir.Replaced.code_of_inside {frame : Frame} (inside : frame.method = method.identifier)
    (block : frame.block = old.id) : frame.code llir = some old ∧ frame.code llir' = some new := by
  rw [Frame.code, Frame.code, inside, block, replaced.before, replaced.after, Option.bind_some, Option.bind_some]
  exact ⟨find?_key replaced.distinct (List.mem_of_getElem? replaced.here),
    (find?_key_set replaced.distinct replaced.here replaced.alike.id old.id).trans (if_pos rfl)⟩

/-- Every other frame finds the same block in both programs. -/
private theorem Llir.Replaced.code_of_outside {frame : Frame}
    (outside : ¬ (frame.method = method.identifier ∧ frame.block = old.id)) :
    frame.code llir' = frame.code llir := by
  rw [Frame.code, Frame.code]
  by_cases inside : frame.method = method.identifier
  · rw [inside, replaced.before, replaced.after, Option.bind_some, Option.bind_some]
    refine (find?_key_set replaced.distinct replaced.here replaced.alike.id frame.block).trans (if_neg fun same => ?_)
    exact outside ⟨inside, same.symm⟩
  · rw [replaced.others frame.method inside]

/-- Replacing the blocks of a method keeps the signatures. -/
private theorem Llir.Replaced.sameCalls : llir.SameCalls llir' := by
  refine ⟨replaced.fields, fun name => ?_, fun frame => ?_⟩
  · by_cases inside : name = method.identifier
    · subst inside
      rw [replaced.before, replaced.after, Option.map_some, Option.map_some, LlirMethod.signature, LlirMethod.signature]
      dsimp only
      rw [← List.head?_map, ← List.head?_map, map_set_of_same LlirBlock.id replaced.here replaced.alike.id]
    · rw [replaced.others name inside]
  · rw [Frame.assignment_eq, Frame.assignment_eq]
    by_cases inside : frame.method = method.identifier ∧ frame.block = old.id
    · obtain ⟨code, code'⟩ := replaced.code_of_inside inside.1 inside.2
      rw [code, code', Option.bind_some, Option.bind_some, ← List.getElem?_map, ← List.getElem?_map,
        replaced.alike.destinations]
    · rw [replaced.code_of_outside inside]

variable {environment : Environment}

/-- One step is the same where the two blocks do the same. -/
theorem Llir.Replaced.step_eq {s : MachineState}
    (agree : ∀ frame rest, s.status = .running → s.frames = frame :: rest → frame.method = method.identifier →
      frame.block = old.id → stepBlock llir environment s frame rest new = stepBlock llir environment s frame rest old) :
    step llir' environment s = step llir environment s := by
  by_cases running : s.status = .running
  · cases frames : s.frames with
    | nil => simp only [step, running, frames, if_true]
    | cons frame rest =>
      by_cases inside : frame.method = method.identifier ∧ frame.block = old.id
      · obtain ⟨code, code'⟩ := replaced.code_of_inside inside.1 inside.2
        rw [step_of_code running frames code, step_of_code running frames code', replaced.sameCalls.stepBlock]
        exact agree frame rest running frames inside.1 inside.2
      · cases code : frame.code llir with
        | none =>
          rw [step_of_no_code running frames code,
            step_of_no_code running frames ((replaced.code_of_outside inside).trans code)]
        | some block =>
          rw [step_of_code running frames code,
            step_of_code running frames ((replaced.code_of_outside inside).trans code), replaced.sameCalls.stepBlock]
  · rw [step, step, if_neg running, if_neg running]

/-- By induction: so are the runs. -/
theorem Llir.Replaced.run_eq {start : MachineState}
    (agree : ∀ n frame rest, (run llir environment start n).status = .running →
      (run llir environment start n).frames = frame :: rest → frame.method = method.identifier → frame.block = old.id →
      stepBlock llir environment (run llir environment start n) frame rest new =
        stepBlock llir environment (run llir environment start n) frame rest old) :
    run llir' environment start = run llir environment start := by
  funext n
  induction n with
  | zero => rfl
  | succ n ih =>
    rw [run, run, ih]
    exact replaced.step_eq (agree n)

end

end Roast
