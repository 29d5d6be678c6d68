import Roast.Assembly.EmittedRuns
import Roast.Systems.Stacks

/-! How much of the stack a program needs. A budget names for each method the bytes that a call of it may take: its frame,
the arguments of any of its calls, and the budget of the method it calls. -/
namespace Roast
open Systems

def LlirAssignment.outgoingRoom : LlirAssignment → Nat
  | .methodCall _ arguments _ => stackRoom arguments.length
  | _ => 0

def LlirAssignment.calleeNeed (llir : Llir) (need : String → Nat) : LlirAssignment → Nat
  | .methodCall name _ _ => if (llir.method name).isSome then need name else 0
  | _ => 0

def LlirMethod.frameSize (method : LlirMethod) : Nat := 16 + (generateStackAllocation (fun _ => 0) method).1

/-- The budget of every method covers its frame and each of its calls. -/
def Llir.Budget (llir : Llir) (need : String → Nat) : Prop :=
  ∀ method ∈ llir.methods, method.frameSize ≤ need method.identifier ∧
    ∀ block ∈ method.blocks, ∀ assignment ∈ block.assignments,
      method.frameSize + assignment.outgoingRoom + assignment.calleeNeed llir need ≤ need method.identifier

instance (llir : Llir) (need : String → Nat) : Decidable (llir.Budget need) := by
  unfold Llir.Budget
  infer_instance

def Llir.Calls (llir : Llir) (caller callee : String) : Prop :=
  (llir.method callee).isSome ∧ ∃ method ∈ llir.methods, method.identifier = caller ∧ ∃ block ∈ method.blocks,
    ∃ arguments destination, .methodCall callee arguments destination ∈ block.assignments

def Frame.InCall (llir : Llir) (frame : Frame) (callee : String) : Prop :=
  (llir.method callee).isSome ∧
    ∃ arguments destination, frame.assignment llir = some (.methodCall callee arguments destination)

section
variable {llir : Llir} {environment : Environment} {s : MachineState} {frame : Frame} {rest : List Frame}

private theorem store_stackMove (llir : Llir) (s : MachineState) (frame : Frame) (rest : List Frame) (field : LlirField)
    (position : Nat) (value : Word) :
    ∃ next : Frame, next.method = frame.method ∧ (s.store llir frame rest field position value).frames = next :: rest := by
  unfold MachineState.store
  by_cases isGlobal : llir.IsGlobal field.identifier
  · rw [if_pos isGlobal]
    exact ⟨{ frame with index := frame.index + 1 }, rfl, rfl⟩
  · rw [if_neg isGlobal]
    exact ⟨{ frame with
      index := frame.index + 1
      locals := frame.locals.set field.identifier position ⟨value, .stored field⟩ }, rfl, rfl⟩

/-- An assignment keeps the stack or enters a callee. -/
private theorem stepAssignment_stackMove (frames : s.frames = frame :: rest) {assignment : LlirAssignment}
    (next : frame.assignment llir = some assignment) :
    StackMove Frame.method (Frame.InCall llir) s.frames
      (stepAssignment llir environment s frame rest assignment).frames := by
  have stored (before : MachineState) (field : LlirField) (position : Nat) (value : Word) :
      StackMove Frame.method (Frame.InCall llir) s.frames (before.store llir frame rest field position value).frames := by
    obtain ⟨next, same, moved⟩ := store_stackMove llir before frame rest field position value
    rw [frames, moved]
    exact .moves frame next same rest
  cases assignment with
  | unary type source destination => exact stored ..
  | binary type left right destination =>
    unfold stepAssignment
    dsimp only
    cases type.apply (s.operand llir environment frame left) (s.operand llir environment frame right) with
    | some value => exact stored ..
    | none => exact .stays _
  | arrayUpdate index value destination =>
    unfold stepAssignment
    by_cases inside : InBounds (s.operand llir environment frame index) destination
    · simp only [inside, if_true]
      exact stored ..
    · simp only [inside, if_false]
      exact .stays _
  | arrayAccess index array destination guarded =>
    unfold stepAssignment
    by_cases inside : InBounds (s.operand llir environment frame index) array
    · simp only [inside, if_true]
      exact stored ..
    · simp only [inside, if_false]
      exact stored ..
  | methodCall name arguments destination =>
    unfold stepAssignment callMethod
    dsimp only
    cases found : llir.method name with
    | some method =>
      dsimp only
      split
      · rw [frames]
        have called : method.identifier = name := (Llir.method_mem found).2
        refine .enters ⟨?_, arguments, destination, ?_⟩ rest
        · simp [enterMethod, called, found]
        · simp only [enterMethod, called, next]
      · exact .stays _
    | none =>
      dsimp only
      cases environment.imported (s.calls ++ [(name, arguments.map (s.operand llir environment frame))]) with
      | returned value => exact stored ..
      | exited status | hung => exact .stays _

/-- A terminal keeps the stack or leaves its frame. -/
private theorem stepTerminal_stackMove (frames : s.frames = frame :: rest) (terminal : LlirTerminal) :
    StackMove Frame.method (Frame.InCall llir) s.frames (stepTerminal llir environment s frame rest terminal).frames := by
  cases terminal with
  | unknown | shitYourself status => exact .stays _
  | jump block | branch branch =>
    rw [frames]
    exact .moves frame { frame with block := _, index := 0 } rfl rest
  | llirReturn source =>
    unfold stepTerminal returnValue
    cases rest with
    | nil => exact frames ▸ .ends frame
    | cons caller rest =>
      dsimp only
      cases caller.assignment llir with
      | none => exact .stays _
      | some assignment =>
        obtain ⟨next, same, moved⟩ := store_stackMove llir s caller rest
          assignment.destination 0 (s.operand llir environment frame source)
        dsimp only
        rw [frames, moved]
        exact .returns frame same rest

/-- A step moves the stack by one frame at most. -/
private theorem step_stackMove (llir : Llir) (environment : Environment) (s : MachineState) :
    StackMove Frame.method (Frame.InCall llir) s.frames (step llir environment s).frames := by
  unfold step
  by_cases running : s.status = .running
  · rw [if_pos running]
    cases frames : s.frames with
    | nil =>
      dsimp only
      exact .stays []
    | cons frame rest =>
      dsimp only
      rw [← frames]
      cases code : (llir.method frame.method).bind fun method => method.block frame.block with
      | none => exact .stays _
      | some block =>
        dsimp only
        unfold stepBlock
        cases next : block.assignments[frame.index]? with
        | none => exact stepTerminal_stackMove frames block.terminal
        | some assignment =>
          have found : frame.code llir = some block := code
          refine stepAssignment_stackMove frames ?_
          rw [Frame.assignment_eq, found, Option.bind_some, next]
  · rw [if_neg running]
    exact .stays _

end

section
variable {llir : Llir} {need : String → Nat} (budget : llir.Budget need) {main : LlirMethod}
  (found : llir.method "main" = some main)
include budget

/-- The need of a method covers its own frame. -/
theorem Llir.Budget.covers {frame : Frame} (known : (llir.method frame.method).isSome) :
    frame.size llir + frame.outgoingRoom llir ≤ need frame.method := by
  obtain ⟨method, found⟩ := Option.isSome_iff_exists.mp known
  obtain ⟨mem, name⟩ := Llir.method_mem found
  obtain ⟨small, pays⟩ := budget method mem
  rw [Frame.size_eq found fun _ => 0]
  rw [name] at small
  unfold Frame.outgoingRoom
  split
  · next call =>
    rw [Frame.assignment, found, Option.bind_some] at call
    obtain ⟨block, code, call⟩ := Option.bind_eq_some_iff.mp call
    have paid := pays block (LlirMethod.block_mem code).1 _ (List.mem_of_getElem? call)
    rw [name] at paid
    exact (Nat.le_add_right _ _).trans paid
  · exact small

/-- The need of a caller pays for its frame and the need of the callee. -/
theorem Llir.Budget.pays {frame : Frame} {callee : String} (called : frame.InCall llir callee) :
    (llir.method callee).isSome ∧ frame.size llir + frame.outgoingRoom llir + need callee ≤ need frame.method := by
  obtain ⟨known, arguments, destination, call⟩ := called
  refine ⟨known, ?_⟩
  have here := call
  rw [Frame.assignment] at here
  obtain ⟨method, found, here⟩ := Option.bind_eq_some_iff.mp here
  obtain ⟨block, code, here⟩ := Option.bind_eq_some_iff.mp here
  obtain ⟨mem, name⟩ := Llir.method_mem found
  have paid := (budget method mem).2 block (LlirMethod.block_mem code).1 _ (List.mem_of_getElem? here)
  rw [LlirAssignment.calleeNeed, if_pos known, name] at paid
  rw [Frame.size_eq found fun _ => 0, Frame.outgoingRoom_eq found code here]
  exact paid

include found

/-- In every state of a run the activations fit into the budget of `main`. -/
theorem Llir.Budget.generatedRun_fits (environment : Environment) (n : Nat) :
    Fits Frame.method (fun frame => frame.size llir + frame.outgoingRoom llir) need (fun name => (llir.method name).isSome)
      (need "main") (generatedRun llir environment main n).frames := by
  induction n with
  | zero =>
    have name : main.identifier = "main" := (Llir.method_mem found).2
    refine ⟨?_, ?_, trivial⟩
    · change (llir.method main.identifier).isSome
      rw [name, found, Option.isSome_some]
    · change need main.identifier + 0 ≤ need "main"
      rw [name, Nat.add_zero]
  | succ n ih =>
    have next := step_stackMove llir environment (generatedRun llir environment main n)
    replace next := next.fits ih fun _ _ => budget.pays
    unfold generatedRun generatedStep
    split
    · exact next
    · exact next

end

section
variable {llir : Llir}

theorem Llir.Budget.lower {need : String → Nat} (budget : llir.Budget need) {caller callee : String}
    (called : llir.Calls caller callee) : need callee < need caller := by
  obtain ⟨known, method, mem, rfl, block, inside, arguments, destination, call⟩ := called
  have paid := (budget method mem).2 block inside _ call
  rw [LlirAssignment.calleeNeed, if_pos known, LlirMethod.frameSize] at paid
  omega

end

theorem printedGlobal_budget : printedGlobalLlir.Budget fun _ => 48 := by decide +kernel

end Roast
