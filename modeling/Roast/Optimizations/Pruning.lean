import Roast.Optimizations.DeadCodeElimination
import Roast.Optimizations.Outline
import Roast.Assembly.ArraySafety
import Roast.Assembly.CallStack
import Roast.Systems.Simulation

/-! Dead code elimination preserves meaning: the machine that runs the pruned program leaves out the removed assignments,
and the two stores agree on the live names. -/
namespace Roast
open Systems

def Llir.prune (llir : Llir) (live : LlirMethod → List String) : Llir :=
  { llir with methods := llir.methods.map fun method => method.prune (live method) }

structure Llir.KeepsLive (llir : Llir) (live : LlirMethod → List String) : Prop where
  needs : ∀ method ∈ llir.methods, IsLiveSet llir.fields method {name | name ∈ live method}
  arrays : ∀ method ∈ llir.methods, ∀ block ∈ method.blocks, ∀ assignment ∈ block.assignments,
    ∀ array ∈ assignment.array, array.identifier ∈ live method

section
variable {llir : Llir} {live : LlirMethod → List String}

private theorem Llir.prune_method (name : String) :
    (llir.prune live).method name = (llir.method name).map fun method => method.prune (live method) := by
  rw [Llir.method, Llir.prune, List.find?_map]
  rfl

private theorem LlirMethod.prune_block (method : LlirMethod) (names : List String) (id : Nat) :
    (method.prune names).block id = (method.block id).map fun block =>
      { block with assignments := block.assignments.filter (keeps names) } := by
  rw [LlirMethod.block, LlirMethod.prune, List.find?_map]
  rfl

private theorem LlirMethod.prune_entry (method : LlirMethod) (names : List String) :
    (method.prune names).blocks.head?.map LlirBlock.id = method.blocks.head?.map LlirBlock.id := by
  rw [LlirMethod.prune, List.head?_map, Option.map_map]
  rfl

/-- An assignment that is kept has as many before it as were kept of those before it. -/
private theorem getElem?_filter_take {α : Type*} {p : α → Bool} {l : List α} {i : Nat} {a : α} (here : l[i]? = some a)
    (kept : p a = true) : (l.filter p)[((l.take i).filter p).length]? = some a := by
  obtain ⟨inside, rfl⟩ := List.getElem?_eq_some_iff.mp here
  have split := congrArg (List.filter p) (List.take_append_drop i l)
  rw [List.filter_append, List.drop_eq_getElem_cons inside, List.filter_cons_of_pos kept] at split
  rw [← split]
  simp

private theorem length_filter_take_succ {α : Type*} {p : α → Bool} {l : List α} {i : Nat} {a : α}
    (here : l[i]? = some a) :
    ((l.take (i + 1)).filter p).length = ((l.take i).filter p).length + if p a then 1 else 0 := by
  rw [List.take_add_one, here, Option.toList_some, List.filter_append, List.length_append]
  by_cases kept : p a = true
  · simp [kept]
  · simp [kept]

/-- The frame of the pruned program counts the kept assignments only, and agrees on the live names. -/
structure FrameMatches (llir : Llir) (live : LlirMethod → List String) (frame frame' : Frame) : Prop where
  method : frame'.method = frame.method
  block : frame'.block = frame.block
  index : ∀ method ∈ llir.method frame.method, ∀ block ∈ method.block frame.block,
    frame'.index = ((block.assignments.take frame.index).filter (keeps (live method))).length
  locals : ∀ method ∈ llir.method frame.method, ∀ name ∈ live method, frame'.locals name = frame.locals name

def Frame.Suspended (llir : Llir) (frame : Frame) : Prop :=
  ∃ assignment ∈ frame.assignment llir, assignment.isMethodCall = true

structure StateMatches (llir : Llir) (live : LlirMethod → List String) (s s' : MachineState) : Prop where
  status : s'.status = s.status
  globals : s'.globals = s.globals
  calls : s'.calls = s.calls
  activations : s'.activations = s.activations
  strays : s'.strays = s.strays
  frames : List.Forall₂ (FrameMatches llir live) s.frames s'.frames
  suspended : ∀ frame ∈ s.frames.tail, frame.Suspended llir

section
variable {frame frame' : Frame} {method : LlirMethod} {block : LlirBlock}

theorem FrameMatches.code (h : FrameMatches llir live frame frame') (found : llir.method frame.method = some method)
    (inside : method.block frame.block = some block) : frame'.code (llir.prune live) =
      some { block with assignments := block.assignments.filter (keeps (live method)) } := by
  rw [Frame.code, h.method, h.block, Llir.prune_method, found, Option.map_some, Option.bind_some, LlirMethod.prune_block,
    inside, Option.map_some]

private theorem FrameMatches.code_none (h : FrameMatches llir live frame frame') (missing : frame.code llir = none) :
    frame'.code (llir.prune live) = none := by
  rw [Frame.code] at missing
  rw [Frame.code, h.method, h.block, Llir.prune_method]
  cases found : llir.method frame.method with
  | none => rfl
  | some method =>
    rw [found, Option.bind_some] at missing
    rw [Option.map_some, Option.bind_some, LlirMethod.prune_block, missing, Option.map_none]

/-- A kept assignment is the next one of both. -/
theorem FrameMatches.next (h : FrameMatches llir live frame frame') (found : llir.method frame.method = some method)
    (inside : method.block frame.block = some block) {assignment : LlirAssignment}
    (here : block.assignments[frame.index]? = some assignment) (kept : keeps (live method) assignment = true) :
    (block.assignments.filter (keeps (live method)))[frame'.index]? = some assignment := by
  rw [h.index method found block inside]
  exact getElem?_filter_take here kept

/-- After the last assignment nothing is left of either. -/
theorem FrameMatches.done (h : FrameMatches llir live frame frame') (found : llir.method frame.method = some method)
    (inside : method.block frame.block = some block) (here : block.assignments[frame.index]? = none) :
    (block.assignments.filter (keeps (live method)))[frame'.index]? = none := by
  rw [h.index method found block inside, List.take_of_length_le (List.getElem?_eq_none_iff.mp here)]
  exact List.getElem?_eq_none le_rfl

/-- Both frames execute an assignment and write the same cell. -/
theorem FrameMatches.write (h : FrameMatches llir live frame frame') {assignment : LlirAssignment}
    (here : frame.assignment llir = some assignment)
    (kept : ∀ method ∈ llir.method frame.method, keeps (live method) assignment = true) (name : String) (position : Nat)
    (cell : Cell) :
    FrameMatches llir live { frame with index := frame.index + 1, locals := frame.locals.set name position cell }
      { frame' with index := frame'.index + 1, locals := frame'.locals.set name position cell } := by
  refine ⟨h.method, h.block, fun method found block inside => ?_, fun method found other known => ?_⟩
  · have next : block.assignments[frame.index]? = some assignment := by
      rw [Frame.assignment_eq, Frame.code, found, Option.bind_some, inside, Option.bind_some] at here
      exact here
    rw [length_filter_take_succ next, if_pos (kept method found), ← h.index method found block inside]
  · funext place
    simp only [Store.set, h.locals method found other known]

/-- Only the original executes a removed assignment to a local. -/
theorem FrameMatches.skip (h : FrameMatches llir live frame frame') {assignment : LlirAssignment}
    (found : llir.method frame.method = some method) (here : frame.assignment llir = some assignment)
    (removed : keeps (live method) assignment = false) (position : Nat) (cell : Cell) :
    FrameMatches llir live { frame with
      index := frame.index + 1
      locals := frame.locals.set assignment.destination.identifier position cell } frame' := by
  refine ⟨h.method, h.block, fun method' found' block inside => ?_, fun method' found' other known => ?_⟩
  all_goals obtain rfl := Option.some.inj (found.symm.trans found')
  · have next : block.assignments[frame.index]? = some assignment := by
      rw [Frame.assignment_eq, Frame.code, found, Option.bind_some, inside, Option.bind_some] at here
      exact here
    rw [length_filter_take_succ next, removed, ← h.index method found block inside]
    rfl
  · have dead : other ≠ assignment.destination.identifier := by
      rintro rfl
      simp [keeps, known] at removed
    funext place
    simp only [Store.set, h.locals method found other known, dead, false_and, if_false]

/-- What the frame executes is kept, so that the other frame executes it too. -/
theorem FrameMatches.assignment (h : FrameMatches llir live frame frame') {assignment : LlirAssignment}
    (here : frame.assignment llir = some assignment)
    (kept : ∀ method ∈ llir.method frame.method, keeps (live method) assignment = true) :
    frame'.assignment (llir.prune live) = some assignment := by
  rw [Frame.assignment_eq] at here
  obtain ⟨block, code, next⟩ := Option.bind_eq_some_iff.mp here
  obtain ⟨method, found, inside⟩ := Option.bind_eq_some_iff.mp code
  rw [Frame.assignment_eq, h.code found inside, Option.bind_some]
  exact h.next found inside next (kept method found)

/-- Both frames go to another block. -/
theorem FrameMatches.enter (h : FrameMatches llir live frame frame') (target : Nat) :
    FrameMatches llir live { frame with block := target, index := 0 } { frame' with block := target, index := 0 } :=
  ⟨h.method, rfl, fun _ _ _ _ => rfl, h.locals⟩

private theorem enterMethod_matches (environment : Environment) (activation : Nat) (method : LlirMethod)
    (values : List Word) :
    FrameMatches llir live (enterMethod environment activation method values)
      (enterMethod environment activation (method.prune (live method)) values) := by
  refine ⟨rfl, ?_, fun _ _ _ _ => rfl, fun _ _ _ _ => rfl⟩
  rw [enterMethod, enterMethod, LlirMethod.prune_entry]

end

section
variable {environment : Environment} {s s' : MachineState} {frame frame' : Frame} {rest rest' : List Frame}
  {method : LlirMethod} {block : LlirBlock}

theorem StateMatches.cell (h : StateMatches llir live s s') (top : FrameMatches llir live frame frame')
    (found : llir.method frame.method = some method) {field : LlirField} (known : field.identifier ∈ live method)
    (position : Nat) : s'.cell (llir.prune live) frame' field position = s.cell llir frame field position := by
  change (if llir.IsGlobal field.identifier then s'.globals field.identifier position
    else frame'.locals field.identifier position) = _
  rw [h.globals, top.locals method found field.identifier known]
  rfl

theorem StateMatches.operand (h : StateMatches llir live s s') (top : FrameMatches llir live frame frame')
    (found : llir.method frame.method = some method) {operand : LlirOperand}
    (known : ∀ field, operand = .field field → field.identifier ∈ live method) :
    s'.operand (llir.prune live) environment frame' operand = s.operand llir environment frame operand := by
  cases operand with
  | field field => exact congrArg Cell.value (h.cell top found (known field rfl) 0)
  | literal literal => rfl
  | string string => rfl

theorem StateMatches.stop (h : StateMatches llir live s s') (status : Status) :
    StateMatches llir live { s with status := status } { s' with status := status } :=
  { h with status := rfl }

/-- Both machines execute an assignment and write the same cell. -/
theorem StateMatches.store (h : StateMatches llir live s s') (top : FrameMatches llir live frame frame')
    (below : List.Forall₂ (FrameMatches llir live) rest rest') (waiting : ∀ frame ∈ rest, frame.Suspended llir)
    {assignment : LlirAssignment} (here : frame.assignment llir = some assignment)
    (kept : ∀ method ∈ llir.method frame.method, keeps (live method) assignment = true) (field : LlirField)
    (position : Nat) (value : Word) :
    StateMatches llir live (s.store llir frame rest field position value)
      (s'.store (llir.prune live) frame' rest' field position value) := by
  have isGlobal : (llir.prune live).IsGlobal field.identifier ↔ llir.IsGlobal field.identifier := Iff.rfl
  rw [MachineState.store, MachineState.store]
  by_cases global : llir.IsGlobal field.identifier
  · rw [if_pos global, if_pos (isGlobal.mpr global)]
    have advanced : FrameMatches llir live { frame with index := frame.index + 1 }
        { frame' with index := frame'.index + 1 } := by
      have written := top.write here kept field.identifier position ⟨value, .garbage⟩
      exact ⟨top.method, top.block, written.index, top.locals⟩
    exact { h with
      globals := by rw [h.globals]
      frames := .cons advanced below
      suspended := waiting }
  · rw [if_neg global, if_neg (isGlobal.not.mpr global)]
    exact { h with
      frames := .cons (top.write here kept field.identifier position ⟨value, .stored field⟩) below
      suspended := waiting }

/-- Globals are live. -/
private theorem Llir.KeepsLive.removed_isLocal (keeping : llir.KeepsLive live) (mem : method ∈ llir.methods)
    {assignment : LlirAssignment} (removed : keeps (live method) assignment = false) :
    ¬ llir.IsGlobal assignment.destination.identifier := by
  intro global
  obtain ⟨field, listed, same⟩ := List.mem_map.mp global
  have needed : assignment.destination.identifier ∈ live method := same ▸ (keeping.needs method mem).fields field listed
  simp [keeps, needed] at removed

/-- The original machine alone executes a removed assignment. -/
theorem StateMatches.skip (keeping : llir.KeepsLive live) (h : StateMatches llir live s s')
    (frames : s.frames = frame :: rest) (found : llir.method frame.method = some method) (mem : method ∈ llir.methods)
    {assignment : LlirAssignment} (here : frame.assignment llir = some assignment)
    (removed : keeps (live method) assignment = false) (value : Word) :
    StateMatches llir live (s.store llir frame rest assignment.destination 0 value) s' := by
  have related := h.frames
  rw [frames] at related
  obtain ⟨frame', rest', top, below, frames'⟩ := List.forall₂_cons_left_iff.mp related
  have waiting := h.suspended
  rw [frames] at waiting
  rw [MachineState.store, if_neg (keeping.removed_isLocal mem removed)]
  refine { h with frames := ?_, suspended := waiting }
  rw [frames']
  exact .cons (top.skip found here removed 0 _) below

/-- A call does the same in the pruned program. -/
private theorem callMethod_matches (h : StateMatches llir live s s') (top : FrameMatches llir live frame frame')
    (below : List.Forall₂ (FrameMatches llir live) rest rest') (waiting : ∀ frame ∈ rest, frame.Suspended llir)
    {name : String} {arguments : List LlirOperand} {destination : LlirField}
    (here : frame.assignment llir = some (.methodCall name arguments destination)) (values : List Word) :
    StateMatches llir live (callMethod llir environment s frame rest name values destination)
      (callMethod (llir.prune live) environment s' frame' rest' name values destination) := by
  have called : s'.calls ++ [(name, values)] = s.calls ++ [(name, values)] := by rw [h.calls]
  have kept : ∀ method ∈ llir.method frame.method, keeps (live method) (.methodCall name arguments destination) = true :=
    fun method _ => by simp [keeps, LlirAssignment.isMethodCall]
  rw [callMethod, callMethod, Llir.prune_method]
  dsimp only
  cases llir.method name with
  | some callee =>
    dsimp only [Option.map_some]
    have arity : (callee.prune (live callee)).arguments.length = values.length ↔
        callee.arguments.length = values.length := Iff.rfl
    by_cases count : callee.arguments.length = values.length
    · rw [if_pos count, if_pos (arity.mpr count)]
      refine { h with
        calls := called
        activations := congrArg (· + 1) h.activations
        frames := .cons ?_ (.cons top below)
        suspended := List.forall_mem_cons.mpr ⟨⟨_, here, rfl⟩, waiting⟩ }
      rw [h.activations]
      exact enterMethod_matches environment s.activations callee values
    · rw [if_neg count, if_neg (arity.not.mpr count)]
      exact { h with status := rfl, calls := called }
  | none =>
    dsimp only [Option.map_none]
    rw [called]
    cases environment.imported (s.calls ++ [(name, values)]) with
    | returned value =>
      have logged : StateMatches llir live { s with calls := s.calls ++ [(name, values)] }
          { s' with calls := s.calls ++ [(name, values)] } := { h with calls := rfl }
      exact logged.store top below waiting here kept destination 0 value
    | exited status => exact { h with status := rfl, calls := rfl }
    | hung => exact { h with status := rfl, calls := rfl }

/-- The live names cover the operands of what is kept. -/
theorem Llir.KeepsLive.operands (keeping : llir.KeepsLive live) (mem : method ∈ llir.methods) (inside : block ∈ method.blocks)
    {assignment : LlirAssignment} (listed : assignment ∈ block.assignments) (kept : keeps (live method) assignment = true)
    {operand : LlirOperand} (used : operand ∈ assignment.operands) (field : LlirField) (same : operand = .field field) :
    field.identifier ∈ live method := by
  have needs := keeping.needs method mem
  rw [keeps, Bool.or_eq_true, decide_eq_true_eq] at kept
  obtain known | call := kept
  · exact needs.assignments block inside assignment listed known field (same ▸ used)
  · exact needs.calls block inside assignment listed call field (same ▸ used)

/-- A kept assignment does the same on both sides. -/
private theorem stepAssignment_matches (keeping : llir.KeepsLive live) (h : StateMatches llir live s s')
    (top : FrameMatches llir live frame frame') (below : List.Forall₂ (FrameMatches llir live) rest rest')
    (waiting : ∀ frame ∈ rest, frame.Suspended llir) (found : llir.method frame.method = some method)
    (mem : method ∈ llir.methods) (code : frame.code llir = some block) (inside : block ∈ method.blocks)
    {assignment : LlirAssignment} (next : block.assignments[frame.index]? = some assignment)
    (kept : keeps (live method) assignment = true) :
    StateMatches llir live (stepAssignment llir environment s frame rest assignment)
      (stepAssignment (llir.prune live) environment s' frame' rest' assignment) := by
  have listed := List.mem_of_getElem? next
  have here : frame.assignment llir = some assignment := by
    rw [Frame.assignment_eq, code, Option.bind_some, next]
  have everywhere : ∀ method ∈ llir.method frame.method, keeps (live method) assignment = true := by
    intro other other_found
    exact Option.some.inj (found.symm.trans other_found) ▸ kept
  have operand (operand : LlirOperand) (used : operand ∈ assignment.operands) :
      s'.operand (llir.prune live) environment frame' operand = s.operand llir environment frame operand :=
    h.operand top found (keeping.operands mem inside listed kept used)
  have store := h.store top below waiting here everywhere
  cases assignment with
  | unary type source destination =>
    rw [stepAssignment, stepAssignment, operand source (by simp [LlirAssignment.operands])]
    exact store destination 0 _
  | binary type left right destination =>
    rw [stepAssignment, stepAssignment, operand left (by simp [LlirAssignment.operands]),
      operand right (by simp [LlirAssignment.operands])]
    cases type.apply (s.operand llir environment frame left) (s.operand llir environment frame right) with
    | some value => exact store destination 0 value
    | none => exact h.stop .trapped
  | arrayUpdate index value destination =>
    rw [stepAssignment, stepAssignment, operand index (by simp [LlirAssignment.operands]),
      operand value (by simp [LlirAssignment.operands])]
    split_ifs
    · exact store destination _ _
    · exact h.stop .stuck
  | arrayAccess index array destination guarded =>
    have known := keeping.arrays method mem block inside _ listed array rfl
    rw [stepAssignment, stepAssignment, operand index (by simp [LlirAssignment.operands])]
    rw [h.cell top found known]
    split_ifs
    · exact store destination 0 _
    · have strayed : StateMatches llir live { s with strays := s.strays + 1 } { s' with strays := s'.strays + 1 } :=
        { h with strays := congrArg (· + 1) h.strays }
      rw [h.strays] at strayed ⊢
      exact strayed.store top below waiting here everywhere destination 0 _
  | methodCall name arguments destination =>
    have values : arguments.map (s'.operand (llir.prune live) environment frame') =
        arguments.map (s.operand llir environment frame) := List.map_congr_left operand
    rw [stepAssignment, stepAssignment, values]
    exact callMethod_matches h top below waiting here _

private theorem returnValue_matches (h : StateMatches llir live s s')
    (below : List.Forall₂ (FrameMatches llir live) rest rest')
    (waiting : ∀ frame ∈ rest, frame.Suspended llir) (value : Word) :
    StateMatches llir live (returnValue llir s rest value) (returnValue (llir.prune live) s' rest' value) := by
  cases below with
  | nil => exact { h with status := rfl, frames := .nil, suspended := List.forall_mem_nil _ }
  | @cons caller caller' rest rest' top below =>
    obtain ⟨⟨assignment, here, call⟩, waiting⟩ := List.forall_mem_cons.mp waiting
    have kept : ∀ method ∈ llir.method caller.method, keeps (live method) assignment = true :=
      fun method _ => by simp [keeps, call]
    rw [returnValue, returnValue, top.assignment here kept, Option.mem_def.mp here]
    exact h.store top below waiting here kept assignment.destination 0 value

/-- A terminal does the same in the pruned program. -/
private theorem stepTerminal_matches (keeping : llir.KeepsLive live) (h : StateMatches llir live s s')
    (top : FrameMatches llir live frame frame') (below : List.Forall₂ (FrameMatches llir live) rest rest')
    (waiting : ∀ frame ∈ rest, frame.Suspended llir) (found : llir.method frame.method = some method)
    (mem : method ∈ llir.methods) (inside : block ∈ method.blocks) :
    StateMatches llir live (stepTerminal llir environment s frame rest block.terminal)
      (stepTerminal (llir.prune live) environment s' frame' rest' block.terminal) := by
  have operand (operand : LlirOperand) (used : operand ∈ block.terminal.operands) :
      s'.operand (llir.prune live) environment frame' operand = s.operand llir environment frame operand := by
    refine h.operand top found fun field same => ?_
    exact (keeping.needs method mem).terminals block inside field (same ▸ used)
  have goes (target : Nat) : StateMatches llir live
      { s with frames := { frame with block := target, index := 0 } :: rest }
      { s' with frames := { frame' with block := target, index := 0 } :: rest' } :=
    { h with frames := .cons (top.enter target) below, suspended := waiting }
  cases terminal : block.terminal with
  | unknown => exact h.stop .stuck
  | jump target => exact goes target
  | branch branch =>
    rw [stepTerminal, stepTerminal, operand branch.left (by simp [terminal, LlirTerminal.operands]),
      operand branch.right (by simp [terminal, LlirTerminal.operands])]
    exact goes _
  | llirReturn source =>
    rw [stepTerminal, stepTerminal, operand source (by simp [terminal, LlirTerminal.operands])]
    exact returnValue_matches h below waiting _
  | shitYourself status => exact h.stop (.exited status)

structure StepDefined (llir : Llir) (environment : Environment) (s : MachineState) : Prop where
  divides : (step llir environment s).status ≠ .trapped
  inside : ∀ frame assignment index array, Executes llir s frame assignment → assignment.access = some (index, array) →
    InBounds (s.operand llir environment frame index) array

def MachineState.remaining (llir : Llir) (s : MachineState) : Nat :=
  match s.frames with
  | [] => 0
  | frame :: _ => ((frame.code llir).elim 0 fun block => block.assignments.length) - frame.index

/-- A removed assignment only writes its destination. -/
private theorem stepAssignment_removed (keeping : llir.KeepsLive live) (defined : StepDefined llir environment s)
    (running : s.status = .running) (frames : s.frames = frame :: rest) (mem : method ∈ llir.methods)
    (code : frame.code llir = some block) (inside : block ∈ method.blocks) {assignment : LlirAssignment}
    (next : block.assignments[frame.index]? = some assignment) (removed : keeps (live method) assignment = false) :
    ∃ value, stepAssignment llir environment s frame rest assignment =
      s.store llir frame rest assignment.destination 0 value := by
  have stepped : step llir environment s = stepAssignment llir environment s frame rest assignment := by
    rw [step_of_code running frames code, stepBlock, next]
  have executes : Executes llir s frame assignment := by
    refine ⟨running, by rw [frames]; rfl, ?_⟩
    rw [Frame.assignment_eq, code, Option.bind_some, next]
  have divides := defined.divides
  rw [stepped] at divides
  cases assignment with
  | unary type source destination => exact ⟨_, rfl⟩
  | binary type left right destination =>
    rw [stepAssignment] at divides ⊢
    cases result : type.apply (s.operand llir environment frame left) (s.operand llir environment frame right) with
    | some value => exact ⟨value, rfl⟩
    | none =>
      rw [result] at divides
      exact absurd rfl divides
  | arrayUpdate index value destination =>
    have known := keeping.arrays method mem block inside _ (List.mem_of_getElem? next) destination rfl
    simp [keeps, LlirAssignment.destination, known] at removed
  | arrayAccess index array destination guarded =>
    rw [stepAssignment, if_pos (defined.inside frame _ index array executes rfl)]
    exact ⟨_, rfl⟩
  | methodCall name arguments destination => simp [keeps, LlirAssignment.isMethodCall] at removed

/-- The machine that runs the pruned program leaves out the removed assignments and does the same otherwise. -/
private theorem prune_simulates (keeping : llir.KeepsLive live) (environment : Environment) :
    StutterSimulation (step llir environment) (step (llir.prune live) environment) (StepDefined llir environment)
      (StateMatches llir live) (MachineState.remaining llir) := by
  intro s s' defined h
  by_cases running : s.status = .running
  · have running' : s'.status = .running := h.status.trans running
    cases frames : s.frames with
    | nil =>
      have related := h.frames
      rw [frames] at related
      have frames' := List.forall₂_nil_left_iff.mp related
      left
      simp only [step, running, frames, running', frames', if_true]
      exact { h with status := rfl, frames := .nil, suspended := List.forall_mem_nil _ }
    | cons frame rest =>
      have related := h.frames
      rw [frames] at related
      obtain ⟨frame', rest', top, below, frames'⟩ := List.forall₂_cons_left_iff.mp related
      have waiting := h.suspended
      rw [frames] at waiting
      cases code : frame.code llir with
      | none =>
        left
        rw [step_of_no_code running frames code, step_of_no_code running' frames' (top.code_none code)]
        exact h.stop .stuck
      | some block =>
        obtain ⟨method, found, inMethod⟩ := Option.bind_eq_some_iff.mp code
        have mem : method ∈ llir.methods := List.mem_of_find?_eq_some found
        have inside : block ∈ method.blocks := List.mem_of_find?_eq_some inMethod
        rw [step_of_code running frames code, step_of_code running' frames' (top.code found inMethod), stepBlock, stepBlock]
        cases next : block.assignments[frame.index]? with
        | none =>
          left
          rw [top.done found inMethod next]
          exact stepTerminal_matches keeping h top below waiting found mem inside
        | some assignment =>
          cases kept : keeps (live method) assignment with
          | true =>
            left
            rw [top.next found inMethod next kept]
            exact stepAssignment_matches keeping h top below waiting found mem code inside next kept
          | false =>
            right
            have here : frame.assignment llir = some assignment := by
              rw [Frame.assignment_eq, code, Option.bind_some, next]
            obtain ⟨value, same⟩ := stepAssignment_removed keeping defined running frames mem code inside next kept
            dsimp only
            rw [same]
            refine ⟨h.skip keeping frames found mem here kept value, ?_⟩
            rw [MachineState.store, if_neg (keeping.removed_isLocal mem kept), MachineState.remaining,
              MachineState.remaining, frames]
            have short : frame.index < block.assignments.length := (List.getElem?_eq_some_iff.mp next).1
            change (frame.code llir).elim 0 (fun block => block.assignments.length) - (frame.index + 1) <
              (frame.code llir).elim 0 (fun block => block.assignments.length) - frame.index
            rw [code, Option.elim_some]
            omega
  · have running' : s'.status ≠ .running := fun same => running (h.status.symm.trans same)
    left
    simp only [step, if_neg running, if_neg running']
    exact h

/-- What can be observed of a state: the calls with the values of their arguments, the globals and the outcome. -/
structure SameObservations (s s' : MachineState) : Prop where
  calls : s'.calls = s.calls
  globals : s'.globals = s.globals
  status : s'.status = s.status

def SameBehaviour (r r' : Nat → MachineState) : Prop :=
  (∀ n, ∃ m, SameObservations (r n) (r' m)) ∧ ∀ m, ∃ n, SameObservations (r n) (r' m)

/-- A run of a method of the pruned program, from outside. -/
private theorem prune_sameBehaviour (keeping : llir.KeepsLive live) (environment : Environment) (method : LlirMethod)
    (values : List Word) (globals : Store)
    (defined : ∀ n, StepDefined llir environment (run llir environment (startMethod environment method values globals) n)) :
    SameBehaviour (run llir environment (startMethod environment method values globals))
      (run (llir.prune live) environment (startMethod environment (method.prune (live method)) values globals)) := by
  have start : StateMatches llir live (startMethod environment method values globals)
      (startMethod environment (method.prune (live method)) values globals) :=
    ⟨rfl, rfl, rfl, rfl, rfl, .cons (enterMethod_matches environment 0 method values) .nil, List.forall_mem_nil _⟩
  have ok (n : Nat) := run_eq_iterate llir environment (startMethod environment method values globals) n ▸ defined n
  have observed {s s' : MachineState} (h : StateMatches llir live s s') : SameObservations s s' :=
    ⟨h.calls, h.globals, h.status⟩
  simp only [SameBehaviour, run_eq_iterate]
  constructor
  · intro n
    obtain ⟨m, reached⟩ := (prune_simulates keeping environment).forward ok start n
    exact ⟨m, observed reached⟩
  · intro m
    obtain ⟨n, reached⟩ := (prune_simulates keeping environment).backward ok start m
    exact ⟨n, observed reached⟩

end
end

/-- A lowered program after passes that may come before the elimination. -/
inductive Optimized (lowered : Llir) : Llir → Prop where
  | lowered : Optimized lowered lowered
  | folded {n : Nat} {llir llir' : Llir} (h : Optimized lowered llir)
    (run : optimizationConstantFolding n llir = .ok llir') : Optimized lowered llir'
  | propagated {n : Nat} {llir llir' : Llir} (h : Optimized lowered llir)
    (run : CopyPropagation.optimizationCopyPropagation n llir = some llir') : Optimized lowered llir'

theorem Optimized.outline {lowered llir : Llir} (h : Optimized lowered llir) :
    llir.fields = lowered.fields ∧ llir.methods.map LlirMethod.outline = lowered.methods.map LlirMethod.outline := by
  induction h with
  | lowered => exact ⟨rfl, rfl⟩
  | folded _ run ih =>
    obtain ⟨fields, methods⟩ := optimizationConstantFolding_outline run
    exact ⟨fields.trans ih.1, methods.trans ih.2⟩
  | propagated _ run ih =>
    obtain ⟨fields, methods⟩ := CopyPropagation.optimizationCopyPropagation_outline run
    exact ⟨fields.trans ih.1, methods.trans ih.2⟩

/-- The names that live sets keep contain the arrays that are declared. -/
private theorem keepsLive_of_declared {llir : Llir} {live : LlirMethod → List String}
    (declared : ∀ method ∈ llir.methods, method.ArraysDeclared llir.fields)
    (needs : ∀ method ∈ llir.methods, IsLiveSet llir.fields method {name | name ∈ live method}) : llir.KeepsLive live := by
  refine ⟨needs, fun method mem block inside assignment assigned array indexed => ?_⟩
  obtain global | ⟨other, otherMem, here, isArray⟩ := declared method mem block inside assignment assigned array indexed
  · exact (needs method mem).fields array global
  · exact (needs method mem).arrays other otherMem array here isArray

/-- Dead code elimination ends, and every method of its result behaves like the original wherever that neither traps on a
division nor leaves an array. GLib counts the elements of an array with 32 bits. -/
theorem accepts_deadCodeElimination_preserves {program analyzed : IrProgram} (source : program.FromSource)
    (accepted : Accepts program analyzed) {lowered llir : Llir}
    (generated : llirGeneratorGenerateLlir analyzed = some lowered) (optimized : Optimized lowered llir)
    (sized : ∀ method ∈ llir.methods, method.Sized) :
    ∃ pruned bound, (∀ n, bound < n → optimizationDeadCodeElimination n llir = some pruned) ∧
      ∀ method ∈ llir.methods, ∃ method', pruned.method method.identifier = some method' ∧
        ∀ environment values globals,
          (∀ n, StepDefined llir environment (run llir environment (startMethod environment method values globals) n)) →
          SameBehaviour (run llir environment (startMethod environment method values globals))
            (run pruned environment (startMethod environment method' values globals)) := by
  obtain ⟨fields, outlines⟩ := optimized.outline
  have names : llir.methods.map LlirMethod.identifier = lowered.methods.map LlirMethod.identifier := by
    have heads := congrArg (List.map Prod.fst) outlines
    rwa [List.map_map, List.map_map] at heads
  have distinct : (llir.methods.map LlirMethod.identifier).Nodup := by
    rw [names]
    exact (accepts_ready source accepted).methods_distinct generated
  have declared : ∀ method ∈ llir.methods, method.ArraysDeclared llir.fields := by
    intro method mem
    have listed : method.outline ∈ lowered.methods.map LlirMethod.outline := outlines ▸ List.mem_map_of_mem mem
    obtain ⟨original, inside, same⟩ := List.mem_map.mp listed
    rw [fields]
    exact (accepts_arraysDeclared source accepted generated inside).of_outline same.symm
  choose bound live least ends using liveSetLoop_spec llir.fields
  have keeping : llir.KeepsLive live := keepsLive_of_declared declared fun method _ => (least method).1
  refine ⟨llir.prune live, (llir.methods.map bound).sum + (llir.methods.map LlirMethod.pruneBound).sum,
    fun n enough => ?_, fun method mem => ?_⟩
  · refine optimizationDeadCodeElimination_run llir ends distinct sized fun method mem => ?_
    have first := le_sum_map bound mem
    have second := le_sum_map LlirMethod.pruneBound mem
    omega
  · refine ⟨method.prune (live method), ?_, ?_⟩
    · rw [Llir.prune_method, Llir.method_of_mem distinct mem]
      rfl
    · exact fun environment values globals defined => prune_sameBehaviour keeping environment method values globals defined

/-- `void main() { int a; }`, where nothing reads the variable. -/
def unusedLocal : IrProgram where
  imports := []
  fields := []
  methods := [{
    imported := false, returnType := .void, identifier := "main", arguments := []
    block := .mk [unused] .nil }]
where
  unused : IrField :=
    { node := 0, type := .int, constant := false, identifier := "a", arrayLength := 1, lengthToken := none
      initializer := none }

def unusedLocalLlir : Llir := (generateLlir (semanticsAnalyze unusedLocal).2).1

def silentEnvironment : Environment where
  imported _ := .hung
  stringAddress _ := 0
  garbage _ _ _ := 0
  stray _ := 0

/-- A machine that has returned stays as it is. -/
theorem run_returned {llir : Llir} {environment : Environment} {s : MachineState} {k : Nat} {value : Word}
    (here : (run llir environment s k).status = .returned value) (n : Nat) :
    (run llir environment s (k + n)).status = .returned value := by
  induction n with
  | zero => exact here
  | succ n ih =>
    rw [← Nat.add_assoc, run, step, if_neg (by simp [ih])]
    exact ih

private theorem unusedLocal_returns {method : LlirMethod} (mem : method ∈ unusedLocalLlir.methods) (n : Nat) :
    (run unusedLocalLlir silentEnvironment (startMethod silentEnvironment method [] unusedLocalLlir.initialGlobals)
      (2 + n)).status = .returned 0 := by
  have here : ∀ method ∈ unusedLocalLlir.methods, (run unusedLocalLlir silentEnvironment
      (startMethod silentEnvironment method [] unusedLocalLlir.initialGlobals) 2).status = .returned 0 := by decide +kernel
  exact run_returned (here method mem) n

theorem accepts_deadCodeElimination_preserves_unusedLocal :
    ∃ pruned bound, (∀ n, bound < n → optimizationDeadCodeElimination n unusedLocalLlir = some pruned) ∧
      ∀ method ∈ unusedLocalLlir.methods, ∃ method', pruned.method method.identifier = some method' ∧
        SameBehaviour
          (run unusedLocalLlir silentEnvironment
            (startMethod silentEnvironment method [] unusedLocalLlir.initialGlobals))
          (run pruned silentEnvironment (startMethod silentEnvironment method' [] unusedLocalLlir.initialGlobals)) := by
  have plain : ∀ method ∈ unusedLocalLlir.methods, ∀ block ∈ method.blocks, ∀ assignment ∈ block.assignments,
      assignment.access = none := by decide +kernel
  have sized : ∀ method ∈ unusedLocalLlir.methods, method.Sized := by
    have short : ∀ method ∈ unusedLocalLlir.methods, ∀ block ∈ method.blocks, block.assignments.length < 2 ^ 32 := by
      decide +kernel
    exact short
  have first : ∀ method ∈ unusedLocalLlir.methods, (run unusedLocalLlir silentEnvironment
      (startMethod silentEnvironment method [] unusedLocalLlir.initialGlobals) 1).status = .running := by decide +kernel
  obtain ⟨pruned, bound, ends, behaves⟩ := accepts_deadCodeElimination_preserves
    (by decide +kernel : unusedLocal.FromSource) (Prod.ext (by decide +kernel) rfl)
    (by decide +kernel : llirGeneratorGenerateLlir (semanticsAnalyze unusedLocal).2 = some unusedLocalLlir) .lowered sized
  refine ⟨pruned, bound, ends, fun method mem => ?_⟩
  obtain ⟨method', found, same⟩ := behaves method mem
  refine ⟨method', found, same silentEnvironment [] unusedLocalLlir.initialGlobals fun n => ⟨?_, ?_⟩⟩
  · change (run unusedLocalLlir silentEnvironment _ (n + 1)).status ≠ .trapped
    cases n with
    | zero => simp [first method mem]
    | succ n => simp [show n + 1 + 1 = 2 + n by omega, unusedLocal_returns mem n]
  · intro frame assignment index array executes access
    obtain ⟨lowered, inside, next⟩ := Option.bind_eq_some_iff.mp executes.next
    obtain ⟨block, listed, here⟩ := Option.bind_eq_some_iff.mp next
    have none := plain lowered (List.mem_of_find?_eq_some inside) block (List.mem_of_find?_eq_some listed) assignment
      (List.mem_of_getElem? here)
    rw [none] at access
    cases access

end Roast
