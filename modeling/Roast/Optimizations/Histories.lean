import Roast.Optimizations.Pruning

/-! What an execution remembers about a local: no assignment to it since the method was entered, or the last one, which
still tells a constant or another local. -/
namespace Roast
open Systems

def LlirAssignment.copied : LlirAssignment → Option LlirField
  | .unary .move (.field field) _ => some field
  | _ => none

def Cell.Unassigned (cell : Cell) : Prop := ∀ field, cell.origin ≠ .stored field

section
variable (llir : Llir) (blocks : List LlirBlock) (locals : Store) (identifier : String) (point : Nat × Nat)

/-- What the last assignment to a local still says about its value. -/
structure Tells (assignment : LlirAssignment) : Prop where
  constant : ∀ value, assignment.constant = some value → (locals identifier 0).value = value
  copied : ∀ field, assignment.copied = some field → ¬ llir.IsGlobal field.identifier →
    ¬ Mutated blocks identifier field.identifier point →
    (locals identifier 0).value = (locals field.identifier 0).value

def History : Prop :=
  (locals identifier 0).Unassigned ∨
    ∃ definition : LlirDefinition, definition.ReachesPoint blocks identifier point ∧
      Tells llir blocks locals identifier point definition.assignment

end

structure Writes (llir : Llir) (locals locals' : Store) (assignment : LlirAssignment) : Prop where
  other : ∀ name, name ≠ assignment.destination.identifier → locals' name = locals name
  constant : ∀ value, assignment.constant = some value → ¬ llir.IsGlobal assignment.destination.identifier →
    (locals' assignment.destination.identifier 0).value = value
  copied : ∀ field, assignment.copied = some field → ¬ llir.IsGlobal assignment.destination.identifier →
    ¬ llir.IsGlobal field.identifier →
    (locals' assignment.destination.identifier 0).value = (locals field.identifier 0).value

section
variable {llir : Llir} {blocks : List LlirBlock} {locals locals' : Store} {identifier : String} {block : LlirBlock}

theorem History.edge (h : History llir blocks locals identifier (block.id, block.assignments.length))
    (mem : block ∈ blocks) {successor : Nat} (leads : successor ∈ block.terminal.successors) :
    History llir blocks locals identifier (successor, 0) := by
  obtain unassigned | ⟨definition, ⟨located, assigns, path⟩, tells⟩ := h
  · exact .inl unassigned
  · refine .inr ⟨definition, ⟨located, assigns, path.edge mem leads⟩, tells.constant, fun field copied isLocal fresh => ?_⟩
    apply tells.copied field copied isLocal
    rintro ⟨other, source, mem', i, assignment, here, named, before⟩
    exact fresh ⟨other, source, mem', i, assignment, here, named, before.edge mem leads⟩

/-- An assignment to the local is now the last one, another one leaves its history as it is. -/
theorem History.write {index : Nat} (h : History llir blocks locals identifier (block.id, index))
    (isLocal : ¬ llir.IsGlobal identifier) (mem : block ∈ blocks) {assignment : LlirAssignment}
    (here : block.assignments[index]? = some assignment) (writes : Writes llir locals locals' assignment) :
    History llir blocks locals' identifier (block.id, index + 1) := by
  by_cases assigned : assignment.destination.identifier = identifier
  · subst assigned
    refine .inr ⟨⟨block.id, index, assignment⟩, ⟨⟨block, mem, rfl, here⟩, rfl, .start⟩, ?_, ?_⟩
    · exact fun value constant => writes.constant value constant isLocal
    · intro field copied isLocal' _
      by_cases same : field.identifier = assignment.destination.identifier
      · rw [same]
      · rw [writes.copied field copied isLocal isLocal', writes.other field.identifier same]
  · have kept : locals' identifier = locals identifier := writes.other identifier (Ne.symm assigned)
    obtain unassigned | ⟨definition, ⟨located, assigns, path⟩, tells⟩ := h
    · left
      rw [kept]
      exact unassigned
    · refine .inr ⟨definition, ⟨located, assigns, path.step mem here assigned⟩, ?_, ?_⟩
      · rw [kept]
        exact tells.constant
      · intro field copied isLocal' fresh
        by_cases changed : field.identifier = assignment.destination.identifier
        · refine absurd ⟨?_, block, mem, index, assignment, here, changed.symm, .start⟩ fresh
          exact fun same => assigned (changed.symm.trans same)
        · rw [kept, writes.other field.identifier changed]
          apply tells.copied field copied isLocal'
          rintro ⟨other, source, mem', i, old, there, named, before⟩
          exact fresh ⟨other, source, mem', i, old, there, named, before.step mem here assigned⟩

end

structure Frame.Remembers (llir : Llir) (frame : Frame) : Prop where
  within : ∀ block ∈ frame.code llir, frame.index ≤ block.assignments.length
  history : ∀ method ∈ llir.method frame.method, ∀ identifier, ¬ llir.IsGlobal identifier →
    History llir method.blocks frame.locals identifier (frame.block, frame.index)

structure MachineState.Remembers (llir : Llir) (s : MachineState) : Prop where
  frames : ∀ frame ∈ s.frames, frame.Remembers llir
  suspended : ∀ frame ∈ s.frames.tail, frame.Suspended llir

section
variable {llir : Llir} {environment : Environment} {s : MachineState} {frame : Frame} {rest : List Frame}

/-- The frame after a store. -/
private theorem store_frames (llir : Llir) (s : MachineState) (frame : Frame) (rest : List Frame) (field : LlirField)
    (position : Nat) (value : Word) :
    ∃ locals', (s.store llir frame rest field position value).frames =
        { frame with index := frame.index + 1, locals := locals' } :: rest ∧
      (∀ name, name ≠ field.identifier → locals' name = frame.locals name) ∧
      (¬ llir.IsGlobal field.identifier → (locals' field.identifier position).value = value) := by
  rw [MachineState.store]
  by_cases global : llir.IsGlobal field.identifier
  · rw [if_pos global]
    exact ⟨frame.locals, rfl, fun _ _ => rfl, fun isLocal => absurd global isLocal⟩
  · rw [if_neg global]
    refine ⟨_, rfl, fun name other => ?_, fun _ => ?_⟩
    · funext place
      simp only [Store.set, other, false_and, if_false]
    · simp [Store.set]

/-- A frame moves on over its assignment. -/
theorem Frame.Remembers.write (h : frame.Remembers llir) {assignment : LlirAssignment}
    (here : frame.assignment llir = some assignment) {locals' : Store}
    (writes : Writes llir frame.locals locals' assignment) :
    Frame.Remembers llir { frame with index := frame.index + 1, locals := locals' } := by
  rw [Frame.assignment_eq] at here
  obtain ⟨block, code, next⟩ := Option.bind_eq_some_iff.mp here
  refine ⟨fun block' code' => ?_, fun method found identifier isLocal => ?_⟩
  · obtain rfl := Option.some.inj (code.symm.trans code')
    exact (List.getElem?_eq_some_iff.mp next).1
  obtain ⟨method', found', inMethod⟩ := Option.bind_eq_some_iff.mp code
  obtain rfl := Option.some.inj (found'.symm.trans found)
  have id : block.id = frame.block := by simpa using List.find?_some inMethod
  have before := h.history method' found' identifier isLocal
  rw [← id] at before
  have after := before.write isLocal (List.mem_of_find?_eq_some inMethod) next writes
  rw [id] at after
  exact after

theorem MachineState.Remembers.status (h : s.Remembers llir) (status : Status) :
    MachineState.Remembers llir { s with status := status } := ⟨h.frames, h.suspended⟩

/-- A store adds an assignment to the history of the top frame. -/
private theorem remembers_store (below : ∀ frame ∈ rest, frame.Remembers llir)
    (waiting : ∀ frame ∈ rest, frame.Suspended llir)
    (top : frame.Remembers llir) {assignment : LlirAssignment} (here : frame.assignment llir = some assignment)
    (position : Nat) (value : Word) (constant : ∀ word, assignment.constant = some word → position = 0 ∧ value = word)
    (copied : ∀ field, assignment.copied = some field → ¬ llir.IsGlobal field.identifier →
      position = 0 ∧ value = (frame.locals field.identifier 0).value) :
    (s.store llir frame rest assignment.destination position value).Remembers llir := by
  obtain ⟨locals', frames, other, stored⟩ := store_frames llir s frame rest assignment.destination position value
  have writes : Writes llir frame.locals locals' assignment := by
    refine ⟨other, fun word known isLocal => ?_, fun field known isLocal isLocal' => ?_⟩
    · obtain ⟨rfl, rfl⟩ := constant word known
      exact stored isLocal
    · obtain ⟨rfl, rfl⟩ := copied field known isLocal'
      exact stored isLocal
  constructor
  · rw [frames]
    exact List.forall_mem_cons.mpr ⟨top.write here writes, below⟩
  · rw [frames]
    exact waiting

/-- The cells of a fresh frame hold the arguments, or what the stack holds. -/
private theorem enterMethod_unassigned (environment : Environment) (activation : Nat) (method : LlirMethod)
    (values : List Word)
    (name : String) (position : Nat) : ((enterMethod environment activation method values).locals name position).Unassigned := by
  apply List.foldlRecOn (motive := fun store : Store => (store name position).Unassigned)
  · intro field
    simp
  · intro store unassigned argument _ field
    rw [Store.set]
    split_ifs
    · simp
    · exact unassigned field

private theorem enterMethod_remembers (llir : Llir) (environment : Environment) (activation : Nat) (method : LlirMethod)
    (values : List Word) : (enterMethod environment activation method values).Remembers llir :=
  ⟨fun _ _ => Nat.zero_le _, fun _ _ _ _ => .inl (enterMethod_unassigned environment activation method values _ 0)⟩

/-- The callee begins with an empty history. -/
private theorem callMethod_remembers (h : s.Remembers llir) (frames : s.frames = frame :: rest) {name : String}
    {arguments : List LlirOperand} {destination : LlirField}
    (here : frame.assignment llir = some (.methodCall name arguments destination)) (values : List Word) :
    (callMethod llir environment s frame rest name values destination).Remembers llir := by
  have top : frame.Remembers llir := h.frames frame (frames ▸ List.mem_cons_self)
  have below : ∀ frame ∈ rest, frame.Remembers llir := fun other mem => h.frames other (frames ▸ List.mem_cons_of_mem _ mem)
  have waiting : ∀ frame ∈ rest, frame.Suspended llir := fun other mem => h.suspended other (by rw [frames]; exact mem)
  rw [callMethod]
  dsimp only
  cases found : llir.method name with
  | some callee =>
    dsimp only
    split_ifs
    · refine ⟨List.forall_mem_cons.mpr ⟨?_, List.forall_mem_cons.mpr ⟨top, below⟩⟩,
        List.forall_mem_cons.mpr ⟨⟨.methodCall name arguments destination, here, rfl⟩, waiting⟩⟩
      exact enterMethod_remembers llir environment s.activations callee values
    · exact ⟨h.frames, h.suspended⟩
  | none =>
    dsimp only
    cases environment.imported (s.calls ++ [(name, values)]) with
    | returned value =>
      have call := remembers_store (s := { s with calls := s.calls ++ [(name, values)] }) below waiting top here 0 value
        (fun _ none => by cases none) fun _ none => by cases none
      exact call
    | exited status => exact ⟨h.frames, h.suspended⟩
    | hung => exact ⟨h.frames, h.suspended⟩

private theorem stepAssignment_remembers (h : s.Remembers llir) (frames : s.frames = frame :: rest)
    {assignment : LlirAssignment}
    (here : frame.assignment llir = some assignment) :
    (stepAssignment llir environment s frame rest assignment).Remembers llir := by
  have top : frame.Remembers llir := h.frames frame (frames ▸ List.mem_cons_self)
  have below : ∀ frame ∈ rest, frame.Remembers llir := fun other mem => h.frames other (frames ▸ List.mem_cons_of_mem _ mem)
  have waiting : ∀ frame ∈ rest, frame.Suspended llir := fun other mem => h.suspended other (by rw [frames]; exact mem)
  cases assignment with
  | unary type source destination =>
    refine remembers_store below waiting top here 0 _ (fun word constant => ?_) fun field copied isLocal => ?_
    · cases type <;> cases source <;> cases constant
      exact ⟨rfl, rfl⟩
    · cases type <;> cases source <;> cases copied
      refine ⟨rfl, ?_⟩
      change (s.cell llir frame field 0).value = _
      rw [MachineState.cell, if_neg isLocal]
  | binary type left right destination =>
    rw [stepAssignment]
    cases type.apply (s.operand llir environment frame left) (s.operand llir environment frame right) with
    | some value =>
      exact remembers_store below waiting top here 0 value (fun _ none => by cases none) fun _ none => by cases none
    | none => exact h.status .trapped
  | arrayUpdate index value destination =>
    rw [stepAssignment]
    split_ifs
    · exact remembers_store below waiting top here _ _ (fun _ none => by cases none) fun _ none => by cases none
    · exact h.status .stuck
  | arrayAccess index array destination guarded =>
    rw [stepAssignment]
    split_ifs
    · exact remembers_store below waiting top here 0 _ (fun _ none => by cases none) fun _ none => by cases none
    · exact remembers_store (s := { s with strays := s.strays + 1 }) below waiting top here 0 _
        (fun _ none => by cases none) fun _ none => by cases none
  | methodCall name arguments destination => exact callMethod_remembers h frames here _

private theorem returnValue_remembers (h : s.Remembers llir) (frames : s.frames = frame :: rest) (value : Word) :
    (returnValue llir s rest value).Remembers llir := by
  have below : ∀ frame ∈ rest, frame.Remembers llir := fun other mem => h.frames other (frames ▸ List.mem_cons_of_mem _ mem)
  have waiting : ∀ frame ∈ rest, frame.Suspended llir := fun other mem => h.suspended other (by rw [frames]; exact mem)
  cases rest with
  | nil => exact ⟨List.forall_mem_nil _, List.forall_mem_nil _⟩
  | cons caller rest =>
    obtain ⟨⟨assignment, here, call⟩, waiting⟩ := List.forall_mem_cons.mp waiting
    obtain ⟨top, below⟩ := List.forall_mem_cons.mp below
    rw [returnValue, here]
    cases assignment with
    | methodCall name arguments destination =>
      exact remembers_store below waiting top here 0 value (fun _ none => by cases none) fun _ none => by cases none
    | unary | binary | arrayUpdate | arrayAccess => cases call

/-- A frame goes on in another block. -/
theorem Frame.Remembers.edge (h : frame.Remembers llir) {block : LlirBlock} (code : frame.code llir = some block)
    (done : block.assignments[frame.index]? = none) {target : Nat} (leads : target ∈ block.terminal.successors) :
    Frame.Remembers llir { frame with block := target, index := 0 } := by
  have last : frame.index = block.assignments.length :=
    (h.within block code).antisymm (List.getElem?_eq_none_iff.mp done)
  obtain ⟨method', found', inMethod⟩ := Option.bind_eq_some_iff.mp code
  refine ⟨fun _ _ => Nat.zero_le _, fun method found identifier isLocal => ?_⟩
  obtain rfl := Option.some.inj (found'.symm.trans found)
  have id : block.id = frame.block := by simpa using List.find?_some inMethod
  have before := h.history method' found' identifier isLocal
  rw [← id, last] at before
  exact before.edge (List.mem_of_find?_eq_some inMethod) leads

/-- A terminal extends the history by an edge. -/
private theorem stepTerminal_remembers (h : s.Remembers llir) (frames : s.frames = frame :: rest) {block : LlirBlock}
    (code : frame.code llir = some block) (done : block.assignments[frame.index]? = none) :
    (stepTerminal llir environment s frame rest block.terminal).Remembers llir := by
  have top : frame.Remembers llir := h.frames frame (frames ▸ List.mem_cons_self)
  have below : ∀ frame ∈ rest, frame.Remembers llir := fun other mem => h.frames other (frames ▸ List.mem_cons_of_mem _ mem)
  have waiting : ∀ frame ∈ rest, frame.Suspended llir := fun other mem => h.suspended other (by rw [frames]; exact mem)
  have goes {target : Nat} (leads : target ∈ block.terminal.successors) :
      MachineState.Remembers llir { s with frames := { frame with block := target, index := 0 } :: rest } :=
    ⟨List.forall_mem_cons.mpr ⟨top.edge code done leads, below⟩, waiting⟩
  cases terminal : block.terminal with
  | unknown => exact h.status .stuck
  | jump target => exact goes (by simp [terminal, LlirTerminal.successors])
  | branch branch =>
    rw [stepTerminal]
    refine goes ?_
    rw [terminal, LlirTerminal.successors]
    split_ifs
    · simp
    · simp
  | llirReturn source => exact returnValue_remembers h frames _
  | shitYourself status => exact h.status (.exited status)

/-- Each step keeps the histories. -/
private theorem step_remembers (h : s.Remembers llir) : (step llir environment s).Remembers llir := by
  by_cases running : s.status = .running
  · cases frames : s.frames with
    | nil =>
      simp only [step, running, frames, if_true]
      exact ⟨List.forall_mem_nil _, List.forall_mem_nil _⟩
    | cons frame rest =>
      cases code : frame.code llir with
      | none =>
        rw [step_of_no_code running frames code]
        exact h.status .stuck
      | some block =>
        rw [step_of_code running frames code, stepBlock]
        cases next : block.assignments[frame.index]? with
        | some assignment =>
          refine stepAssignment_remembers h frames ?_
          rw [Frame.assignment_eq, code, Option.bind_some, next]
        | none => exact stepTerminal_remembers h frames code next
  · rw [step, if_neg running]
    exact h

/-- In every state of a run the frames remember their last assignments. -/
theorem run_remembers (h : s.Remembers llir) (n : Nat) : (run llir environment s n).Remembers llir := by
  induction n with
  | zero => exact h
  | succ n ih => exact step_remembers ih

theorem startMethod_remembers (llir : Llir) (environment : Environment) (method : LlirMethod) (values : List Word)
    (globals : Store) : (startMethod environment method values globals).Remembers llir :=
  ⟨List.forall_mem_singleton.mpr (enterMethod_remembers llir environment 0 method values), List.forall_mem_nil _⟩

end

end Roast
