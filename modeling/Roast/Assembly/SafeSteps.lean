import Roast.Assembly.Safety

/-! Steps of a method's code from one state of the generator to the next. -/
namespace Roast
open LlirGenerator Systems

/-- An activation of a generated method. `blocks` are the blocks that the generator laid out for it, and
`callers` are the frames below. -/
structure Activation where
  method : LlirMethod
  blocks : List LlirBlock
  predecessors : List (Nat × Nat)
  callers : List Frame

def Activation.frame (activation : Activation) (block index : Nat) (locals : Store) : Frame :=
  ⟨activation.method.identifier, block, index, locals⟩

def Activation.frameAt (activation : Activation) (g : LlirGenerator) (locals : Store) : Frame :=
  activation.frame g.currentBlock.id g.currentBlock.assignments.length locals

@[simp] theorem Activation.frame_locals (activation : Activation) (block index : Nat) (locals : Store) :
    (activation.frame block index locals).locals = locals := rfl

@[simp] theorem Activation.frameAt_locals (activation : Activation) (g : LlirGenerator) (locals : Store) :
    (activation.frameAt g locals).locals = locals := rfl

structure Activation.Valid (llir : Llir) (activation : Activation) : Prop where
  found : llir.method activation.method.identifier = some activation.method
  blocks : activation.method.blocks =
    activation.blocks.map fun block => block.withPredecessors activation.predecessors
  distinct : (activation.blocks.map LlirBlock.id).Nodup

def Store.write (llir : Llir) (locals : Store) (field : LlirField) (position : Nat) (value : Word) : Store :=
  if llir.IsGlobal field.identifier then locals else locals.set field.identifier position ⟨value, .stored field⟩

/-- A block that another one follows is complete. -/
theorem LlirGenerator.Begins.closed {g : LlirGenerator} {next : Nat} {blocks : List LlirBlock}
    (begins : (g.nextBlock next).Begins blocks) : g.currentBlock ∈ blocks := by
  obtain ⟨current, rest, rfl, -⟩ := begins
  simp [LlirGenerator.nextBlock]

namespace Activation.Valid
variable {llir : Llir} {activation : Activation}

theorem block_of_mem (valid : activation.Valid llir) {block : LlirBlock} (mem : block ∈ activation.blocks) :
    activation.method.block block.id = some (block.withPredecessors activation.predecessors) := by
  have found (blocks : List LlirBlock) (distinct : (blocks.map LlirBlock.id).Nodup) (mem : block ∈ blocks) :
      (blocks.map fun block => block.withPredecessors activation.predecessors).find?
        (fun other => other.id == block.id) = some (block.withPredecessors activation.predecessors) := by
    induction blocks with
    | nil => cases mem
    | cons head tail ih =>
      obtain ⟨fresh, distinct⟩ := List.nodup_cons.mp distinct
      rw [List.map_cons, List.find?_cons]
      obtain rfl | mem := List.mem_cons.mp mem
      · simp [LlirBlock.withPredecessors]
      · have other : head.id ≠ block.id := fun same => fresh (same ▸ List.mem_map_of_mem mem)
        have differ : ((head.withPredecessors activation.predecessors).id == block.id) = false :=
          beq_false_of_ne other
        rw [differ]
        exact ih distinct mem
  rw [LlirMethod.block, valid.blocks]
  exact found _ valid.distinct mem

variable {g : LlirGenerator} (locals : Store)

theorem code (valid : activation.Valid llir) (begins : g.Begins activation.blocks) :
    ∃ block, (activation.frameAt g locals).code llir = some block ∧
      g.currentBlock.assignments <+: block.assignments := by
  obtain ⟨current, rest, blocks, growth⟩ := begins
  have mem : current ∈ activation.blocks := by simp [blocks]
  have found := valid.block_of_mem mem
  refine ⟨current.withPredecessors activation.predecessors, ?_, growth.assignments⟩
  rw [growth.id] at found
  simp [Frame.code, Activation.frameAt, Activation.frame, valid.found, found]

/-- The assignment that the generator emits next. -/
theorem assignment (valid : activation.Valid llir) {assignment : LlirAssignment}
    (begins : (g.addAssignment assignment).Begins activation.blocks) :
    ∃ block, (activation.frameAt g locals).code llir = some block ∧
      block.assignments[g.currentBlock.assignments.length]? = some assignment := by
  obtain ⟨block, code, rest, same⟩ := valid.code locals begins
  refine ⟨block, code, ?_⟩
  rw [← same]
  simp [LlirGenerator.addAssignment]

/-- The terminal with which the generator ends a block. -/
theorem terminal (valid : activation.Valid llir) {terminal : LlirTerminal}
    (closed : (g.setTerminal terminal).currentBlock ∈ activation.blocks) :
    ∃ block, (activation.frameAt g locals).code llir = some block ∧
      block.assignments = g.currentBlock.assignments ∧ block.terminal = terminal := by
  have found := valid.block_of_mem closed
  refine ⟨(g.setTerminal terminal).currentBlock.withPredecessors activation.predecessors, ?_, rfl, rfl⟩
  have same : (g.setTerminal terminal).currentBlock.id = g.currentBlock.id := rfl
  rw [same] at found
  simp [Frame.code, Activation.frameAt, Activation.frame, valid.found, found]

end Activation.Valid

section
variable (llir : Llir) (canonical : Prop) (activation : Activation)

structure AtPoint (block index : Nat) (s : MachineState) (locals : Store) : Prop where
  status : s.status = .running
  frames : s.frames = activation.frame block index locals :: activation.callers
  globals : canonical → s.globals.Canonical ∧ GlobalsOwned llir s.globals
  locals : canonical → locals.Canonical

abbrev AtEnd (g : LlirGenerator) (s : MachineState) (locals : Store) : Prop :=
  AtPoint llir canonical activation g.currentBlock.id g.currentBlock.assignments.length s locals

end

section
variable {llir : Llir} {environment : Environment} {program : IrProgram} {canonical : Prop}
  {activation : Activation} {g : LlirGenerator} {s : MachineState} {locals : Store}

theorem AtPoint.withCalls {block index : Nat} (at' : AtPoint llir canonical activation block index s locals)
    (calls : List Call) : AtPoint llir canonical activation block index { s with calls := calls } locals :=
  ⟨at'.status, at'.frames, at'.globals, at'.locals⟩

theorem step_of_code {frame : Frame} {callers : List Frame} {block : LlirBlock} (status : s.status = .running)
    (frames : s.frames = frame :: callers) (code : frame.code llir = some block) :
    step llir environment s = stepBlock llir environment s frame callers block := by
  unfold Frame.code at code
  simp only [step, status, frames, code, if_true]

theorem step_of_assignment (valid : activation.Valid llir) {assignment : LlirAssignment}
    (begins : (g.addAssignment assignment).Begins activation.blocks)
    (at' : AtEnd llir canonical activation g s locals) :
    step llir environment s =
      stepAssignment llir environment s (activation.frameAt g locals) activation.callers assignment := by
  obtain ⟨block, code, found⟩ := valid.assignment locals begins
  have frames : s.frames = activation.frameAt g locals :: activation.callers := at'.frames
  have next : block.assignments[(activation.frameAt g locals).index]? = some assignment := found
  rw [step_of_code at'.status frames code, stepBlock, next]

theorem step_of_terminal (valid : activation.Valid llir) {terminal : LlirTerminal}
    (closed : (g.setTerminal terminal).currentBlock ∈ activation.blocks)
    (at' : AtEnd llir canonical activation g s locals) :
    step llir environment s =
      stepTerminal llir environment s (activation.frameAt g locals) activation.callers terminal := by
  obtain ⟨block, code, assignments, same⟩ := valid.terminal locals closed
  have frames : s.frames = activation.frameAt g locals :: activation.callers := at'.frames
  have done : block.assignments[(activation.frameAt g locals).index]? = none := by
    rw [assignments]
    exact List.getElem?_eq_none le_rfl
  rw [step_of_code at'.status frames code, stepBlock, done, same]

variable (callers : canonical → ∀ frame ∈ activation.callers, frame.locals.Canonical)
include callers

private theorem AtPoint.frames_canonical {block index : Nat}
    (at' : AtPoint llir canonical activation block index s locals)
    (asked : canonical) : ∀ frame ∈ s.frames, frame.locals.Canonical := by
  rw [at'.frames]
  exact List.forall_mem_cons.mpr ⟨at'.locals asked, callers asked⟩

/-- A state at a good assignment is good. -/
private theorem good_of_assignment (valid : activation.Valid llir) {assignment : LlirAssignment}
    (begins : (g.addAssignment assignment).Begins activation.blocks)
    (at' : AtEnd llir canonical activation g s locals)
    (good : GoodAssignment llir environment s (activation.frameAt g locals) assignment) :
    GoodState llir environment program canonical s := by
  obtain ⟨block, code, found⟩ := valid.assignment locals begins
  have head : s.frames.head? = some (activation.frameAt g locals) := by rw [at'.frames]; rfl
  refine ⟨at'.globals, at'.frames_canonical callers, fun _ frame mem block' mem' other mem'' => ?_,
    fun _ frame mem block' mem' done => ?_⟩
  · obtain rfl := Option.some.inj (head.symm.trans mem)
    obtain rfl := Option.some.inj (code.symm.trans mem')
    obtain rfl := Option.some.inj (found.symm.trans mem'')
    exact good
  · obtain rfl := Option.some.inj (head.symm.trans mem)
    obtain rfl := Option.some.inj (code.symm.trans mem')
    exact absurd (found.symm.trans done) (by simp)

/-- A state at a good terminal is good. -/
private theorem good_of_terminal (valid : activation.Valid llir) {terminal : LlirTerminal}
    (closed : (g.setTerminal terminal).currentBlock ∈ activation.blocks)
    (at' : AtEnd llir canonical activation g s locals)
    (good : GoodTerminal llir environment program canonical s (activation.frameAt g locals) terminal) :
    GoodState llir environment program canonical s := by
  obtain ⟨block, code, assignments, same⟩ := valid.terminal locals closed
  have done : block.assignments[(activation.frameAt g locals).index]? = none := by
    rw [assignments]
    exact List.getElem?_eq_none le_rfl
  have head : s.frames.head? = some (activation.frameAt g locals) := by rw [at'.frames]; rfl
  refine ⟨at'.globals, at'.frames_canonical callers, fun _ frame mem block' mem' other mem'' => ?_,
    fun _ frame mem block' mem' _ => ?_⟩
  · obtain rfl := Option.some.inj (head.symm.trans mem)
    obtain rfl := Option.some.inj (code.symm.trans mem')
    exact absurd (done.symm.trans mem'') (by simp)
  · obtain rfl := Option.some.inj (head.symm.trans mem)
    obtain rfl := Option.some.inj (code.symm.trans mem')
    exact same ▸ good

/-- A machine that has stopped stays as it is. -/
theorem AtPoint.safe_stopped {block index : Nat} (at' : AtPoint llir canonical activation block index s locals)
    {s' : MachineState} (stopped : s'.status ≠ .running) (globals : s'.globals = s.globals)
    (frames : s'.frames = s.frames) (n : Nat) : Safe llir environment program canonical n s' := by
  refine safeFor_of_fixed ⟨?_, ?_, fun running => absurd running stopped, fun running => absurd running stopped⟩
    (step_stopped stopped) n
  · exact globals ▸ at'.globals
  · exact frames ▸ at'.frames_canonical callers

end

structure Llir.Named (llir : Llir) : Prop where
  distinct : (llir.fields.map LlirField.identifier).Nodup
  identifiers : ∀ field ∈ llir.fields, IsIdentifier field.identifier

theorem Llir.Named.not_isGlobal {llir : Llir} (named : llir.Named) {name : String} (h : ¬ IsIdentifier name) :
    ¬ llir.IsGlobal name := by
  intro global
  obtain ⟨field, mem, rfl⟩ := List.mem_map.mp global
  exact h (named.identifiers field mem)

theorem Llir.Named.eq_of_name {llir : Llir} (named : llir.Named) {field field' : LlirField} (mem : field ∈ llir.fields)
    (mem' : field' ∈ llir.fields) (same : field.identifier = field'.identifier) : field = field' :=
  List.inj_on_of_nodup_map named.distinct mem mem' same

section
variable {llir : Llir} {canonical : Prop} {activation : Activation} {g : LlirGenerator} {s : MachineState}
  {locals : Store}

/-- A word is stored into a field and the activation goes on. -/
theorem AtPoint.store (named : llir.Named) (at' : AtEnd llir canonical activation g s locals)
    (assignment : LlirAssignment) {field : LlirField} (position : Nat) {value : Word}
    (bool : canonical → field.IsBool → CanonicalWord value)
    (global : llir.IsGlobal field.identifier → field ∈ llir.fields) :
    AtEnd llir canonical activation (g.addAssignment assignment)
      (s.store llir (activation.frameAt g locals) activation.callers field position value)
      (locals.write llir field position value) := by
  have next : (g.addAssignment assignment).currentBlock.assignments.length =
      g.currentBlock.assignments.length + 1 := by simp [LlirGenerator.addAssignment]
  unfold MachineState.store Store.write
  split
  · rename_i isGlobal
    refine ⟨at'.status, by rw [next]; rfl, fun asked => ⟨?_, fun other mem position' small => ?_⟩, at'.locals⟩
    · exact (at'.globals asked).1.set (bool asked) _ _
    · dsimp only
      unfold Store.set
      split
      · rename_i same
        rw [named.eq_of_name mem (global isGlobal) same.1]
      · exact (at'.globals asked).2 other mem position' small
  · exact ⟨at'.status, by rw [next]; rfl, at'.globals, fun asked => (at'.locals asked).set (bool asked) _ _⟩

/-- Locals keep their names, but for temporaries that are made later. -/
def Kept (k : Nat) (locals locals' : Store) : Prop :=
  ∀ name, ¬ TemporaryName k name → locals' name = locals name

theorem Kept.refl (k : Nat) (locals : Store) : Kept k locals locals := fun _ _ => rfl

theorem Kept.trans {k k' : Nat} {locals locals' locals'' : Store} (h : Kept k locals locals')
    (h' : Kept k' locals' locals'') (hk : k ≤ k') : Kept k locals locals'' :=
  fun name old => (h' name fun new => old (new.mono hk)).trans (h name old)

theorem Store.write_other (llir : Llir) (locals : Store) (field : LlirField) (position : Nat) (value : Word)
    {name : String} (other : name ≠ field.identifier) : locals.write llir field position value name = locals name := by
  unfold Store.write
  split
  · rfl
  · funext position'
    simp [Store.set, other]

theorem Store.write_self {locals : Store} {field : LlirField} (isLocal : ¬ llir.IsGlobal field.identifier)
    (position : Nat) (value : Word) :
    locals.write llir field position value field.identifier position = ⟨value, .stored field⟩ := by
  simp [Store.write, isLocal, Store.set]

theorem Kept.write {k : Nat} {field : LlirField} (temporary : TemporaryName k field.identifier) (locals : Store)
    (position : Nat) (value : Word) : Kept k locals (locals.write llir field position value) :=
  fun _ old => Store.write_other llir locals field position value fun same => old (same ▸ temporary)

/-- The operand of a value of the given type: a written temporary with a number below `k`, or a literal. -/
def OperandFits (llir : Llir) (canonical : Prop) (locals : Store) (k : Nat) (type : IrDataType) : LlirOperand → Prop
  | .field field => ¬ TemporaryName k field.identifier ∧ ¬ llir.IsGlobal field.identifier ∧
      (locals field.identifier 0).origin = .stored field ∧
      (canonical → type = .bool → CanonicalWord (locals field.identifier 0).value)
  | .literal value => canonical → type = .bool → CanonicalWord value
  | .string _ => False

theorem OperandFits.kept {k k' : Nat} {type : IrDataType} {operand : LlirOperand} {locals' : Store}
    (h : OperandFits llir canonical locals k type operand) (kept : Kept k locals locals') (hk : k ≤ k') :
    OperandFits llir canonical locals' k' type operand := by
  cases operand with
  | field field =>
    obtain ⟨old, isLocal, origin, bool⟩ := h
    refine ⟨fun new => old (new.mono hk), isLocal, ?_, ?_⟩
    · rwa [kept _ old]
    · rwa [kept _ old]
  | literal value => exact h
  | string string => exact h

theorem operandsOwned_of {frame : Frame} {operands : List LlirOperand}
    (h : ∀ field, .field field ∈ operands → ¬ llir.IsGlobal field.identifier →
      (frame.locals field.identifier 0).origin = .stored field) : OperandsOwned llir frame operands :=
  fun _ _ field mem isLocal => .inl (h field mem isLocal)

theorem OperandFits.stored {k : Nat} {type : IrDataType} {operand : LlirOperand}
    (h : OperandFits llir canonical locals k type operand) (field : LlirField) (same : LlirOperand.field field = operand) :
    (locals field.identifier 0).origin = .stored field := by
  subst same
  exact h.2.2.1

/-- A boolean operand is 0 or 1. -/
theorem OperandFits.bool_value {k : Nat} {type : IrDataType} {operand : LlirOperand}
    (h : OperandFits llir canonical locals k type operand) (asked : canonical) (bool : type = .bool)
    (environment : Environment) (s : MachineState) (block index : Nat) :
    CanonicalWord (s.operand llir environment (activation.frame block index locals) operand) := by
  cases operand with
  | field field =>
    obtain ⟨-, isLocal, -, value⟩ := h
    simpa [MachineState.operand, MachineState.cell, isLocal] using value asked bool
  | literal value => exact h asked bool
  | string string => exact h.elim

end

section
variable {llir : Llir} {environment : Environment} {program : IrProgram} {canonical : Prop}
  {activation : Activation} (valid : activation.Valid llir)
  (callers : canonical → ∀ frame ∈ activation.callers, frame.locals.Canonical)
  {g : LlirGenerator} {s : MachineState} {locals : Store} {n : Nat}
include valid callers

/-- An assignment whose obligations hold. -/
theorem safe_assignment {assignment : LlirAssignment}
    (begins : (g.addAssignment assignment).Begins activation.blocks)
    (at' : AtEnd llir canonical activation g s locals)
    (good : GoodAssignment llir environment s (activation.frameAt g locals) assignment)
    (next : ∀ m < n, (canonical → KeepsCanonical llir environment s (activation.frameAt g locals) assignment) →
      Safe llir environment program canonical m
        (stepAssignment llir environment s (activation.frameAt g locals) activation.callers assignment)) :
    Safe llir environment program canonical n s := by
  refine safeFor_of_step (good_of_assignment callers valid begins at' good) fun m hm allowed => ?_
  rw [step_of_assignment valid begins at']
  obtain ⟨block, code, found⟩ := valid.assignment locals begins
  refine next m hm fun asked => allowed asked at'.status _ ?_ block code assignment found
  rw [at'.frames]
  exact rfl

theorem safe_terminal {terminal : LlirTerminal}
    (closed : (g.setTerminal terminal).currentBlock ∈ activation.blocks)
    (at' : AtEnd llir canonical activation g s locals)
    (good : GoodTerminal llir environment program canonical s (activation.frameAt g locals) terminal)
    (next : ∀ m < n, Safe llir environment program canonical m
        (stepTerminal llir environment s (activation.frameAt g locals) activation.callers terminal)) :
    Safe llir environment program canonical n s := by
  refine safeFor_of_step (good_of_terminal callers valid closed at' good) fun m hm _ => ?_
  rw [step_of_terminal valid closed at']
  exact next m hm

theorem safe_jump {target block : Nat} (begins : (g.jumpTo target block).Begins activation.blocks)
    (at' : AtEnd llir canonical activation g s locals)
    (next : ∀ m < n, ∀ s', AtPoint llir canonical activation target 0 s' locals →
      Safe llir environment program canonical m s') : Safe llir environment program canonical n s := by
  refine safe_terminal valid callers begins.closed at' ⟨fun _ _ _ mem => by simp [LlirTerminal.operands] at mem, by simp,
    by simp⟩ fun m hm => next m hm _ ?_
  exact ⟨at'.status, rfl, at'.globals, at'.locals⟩

/-- A branch goes to one of its blocks. -/
theorem safe_branch {branch : LlirBranch} (begins : (g.branchTo branch).Begins activation.blocks)
    (at' : AtEnd llir canonical activation g s locals)
    (operands : OperandsOwned llir (activation.frameAt g locals) [branch.left, branch.right])
    (guard : branch.unsignedComparison = true → ∃ block, activation.method.block branch.trueBlock = some block ∧
      block.assignments = [] ∧ block.terminal = .shitYourself (-1))
    (nextTrue : branch.type.holds branch.unsignedComparison
        (s.operand llir environment (activation.frameAt g locals) branch.left)
        (s.operand llir environment (activation.frameAt g locals) branch.right) = false →
      ∀ m < n, ∀ s', AtPoint llir canonical activation branch.trueBlock 0 s' locals →
        Safe llir environment program canonical m s')
    (nextFalse : branch.type.holds branch.unsignedComparison
        (s.operand llir environment (activation.frameAt g locals) branch.left)
        (s.operand llir environment (activation.frameAt g locals) branch.right) = true →
      ∀ m < n, ∀ s', AtPoint llir canonical activation branch.falseBlock 0 s' locals →
        Safe llir environment program canonical m s') :
    Safe llir environment program canonical n s := by
  have found : llir.method (activation.frameAt g locals).method = some activation.method := valid.found
  refine safe_terminal valid callers begins.closed at' ⟨operands, by simp, fun other same unsigned method found' => ?_⟩
    fun m hm => ?_
  · obtain rfl := LlirTerminal.branch.inj same
    obtain rfl := Option.some.inj (found.symm.trans found')
    exact guard unsigned
  · have moved : stepTerminal llir environment s (activation.frameAt g locals) activation.callers (.branch branch) =
        { s with frames := activation.frame (if branch.type.holds branch.unsignedComparison
            (s.operand llir environment (activation.frameAt g locals) branch.left)
            (s.operand llir environment (activation.frameAt g locals) branch.right) = true
          then branch.falseBlock else branch.trueBlock) 0 locals :: activation.callers } := rfl
    rw [moved]
    cases holds : branch.type.holds branch.unsignedComparison
        (s.operand llir environment (activation.frameAt g locals) branch.left)
        (s.operand llir environment (activation.frameAt g locals) branch.right) with
    | false => exact nextTrue holds m hm _ ⟨at'.status, rfl, at'.globals, at'.locals⟩
    | true => exact nextFalse holds m hm _ ⟨at'.status, rfl, at'.globals, at'.locals⟩

variable (named : llir.Named)
include named

/-- A unary assignment. -/
theorem safe_unary {type : LlirUnaryType} {source : LlirOperand} {destination : LlirField}
    (begins : (g.addAssignment (.unary type source destination)).Begins activation.blocks)
    (at' : AtEnd llir canonical activation g s locals)
    (operands : OperandsOwned llir (activation.frameAt g locals) [source])
    (bool : canonical → KeepsCanonical llir environment s (activation.frameAt g locals)
        (.unary type source destination) → destination.IsBool →
      CanonicalWord (type.apply (s.operand llir environment (activation.frameAt g locals) source)))
    (global : llir.IsGlobal destination.identifier → destination ∈ llir.fields)
    (next : ∀ m < n, ∀ s', AtEnd llir canonical activation (g.addAssignment (.unary type source destination)) s'
        (locals.write llir destination 0
          (type.apply (s.operand llir environment (activation.frameAt g locals) source))) →
      Safe llir environment program canonical m s') : Safe llir environment program canonical n s :=
  safe_assignment valid callers begins at' ⟨operands, by simp [LlirAssignment.array], by simp, by simp, by simp⟩ fun m hm keeps =>
    next m hm _ (at'.store named _ 0 (fun asked => bool asked (keeps asked)) global)

theorem safe_binary {type : LlirBinaryType} {left right : LlirOperand} {destination : LlirField}
    (begins : (g.addAssignment (.binary type left right destination)).Begins activation.blocks)
    (at' : AtEnd llir canonical activation g s locals)
    (operands : OperandsOwned llir (activation.frameAt g locals) [left, right])
    (bool : ¬ destination.IsBool) (global : llir.IsGlobal destination.identifier → destination ∈ llir.fields)
    (next : ∀ m < n, ∀ s' value, type.apply (s.operand llir environment (activation.frameAt g locals) left)
        (s.operand llir environment (activation.frameAt g locals) right) = some value →
      AtEnd llir canonical activation (g.addAssignment (.binary type left right destination)) s'
        (locals.write llir destination 0 value) → Safe llir environment program canonical m s') :
    Safe llir environment program canonical n s := by
  refine safe_assignment valid callers begins at' ⟨operands, by simp [LlirAssignment.array], by simp, by simp, by simp⟩ fun m hm _ => ?_
  unfold stepAssignment
  dsimp only
  split
  · rename_i value result
    exact next m hm _ value result (at'.store named _ 0 (fun _ isBool => absurd isBool bool) global)
  · refine at'.safe_stopped callers ?_ ?_ ?_ m <;> simp

end

end Roast
