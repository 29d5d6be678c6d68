import Roast.Assembly.GlobalInitialization
import Roast.Assembly.InterpretedMemory

/-! Steps of the machine while it does what the interpreter says. What is shown of a state is passed on to the states
before it, so that every part of a method is followed by what the rest of the program does. -/
namespace Roast
open LlirGenerator Systems

def Status.Stops : Status → Prop
  | .exited _ | .hung | .trapped => True
  | _ => False

theorem Status.Stops.ne {status : Status} (stops : status.Stops) : status ≠ .running ∧ status ≠ .stuck := by
  constructor <;> rintro rfl <;> exact stops

def machineAppearance (program : IrProgram) : Appearance Status Memory Word MachineState where
  done value memory s := s.status = .returned value ∧ WorldHolds program memory s
  stopped status memory s := s.status = status ∧ status.Stops ∧ WorldHolds program memory s
  running memory s := s.status = .running ∧ WorldHolds program memory s

section
variable (llir : Llir) (environment : Environment) (program : IrProgram) (move : MachineState → MachineState)

/-- The run from a state does what the interpreter says, for `n` steps where that does not end. -/
abbrev Behaves (n : Nat) (s : MachineState) (ending : Ending Status Memory Word) : Prop :=
  Realizes move (machineAppearance program) n s ending

/-- A step of the machine, which may change the globals of a method that it enters. -/
structure Entering (entering : String → Bindings → Bindings) : Prop where
  quiet : ∀ s, (step llir environment s).activations = s.activations → move s = step llir environment s
  enters : ∀ s s' : MachineState, ∀ callee ∈ llir.methods, ∀ values callers, s'.activations = s.activations →
    s'.status = .running → callee.arguments.length = values.length →
    step llir environment s = enterCall environment s' callee values callers →
    ∃ globals, move s = { enterCall environment s' callee values callers with globals := globals } ∧
      ∀ bindings, ScopeHolds s'.globals 0 program.fields bindings →
        ScopeHolds globals 0 program.fields (entering callee.identifier bindings)

structure RepresentsAt (activation : Activation) (scopes : List (List IrField)) (block index : Nat) (memory : Memory)
    (s : MachineState) (locals : Store) : Prop where
  point : AtPoint llir False activation block index s locals
  holds : MemoryHolds program scopes memory s locals

abbrev Represents (activation : Activation) (scopes : List (List IrField)) (g : LlirGenerator) (memory : Memory)
    (s : MachineState) (locals : Store) : Prop :=
  RepresentsAt llir program activation scopes g.currentBlock.id g.currentBlock.assignments.length memory s locals

end

section
variable {llir : Llir} {environment : Environment} {program : IrProgram} {move : MachineState → MachineState}
  {entering : String → Bindings → Bindings} {activation : Activation} {scopes : List (List IrField)} {g : LlirGenerator}
  {memory : Memory} {s : MachineState} {locals : Store} {n : Nat} {ending : Ending Status Memory Word}

theorem behaves_stopped {status : Status} {s' : MachineState} (moved : move s = s') (same : s'.status = status)
    (stops : status.Stops) (world : WorldHolds program memory s') : Behaves program move n s (.stopped status memory) :=
  .of_step (n := n) ⟨0, by subst moved; exact ⟨same, stops, world⟩⟩

theorem behaves_done {value : Word} {s' : MachineState} (world : WorldHolds program memory s')
    (same : s'.status = .returned value) : Behaves program move n s' (.done value memory) := ⟨0, same, world⟩

/-- Where the bound is used up, the machine has still to run. -/
theorem behaves_unfinished (running : s.status = .running) (world : WorldHolds program memory s) :
    Behaves program move 0 s (.unfinished memory) := ⟨0, le_rfl, running, world⟩

section
variable (moves : Entering llir environment program move entering) (valid : activation.Valid llir)
include moves valid

/-- An assignment that is no call. -/
theorem behaves_assignment {assignment : LlirAssignment}
    (begins : (g.addAssignment assignment).Begins activation.blocks)
    (at' : Executing llir activation g s locals) {s' : MachineState}
    (steps : stepAssignment llir environment s (activation.frameAt g locals) activation.callers assignment = s')
    (quiet : s'.activations = s.activations) (next : Behaves program move (n - 1) s' ending) :
    Behaves program move n s ending := by
  have stepped : step llir environment s = s' := (step_of_assignment valid begins at').trans steps
  refine .of_step ?_
  rw [moves.quiet s (by rw [stepped, quiet]), stepped]
  exact next

theorem behaves_terminal {terminal : LlirTerminal}
    (closed : (g.setTerminal terminal).currentBlock ∈ activation.blocks) (at' : Executing llir activation g s locals)
    {s' : MachineState}
    (steps : stepTerminal llir environment s (activation.frameAt g locals) activation.callers terminal = s')
    (quiet : s'.activations = s.activations) (next : Behaves program move (n - 1) s' ending) :
    Behaves program move n s ending := by
  have stepped : step llir environment s = s' := (step_of_terminal valid closed at').trans steps
  refine .of_step ?_
  rw [moves.quiet s (by rw [stepped, quiet]), stepped]
  exact next

theorem behaves_jump {target block : Nat} (begins : (g.jumpTo target block).Begins activation.blocks)
    (represents : Represents llir program activation scopes g memory s locals)
    (next : ∀ s', RepresentsAt llir program activation scopes target 0 memory s' locals →
      Behaves program move (n - 1) s' ending) : Behaves program move n s ending := by
  obtain ⟨at', holds⟩ := represents
  refine behaves_terminal moves valid begins.closed at' rfl rfl (next _ ⟨⟨at'.status, rfl, False.elim, False.elim⟩, ?_⟩)
  exact ⟨⟨holds.globals, holds.calls, holds.strays⟩, holds.locals⟩

/-- A branch goes to its false block when the comparison holds. -/
theorem behaves_branch {branch : LlirBranch} (begins : (g.branchTo branch).Begins activation.blocks)
    (represents : Represents llir program activation scopes g memory s locals) {left right : Word}
    (hl : s.operand llir environment (activation.frameAt g locals) branch.left = left)
    (hr : s.operand llir environment (activation.frameAt g locals) branch.right = right)
    (next : ∀ s', RepresentsAt llir program activation scopes
        (if branch.type.holds branch.unsignedComparison left right then branch.falseBlock else branch.trueBlock) 0 memory
        s' locals → Behaves program move (n - 1) s' ending) : Behaves program move n s ending := by
  obtain ⟨at', holds⟩ := represents
  subst hl hr
  refine behaves_terminal moves valid begins.closed at' rfl rfl (next _ ⟨⟨at'.status, rfl, False.elim, False.elim⟩, ?_⟩)
  exact ⟨⟨holds.globals, holds.calls, holds.strays⟩, holds.locals⟩

variable (named : llir.Named) {tables : List (List (String × LlirField))} (hm : Matches scopes tables)
include named hm

omit moves valid named in
/-- A temporary is no variable. -/
theorem MemoryHolds.temporary (holds : MemoryHolds program scopes memory s locals) {g₀ : LlirGenerator} {field : LlirField}
    (fresh : FreshTemporary llir g₀ field) (frame : Frame) (rest : List Frame) (value : Word) :
    MemoryHolds program scopes memory (s.store llir frame rest field 0 value) (locals.write llir field 0 value) := by
  refine ⟨?_, holds.locals.kept hm (Kept.write fresh.name locals 0 value)⟩
  unfold MachineState.store
  rw [if_neg fresh.isLocal]
  exact ⟨holds.globals, holds.calls, holds.strays⟩

/-- A value is stored into a temporary. -/
theorem behaves_temporary {assignment : LlirAssignment}
    (begins : (g.addAssignment assignment).Begins activation.blocks)
    (represents : Represents llir program activation scopes g memory s locals) {g₀ : LlirGenerator} {field : LlirField}
    (fresh : FreshTemporary llir g₀ field) {value : Word}
    (stores : stepAssignment llir environment s (activation.frameAt g locals) activation.callers assignment =
      s.store llir (activation.frameAt g locals) activation.callers field 0 value)
    (next : ∀ s', Represents llir program activation scopes (g.addAssignment assignment) memory s'
      (locals.write llir field 0 value) → Behaves program move (n - 1) s' ending) : Behaves program move n s ending := by
  obtain ⟨at', holds⟩ := represents
  refine behaves_assignment moves valid begins at' stores (store_activations ..) (next _ ⟨?_, ?_⟩)
  · exact at'.store named assignment 0 False.elim fun isGlobal => absurd isGlobal fresh.isLocal
  · exact MemoryHolds.temporary hm holds fresh _ _ value

end

end

end Roast
