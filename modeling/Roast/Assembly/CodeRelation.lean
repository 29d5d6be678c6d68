import Roast.Assembly.CodeAssignments

/-! The states of the emitted code that belong to a state of the LLIR machine: the active method at its place in the code, its
frame on top of the stack, and below it the frames of the activations that wait for a return. -/
namespace Roast
open Processor Systems

def SameCalls (signals : List Signal) (calls : List Call) : Prop :=
  List.Forall₂ (fun signal call => signal.1 = call.1 ∧ ∀ k value, call.2[k]? = some value → signal.2 k = value) signals calls

def Llir.ExitsWithStatus (llir : Llir) : Prop :=
  ∀ method ∈ llir.methods, ∀ block ∈ method.blocks, ∀ destination,
    .methodCall "exit" [] destination ∉ block.assignments

/-- The functions outside the program respond to calls as described, and `exit` exits. -/
structure Host.Serves (host : Host) (imported : List Call → Response) : Prop where
  responds : ∀ signals calls, SameCalls signals calls → calls.getLast? ≠ some ("exit", []) →
    host.response signals = imported calls
  exit : ∀ signals words, host.response (signals ++ [("exit", words)]) = .exited (words 0)

/-- The addresses behind calls are different from each other and from the one behind the call of the program itself. -/
structure ReturnsApart (lines : List AssemblyLine) (behind : Nat → Word) (outside : Word) : Prop where
  distinct : ∀ line line' call call', lines[line]? = some (.call call) → lines[line']? = some (.call call') →
    behind line = behind line' → line = line'
  outside : ∀ line call, lines[line]? = some (.call call) → behind line ≠ outside

structure CodeGenerator.Links (g : CodeGenerator) (lines : List AssemblyLine) (behind : Nat → Word) (outside : Word) : Prop
    extends ReturnsApart lines behind outside where
  imported : ∀ method ∈ g.llir.methods, ∀ block ∈ method.blocks, ∀ name arguments destination,
    .methodCall name arguments destination ∈ block.assignments → g.llir.method name = none → labelLine lines name = none
  exit : ∀ method ∈ g.llir.methods, ∀ block ∈ method.blocks, ∀ value, block.terminal = .shitYourself value →
    labelLine lines "exit" = none

def CallsEnd (signals : List Signal) (calls : List Call) : Prop :=
  SameCalls signals calls ∨ ∃ signals' words, signals = signals' ++ [("exit", words)] ∧ SameCalls signals' calls

/-- The two machines have done the same calls, have the same globals, and have ended in the same way if they have ended. -/
structure Observes {fields : List LlirField} (loaded : Loaded fields) (state : MachineState) (c : CodeState) : Prop where
  status : c.status = state.status
  globals : GlobalsHold loaded c.processor.memory state.globals
  calls : CallsEnd c.calls state.calls

def Frame.outgoingRoom (llir : Llir) (frame : Frame) : Nat :=
  match frame.assignment llir with
  | some (.methodCall _ arguments _) => stackRoom arguments.length
  | _ => 0

def Frame.size (llir : Llir) (frame : Frame) : Nat :=
  16 + ((llir.method frame.method).elim 0 fun method => (generateStackAllocation (fun _ => 0) method).1)

def stackNeed (llir : Llir) (frames : List Frame) : Nat :=
  (frames.map fun frame => frame.size llir + frame.outgoingRoom llir).sum

section
variable {g : CodeGenerator} (loaded : Loaded g.llir.fields) (before : LlirMethod → Offsets) (lines : List AssemblyLine)
  (outside : Word) (limit : Nat)

inductive Waits (memory : Word → Word) (base callerBase : Word) (frame : Frame) : Prop
  | intro {method : LlirMethod} {block : LlirBlock} {name : String} {arguments : List LlirOperand} {destination : LlirField}
    {line : Nat} (mem : method ∈ g.llir.methods) (found : g.llir.method frame.method = some method)
    (code : method.block frame.block = some block)
    (call : block.assignments[frame.index]? = some (.methodCall name arguments destination))
    (here : lines[line]? = some (.call ⟨name, .method name⟩))
    (behind : Placed lines (line + 1) (afterCall (g.inMethod before method) arguments destination))
    (next : BlockAt (g.inMethod before method) lines method block (frame.index + 1)
      (line + 1 + (afterCall (g.inMethod before method) arguments destination).length))
    (saved : memory base = callerBase) (address : memory (base + 8) = loaded.behind line)
    (room : base.toNat + 16 + stackRoom arguments.length + (generateStackAllocation (before method) method).1 =
      callerBase.toNat)
    (below : callerBase.toNat + 16 ≤ loaded.top)
    (locals : LocalsHold loaded before method memory callerBase frame.locals) : Waits memory base callerBase frame

/-- The activations that wait, from the innermost one on; the outermost one was called from outside. -/
def CallersWait (memory : Word → Word) : Word → List Frame → Prop
  | base, [] => memory (base + 8) = outside ∧ base.toNat + 16 = limit
  | base, frame :: rest => ∃ callerBase, Waits loaded before lines memory base callerBase frame ∧
      CallersWait memory callerBase rest

structure Tracks (state : MachineState) (c : CodeState) (frame : Frame) (rest : List Frame) (method : LlirMethod)
    (block : LlirBlock) : Prop where
  running : c.status = .running
  frames : state.frames = frame :: rest
  mem : method ∈ g.llir.methods
  found : g.llir.method frame.method = some method
  code : method.block frame.block = some block
  here : BlockAt (g.inMethod before method) lines method block frame.index c.line
  holds : Holds loaded before method c.processor frame.locals state.globals
  callers : CallersWait loaded before lines outside limit c.processor.memory (c.processor.registers .rbp) rest
  calls : SameCalls c.calls state.calls

structure Related (state : MachineState) (c : CodeState) : Prop where
  observes : Observes loaded state c
  tracks : state.status = .running → ∃ frame rest method block,
    Tracks loaded before lines outside limit state c frame rest method block

variable {loaded before lines outside limit} {memory memory' : Word → Word} {base callerBase : Word} {frame : Frame}

/-- A waiting frame depends on the words from its base on only. -/
theorem Waits.of_agree (compilable : g.llir.Compilable) (waits : Waits loaded before lines memory base callerBase frame)
    (agree : ∀ place : Word, base.toNat ≤ place.toNat → place.toNat < loaded.top → memory' place = memory place) :
    Waits loaded before lines memory' base callerBase frame := by
  cases waits with
  | @intro method block name arguments destination line mem found code call here behind next saved address room below locals =>
    have bounded := callerBase.isLt
    have next_word : (base + 8).toNat = base.toNat + 8 := by
      rw [BitVec.toNat_add, show (8 : Word).toNat = 8 from rfl]
      omega
    refine .intro mem found code call here behind next ?_ ?_ room below ?_
    · rw [agree _ le_rfl (by omega), saved]
    · rw [agree _ (by omega) (by omega), address]
    · exact locals.of_agree (compilable.storable method mem) (by omega) fun place low high =>
        agree place (by omega) (by omega)

/-- The frames below do not depend on what lies above them on the stack. -/
theorem CallersWait.of_agree (compilable : g.llir.Compilable) (small : limit ≤ loaded.top) {frames : List Frame}
    (wait : CallersWait loaded before lines outside limit memory base frames)
    (agree : ∀ place : Word, base.toNat ≤ place.toNat → place.toNat < loaded.top → memory' place = memory place) :
    CallersWait loaded before lines outside limit memory' base frames := by
  induction frames generalizing base with
  | nil =>
    obtain ⟨address, depth⟩ := wait
    have bounded := loaded.bounded
    have next_word : (base + 8).toNat = base.toNat + 8 := by
      rw [BitVec.toNat_add, show (8 : Word).toNat = 8 from rfl]
      omega
    refine ⟨?_, depth⟩
    rw [agree _ (by omega) (by omega), address]
  | cons frame rest ih =>
    obtain ⟨callerBase, waits, wait⟩ := wait
    refine ⟨callerBase, waits.of_agree compilable agree, ih wait fun place low high => agree place ?_ high⟩
    cases waits
    omega

private theorem generateStackAllocation_size (offsets offsets' : Offsets) (method : LlirMethod) :
    (generateStackAllocation offsets method).1 = (generateStackAllocation offsets' method).1 := by
  have sizes (fields : List LlirField) (frame frame' : Nat × Offsets) (same : frame.1 = frame'.1) :
      (fields.foldl allocateField frame).1 = (fields.foldl allocateField frame').1 := by
    induction fields generalizing frame frame' with
    | nil => exact same
    | cons field rest ih => exact ih _ _ (by rw [allocateField, allocateField, same])
  rw [generateStackAllocation_eq, generateStackAllocation_eq]
  dsimp only
  rw [sizes method.fields (0, offsets) (0, offsets') rfl]

theorem Frame.size_eq {llir : Llir} {method : LlirMethod} (found : llir.method frame.method = some method)
    (offsets : Offsets) : frame.size llir = 16 + (generateStackAllocation offsets method).1 := by
  rw [Frame.size, found, Option.elim_some, generateStackAllocation_size]

theorem Frame.outgoingRoom_eq {llir : Llir} {method : LlirMethod} {block : LlirBlock} {name : String}
    {arguments : List LlirOperand} {destination : LlirField} (found : llir.method frame.method = some method)
    (code : method.block frame.block = some block)
    (call : block.assignments[frame.index]? = some (.methodCall name arguments destination)) :
    frame.outgoingRoom llir = stackRoom arguments.length := by
  rw [Frame.outgoingRoom, Frame.assignment, found, Option.bind_some, code, Option.bind_some, call]

/-- The frames fill the stack from its start down to the frame at `base`. -/
theorem CallersWait.depth {frames : List Frame} (wait : CallersWait loaded before lines outside limit memory base frames) :
    base.toNat + 16 + stackNeed g.llir frames = limit := by
  induction frames generalizing base with
  | nil => exact wait.2
  | cons frame rest ih =>
    obtain ⟨callerBase, waits, wait⟩ := wait
    have deeper := ih wait
    cases waits with
    | @intro method block name arguments destination line mem found code call here behind next saved address room =>
      rw [stackNeed, List.map_cons, List.sum_cons, Frame.size_eq found (before method), Frame.outgoingRoom_eq found code call]
      rw [stackNeed] at deeper
      omega

end

end Roast
