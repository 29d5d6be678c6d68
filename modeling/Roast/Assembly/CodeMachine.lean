import Roast.Assembly.CallingConvention
import Roast.Assembly.GlobalEncoding
import Roast.Systems.Placement
import Roast.Systems.Runs

/-! The emitted code as a program of the processor: a position in the list of lines, jumps to labels, and calls and returns
through the stack. What lies outside the program (the loaded addresses, the functions that it imports) is given. -/
namespace Roast
open Processor Systems

abbrev Signal := String × (Nat → Word)

/-- The functions outside the program, which see the calls made so far, the current one included. `registers` and `memory` are
what they leave in the registers that a call may change and below the stack pointer. -/
structure Host where
  response : List Signal → Response
  registers : List Signal → Register → Word
  memory : List Signal → Word → Word

/-- The program in memory, where no two globals overlap. `behind` is the address of the byte that follows a line. -/
structure Loaded (globals : List LlirField) extends AddressSpace globals where
  separate : ∀ field ∈ globals, ∀ other ∈ globals, ∀ i j : Nat, i < field.valueCount → j < other.valueCount →
    globalPlace symbols field i = globalPlace symbols other j → field.identifier = other.identifier ∧ i = j
  behind : Nat → Word
  host : Host

structure CodeState where
  status : Status
  line : Nat
  processor : Processor
  calls : List Signal

/-- Displacements and immediates have 32 bits, except the immediate of a move to a register. -/
def AssemblyOperand.Encodable : AssemblyOperand → Prop
  | .immediate value => EncodableImmediate value.toNat
  | .register _ => True
  | .memory displacement _ => -2 ^ 31 ≤ displacement ∧ displacement < 2 ^ 31
  | .relative _ displacement => displacement < 2 ^ 31

def AssemblyLine.Encodable : AssemblyLine → Prop
  | .instruction .movq [.immediate _, .register _] => True
  | .instruction _ operands => ∀ operand ∈ operands, operand.Encodable
  | _ => True

instance (operand : AssemblyOperand) : Decidable operand.Encodable := by
  unfold AssemblyOperand.Encodable EncodableImmediate
  split <;> infer_instance

def AssemblyLine.movesImmediate : AssemblyLine → Bool
  | .instruction .movq [.immediate _, .register _] => true
  | _ => false

def AssemblyLine.operands : AssemblyLine → List AssemblyOperand
  | .instruction _ operands => operands
  | _ => []

/-- A line is encodable if it moves an immediate, or if each of its operands is. -/
private theorem AssemblyLine.encodable_iff (line : AssemblyLine) :
    line.movesImmediate ∨ (∀ operand ∈ line.operands, operand.Encodable) ↔ line.Encodable := by
  unfold AssemblyLine.Encodable
  split
  · exact iff_of_true (.inl rfl) trivial
  · rename_i mnemonic operands other
    have plain : (instruction mnemonic operands).movesImmediate = false := by
      unfold movesImmediate
      split
      · rename_i same
        cases same
        exact absurd rfl (other _ _ rfl)
      · rfl
    rw [plain]
    simp [AssemblyLine.operands]
  · rename_i other
    refine iff_of_true (.inr fun operand mem => ?_) trivial
    cases line with
    | instruction mnemonic operands => exact absurd rfl (other mnemonic operands)
    | _ => cases mem

instance (line : AssemblyLine) : Decidable line.Encodable := decidable_of_iff _ line.encodable_iff

def AssemblyLine.labelName : AssemblyLine → Option String
  | .label symbol => some symbol.name
  | _ => none

def labelLine (lines : List AssemblyLine) (name : String) : Option Nat :=
  lines.findIdx? fun line => line.labelName = some name

/-- `jmp` ignores the flags. -/
def JumpMnemonic.taken (flags : Option Flags) : JumpMnemonic → Option Bool
  | .jmp => some true
  | .je => flags.map fun flags => flags.zero
  | .jne => flags.map fun flags => !flags.zero
  | .jb => flags.map fun flags => flags.carry
  | .jbe => flags.map fun flags => flags.carry || flags.zero
  | .ja => flags.map fun flags => !flags.carry && !flags.zero
  | .jae => flags.map fun flags => !flags.carry
  | .jl => flags.map fun flags => flags.sign != flags.overflow
  | .jle => flags.map fun flags => flags.zero || flags.sign != flags.overflow
  | .jg => flags.map fun flags => !flags.zero && flags.sign == flags.overflow
  | .jge => flags.map fun flags => flags.sign == flags.overflow

def Host.resume (host : Host) (bottom : Nat) (calls : List Signal) (s : Processor) (value : Word) : Processor where
  registers := Function.update (fun register =>
    if register = .rsp ∨ register = .rbp then s.registers register else host.registers calls register) .rax value
  memory := fun place =>
    if bottom ≤ place.toNat ∧ place.toNat < (s.registers .rsp).toNat then host.memory calls place else s.memory place
  flags := none

def AssemblyLine.IsCall : AssemblyLine → Prop
  | .call _ => True
  | _ => False

instance : DecidablePred AssemblyLine.IsCall
  | .call _ => isTrue trivial
  | .data | .text | .globl _ | .label _ | .string _ | .fill _ | .align _ | .instruction _ _ | .jump _ _ => isFalse not_false

section
variable {globals : List LlirField} (lines : List AssemblyLine) (loaded : Loaded globals)

namespace CodeState

def moveTo (s : CodeState) (line : Nat) (processor : Processor) : CodeState :=
  { s with line := line, processor := processor }

def advance (s : CodeState) (processor : Processor) : CodeState := s.moveTo (s.line + 1) processor

def stop (s : CodeState) (status : Status) : CodeState := { s with status := status }

def goTo (s : CodeState) (name : String) : CodeState :=
  match labelLine lines name with
  | some line => { s with line := line }
  | none => s.stop .stuck

/-- A call of a label of the program or, when it has none of that name, of a function outside, which wants the stack to be
aligned. -/
def callFunction (s : CodeState) (name : String) : CodeState :=
  let s := { s with calls := s.calls ++ [(name, passedWord s.processor)] }
  match labelLine lines name with
  | some line =>
    match s.processor.push (loaded.behind s.line) with
    | some processor => { s with line := line, processor := processor }
    | none => s.stop .stuck
  | none =>
    if (s.processor.registers .rsp).toNat % 16 = 0 then
      match loaded.host.response s.calls with
      | .returned value => s.advance (loaded.host.resume loaded.bottom s.calls s.processor value)
      | .exited status => s.stop (.exited status)
      | .hung => s.stop .hung
    else s.stop .stuck

def returnFrom (s : CodeState) : CodeState :=
  match s.processor.pop with
  | none => s.stop .stuck
  | some (address, processor) =>
    match (List.range lines.length).find? fun line =>
      (∃ call ∈ lines[line]?, call.IsCall) ∧ loaded.behind line = address with
    | some line => { s with line := line + 1, processor := processor }
    | none => { s with status := .returned (processor.read .rax), processor := processor }

def executeLine (s : CodeState) : AssemblyLine → CodeState
  | .label _ => s.advance s.processor
  | .globl _ => s.advance s.processor
  | .jump mnemonic target =>
    match mnemonic.taken s.processor.flags with
    | some true => s.goTo lines target.name
    | some false => s.advance s.processor
    | none => s.stop .stuck
  | .call target => s.callFunction lines loaded target.name
  | .instruction mnemonic operands =>
    if mnemonic = .ret then s.returnFrom lines loaded
    else if (AssemblyLine.instruction mnemonic operands).Encodable then
      match executeInstruction loaded.symbols s.processor mnemonic operands with
      | some processor => s.advance processor
      | none => s.stop (if mnemonic = .idivq then .trapped else .stuck)
    else s.stop .stuck
  | _ => s.stop .stuck

end CodeState

def codeStep (s : CodeState) : CodeState :=
  if s.status = .running then
    match lines[s.line]? with
    | some line => s.executeLine lines loaded line
    | none => s.stop .stuck
  else s

end

section
variable {lines : List AssemblyLine}

private theorem labelLine_cons (line : AssemblyLine) (rest : List AssemblyLine) (name : String) :
    labelLine (line :: rest) name =
    if line.labelName = some name then some 0 else (labelLine rest name).map (· + 1) := by
  rw [labelLine, List.findIdx?_cons]
  simp only [decide_eq_true_eq]
  rfl

private theorem definitions_names (lines : List AssemblyLine) :
    (definitions lines).map AssemblySymbol.name = lines.filterMap AssemblyLine.labelName := by
  rw [definitions, List.map_filterMap]
  congr 1
  funext line
  cases line <;> rfl

/-- A jump to a label finds it, if there is only one of that name. -/
theorem labelLine_of_getElem? {position : Nat} {symbol : AssemblySymbol}
    (distinct : ((definitions lines).map AssemblySymbol.name).Nodup) (here : lines[position]? = some (.label symbol)) :
    labelLine lines symbol.name = some position := by
  rw [definitions_names] at distinct
  induction lines generalizing position with
  | nil => cases here
  | cons line rest ih =>
    rw [labelLine_cons]
    cases position with
    | zero =>
      obtain rfl : line = .label symbol := Option.some.inj here
      exact if_pos rfl
    | succ position =>
      rw [List.getElem?_cons_succ] at here
      have later : symbol.name ∈ rest.filterMap AssemblyLine.labelName :=
        List.mem_filterMap.mpr ⟨_, List.mem_of_getElem? here, rfl⟩
      have other : line.labelName ≠ some symbol.name := by
        intro same
        rw [List.filterMap_cons_some same, List.nodup_cons] at distinct
        exact distinct.1 later
      rw [if_neg other, ih (distinct.sublist ((List.sublist_cons_self line rest).filterMap _)) here]
      rfl

theorem labelLine_eq_none {name : String} (absent : name ∉ (definitions lines).map AssemblySymbol.name) :
    labelLine lines name = none := by
  rw [definitions_names] at absent
  refine List.findIdx?_eq_none_iff.mpr fun line mem => decide_eq_false fun same => ?_
  exact absent (List.mem_filterMap.mpr ⟨line, mem, same⟩)

end

section
variable {globals : List LlirField} {lines : List AssemblyLine} {loaded : Loaded globals} {s : CodeState}

theorem codeStep_of (running : s.status = .running) {line : AssemblyLine} (here : lines[s.line]? = some line) :
    codeStep lines loaded s = s.executeLine lines loaded line := by
  rw [codeStep, if_pos running, here]

theorem codeStep_stopped (stopped : s.status ≠ .running) : codeStep lines loaded s = s := if_neg stopped

private theorem executeInstruction_ret (symbols : String → Word) (s : Processor) (operands : List AssemblyOperand) :
    executeInstruction symbols s .ret operands = none := by
  unfold executeInstruction
  split <;> simp_all [Mnemonic.condition]

/-- An encodable instruction advances to the next line. -/
theorem executeLine_instruction {line : AssemblyLine} {processor : Processor} (encodable : line.Encodable)
    (run : executeAssembly loaded.symbols s.processor line = some processor) :
    s.executeLine lines loaded line = s.advance processor := by
  cases line with
  | instruction mnemonic operands =>
    rw [executeAssembly] at run
    have notReturn : mnemonic ≠ .ret := by
      rintro rfl
      rw [executeInstruction_ret] at run
      cases run
    rw [CodeState.executeLine, if_neg notReturn, if_pos encodable, run]
  | _ => cases run

/-- The first of some instructions. -/
private theorem codeStep_lines (encodable : ∀ line ∈ lines, line.Encodable) {line : AssemblyLine}
    {rest : List AssemblyLine}
    {processor : Processor} (running : s.status = .running) (placed : Placed lines s.line (line :: rest))
    (run : executeLines loaded.symbols s.processor (line :: rest) = some processor) :
    ∃ next, codeStep lines loaded s = s.advance next ∧ Placed lines (s.advance next).line rest ∧
      executeLines loaded.symbols (s.advance next).processor rest = some processor := by
  rw [executeLines_cons] at run
  obtain ⟨next, first, others⟩ := Option.bind_eq_some_iff.mp run
  refine ⟨next, ?_, placed.tail, others⟩
  rw [codeStep_of running placed.head]
  exact executeLine_instruction (encodable _ (List.mem_of_getElem? placed.head)) first

/-- A stretch of instructions is executed one after another. -/
theorem leadsTo_lines (encodable : ∀ line ∈ lines, line.Encodable) {segment : List AssemblyLine} {processor : Processor}
    (running : s.status = .running) (placed : Placed lines s.line segment)
    (run : executeLines loaded.symbols s.processor segment = some processor) :
    LeadsTo (codeStep lines loaded) s (s.moveTo (s.line + segment.length) processor) := by
  induction segment generalizing s with
  | nil =>
    obtain rfl : s.processor = processor := Option.some.inj run
    exact LeadsTo.refl s
  | cons line rest ih =>
    obtain ⟨next, step, placed', others⟩ := codeStep_lines encodable running placed run
    have later := ih (s := s.advance next) running placed' others
    have position : s.line + 1 + rest.length = s.line + (line :: rest).length := by
      rw [List.length_cons]
      omega
    refine LeadsTo.cons ?_
    rw [step, ← position]
    exact later

/-- Some instructions take at least one step. -/
theorem leadsTo_someLines (encodable : ∀ line ∈ lines, line.Encodable) {segment : List AssemblyLine}
    {processor : Processor} (nonempty : segment ≠ []) (running : s.status = .running) (placed : Placed lines s.line segment)
    (run : executeLines loaded.symbols s.processor segment = some processor) :
    LeadsTo (codeStep lines loaded) (codeStep lines loaded s)
      (s.moveTo (s.line + segment.length) processor) := by
  cases segment with
  | nil => exact absurd rfl nonempty
  | cons line rest =>
    obtain ⟨next, step, placed', others⟩ := codeStep_lines encodable running placed run
    have later := leadsTo_lines (s := s.advance next) encodable running placed' others
    have position : s.line + 1 + rest.length = s.line + (line :: rest).length := by
      rw [List.length_cons]
      omega
    rw [step, ← position]
    exact later

/-- One more step at the end is one at the beginning. -/
theorem leadsTo_codeStep {s' : CodeState} (leads : LeadsTo (codeStep lines loaded) s s') :
    LeadsTo (codeStep lines loaded) (codeStep lines loaded s) (codeStep lines loaded s') := by
  obtain ⟨n, rfl⟩ := leads
  refine ⟨n, ?_⟩
  rw [← Function.iterate_succ_apply, Function.iterate_succ_apply']

end

end Roast
