import Roast.Assembly.CodeMemory
import Roast.Assembly.Arithmetic
import Roast.Assembly.Resolved

/-! The emitted code of the assignments other than calls stores the word that the machine stores, in its place. -/
namespace Roast
open Processor Systems

section
variable (g : CodeGenerator) (symbols : String → Word) {s : Processor}

/-- An array is loaded as the place of its first element. -/
private theorem executeLines_loadArray (array : LlirField) {register : Register}
    (wide : register ≠ .al ∧ register ≠ .eax) :
    executeLines symbols s (loadArrayToRegister g array register) =
      some (s.setRegister register (fieldPlace g symbols (s.registers .rbp) array)) := by
  have load (place : Word) {source : AssemblyOperand} (located : s.address symbols source = some place) :
      executeLines symbols s [.instruction .leaq [source, .register register]] = some (s.setRegister register place) := by
    refine executeLines_one symbols ?_
    rw [executeAssembly, executeInstruction, located]
    exact congrArg some (write_eq wide s place)
  rw [loadArrayToRegister, fieldPlace]
  split
  · exact load _ (stackSlot_address symbols s _)
  · exact load _ (relative_address symbols s array)

private theorem executeLines_index : ∃ s', executeLines symbols s indexInstructions = some s' ∧
    s'.registers .r10 = s.registers .r10 + s.registers .r11 * 8 ∧ SameBase s s' :=
  ⟨_, rfl, rfl, rfl, rfl⟩

/-- The word at the address in `r10`. -/
private theorem loadElement_address (s : Processor) : s.address symbols (.memory 0 .r10) = some (s.registers .r10) := by
  rw [address, read_eq (by decide)]
  exact congrArg some (BitVec.add_zero _)

variable {index value : LlirOperand} {array destination : LlirField}
  (alignedIndex : ∀ field, index = .field field → (fieldPlace g symbols (s.registers .rbp) field).toNat % 8 = 0)
  (alignedElement : (fieldPlace g symbols (s.registers .rbp) array +
    operandWord g symbols (s.registers .rbp) s.memory index * 8).toNat % 8 = 0)
include alignedIndex

/-- The address of an element comes into `r10`. -/
private theorem executeLines_element : ∃ s', executeLines symbols s
      (loadArrayToRegister g array .r10 ++ loadToRegister g index .r11 ++ indexInstructions) = some s' ∧
    s'.registers .r10 = fieldPlace g symbols (s.registers .rbp) array +
      operandWord g symbols (s.registers .rbp) s.memory index * 8 ∧ SameBase s s' := by
  have loadedIndex := @executeLines_loadToRegister g symbols
    (s.setRegister .r10 (fieldPlace g symbols (s.registers .rbp) array)) index alignedIndex .r11 (by decide)
  obtain ⟨s', run, place, same⟩ := executeLines_index symbols
    (s := (s.setRegister .r10 (fieldPlace g symbols (s.registers .rbp) array)).setRegister .r11
      (operandWord g symbols (s.registers .rbp) s.memory index))
  refine ⟨s', ?_, place, same⟩
  rw [executeLines_append, executeLines_append, executeLines_loadArray g symbols array (by decide), Option.bind_eq_bind,
    Option.bind_some, loadedIndex]
  exact run

include alignedElement

/-- The code of an array access stores the word that it finds in the place of the element. -/
private theorem executeLines_arrayAccess (stored : (fieldPlace g symbols (s.registers .rbp) destination).toNat % 8 = 0)
    (guarded : Bool) : ∃ s',
    executeLines symbols s (generateAssignmentLines g (.arrayAccess index array destination guarded)) = some s' ∧
      s'.memory = Function.update s.memory (fieldPlace g symbols (s.registers .rbp) destination)
        (s.memory (fieldPlace g symbols (s.registers .rbp) array +
          operandWord g symbols (s.registers .rbp) s.memory index * 8)) := by
  obtain ⟨s1, run, place, same⟩ := @executeLines_element g symbols s index array alignedIndex
  rw [← place] at alignedElement
  have loaded := @executeAssembly_loadMemory symbols s1 _ _ .r11 (loadElement_address symbols s1) alignedElement (by decide)
  obtain ⟨s2, last, memory⟩ := @executeLines_storeResult symbols s g destination stored
    (s1.setRegister .r11 (s1.memory (s1.registers .r10))) ⟨same.1, same.2⟩ .r11 (by decide)
  refine ⟨s2, ?_, ?_⟩
  · rw [generateAssignmentLines, executeLines_append, executeLines_append, run, Option.bind_eq_bind, Option.bind_some,
      executeLines_one symbols loaded]
    exact last
  · rw [memory, ← place, ← same.2]
    rfl

/-- The code of an array update stores in the place of the element. -/
private theorem executeLines_arrayUpdate
    (alignedValue : ∀ field, value = .field field → (fieldPlace g symbols (s.registers .rbp) field).toNat % 8 = 0) : ∃ s',
    executeLines symbols s (generateAssignmentLines g (.arrayUpdate index value array)) = some s' ∧
      s'.memory = Function.update s.memory
        (fieldPlace g symbols (s.registers .rbp) array + operandWord g symbols (s.registers .rbp) s.memory index * 8)
        (operandWord g symbols (s.registers .rbp) s.memory value) := by
  obtain ⟨s1, run, place, same⟩ := @executeLines_element g symbols s index array alignedIndex
  rw [← place] at alignedElement
  rw [← same.1] at alignedValue
  have loaded := @executeLines_loadToRegister g symbols s1 value alignedValue .r11 (by decide)
  have kept : (s1.setRegister .r11 (operandWord g symbols (s1.registers .rbp) s1.memory value)).address symbols
      (.memory 0 .r10) = some (s1.registers .r10) := loadElement_address symbols _
  have stored := @executeAssembly_storeRegister symbols _ _ _ .r11 kept alignedElement (by decide)
  refine ⟨(s1.setRegister .r11 (operandWord g symbols (s1.registers .rbp) s1.memory value)).put (s1.registers .r10)
    (operandWord g symbols (s1.registers .rbp) s1.memory value), ?_, ?_⟩
  · rw [generateAssignmentLines, executeLines_append, executeLines_append, run, Option.bind_eq_bind, Option.bind_some,
      loaded]
    exact executeLines_one symbols stored
  · rw [← place, ← same.1, ← same.2]
    rfl

end

def Faults (symbols : String → Word) (s : Processor) (lines : List AssemblyLine) : Prop :=
  ∃ front operands back s', lines = front ++ .instruction .idivq operands :: back ∧
    executeLines symbols s front = some s' ∧ s'.memory = s.memory ∧ executeInstruction symbols s' .idivq operands = none

/-- A division that the LLIR leaves undefined faults. -/
private theorem faults_division (g : CodeGenerator) (symbols : String → Word) {s : Processor} {type : LlirBinaryType}
    {left right : LlirOperand} {destination : LlirField}
    (alignedLeft : ∀ field, left = .field field → (fieldPlace g symbols (s.registers .rbp) field).toNat % 8 = 0)
    (alignedRight : ∀ field, right = .field field → (fieldPlace g symbols (s.registers .rbp) field).toNat % 8 = 0)
    (undefined : type.apply (operandWord g symbols (s.registers .rbp) s.memory left)
      (operandWord g symbols (s.registers .rbp) s.memory right) = none) :
    Faults symbols s (generateAssignmentLines g (.binary type left right destination)) := by
  have loadedLeft := @executeLines_loadToRegister g symbols s left alignedLeft .r10 (by decide)
  have loadedRight := @executeLines_loadToRegister g symbols
    (s.setRegister .r10 (operandWord g symbols (s.registers .rbp) s.memory left)) right alignedRight .r11 (by decide)
  generalize operandWord g symbols (s.registers .rbp) s.memory left = dividend at *
  have start : executeLines symbols s (loadToRegister g left .r10 ++ loadToRegister g right .r11) =
      some ((s.setRegister .r10 dividend).setRegister .r11 (operandWord g symbols (s.registers .rbp) s.memory right)) := by
    rw [executeLines_append, loadedLeft, Option.bind_eq_bind, Option.bind_some, loadedRight]
    rfl
  generalize operandWord g symbols (s.registers .rbp) s.memory right = divisor at *
  have fault (traps : divisionTraps dividend divisor) (result : Register) : Faults symbols s
      (loadToRegister g left .r10 ++ loadToRegister g right .r11 ++ (divisionInstructions result).1 ++
        storeFromRegister g destination result) := by
    refine ⟨loadToRegister g left .r10 ++ loadToRegister g right .r11 ++
      [.instruction .movq [.register .r10, .register .rax], .instruction .cqto []], [.register .r11],
      storeFromRegister g destination result, (((s.setRegister .r10 dividend).setRegister .r11 divisor).write .rax
        dividend).write .rdx (if dividend.msb then -1 else 0), ?_, ?_, ?_, ?_⟩
    · simp only [divisionInstructions, List.append_assoc, List.cons_append, List.nil_append]
    · rw [executeLines_append, start]
      rfl
    · rfl
    · show divideLong (if dividend.msb then -1 else 0) dividend divisor >>= _ = none
      rw [divideLong_extended, if_pos traps]
      rfl
  cases type with
  | divide =>
    rw [LlirBinaryType.apply] at undefined
    split at undefined
    · rename_i traps
      exact fault traps .rax
    · cases undefined
  | modulo =>
    rw [LlirBinaryType.apply] at undefined
    split at undefined
    · rename_i traps
      exact fault traps .rdx
    · cases undefined
  | _ => cases undefined

/-- The machine of the code traps at the division. -/
theorem leadsTo_fault {globals : List LlirField} {lines : List AssemblyLine} {loaded : Loaded globals} {s : CodeState}
    (encodable : ∀ line ∈ lines, line.Encodable) {segment : List AssemblyLine} (running : s.status = .running)
    (placed : Placed lines s.line segment) (faults : Faults loaded.symbols s.processor segment) :
    ∃ s', LeadsTo (codeStep lines loaded) (codeStep lines loaded s) s' ∧ s'.status = .trapped ∧ s'.calls = s.calls ∧
      s'.processor.memory = s.processor.memory := by
  obtain ⟨front, operands, back, processor, rfl, run, memory, fault⟩ := faults
  have before := leadsTo_lines encodable running placed.left run
  have here := placed.right.head
  have stop : codeStep lines loaded (s.moveTo (s.line + front.length) processor) =
      (s.moveTo (s.line + front.length) processor).stop .trapped := by
    have faulting : executeInstruction loaded.symbols (s.moveTo (s.line + front.length) processor).processor .idivq operands =
        none := fault
    rw [@codeStep_of _ _ _ (s.moveTo (s.line + front.length) processor) running _ here, CodeState.executeLine, if_neg (by decide),
      if_pos (encodable _ (List.mem_of_getElem? here)), faulting, if_pos rfl]
  refine ⟨_, leadsTo_codeStep before, ?_, ?_, ?_⟩
  · rw [stop]
    rfl
  · rw [stop]
    rfl
  · rw [stop]
    exact memory

/-- A program that the code generator can be given: what lowering guarantees, frames that keep their fields apart, and fewer
than 2^27 arguments everywhere. -/
structure Llir.Compilable (llir : Llir) : Prop where
  globals : ∀ field ∈ llir.fields, 0 < field.valueCount
  storable : ∀ method ∈ llir.methods, method.Storable llir.fields
  wellFormed : ∀ method ∈ llir.methods, method.WellFormed
  resolved : ∀ method ∈ llir.methods, ∃ names writes, method.Resolved names llir.fields writes

section
variable {g : CodeGenerator} {loaded : Loaded g.llir.fields} {before : LlirMethod → Offsets} {lines : List AssemblyLine}
  {environment : Environment} {method : LlirMethod} {s : Processor} {locals globals : Store} {field : LlirField}
  {state : MachineState} {frame : Frame}

def Loaded.StringsAt (loaded : Loaded g.llir.fields) (environment : Environment) : Prop :=
  ∀ string, environment.stringAddress string = loaded.symbols (stringLabel (g.stringId string))

variable (compilable : g.llir.Compilable) (emits : g.Emits before lines) (mem : method ∈ g.llir.methods)
  (holds : Holds loaded before method s locals globals)
include compilable emits mem

omit emits in
theorem Llir.Compilable.positive (known : field ∈ g.llir.fields ++ method.fields) : 0 < field.valueCount := by
  obtain isGlobal | isLocal := List.mem_append.mp known
  · exact compilable.globals field isGlobal
  · exact (compilable.storable method mem).callable.positive field isLocal

include holds

/-- The place of an element is aligned, whatever the index. -/
theorem Holds.aligned (known : field ∈ g.llir.fields ++ method.fields) (index : Word) :
    (fieldPlace (g.inMethod before method) loaded.symbols (s.registers .rbp) field + index * 8).toNat % 8 = 0 := by
  have place : (fieldPlace (g.inMethod before method) loaded.symbols (s.registers .rbp) field).toNat % 8 = 0 := by
    have storable := compilable.storable method mem
    obtain isGlobal | isLocal := List.mem_append.mp known
    · rw [← elementPlace_zero, elementPlace_global storable emits mem isGlobal]
      exact globalPlace_aligned isGlobal
    · have base := holds.body.base_aligned storable.callable.positive
      obtain ⟨words, -, -, address, -⟩ := holds.body.local_place storable.callable.positive ⟨field, isLocal, rfl⟩
      have address' : (fieldPlace (g.inMethod before method) loaded.symbols (s.registers .rbp) field).toNat + 8 * words =
          (s.registers .rbp).toNat := address
      omega
  rw [BitVec.toNat_add, BitVec.toNat_mul, show (8 : Word).toNat = 8 from rfl]
  omega

theorem Holds.aligned_zero (known : field ∈ g.llir.fields ++ method.fields) :
    (fieldPlace (g.inMethod before method) loaded.symbols (s.registers .rbp) field).toNat % 8 = 0 := by
  simpa using holds.aligned compilable emits mem known 0

theorem Holds.aligned_operand {operand : LlirOperand} (passable : operand.Passable (g.llir.fields ++ method.fields)) :
    ∀ field, operand = .field field →
      (fieldPlace (g.inMethod before method) loaded.symbols (s.registers .rbp) field).toNat % 8 = 0 := by
  rintro field rfl
  obtain known | ⟨string, impossible⟩ := passable
  · exact holds.aligned_zero compilable emits mem known
  · cases impossible

variable (strings : loaded.StringsAt environment) (sameGlobals : state.globals = globals) (sameLocals : frame.locals = locals)
include strings sameGlobals sameLocals

/-- An operand has the same value in both machines. -/
theorem Holds.operand {operand : LlirOperand} (passable : operand.Passable (g.llir.fields ++ method.fields)) :
    operandWord (g.inMethod before method) loaded.symbols (s.registers .rbp) s.memory operand =
      state.operand g.llir environment frame operand := by
  cases operand with
  | literal literal => rfl
  | string string => exact (strings string).symm
  | field field =>
    obtain known | ⟨string, impossible⟩ := passable
    · have first : ((0 : Nat) : Int) < field.valueCount := compilable.positive mem known
      have cell := holds.cell (compilable.storable method mem) emits mem sameGlobals sameLocals known first
      rw [elementPlace_zero] at cell
      exact cell
    · cases impossible

omit compilable emits mem holds strings sameGlobals sameLocals

variable (loaded before method s) in
def accessedWord : LlirAssignment → Word
  | .arrayAccess index array _ _ =>
    s.memory (fieldPlace (g.inMethod before method) loaded.symbols (s.registers .rbp) array +
      operandWord (g.inMethod before method) loaded.symbols (s.registers .rbp) s.memory index * 8)
  | _ => 0

variable (loaded before environment method s state frame) in
structure StoresAlike (rest : List Frame) (assignment : LlirAssignment) : Prop where
  stores : ∃ (s' : Processor) (field : LlirField) (position : Nat) (value : Word) (strays : Nat),
    executeLines loaded.symbols s (generateAssignmentLines (g.inMethod before method) assignment) = some s' ∧
    SameFrame s s' ∧ field ∈ g.llir.fields ++ method.fields ∧ position < field.valueCount ∧
    s'.memory = Function.update s.memory (elementPlace loaded before method (s.registers .rbp) field position) value ∧
    stepAssignment g.llir environment state frame rest assignment =
      { state with strays := strays }.store g.llir frame rest field position value

private theorem mul_eight (index : Word) : index * 8 = BitVec.ofNat 64 (8 * index.toNat) := by
  apply BitVec.eq_of_toNat_eq
  rw [BitVec.toNat_mul, BitVec.toNat_ofNat, show (8 : Word).toNat = 8 from rfl, Nat.mul_comm]

include compilable emits mem holds strings sameGlobals sameLocals

/-- By cases on the assignment. A division may trap in both, and an update outside the array is undefined in the first one. -/
theorem Holds.assignment {assignment : LlirAssignment} {names : List String}
    (resolved : assignment.Resolved names (g.llir.fields ++ method.fields))
    (noCall : ∀ name arguments destination, assignment ≠ .methodCall name arguments destination)
    (stray : environment.stray state.strays = accessedWord loaded before method s assignment) (rest : List Frame) :
    StoresAlike loaded before environment method s state frame rest assignment ∨
      Faults loaded.symbols s (generateAssignmentLines (g.inMethod before method) assignment) ∧
        stepAssignment g.llir environment state frame rest assignment = { state with status := .trapped } ∨
      stepAssignment g.llir environment state frame rest assignment = { state with status := .stuck } := by
  have frames {s' : Processor}
      (run : executeLines loaded.symbols s (generateAssignmentLines (g.inMethod before method) assignment) = some s') :
      SameFrame s s' := sameFrame_executeLines loaded.symbols (generateAssignmentLines_keeps _ noCall) run
  have scalar {destination : LlirField} (known : destination ∈ g.llir.fields ++ method.fields) :=
    compilable.positive mem known
  cases assignment with
  | unary type source destination =>
    obtain ⟨s', run, memory⟩ := executeLines_unaryAssignment loaded.symbols (g.inMethod before method)
      (holds.aligned_zero compilable emits mem resolved.2) type
      (holds.aligned_operand compilable emits mem (.inl resolved.1))
    rw [holds.operand compilable emits mem strings sameGlobals sameLocals (.inl resolved.1), ← elementPlace_zero] at memory
    exact .inl ⟨s', destination, 0, _, state.strays, run, frames run, resolved.2, scalar resolved.2, memory, rfl⟩
  | binary type left right destination =>
    have alignedLeft := holds.aligned_operand compilable emits mem (.inl resolved.1)
    have alignedRight := holds.aligned_operand compilable emits mem (.inl resolved.2.1)
    have runs := executeLines_binaryAssignment loaded.symbols (g.inMethod before method)
      (holds.aligned_zero compilable emits mem resolved.2.2) type alignedLeft alignedRight
    have fault := @faults_division (g.inMethod before method) loaded.symbols s type left right destination alignedLeft
      alignedRight
    rw [holds.operand compilable emits mem strings sameGlobals sameLocals (.inl resolved.1),
      holds.operand compilable emits mem strings sameGlobals sameLocals (.inl resolved.2.1)] at runs fault
    rw [stepAssignment]
    cases applied : type.apply (state.operand g.llir environment frame left) (state.operand g.llir environment frame right) with
    | none => exact .inr (.inl ⟨fault applied, rfl⟩)
    | some value =>
      obtain ⟨s', run, memory⟩ := runs.1 value applied
      rw [← elementPlace_zero] at memory
      refine .inl ⟨s', destination, 0, value, state.strays, run, frames run, resolved.2.2, scalar resolved.2.2, memory, ?_⟩
      rw [stepAssignment, applied]
  | arrayUpdate index value destination =>
    have known : destination ∈ g.llir.fields ++ method.fields := resolved.2.2
    rw [stepAssignment]
    by_cases inside : InBounds (state.operand g.llir environment frame index) destination
    · obtain ⟨s', run, memory⟩ := executeLines_arrayUpdate (g.inMethod before method) loaded.symbols
        (holds.aligned_operand compilable emits mem (.inl resolved.1)) (holds.aligned compilable emits mem known _)
        (holds.aligned_operand compilable emits mem (.inl resolved.2.1))
      rw [holds.operand compilable emits mem strings sameGlobals sameLocals (.inl resolved.1),
        holds.operand compilable emits mem strings sameGlobals sameLocals (.inl resolved.2.1), mul_eight] at memory
      refine .inl ⟨s', destination, _, _, state.strays, run, frames run, known, inside, memory, ?_⟩
      rw [stepAssignment, if_pos inside]
    · exact .inr (.inr (if_neg inside))
  | arrayAccess index array destination guarded =>
    have known : destination ∈ g.llir.fields ++ method.fields := resolved.2.2
    obtain ⟨s', run, memory⟩ := executeLines_arrayAccess (g.inMethod before method) loaded.symbols
      (holds.aligned_operand compilable emits mem (.inl resolved.1)) (holds.aligned compilable emits mem resolved.2.1 _)
      (holds.aligned_zero compilable emits mem known) guarded
    rw [← elementPlace_zero] at memory
    rw [accessedWord] at stray
    rw [holds.operand compilable emits mem strings sameGlobals sameLocals (.inl resolved.1)] at memory stray
    by_cases inside : InBounds (state.operand g.llir environment frame index) array
    · have cell := holds.cell (compilable.storable method mem) emits mem sameGlobals sameLocals resolved.2.1 inside
      rw [elementPlace, ← mul_eight] at cell
      rw [cell] at memory
      refine .inl ⟨s', destination, 0, _, state.strays, run, frames run, known, scalar known, memory, ?_⟩
      rw [stepAssignment, if_pos inside]
    · rw [← stray] at memory
      refine .inl ⟨s', destination, 0, _, state.strays + 1, run, frames run, known, scalar known, memory, ?_⟩
      rw [stepAssignment, if_neg inside]
  | methodCall name arguments destination => exact absurd rfl (noCall name arguments destination)

end

end Roast
