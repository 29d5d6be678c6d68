import Roast.Assembly.Arguments

/-! The calling convention: what a call leaves to the callee and to the caller, and the alignment of the stack in all runs
of the emitted code. -/
namespace Roast
open Processor

instance (target : AssemblyOperand) : Decidable target.KeepsFrame := by
  unfold AssemblyOperand.KeepsFrame
  infer_instance

instance (line : AssemblyLine) : Decidable line.KeepsFrame := by
  cases line <;> unfold AssemblyLine.KeepsFrame <;> infer_instance

section
variable (g : CodeGenerator)

/-- Loading a register keeps the frame. -/
private theorem loadToRegister_keeps (operand : LlirOperand) {register : Register}
    (keeps : (AssemblyOperand.register register).KeepsFrame) :
    ∀ line ∈ loadToRegister g operand register, line.KeepsFrame := by
  have move (mnemonic : Mnemonic) (source : AssemblyOperand) (notPush : mnemonic ≠ .pushq) (notPop : mnemonic ≠ .popq) :
      (AssemblyLine.instruction mnemonic [source, .register register]).KeepsFrame := by
    refine ⟨notPush, notPop, fun target mem => ?_⟩
    cases mem
    exact keeps
  intro line mem
  cases operand with
  | literal literal =>
    obtain rfl := List.mem_singleton.mp mem
    exact move _ _ (by decide) (by decide)
  | string string =>
    obtain rfl := List.mem_singleton.mp mem
    exact move _ _ (by decide) (by decide)
  | field field =>
    rw [loadToRegister] at mem
    split at mem
    all_goals
      obtain rfl := List.mem_singleton.mp mem
      exact move _ _ (by decide) (by decide)

private theorem loadArrayToRegister_keeps (array : LlirField) {register : Register}
    (keeps : (AssemblyOperand.register register).KeepsFrame) :
    ∀ line ∈ loadArrayToRegister g array register, line.KeepsFrame := by
  intro line mem
  rw [loadArrayToRegister] at mem
  split at mem
  all_goals
    obtain rfl := List.mem_singleton.mp mem
    refine ⟨by decide, by decide, fun target last => ?_⟩
    cases last
    exact keeps

theorem storeRegister_keeps (register : Register) {place : AssemblyOperand} (inMemory : place.KeepsFrame) :
    (AssemblyLine.instruction .movq [.register register, place]).KeepsFrame := by
  refine ⟨by decide, by decide, fun target last => ?_⟩
  cases last
  exact inMemory

theorem memory_keepsFrame (displacement : Int) (base : Register) :
    (AssemblyOperand.memory displacement base).KeepsFrame := by
  constructor
  all_goals
    intro same
    cases same

private theorem relative_keepsFrame (symbol : AssemblySymbol) (displacement : Nat) :
    (AssemblyOperand.relative symbol displacement).KeepsFrame := by
  constructor
  all_goals
    intro same
    cases same

private theorem storeFromRegister_keeps (destination : LlirField) (register : Register) :
    ∀ line ∈ storeFromRegister g destination register, line.KeepsFrame := by
  intro line mem
  rw [storeFromRegister] at mem
  split at mem
  · obtain rfl := List.mem_singleton.mp mem
    exact storeRegister_keeps register (memory_keepsFrame _ _)
  · obtain rfl := List.mem_singleton.mp mem
    exact storeRegister_keeps register (relative_keepsFrame _ _)

private theorem unaryInstructions_keeps (type : LlirUnaryType) :
    ∀ line ∈ (unaryInstructions type).1, line.KeepsFrame := by
  cases type <;> decide

private theorem binaryInstructions_keeps (type : LlirBinaryType) :
    ∀ line ∈ (binaryInstructions type).1, line.KeepsFrame := by
  cases type <;> decide

/-- The lines of an assignment other than a call do not touch the frame. -/
theorem generateAssignmentLines_keeps {assignment : LlirAssignment}
    (noCall : ∀ method arguments destination, assignment ≠ .methodCall method arguments destination) :
    ∀ line ∈ generateAssignmentLines g assignment, line.KeepsFrame := by
  intro line mem
  cases assignment with
  | unary type source destination =>
    rw [generateAssignmentLines, List.mem_append, List.mem_append] at mem
    rcases mem with (mem | mem) | mem
    · exact loadToRegister_keeps g source (by decide) line mem
    · exact unaryInstructions_keeps type line mem
    · exact storeFromRegister_keeps g destination _ line mem
  | binary type left right destination =>
    rw [generateAssignmentLines, List.mem_append, List.mem_append, List.mem_append] at mem
    rcases mem with ((mem | mem) | mem) | mem
    · exact loadToRegister_keeps g left (by decide) line mem
    · exact loadToRegister_keeps g right (by decide) line mem
    · exact binaryInstructions_keeps type line mem
    · exact storeFromRegister_keeps g destination _ line mem
  | arrayUpdate index value destination =>
    simp only [generateAssignmentLines, List.mem_append] at mem
    rcases mem with (((mem | mem) | mem) | mem) | mem
    · exact loadArrayToRegister_keeps g destination (by decide) line mem
    · exact loadToRegister_keeps g index (by decide) line mem
    · revert line
      decide
    · exact loadToRegister_keeps g value (by decide) line mem
    · revert line
      decide
  | arrayAccess index array destination guarded =>
    simp only [generateAssignmentLines, List.mem_append] at mem
    rcases mem with (((mem | mem) | mem) | mem) | mem
    · exact loadArrayToRegister_keeps g array (by decide) line mem
    · exact loadToRegister_keeps g index (by decide) line mem
    · revert line
      decide
    · revert line
      decide
    · exact storeFromRegister_keeps g destination _ line mem
  | methodCall method arguments destination => exact absurd rfl (noCall method arguments destination)

/-- Passing arguments keeps the frame. -/
theorem generateCallArguments_keeps (i : Nat) (arguments : List LlirOperand) :
    ∀ line ∈ generateCallArguments g i arguments, line.KeepsFrame := by
  induction arguments generalizing i with
  | nil =>
    intro line mem
    rw [generateCallArguments] at mem
    cases mem
  | cons argument rest ih =>
    intro line mem
    rw [generateCallArguments, List.mem_append] at mem
    rcases mem with mem | mem
    · cases at_i : argumentRegisters[i]? with
      | some register =>
        rw [at_i] at mem
        have other := argumentRegister_other at_i
        exact loadToRegister_keeps g argument ⟨fun same => other.2.1 (by injection same),
          fun same => other.2.2.1 (by injection same)⟩ line mem
      | none =>
        rw [at_i] at mem
        rcases List.mem_append.mp mem with mem | mem
        · exact loadToRegister_keeps g argument (by decide) line mem
        · obtain rfl := List.mem_singleton.mp mem
          exact storeRegister_keeps .r10 (memory_keepsFrame _ _)
    · exact ih (i + 1) line mem

def terminalLines : LlirTerminal → List AssemblyLine
  | .branch branch => loadToRegister g branch.left .r11 ++ loadToRegister g branch.right .r10 ++
      [.instruction .cmpq [.register .r10, .register .r11]]
  | .llirReturn source => loadToRegister g source .rax
  | .shitYourself returnValue => [.instruction .movq [.immediate returnValue, .register .rdi]]
  | _ => []

/-- No line of a terminal writes a stack pointer. -/
private theorem terminalLines_keeps (terminal : LlirTerminal) : ∀ line ∈ terminalLines g terminal, line.KeepsFrame := by
  intro line mem
  cases terminal with
  | branch branch =>
    rw [terminalLines, List.mem_append, List.mem_append] at mem
    rcases mem with (mem | mem) | mem
    · exact loadToRegister_keeps g _ (by decide) line mem
    · exact loadToRegister_keeps g _ (by decide) line mem
    · revert line
      decide
  | llirReturn source => exact loadToRegister_keeps g source (by decide) line mem
  | shitYourself returnValue =>
    obtain rfl := List.mem_singleton.mp mem
    refine ⟨by decide, by decide, fun target last => ?_⟩
    obtain rfl : AssemblyOperand.register .rdi = target := Option.some.inj last
    decide
  | unknown => cases mem
  | jump block => cases mem

end

/-- Where the linker and the operating system put the globals, the strings and the stack of a program. -/
structure AddressSpace (globals : List LlirField) where
  symbols : String → Word
  bottom : Nat
  top : Nat
  bounded : top ≤ 2 ^ 64
  aligned : ∀ field ∈ globals, (symbols field.identifier).toNat % 8 = 0
  apart : ∀ field ∈ globals, ∀ position : Nat, position < field.valueCount →
    ¬ (bottom ≤ (globalPlace symbols field position).toNat ∧ (globalPlace symbols field position).toNat < top)

/-- A method as the lowering makes it, with parameters of different names, and fewer than 2^27 of them here and in its
calls. -/
structure LlirMethod.Callable (method : LlirMethod) : Prop where
  positive : ∀ field ∈ method.fields, 0 < field.valueCount
  distinct : (method.arguments.map LlirField.identifier).Nodup
  few : method.arguments.length < 2 ^ 27
  calls : ∀ block ∈ method.blocks, ∀ name arguments destination,
    .methodCall name arguments destination ∈ block.assignments → arguments.length < 2 ^ 27

/-- A field that is local to the method, or a global whose name no local has had. -/
def CodeGenerator.Locates (g : CodeGenerator) (method : LlirMethod) (field : LlirField) : Prop :=
  (∃ other ∈ method.fields, other.identifier = field.identifier) ∨
    (methodGenerator g method).offsets field.identifier = 0 ∧
      ∃ global ∈ g.llir.fields, global.identifier = field.identifier ∧ 0 < global.valueCount

def stackRoom (count : Nat) : Nat := 8 * ((count - 6) + (count - 6) % 2)

section
variable (g : CodeGenerator) (space : AddressSpace g.llir.fields)

structure InBody (method : LlirMethod) (s : Processor) : Prop where
  frame : (s.registers .rsp).toNat + (generateStackAllocation g.offsets method).1 = (s.registers .rbp).toNat
  aligned : (s.registers .rsp).toNat % 16 = 0
  below : space.bottom ≤ (s.registers .rsp).toNat
  above : (s.registers .rbp).toNat + 16 ≤ space.top

structure AtEntry (method : LlirMethod) (s : Processor) : Prop where
  aligned : (s.registers .rsp).toNat % 16 = 8
  below : space.bottom + 8 + (generateStackAllocation g.offsets method).1 ≤ (s.registers .rsp).toNat
  above : (s.registers .rsp).toNat + 8 + 8 * (method.arguments.length - 6) ≤ space.top

def receivedWord (s : Processor) (k : Nat) : Word :=
  match argumentRegisters[k]? with
  | some register => s.registers register
  | none => s.memory (outgoingPlace (s.registers .rsp + 8) k)

structure Declared (method : LlirMethod) (s s' : Processor) : Prop where
  body : InBody g space method s'
  base : s'.registers .rbp = s.registers .rsp - 8
  saved : s'.memory (s'.registers .rbp) = s.registers .rbp
  above : ∀ place, (s.registers .rsp).toNat ≤ place.toNat → place.toNat < space.top → s'.memory place = s.memory place
  slots : ∀ k field, method.arguments[k]? = some field →
    s'.memory (fieldPlace (methodGenerator g method) space.symbols (s'.registers .rbp) field) = receivedWord s k

variable {g space} {method : LlirMethod} {s : Processor}

/-- A local lies in the frame. -/
theorem InBody.local_place (body : InBody g space method s) (positive : ∀ field ∈ method.fields, 0 < field.valueCount)
    {field : LlirField} (mem : ∃ other ∈ method.fields, other.identifier = field.identifier) :
    ∃ words : Nat, 0 < words ∧ (methodGenerator g method).offsets field.identifier = 8 * words ∧
      (fieldPlace (methodGenerator g method) space.symbols (s.registers .rbp) field).toNat + 8 * words =
        (s.registers .rbp).toNat ∧
      (s.registers .rsp).toNat ≤ (fieldPlace (methodGenerator g method) space.symbols (s.registers .rbp) field).toNat := by
  obtain ⟨other, declared, same⟩ := mem
  obtain ⟨words, some_words, offset, inside⟩ := generateStackAllocation_offset positive g.offsets declared
  rw [same] at offset
  have frame := body.frame
  have bounded := (s.registers .rbp).isLt
  have place : (fieldPlace (methodGenerator g method) space.symbols (s.registers .rbp) field) =
      s.registers .rbp - BitVec.ofNat 64 (8 * words) := by
    rw [fieldPlace, show (methodGenerator g method).offsets field.identifier = 8 * words from offset, if_pos (by omega)]
  have address : (s.registers .rbp - BitVec.ofNat 64 (8 * words)).toNat = (s.registers .rbp).toNat - 8 * words := by
    rw [BitVec.toNat_sub, BitVec.toNat_ofNat]
    omega
  refine ⟨words, some_words, offset, ?_, ?_⟩
  · rw [place, address]
    omega
  · rw [place, address]
    omega

theorem InBody.base_aligned (body : InBody g space method s)
    (positive : ∀ field ∈ method.fields, 0 < field.valueCount) : (s.registers .rbp).toNat % 16 = 0 := by
  have size := generateStackAllocation_aligned positive g.offsets
  have frame := body.frame
  have aligned := body.aligned
  omega

/-- A field of an operand lies in the frame or outside the stack. -/
theorem InBody.place (body : InBody g space method s) (positive : ∀ field ∈ method.fields, 0 < field.valueCount)
    {field : LlirField} (located : g.Locates method field) :
    (fieldPlace (methodGenerator g method) space.symbols (s.registers .rbp) field).toNat % 8 = 0 ∧
    ((s.registers .rsp).toNat ≤ (fieldPlace (methodGenerator g method) space.symbols (s.registers .rbp) field).toNat ∨
      (fieldPlace (methodGenerator g method) space.symbols (s.registers .rbp) field).toNat < space.bottom) := by
  have base := body.base_aligned positive
  rcases located with inFrame | ⟨noOffset, global, mem, same, positive'⟩
  · obtain ⟨words, -, -, address, inside⟩ := body.local_place positive inFrame
    exact ⟨by omega, .inl inside⟩
  · have place : fieldPlace (methodGenerator g method) space.symbols (s.registers .rbp) field =
        globalPlace space.symbols global 0 := by
      rw [fieldPlace, if_neg (not_not.mpr noOffset), globalPlace, same]
      simp
    have apart := space.apart global mem 0 positive'
    have aligned := space.aligned global mem
    have above := body.above
    have frame := body.frame
    refine ⟨?_, ?_⟩
    · rw [place, globalPlace]
      simpa using aligned
    · rw [place]
      omega

theorem toNat_outgoingPlace {start : Word} {i : Nat} (fits : start.toNat + 8 * (i - 6) < 2 ^ 64) :
    (outgoingPlace start i).toNat = start.toNat + 8 * (i - 6) := by
  rw [outgoingPlace, BitVec.toNat_add, BitVec.toNat_ofNat]
  omega

/-- The callee up to its body. -/
theorem executeLines_declaration (callable : method.Callable) (entry : AtEntry g space method s) :
    ∃ s', executeLines space.symbols s (methodDeclaration g method) = some s' ∧ Declared g space method s s' := by
  obtain ⟨aligned, below, above⟩ := entry
  have bounded := (s.registers .rsp).isLt
  have top := space.bounded
  have size := generateStackAllocation_aligned callable.positive g.offsets
  have base : (s.registers .rsp - 8).toNat = (s.registers .rsp).toNat - 8 := by
    rw [BitVec.toNat_sub, show (8 : Word).toNat = 8 from rfl]
    omega
  obtain ⟨s1, entered, base1, top1, registers1, memory1⟩ := executeLines_enter space.symbols (s := s) (by omega)
    (BitVec.ofNat 64 (generateStackAllocation g.offsets method).1)
  have top1' : (s1.registers .rsp).toNat + (generateStackAllocation g.offsets method).1 = (s1.registers .rbp).toNat := by
    rw [top1, base1, BitVec.toNat_sub, base, BitVec.toNat_ofNat]
    omega
  have body1 : InBody g space method s1 := by
    refine ⟨top1', ?_, ?_, ?_⟩
    · rw [base1, base] at top1'
      omega
    · rw [base1, base] at top1'
      omega
    · rw [base1, base]
      omega
  have parameter {field : LlirField} (mem : field ∈ method.arguments) :=
    body1.local_place callable.positive ⟨field, List.mem_append_left _ mem, rfl⟩
  have incoming {j : Nat} (inside : j < method.arguments.length) :
      (outgoingPlace (s1.registers .rbp + 16) j).toNat = (s1.registers .rbp).toNat + 16 + 8 * (j - 6) ∨ j < 6 := by
    by_cases few : j < 6
    · exact .inr few
    · left
      have start : (s1.registers .rbp + 16).toNat = (s1.registers .rbp).toNat + 16 := by
        rw [BitVec.toNat_add, show (16 : Word).toNat = 16 from rfl, base1, base]
        omega
      rw [toNat_outgoingPlace, start]
      rw [start, base1, base]
      omega
  obtain ⟨s2, stored, keeps⟩ := @executeLines_argumentLines (methodGenerator g method) space.symbols 0
    method.arguments s1 (fun field mem => by
      obtain ⟨words, some_words, offset, -⟩ := parameter mem
      omega)
    (by
      have := body1.base_aligned callable.positive
      omega)
    (fun field mem => by
      obtain ⟨words, -, -, place, -⟩ := parameter mem
      have := body1.base_aligned callable.positive
      omega)
    (by
      refine List.Nodup.map_on (fun field mem other mem' same => ?_) callable.distinct.of_map
      by_contra differ
      have names : field.identifier ≠ other.identifier := fun equal =>
        differ (List.inj_on_of_nodup_map callable.distinct mem mem' equal)
      refine generateStackAllocation_distinct callable.positive g.offsets (List.mem_append_left _ mem)
        (List.mem_append_left _ mem') names ?_
      obtain ⟨words, -, offset, place, -⟩ := parameter mem
      obtain ⟨words', -, offset', place', -⟩ := parameter mem'
      rw [same] at place
      rw [show (generateStackAllocation g.offsets method).2 field.identifier = 8 * words from offset,
        show (generateStackAllocation g.offsets method).2 other.identifier = 8 * words' from offset']
      omega)
    (fun field mem j least inside same => by
      obtain ⟨words, -, -, place, -⟩ := parameter mem
      have address := (incoming (by omega : j < method.arguments.length)).resolve_right (by omega)
      rw [same] at address
      omega)
  obtain ⟨s3, initialized, registers3, memory3⟩ :
      ∃ s3, executeLines space.symbols s2 (generateInitialization g.llir method) = some s3 ∧
        s3.registers = s2.registers ∧ ∀ place : Word, space.bottom ≤ place.toNat → place.toNat < space.top →
          s3.memory place = s2.memory place := by
    rw [generateInitialization]
    split
    · obtain ⟨s3, run, registers, memory⟩ := executeLines_initialization space.symbols space.aligned s2
      refine ⟨s3, run, registers, fun place low high => memory place fun field mem position inside same => ?_⟩
      exact space.apart field mem position inside (same ▸ ⟨low, high⟩)
    · exact ⟨s2, rfl, rfl, fun _ _ _ => rfl⟩
  have frame3 : SameFrame s1 s3 := by
    constructor
    · rw [registers3, keeps.registers _ (by decide)]
    · rw [registers3, keeps.registers _ (by decide)]
  have low3 := body1.below
  -- above the frame only the saved `rbp` is new
  have outside (place : Word) (low : (s1.registers .rbp).toNat ≤ place.toNat) (high : place.toNat < space.top) :
      s3.memory place = s1.memory place := by
    rw [memory3 place (by omega) high]
    refine keeps.others place fun field mem same => ?_
    obtain ⟨words, some_words, -, address, -⟩ := parameter mem
    rw [same] at low
    omega
  refine ⟨s3, ?_, ⟨⟨?_, ?_, ?_, ?_⟩, ?_, ?_, ?_, ?_⟩⟩
  · have loop : storeArguments (methodGenerator g method) 0 method.arguments =
        generateArgumentLines (methodGenerator g method) 0 method.arguments :=
      storeArguments_eq _ 0 method.arguments (by have := callable.few; omega)
    rw [methodDeclaration, loop, executeLines_append, executeLines_append, entered, Option.bind_eq_bind, Option.bind_some,
      stored]
    exact initialized
  · rw [frame3.1, frame3.2]
    exact body1.frame
  · rw [frame3.1]
    exact body1.aligned
  · rw [frame3.1]
    exact body1.below
  · rw [frame3.2]
    exact body1.above
  · rw [frame3.2, base1]
  · rw [frame3.2, outside _ le_rfl (by have := body1.above; omega), memory1, base1]
    exact Function.update_self ..
  · intro place low high
    rw [outside place (by rw [base1, base]; omega) high, memory1]
    refine Function.update_of_ne (fun same => ?_) _ _
    rw [same, base] at low
    omega
  · intro k field at_k
    have inside : k < method.arguments.length := (List.getElem?_eq_some_iff.mp at_k).1
    obtain ⟨words, some_words, -, address, low⟩ := parameter (List.mem_of_getElem? at_k)
    have above1 := body1.above
    rw [frame3.2, memory3 _ (by omega) (by omega), keeps.slots k field at_k, Nat.zero_add, incomingWord, receivedWord]
    cases at_r : argumentRegisters[k]? with
    | some register =>
      have other := argumentRegister_other at_r
      exact registers1 register other.2.2.1 other.2.1
    | none =>
      have more : 6 ≤ k := List.getElem?_eq_none_iff.mp at_r
      have start : s1.registers .rbp + 16 = s.registers .rsp + 8 := by
        rw [base1]
        bv_omega
      have address := (incoming inside).resolve_right (by omega)
      rw [start] at address
      show s1.memory (outgoingPlace (s1.registers .rbp + 16) k) = s.memory (outgoingPlace (s.registers .rsp + 8) k)
      rw [start, memory1]
      refine Function.update_of_ne (fun same => ?_) _ _
      rw [same, base, base1, base] at address
      omega

/-- The adjustment of the stack around a call, for the two mnemonics. -/
theorem executeLines_adjustStack (symbols : String → Word) (mnemonic : Mnemonic) (operation : Word → Word → Word)
    (step : ∀ (s : Processor) (value : Word),
      executeAssembly symbols s (.instruction mnemonic [.immediate value, .register .rsp]) =
        some ((s.withFlags none).setRegister .rsp (operation (s.registers .rsp) value)))
    (zero : ∀ value, operation value 0 = value) {count : Nat} (few : count < 2 ^ 27) (s : Processor) :
    ∃ s', executeLines symbols s (adjustStack mnemonic (BitVec.ofNat 32 count)) = some s' ∧
      s'.registers = Function.update s.registers .rsp (operation (s.registers .rsp) (BitVec.ofNat 64 (stackRoom count))) ∧
      s'.memory = s.memory := by
  rw [adjustStack, stackArgumentCount_toInt few]
  by_cases more : 6 < count
  · have room : BitVec.ofInt 64 (extraStackSize (BitVec.ofNat 32 count)).toInt = BitVec.ofNat 64 (stackRoom count) := by
      rw [extraStackSize_toInt few more, stackRoom, ← BitVec.ofInt_natCast]
      congr 1
      have parity : ((count : Int) - 6).tmod 2 = ((count : Int) - 6) % 2 := Int.tmod_eq_emod_of_nonneg (by omega)
      rw [parity]
      omega
    rw [if_pos (by omega), room]
    exact ⟨_, executeLines_one symbols (step s _), rfl, rfl⟩
  · have none_left : stackRoom count = 0 := by
      rw [stackRoom]
      omega
    rw [if_neg (by omega), none_left]
    refine ⟨s, rfl, ?_, rfl⟩
    rw [show BitVec.ofNat 64 0 = 0 from rfl, zero, Function.update_eq_self]

def passedWord (s : Processor) (k : Nat) : Word :=
  match argumentRegisters[k]? with
  | some register => s.registers register
  | none => s.memory (outgoingPlace (s.registers .rsp) k)

theorem le_stackRoom {i count : Nat} (inside : i < count) (more : 6 ≤ i) : 8 * (i - 6) + 8 ≤ stackRoom count := by
  rw [stackRoom]
  omega

/-- The caller up to the call. -/
theorem executeLines_beforeCall (positive : ∀ field ∈ method.fields, 0 < field.valueCount) (body : InBody g space method s)
    {arguments : List LlirOperand} (located : ∀ field, .field field ∈ arguments → g.Locates method field)
    (few : arguments.length < 2 ^ 27)
    (room : space.bottom + stackRoom arguments.length ≤ (s.registers .rsp).toNat) :
    ∃ s', executeLines space.symbols s (beforeCall (methodGenerator g method) arguments) = some s' ∧
      (s'.registers .rsp).toNat + stackRoom arguments.length = (s.registers .rsp).toNat ∧
      s'.registers .rbp = s.registers .rbp ∧
      (∀ k argument, arguments[k]? = some argument →
        passedWord s' k = operandWord (methodGenerator g method) space.symbols (s.registers .rbp) s.memory argument) ∧
      ∀ place : Word, (s.registers .rsp).toNat ≤ place.toNat → place.toNat < space.top → s'.memory place = s.memory place := by
  have aligned := body.aligned
  have bounded := (s.registers .rsp).isLt
  have even : stackRoom arguments.length % 8 = 0 := by
    rw [stackRoom]
    omega
  obtain ⟨s1, adjusted, registers1, memory1⟩ := executeLines_adjustStack space.symbols .subq
    (fun left right => left - right) (fun s value => rfl) (fun value => BitVec.sub_zero value) few s
  have top1 : (s1.registers .rsp).toNat + stackRoom arguments.length = (s.registers .rsp).toNat := by
    rw [registers1, Function.update_self, BitVec.toNat_sub, BitVec.toNat_ofNat]
    omega
  have base1 : s1.registers .rbp = s.registers .rbp := by
    rw [registers1, Function.update_of_ne (by decide)]
  have outgoing {j : Nat} (more : 6 ≤ j) (inside : j < arguments.length) :
      (outgoingPlace (s1.registers .rsp) j).toNat = (s1.registers .rsp).toNat + 8 * (j - 6) := by
    have := le_stackRoom inside more
    exact toNat_outgoingPlace (by omega)
  obtain ⟨s2, loaded, passes⟩ := @executeLines_callArguments (methodGenerator g method) space.symbols 0
    arguments s1 (by omega) (by omega)
    (fun field mem => by
      rw [base1]
      exact (body.place positive (located field mem)).1)
    (fun field mem j least inside same => by
      have address := outgoing least (by omega)
      have room_j := le_stackRoom (show j < arguments.length by omega) least
      have place := (body.place positive (located field mem)).2
      rw [← base1, same] at place
      omega)
  refine ⟨s2.setRegister .rax 0, ?_, ?_, ?_, ?_, ?_⟩
  · have loop : loadCallArguments (methodGenerator g method) 0 arguments =
        generateCallArguments (methodGenerator g method) 0 arguments := loadCallArguments_eq _ 0 arguments (by omega)
    rw [beforeCall, loop, executeLines_append, executeLines_append, adjusted, Option.bind_eq_bind, Option.bind_some, loaded]
    rfl
  · show (s2.registers .rsp).toNat + _ = _
    rw [passes.rsp, top1]
  · show s2.registers .rbp = _
    rw [passes.rbp, base1]
  · intro k argument at_k
    have inside : k < arguments.length := (List.getElem?_eq_some_iff.mp at_k).1
    rw [← base1, ← memory1, passedWord]
    cases at_r : argumentRegisters[k]? with
    | some register =>
      refine (Function.update_of_ne (argumentRegister_other at_r).2.2.2.2 _ _).trans ?_
      exact passes.registers k argument at_k register (by rwa [Nat.zero_add])
    | none =>
      have word := passes.stack k argument at_k (by
        rw [Nat.zero_add]
        exact List.getElem?_eq_none_iff.mp at_r)
      rw [Nat.zero_add, ← passes.rsp] at word
      exact word
  · intro place low high
    show s2.memory place = _
    rw [← memory1]
    refine passes.others place fun j least inside same => ?_
    have address := outgoing least (by omega)
    have room_j := le_stackRoom (show j < arguments.length by omega) least
    rw [same] at low
    omega

variable (space) in
/-- The body of a method has written only to its own frame, to what lies below it and to globals. -/
def OwnWrites (s s' : Processor) : Prop :=
  ∀ place : Word, (s.registers .rbp).toNat ≤ place.toNat → place.toNat < space.top → s'.memory place = s.memory place

/-- The end of a callee, back to the line behind the call. -/
private theorem executeLines_return {s1 s2 : Processor} (positive : ∀ field ∈ method.fields, 0 < field.valueCount)
    (entry : AtEntry g space method s) (declared : Declared g space method s s1)
    (base : s2.registers .rbp = s1.registers .rbp) (own : OwnWrites space s1 s2) :
    ∃ s3 s4, executeLines space.symbols s2 leaveMethod = some s3 ∧ s3.pop = some (s.memory (s.registers .rsp), s4) ∧
      s4.registers .rsp = s.registers .rsp + 8 ∧ s4.registers .rbp = s.registers .rbp ∧
      s4.registers .rax = s2.registers .rax ∧ s4.memory = s2.memory ∧
      ∀ place, (s.registers .rsp).toNat ≤ place.toNat → place.toNat < space.top → s4.memory place = s.memory place := by
  have aligned := declared.body.base_aligned positive
  have above := entry.above
  have top := space.bounded
  have even := entry.aligned
  have entered : (s1.registers .rbp).toNat + 8 = (s.registers .rsp).toNat := by
    have := (s.registers .rsp).isLt
    rw [declared.base, BitVec.toNat_sub, show (8 : Word).toNat = 8 from rfl]
    omega
  have address : s1.registers .rbp + 8 = s.registers .rsp := by
    rw [declared.base, BitVec.sub_add_cancel]
  have kept (place : Word) (low : (s.registers .rsp).toNat ≤ place.toNat) (high : place.toNat < space.top) :
      s2.memory place = s.memory place := by
    rw [own place (by omega) high, declared.above place low high]
  have saved : s2.memory (s1.registers .rbp) = s.registers .rbp := by
    rw [own _ le_rfl (by omega), declared.saved]
  have left := executeLines_leave space.symbols (s := s2) (by rw [base]; omega)
  rw [base, saved, address] at left
  have popped : ((s2.setRegister .rsp (s.registers .rsp)).setRegister .rbp (s.registers .rbp)).pop =
      some (s.memory (s.registers .rsp), ((s2.setRegister .rsp (s.registers .rsp)).setRegister .rbp
        (s.registers .rbp)).setRegister .rsp (s.registers .rsp + 8)) := by
    have loaded : ((s2.setRegister .rsp (s.registers .rsp)).setRegister .rbp (s.registers .rbp)).load (s.registers .rsp) =
        some (s2.memory (s.registers .rsp)) := load_of (by omega)
    rw [kept _ le_rfl (by omega)] at loaded
    show Processor.load _ (s.registers .rsp) >>= _ = _
    rw [loaded]
    rfl
  exact ⟨_, _, left, popped, rfl, rfl, rfl, rfl, kept⟩

/-- The caller behind the call. -/
theorem executeLines_afterCall {arguments : List LlirOperand} (few : arguments.length < 2 ^ 27) {destination : LlirField}
    (aligned : (fieldPlace (methodGenerator g method) space.symbols (s.registers .rbp) destination).toNat % 8 = 0) :
    ∃ s', executeLines space.symbols s (afterCall (methodGenerator g method) arguments destination) = some s' ∧
      s'.registers .rsp = s.registers .rsp + BitVec.ofNat 64 (stackRoom arguments.length) ∧
      s'.registers .rbp = s.registers .rbp ∧
      s'.memory = Function.update s.memory (fieldPlace (methodGenerator g method) space.symbols (s.registers .rbp) destination)
        (s.registers .rax) := by
  obtain ⟨s1, adjusted, registers1, memory1⟩ := executeLines_adjustStack space.symbols .addq
    (fun left right => left + right) (fun s value => rfl) (fun value => BitVec.add_zero value) few s
  have base1 : s1.registers .rbp = s.registers .rbp := by rw [registers1, Function.update_of_ne (by decide)]
  have result1 : s1.registers .rax = s.registers .rax := by rw [registers1, Function.update_of_ne (by decide)]
  rw [← base1] at aligned
  refine ⟨s1.put (fieldPlace (methodGenerator g method) space.symbols (s1.registers .rbp) destination) (s1.registers .rax),
    ?_, ?_, ?_, ?_⟩
  · rw [afterCall, executeLines_append, adjusted]
    exact executeLines_storeFromRegister _ _ aligned (by decide)
  · show s1.registers .rsp = _
    rw [registers1, Function.update_self]
  · exact base1
  · rw [← base1, ← result1, ← memory1]
    rfl

/-- Passing the arguments moves the stack pointer down by their room. -/
private theorem beforeCall_frame {arguments : List LlirOperand} (few : arguments.length < 2 ^ 27)
    {symbols : String → Word}
    {s s' : Processor} (run : executeLines symbols s (beforeCall (methodGenerator g method) arguments) = some s') :
    s'.registers .rsp = s.registers .rsp - BitVec.ofNat 64 (stackRoom arguments.length) ∧
      s'.registers .rbp = s.registers .rbp := by
  obtain ⟨s1, adjusted, registers1, -⟩ := executeLines_adjustStack symbols .subq
    (fun left right => left - right) (fun s value => rfl) (fun value => BitVec.sub_zero value) few s
  have loop : loadCallArguments (methodGenerator g method) 0 arguments =
      generateCallArguments (methodGenerator g method) 0 arguments := loadCallArguments_eq _ 0 arguments (by omega)
  rw [beforeCall, loop, List.append_assoc, executeLines_append, adjusted, Option.bind_eq_bind, Option.bind_some] at run
  have same : SameFrame s1 s' := by
    refine sameFrame_executeLines symbols (fun line mem => ?_) run
    rcases List.mem_append.mp mem with mem | mem
    · exact generateCallArguments_keeps _ 0 arguments line mem
    · obtain rfl := List.mem_singleton.mp mem
      decide
  rw [same.1, same.2, registers1]
  exact ⟨Function.update_self .., Function.update_of_ne (by decide) _ _⟩

private theorem afterCall_frame {arguments : List LlirOperand} (few : arguments.length < 2 ^ 27)
    {destination : LlirField}
    {symbols : String → Word} {s s' : Processor}
    (run : executeLines symbols s (afterCall (methodGenerator g method) arguments destination) = some s') :
    s'.registers .rsp = s.registers .rsp + BitVec.ofNat 64 (stackRoom arguments.length) ∧
      s'.registers .rbp = s.registers .rbp := by
  obtain ⟨s1, adjusted, registers1, -⟩ := executeLines_adjustStack symbols .addq
    (fun left right => left + right) (fun s value => rfl) (fun value => BitVec.add_zero value) few s
  rw [afterCall, executeLines_append, adjusted, Option.bind_eq_bind, Option.bind_some] at run
  have same : SameFrame s1 s' := sameFrame_executeLines symbols (storeFromRegister_keeps _ destination _) run
  rw [same.1, same.2, registers1]
  exact ⟨Function.update_self .., Function.update_of_ne (by decide) _ _⟩

theorem push_frame {s s' : Processor} {value : Word} (pushed : s.push value = some s') :
    s'.registers .rsp = s.registers .rsp - 8 ∧ s'.registers .rbp = s.registers .rbp ∧
      s'.memory = Function.update s.memory (s.registers .rsp - 8) value ∧
      ∀ register, register ≠ .rsp → s'.registers register = s.registers register := by
  have stored : (s.setRegister .rsp (s.registers .rsp - 8)).store (s.registers .rsp - 8) value = some s' := pushed
  rw [store] at stored
  split at stored
  · cases stored
    exact ⟨rfl, rfl, rfl, fun register differs => Function.update_of_ne differs _ _⟩
  · cases stored

/-- The state at the label of a callee, after the call in a body. -/
private theorem AtEntry.of_call {callee : LlirMethod} {offsets : Offsets} {s1 s2 : Processor}
    {arguments : List LlirOperand}
    {returnAddress : Word} (body : InBody g space method s)
    (arity : arguments.length = callee.arguments.length)
    (room : space.bottom + stackRoom arguments.length + 16 + (generateStackAllocation offsets callee).1 ≤
      (s.registers .rsp).toNat)
    (top : s1.registers .rsp = s.registers .rsp - BitVec.ofNat 64 (stackRoom arguments.length))
    (pushed : s1.push returnAddress = some s2) :
    AtEntry { g with offsets := offsets } space callee s2 := by
  obtain ⟨top2, -, -, -⟩ := push_frame pushed
  have aligned := body.aligned
  have frame := body.frame
  have above := body.above
  have bounded := (s.registers .rsp).isLt
  have address1 : (s1.registers .rsp).toNat = (s.registers .rsp).toNat - stackRoom arguments.length := by
    rw [top, BitVec.toNat_sub, BitVec.toNat_ofNat]
    omega
  have address2 : (s2.registers .rsp).toNat = (s.registers .rsp).toNat - stackRoom arguments.length - 8 := by
    rw [top2, BitVec.toNat_sub, address1, show (8 : Word).toNat = 8 from rfl]
    omega
  have even : stackRoom arguments.length % 16 = 0 := by
    rw [stackRoom]
    omega
  have padded : 8 * (callee.arguments.length - 6) ≤ stackRoom arguments.length := by
    rw [stackRoom, arity]
    omega
  refine ⟨by omega, ?_, by omega⟩
  rw [address2]
  show space.bottom + 8 + (generateStackAllocation offsets callee).1 ≤ _
  omega

end

/-- What is executed: a method from its label to the return, or a stretch of the body of a method. -/
inductive Activity where
  | method (method : LlirMethod)
  | body (method : LlirMethod)

section
variable (g : CodeGenerator) (space : AddressSpace g.llir.fields) (before : LlirMethod → Offsets)

/-- The generator when it prints a method; its table of offsets is left over from the methods before. -/
abbrev CodeGenerator.atMethod (method : LlirMethod) : CodeGenerator := { g with offsets := before method }

def HasRoom (s : Processor) (count : Nat) (callee : LlirMethod) : Prop :=
  space.bottom + stackRoom count + 16 + (generateStackAllocation (before callee) callee).1 ≤ (s.registers .rsp).toNat

/-- Executions of the emitted code. A body goes through assignments and terminals of its blocks in any order; an imported
method returns with the two pointers that it was called with. -/
inductive Runs : Activity → Processor → Processor → Prop
  | done (method : LlirMethod) (s : Processor) : Runs (.body method) s s
  | assignment {method : LlirMethod} {block : LlirBlock} {assignment : LlirAssignment} {s s1 s2 : Processor}
    (mem : block ∈ method.blocks) (listed : assignment ∈ block.assignments)
    (noCall : ∀ name arguments destination, assignment ≠ .methodCall name arguments destination)
    (run : executeLines space.symbols s
      (generateAssignmentLines (methodGenerator (g.atMethod before method) method) assignment) = some s1)
    (rest : Runs (.body method) s1 s2) : Runs (.body method) s s2
  | terminal {method : LlirMethod} {block : LlirBlock} {s s1 s2 : Processor} (mem : block ∈ method.blocks)
    (run : executeLines space.symbols s
      (terminalLines (methodGenerator (g.atMethod before method) method) block.terminal) = some s1)
    (rest : Runs (.body method) s1 s2) : Runs (.body method) s s2
  | call {method callee : LlirMethod} {block : LlirBlock} {arguments : List LlirOperand} {destination : LlirField}
    {returnAddress : Word} {s s1 s2 s3 s4 s5 : Processor} (mem : block ∈ method.blocks)
    (listed : .methodCall callee.identifier arguments destination ∈ block.assignments)
    (known : callee ∈ g.llir.methods) (arity : arguments.length = callee.arguments.length)
    (room : HasRoom g space before s arguments.length callee)
    (passed : executeLines space.symbols s
      (beforeCall (methodGenerator (g.atMethod before method) method) arguments) = some s1)
    (pushed : s1.push returnAddress = some s2) (called : Runs (.method callee) s2 s3)
    (returned : executeLines space.symbols s3
      (afterCall (methodGenerator (g.atMethod before method) method) arguments destination) = some s4)
    (rest : Runs (.body method) s4 s5) : Runs (.body method) s s5
  | imported {method : LlirMethod} {block : LlirBlock} {name : String} {arguments : List LlirOperand}
    {destination : LlirField} {returnAddress : Word} {s s1 s2 s3 s4 s5 : Processor} (mem : block ∈ method.blocks)
    (listed : .methodCall name arguments destination ∈ block.assignments)
    (passed : executeLines space.symbols s
      (beforeCall (methodGenerator (g.atMethod before method) method) arguments) = some s1)
    (pushed : s1.push returnAddress = some s2) (top : s3.registers .rsp = s2.registers .rsp + 8)
    (base : s3.registers .rbp = s2.registers .rbp)
    (returned : executeLines space.symbols s3
      (afterCall (methodGenerator (g.atMethod before method) method) arguments destination) = some s4)
    (rest : Runs (.body method) s4 s5) : Runs (.body method) s s5
  | method {method : LlirMethod} {returnAddress : Word} {s s1 s2 s3 s4 : Processor} (known : method ∈ g.llir.methods)
    (declared : executeLines space.symbols s (methodDeclaration (g.atMethod before method) method) = some s1)
    (body : Runs (.body method) s1 s2) (own : OwnWrites space s1 s2)
    (left : executeLines space.symbols s2 leaveMethod = some s3) (returned : s3.pop = some (returnAddress, s4)) :
    Runs (.method method) s s4

def Activity.Keeps (activity : Activity) (s s' : Processor) : Prop :=
  match activity with
  | .body m => InBody (g.atMethod before m) space m s → SameFrame s s'
  | .method m => AtEntry (g.atMethod before m) space m s →
    s'.registers .rsp = s.registers .rsp + 8 ∧ s'.registers .rbp = s.registers .rbp

variable {g space before}

theorem InBody.of_sameFrame {method : LlirMethod} {s s' : Processor} (body : InBody g space method s)
    (same : SameFrame s s') : InBody g space method s' := by
  refine ⟨?_, ?_, ?_, ?_⟩
  · rw [same.1, same.2]
    exact body.frame
  · rw [same.1]
    exact body.aligned
  · rw [same.1]
    exact body.below
  · rw [same.2]
    exact body.above

/-- By induction on the run: each line keeps the frame and each call gives it back. -/
theorem Runs.keeps (callable : ∀ method ∈ g.llir.methods, method.Callable) {activity : Activity}
    (few : ∀ method, activity = .body method → ∀ block ∈ method.blocks, ∀ name arguments destination,
      .methodCall name arguments destination ∈ block.assignments → arguments.length < 2 ^ 27)
    {s s' : Processor} (runs : Runs g space before activity s s') : activity.Keeps g space before s s' := by
  induction runs with
  | done method s => exact fun _ => ⟨rfl, rfl⟩
  | assignment mem listed noCall run rest ih =>
    intro body
    have same := sameFrame_executeLines space.symbols (generateAssignmentLines_keeps _ noCall) run
    exact same.trans (ih few (body.of_sameFrame same))
  | terminal mem run rest ih =>
    intro body
    have same := sameFrame_executeLines space.symbols (terminalLines_keeps _ _) run
    exact same.trans (ih few (body.of_sameFrame same))
  | @call m callee block arguments destination returnAddress s s1 s2 s3 s4 s5 mem listed known arity room passed pushed
      called returned rest ihCalled ihRest =>
    intro body
    have small := few _ rfl _ mem _ _ _ listed
    have passed := beforeCall_frame small passed
    have pushed' := push_frame pushed
    have entry := AtEntry.of_call body arity room passed.1 pushed
    have back := ihCalled (fun _ same => by cases same) entry
    have returned := afterCall_frame small returned
    have same : SameFrame s s4 := ⟨by
      rw [returned.1, back.1, pushed'.1, passed.1, BitVec.sub_add_cancel, BitVec.sub_add_cancel], by
      rw [returned.2, back.2, pushed'.2.1, passed.2]⟩
    exact same.trans (ihRest few (body.of_sameFrame same))
  | @imported m block name arguments destination returnAddress s s1 s2 s3 s4 s5 mem listed passed pushed top base returned
      rest ih =>
    intro body
    have small := few _ rfl _ mem _ _ _ listed
    have passed := beforeCall_frame small passed
    have pushed' := push_frame pushed
    have returned := afterCall_frame small returned
    have same : SameFrame s s4 := ⟨by
      rw [returned.1, top, pushed'.1, passed.1, BitVec.sub_add_cancel, BitVec.sub_add_cancel], by
      rw [returned.2, base, pushed'.2.1, passed.2]⟩
    exact same.trans (ih few (body.of_sameFrame same))
  | @method m returnAddress s s1 s2 s3 s4 known declared body own left returned ih =>
    intro entry
    have callable := callable m known
    obtain ⟨s1', run, facts⟩ := executeLines_declaration callable entry
    obtain rfl : s1' = s1 := Option.some.inj (run.symm.trans declared)
    have same := ih (fun other equal => by
      obtain rfl := Activity.body.inj equal
      exact callable.calls) facts.body
    obtain ⟨s3', s4', left', popped, top, base, -⟩ := executeLines_return callable.positive entry facts same.2 own
    obtain rfl : s3' = s3 := Option.some.inj (left'.symm.trans left)
    obtain ⟨-, rfl⟩ := Prod.mk.inj (Option.some.inj (popped.symm.trans returned))
    exact ⟨top, base⟩

variable (g space before) in
/-- The states at the labels of methods in a run that starts at one of them, `main`, with any number of calls under way. -/
inductive Entered : LlirMethod → Processor → Prop
  | main {method : LlirMethod} {s : Processor} (known : method ∈ g.llir.methods)
    (entry : AtEntry (g.atMethod before method) space method s) : Entered method s
  | call {method callee : LlirMethod} {block : LlirBlock} {arguments : List LlirOperand} {destination : LlirField}
    {returnAddress : Word} {s s1 s2 s3 s4 : Processor} (entered : Entered method s)
    (declared : executeLines space.symbols s (methodDeclaration (g.atMethod before method) method) = some s1)
    (body : Runs g space before (.body method) s1 s2) (mem : block ∈ method.blocks)
    (listed : .methodCall callee.identifier arguments destination ∈ block.assignments)
    (known : callee ∈ g.llir.methods) (arity : arguments.length = callee.arguments.length)
    (room : HasRoom g space before s2 arguments.length callee)
    (passed : executeLines space.symbols s2
      (beforeCall (methodGenerator (g.atMethod before method) method) arguments) = some s3)
    (pushed : s3.push returnAddress = some s4) : Entered callee s4

/-- The body of a method that was entered keeps the frame of its declaration. -/
private theorem Entered.inBody (callable : ∀ method ∈ g.llir.methods, method.Callable) {method : LlirMethod}
    {s : Processor} (entered : Entered g space before method s) : method ∈ g.llir.methods ∧
      AtEntry (g.atMethod before method) space method s ∧
      ∀ s1 s2, executeLines space.symbols s (methodDeclaration (g.atMethod before method) method) = some s1 →
        Runs g space before (.body method) s1 s2 → InBody (g.atMethod before method) space method s2 := by
  have bodies {method : LlirMethod} {s : Processor} (known : method ∈ g.llir.methods)
      (entry : AtEntry (g.atMethod before method) space method s) (s1 s2 : Processor)
      (declared : executeLines space.symbols s (methodDeclaration (g.atMethod before method) method) = some s1)
      (body : Runs g space before (.body method) s1 s2) : InBody (g.atMethod before method) space method s2 := by
    obtain ⟨s1', run, facts⟩ := executeLines_declaration (callable method known) entry
    obtain rfl : s1' = s1 := Option.some.inj (run.symm.trans declared)
    have same := body.keeps callable (fun other equal => by
      obtain rfl := Activity.body.inj equal
      exact (callable method known).calls) facts.body
    exact facts.body.of_sameFrame same
  induction entered with
  | main known entry => exact ⟨known, entry, bodies known entry⟩
  | @call method callee block arguments destination returnAddress s s1 s2 s3 s4 entered declared body mem listed known arity
      room passed pushed ih =>
    have inBody := ih.2.2 s1 s2 declared body
    have top := (beforeCall_frame ((callable method ih.1).calls block mem _ _ _ listed) passed).1
    have entry := AtEntry.of_call inBody arity room top pushed
    exact ⟨known, entry, bodies known entry⟩

private theorem InBody.call_aligned {method : LlirMethod} {s s' : Processor} (body : InBody g space method s)
    {count : Nat}
    (top : s'.registers .rsp = s.registers .rsp - BitVec.ofNat 64 (stackRoom count)) :
    (s'.registers .rsp).toNat % 16 = 0 := by
  have aligned := body.aligned
  have even : stackRoom count % 16 = 0 := by
    rw [stackRoom]
    omega
  rw [top, BitVec.toNat_sub, BitVec.toNat_ofNat]
  omega

/-- Between a call in the body of a method and the line behind it, for every number of arguments: the parameters hold the
values of the arguments, the stack is aligned, and the caller gets back its frame and the result. In every run of the code
the stack is aligned at each call. -/
theorem executeLines_call (callable : ∀ method ∈ g.llir.methods, method.Callable) :
    (∀ caller ∈ g.llir.methods, ∀ callee ∈ g.llir.methods, ∀ s, InBody (g.atMethod before caller) space caller s →
      ∀ (arguments : List LlirOperand) (destination : LlirField),
      (∀ field, .field field ∈ arguments → (g.atMethod before caller).Locates caller field) →
      (g.atMethod before caller).Locates caller destination →
      arguments.length = callee.arguments.length → HasRoom g space before s arguments.length callee →
      ∀ returnAddress, ∃ s1 s2 s3,
        executeLines space.symbols s (beforeCall (methodGenerator (g.atMethod before caller) caller) arguments) = some s1 ∧
        (s1.registers .rsp).toNat % 16 = 0 ∧ s1.push returnAddress = some s2 ∧
        executeLines space.symbols s2 (methodDeclaration (g.atMethod before callee) callee) = some s3 ∧
        (∀ (k : Nat) argument parameter, arguments[k]? = some argument → callee.arguments[k]? = some parameter →
          s3.memory (fieldPlace (methodGenerator (g.atMethod before callee) callee) space.symbols (s3.registers .rbp) parameter) =
            operandWord (methodGenerator (g.atMethod before caller) caller) space.symbols (s.registers .rbp) s.memory argument) ∧
        ∀ s4, Runs g space before (.body callee) s3 s4 → OwnWrites space s3 s4 → ∃ s5 s6 s7,
          executeLines space.symbols s4 leaveMethod = some s5 ∧ s5.pop = some (returnAddress, s6) ∧
          executeLines space.symbols s6
            (afterCall (methodGenerator (g.atMethod before caller) caller) arguments destination) = some s7 ∧
          s7.registers .rsp = s.registers .rsp ∧ s7.registers .rbp = s.registers .rbp ∧
          s7.memory (fieldPlace (methodGenerator (g.atMethod before caller) caller) space.symbols (s.registers .rbp)
            destination) = s4.registers .rax ∧
          ∀ place : Word, (s.registers .rsp).toNat ≤ place.toNat → place.toNat < (s.registers .rbp).toNat →
            place ≠ fieldPlace (methodGenerator (g.atMethod before caller) caller) space.symbols (s.registers .rbp) destination →
            s7.memory place = s.memory place) ∧
    ∀ method s, Entered g space before method s →
      ∀ s1 s2, executeLines space.symbols s (methodDeclaration (g.atMethod before method) method) = some s1 →
      Runs g space before (.body method) s1 s2 → ∀ block ∈ method.blocks,
        (∀ name arguments destination, .methodCall name arguments destination ∈ block.assignments → ∀ s3,
          executeLines space.symbols s2 (beforeCall (methodGenerator (g.atMethod before method) method) arguments) = some s3 →
          (s3.registers .rsp).toNat % 16 = 0) ∧
        ∀ returnValue, block.terminal = .shitYourself returnValue → ∀ s3,
          executeLines space.symbols s2 (terminalLines (methodGenerator (g.atMethod before method) method) block.terminal) =
            some s3 → (s3.registers .rsp).toNat % 16 = 0 := by
  constructor
  · intro caller inside callee known s body arguments destination located result arity room returnAddress
    have fewCaller := callable caller inside
    have fewCallee := callable callee known
    have few : arguments.length < 2 ^ 27 := arity ▸ fewCallee.few
    have room' : space.bottom + stackRoom arguments.length + 16 +
      (generateStackAllocation (before callee) callee).1 ≤ (s.registers .rsp).toNat := room
    obtain ⟨s1, passed, top1, base1, words1, memory1⟩ := executeLines_beforeCall fewCaller.positive body located few (by omega)
    have frame1 := beforeCall_frame few passed
    have aligned1 := body.call_aligned frame1.1
    have top := space.bounded
    have frame := body.frame
    have above := body.above
    have address : (s1.registers .rsp - 8).toNat = (s1.registers .rsp).toNat - 8 := by
      have := (s1.registers .rsp).isLt
      rw [BitVec.toNat_sub, show (8 : Word).toNat = 8 from rfl]
      omega
    have pushed : ∃ s2, s1.push returnAddress = some s2 := ⟨_, store_of (by
      rw [read_eq (by decide)]
      omega) _⟩
    obtain ⟨s2, pushed⟩ := pushed
    obtain ⟨top2, base2, memory2, registers2⟩ := push_frame pushed
    have entry := AtEntry.of_call body arity room' frame1.1 pushed
    obtain ⟨s3, declared, facts⟩ := executeLines_declaration fewCallee entry
    refine ⟨s1, s2, s3, passed, aligned1, pushed, declared, ?_, ?_⟩
    · intro k argument parameter at_k at_k'
      have inside : k < arguments.length := (List.getElem?_eq_some_iff.mp at_k).1
      rw [facts.slots k parameter at_k', ← words1 k argument at_k, receivedWord, passedWord]
      cases at_r : argumentRegisters[k]? with
      | some register => exact registers2 register (argumentRegister_other at_r).2.1
      | none =>
        have more : 6 ≤ k := List.getElem?_eq_none_iff.mp at_r
        have fits := le_stackRoom inside more
        have start : s2.registers .rsp + 8 = s1.registers .rsp := by
          rw [top2, BitVec.sub_add_cancel]
        show s2.memory (outgoingPlace (s2.registers .rsp + 8) k) = s1.memory (outgoingPlace (s1.registers .rsp) k)
        rw [start, memory2]
        refine Function.update_of_ne (fun same => ?_) _ _
        have place := @toNat_outgoingPlace (s1.registers .rsp) k (by omega)
        rw [same, address] at place
        omega
    · intro s4 run own
      have same := run.keeps callable (fun other equal => by
        obtain rfl := Activity.body.inj equal
        exact fewCallee.calls) facts.body
      obtain ⟨s5, s6, left, popped, top6, base6, result6, memory6, kept⟩ :=
        executeLines_return fewCallee.positive entry facts same.2 own
      have returned : s2.memory (s2.registers .rsp) = returnAddress := by
        rw [memory2, top2]
        exact Function.update_self ..
      have base : s6.registers .rbp = s.registers .rbp := by rw [base6, base2, base1]
      obtain ⟨s7, stored, top7, base7, memory7⟩ := @executeLines_afterCall (g.atMethod before caller) space caller s6
        arguments few destination (by
          rw [base]
          exact (body.place fewCaller.positive result).1)
      rw [base, result6] at memory7
      refine ⟨s5, s6, s7, left, returned ▸ popped, stored, ?_, base7.trans base, ?_, ?_⟩
      · rw [top7, top6, top2, frame1.1, BitVec.sub_add_cancel, BitVec.sub_add_cancel]
      · rw [memory7]
        exact Function.update_self ..
      · intro place low high differs
        have entered : (s2.registers .rsp).toNat ≤ place.toNat := by
          rw [top2, address]
          omega
        rw [memory7, Function.update_of_ne differs, kept place entered (by omega), memory2]
        rw [Function.update_of_ne (fun equal => by rw [equal, address] at low; omega)]
        exact memory1 place low (by omega)
  · intro method s entered s1 s2 declared run block mem
    obtain ⟨known, entry, bodies⟩ := entered.inBody callable
    have body := bodies s1 s2 declared run
    refine ⟨fun name arguments destination listed s3 passed => ?_, fun returnValue terminal s3 exits => ?_⟩
    · exact body.call_aligned (beforeCall_frame ((callable method known).calls block mem _ _ _ listed) passed).1
    · have same := sameFrame_executeLines space.symbols (terminalLines_keeps _ _) exits
      rw [same.1]
      exact body.aligned

end

def wordField (identifier : String) : LlirField :=
  { identifier := identifier, isArray := false, valueCount := 1, values := [], declaration := none }

def nineArguments : List LlirOperand :=
  [.literal 1, .field (wordField "$1"), .field (wordField "n"), .string "s", .literal 5, .literal 6, .literal 7,
    .field (wordField "$1"), .string "s"]

def nineParameters : LlirMethod :=
  let block : LlirBlock :=
    { id := 1, fields := [], assignments := [], terminal := .llirReturn (.literal 42), predecessors := [] }
  { identifier := "f", arguments := ["a@1", "b@1", "c@1", "d@1", "e@1", "g@1", "h@1", "i@1", "j@1"].map wordField,
    blocks := [block] }

def nineCaller : LlirMethod :=
  let block : LlirBlock :=
    { id := 0
      fields := [wordField "$0", wordField "$1"]
      assignments := [.methodCall "f" nineArguments (wordField "$0")]
      terminal := .llirReturn (.literal 0)
      predecessors := [] }
  { identifier := "main", arguments := [], blocks := [block] }

def nineGenerator : CodeGenerator :=
  generateDataSection (codeGeneratorNew false { fields := [wordField "n"], methods := [nineCaller, nineParameters] })

/-- The global and the string lie above the stack. -/
def nineSpace : AddressSpace nineGenerator.llir.fields :=
  { symbols := fun name => if name = "n" then 131072 else 131088
    bottom := 0
    top := 131072
    bounded := by decide
    aligned := by decide +kernel
    apart := by
      intro field mem position small
      obtain rfl := List.mem_singleton.mp mem
      obtain rfl : position = 0 := by
        have count : (wordField "n").valueCount = 1 := rfl
        omega
      decide +kernel }

/-- The caller at 2^16, with two words in the frame; every word is its address. -/
def nineStart : Processor :=
  { registers := fun register => if register = .rbp then 65552 else 65536, memory := fun place => place, flags := none }

private theorem nineGenerator_callable : ∀ method ∈ nineGenerator.llir.methods, method.Callable := by
  intro method mem
  obtain rfl | rfl := List.mem_pair.mp mem
  · refine ⟨by decide, by decide, by decide +kernel, ?_⟩
    intro block inside name arguments destination listed
    obtain rfl := List.mem_singleton.mp inside
    obtain same := List.mem_singleton.mp listed
    cases same
    decide +kernel
  · refine ⟨by decide, by decide, by decide +kernel, fun block inside name arguments destination listed => ?_⟩
    obtain rfl := List.mem_singleton.mp inside
    cases listed

/-- Three words are passed on the stack, with eight bytes of padding. -/
theorem executeLines_call_nine : ∃ s1 s2 s3 s4 s5 s6 s7,
    executeLines nineSpace.symbols nineStart (beforeCall (methodGenerator nineGenerator nineCaller) nineArguments) =
      some s1 ∧ (s1.registers .rsp).toNat % 16 = 0 ∧ s1.push 7 = some s2 ∧
    executeLines nineSpace.symbols s2 (methodDeclaration nineGenerator nineParameters) = some s3 ∧
    (∀ (k : Nat) argument parameter, nineArguments[k]? = some argument → nineParameters.arguments[k]? = some parameter →
      s3.memory (fieldPlace (methodGenerator nineGenerator nineParameters) nineSpace.symbols (s3.registers .rbp) parameter) =
        operandWord (methodGenerator nineGenerator nineCaller) nineSpace.symbols (nineStart.registers .rbp)
          nineStart.memory argument) ∧
    executeLines nineSpace.symbols s3 (terminalLines (methodGenerator nineGenerator nineParameters)
      (.llirReturn (.literal 42))) = some s4 ∧
    executeLines nineSpace.symbols s4 leaveMethod = some s5 ∧ s5.pop = some (7, s6) ∧
    executeLines nineSpace.symbols s6
      (afterCall (methodGenerator nineGenerator nineCaller) nineArguments (wordField "$0")) = some s7 ∧
    s7.registers .rsp = 65536 ∧ s7.registers .rbp = 65552 ∧
    s7.memory (fieldPlace (methodGenerator nineGenerator nineCaller) nineSpace.symbols 65552 (wordField "$0")) = 42 := by
  have body : InBody nineGenerator nineSpace nineCaller nineStart :=
    ⟨by decide +kernel, by decide +kernel, by decide +kernel, by decide +kernel⟩
  have located : ∀ field, .field field ∈ nineArguments → nineGenerator.Locates nineCaller field := by
    intro field mem
    have listed : field ∈ [wordField "$1", wordField "n"] := by
      simp only [nineArguments, List.mem_cons, LlirOperand.field.injEq, reduceCtorEq, false_or, or_false,
        List.not_mem_nil] at mem ⊢
      tauto
    obtain rfl | rfl := List.mem_pair.mp listed
    · exact .inl ⟨wordField "$1", by decide, rfl⟩
    · exact .inr ⟨by decide +kernel, wordField "n", List.mem_singleton_self _, rfl, by decide⟩
  have result : nineGenerator.Locates nineCaller (wordField "$0") := .inl ⟨wordField "$0", by decide, rfl⟩
  obtain ⟨s1, s2, s3, passed, aligned, pushed, declared, parameters, returns⟩ :=
    (@executeLines_call nineGenerator nineSpace (fun _ => nineGenerator.offsets) nineGenerator_callable).1 nineCaller
      List.mem_cons_self nineParameters (List.mem_cons_of_mem _ List.mem_cons_self) nineStart body nineArguments
      (wordField "$0") located result rfl (by unfold HasRoom; decide +kernel) 7
  have returned : executeLines nineSpace.symbols s3 (terminalLines (methodGenerator nineGenerator nineParameters)
      (.llirReturn (.literal 42))) = some { s3 with registers := Function.update s3.registers .rax 42 } := rfl
  obtain ⟨s5, s6, s7, left, popped, stored, top, base, word, -⟩ :=
    returns _ (.terminal List.mem_cons_self returned (.done _ _)) fun _ _ _ => rfl
  refine ⟨s1, s2, s3, _, s5, s6, s7, passed, aligned, pushed, declared, parameters, returned, left, popped, stored, top,
    base, word.trans rfl⟩

end Roast
