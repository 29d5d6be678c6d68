import Roast.Assembly.Processor

/-! The two sides of a method call: what `generate_method_call` prints for the caller and `generate_method_declaration`
for the callee, executed one after the other. -/
namespace Roast
open Processor

/-- `stack_argument_count` of `generate_method_call`, an `int32_t`. -/
def stackArgumentCount (argumentCount : BitVec 32) : BitVec 32 := argumentCount - 6

/-- `extra_stack_size` of `generate_method_call`, an `int32_t`. -/
def extraStackSize (argumentCount : BitVec 32) : BitVec 32 :=
  8 * (stackArgumentCount argumentCount + (stackArgumentCount argumentCount).srem 2)

/-- `offset` of an argument on the stack of the caller, a `uint32_t`. -/
def stackArgumentOffset (i : BitVec 32) : BitVec 32 := 8 * (i - 6)

/-- `argument_offset` of `generate_method_arguments`, an `int32_t`. -/
def argumentOffset (i : BitVec 32) : BitVec 32 := (i - 6) * 8 + 16

section
variable (g : CodeGenerator)

def loadCallArguments (i : BitVec 32) : List LlirOperand → List AssemblyLine
  | [] => []
  | argument :: rest =>
    (if i.toNat < argumentRegisters.length then loadToRegister g argument (argumentRegisters.getD i.toNat .rdi)
      else loadToRegister g argument .r10 ++
        [.instruction .movq [.register .r10, .memory (stackArgumentOffset i).toNat .rsp]]) ++
      loadCallArguments (i + 1) rest

def adjustStack (mnemonic : Mnemonic) (argumentCount : BitVec 32) : List AssemblyLine :=
  if 0 < (stackArgumentCount argumentCount).toInt then
    [.instruction mnemonic [.immediate (BitVec.ofInt 64 (extraStackSize argumentCount).toInt), .register .rsp]]
  else []

/-- `generate_method_call` up to the call. -/
def beforeCall (arguments : List LlirOperand) : List AssemblyLine :=
  adjustStack .subq (BitVec.ofNat 32 arguments.length) ++ loadCallArguments g 0 arguments ++
    [.instruction .movq [.immediate 0, .register .rax]]

def afterCall (arguments : List LlirOperand) (destination : LlirField) : List AssemblyLine :=
  adjustStack .addq (BitVec.ofNat 32 arguments.length) ++ storeFromRegister g destination .rax

def storeArguments (i : BitVec 32) : List LlirField → List AssemblyLine
  | [] => []
  | field :: rest =>
    (if i.toNat < argumentRegisters.length then
      [.instruction .movq [.register (argumentRegisters.getD i.toNat .rdi), stackSlot (g.offsets field.identifier)]]
      else [.instruction .movq [.memory (argumentOffset i).toInt .rbp, .register .r10],
        .instruction .movq [.register .r10, stackSlot (g.offsets field.identifier)]]) ++
      storeArguments (i + 1) rest

def methodGenerator (method : LlirMethod) : CodeGenerator :=
  let g := { g with offsets := (generateStackAllocation g.offsets method).2 }
  { g with failed := g.failed || decide (g.Fails method) }

/-- What `generate_method_declaration` prints behind the label of a method. -/
def methodDeclaration (method : LlirMethod) : List AssemblyLine :=
  [.instruction .pushq [.register .rbp], .instruction .movq [.register .rsp, .register .rbp],
    .instruction .subq [.immediate (BitVec.ofNat 64 (generateStackAllocation g.offsets method).1), .register .rsp]] ++
    storeArguments (methodGenerator g method) 0 method.arguments ++ generateInitialization g.llir method

/-- What `generate_return` prints before `ret`, once the value is in `rax`. -/
def leaveMethod : List AssemblyLine :=
  [.instruction .movq [.register .rbp, .register .rsp], .instruction .popq [.register .rbp]]

end

private theorem toNat_counter {i : Nat} (small : i < 2 ^ 27) : (BitVec.ofNat 32 i).toNat = i := by
  rw [BitVec.toNat_ofNat, Nat.mod_eq_of_lt (by omega)]

private theorem counter_succ (i : Nat) : BitVec.ofNat 32 i + 1 = BitVec.ofNat 32 (i + 1) := (BitVec.ofNat_add i 1).symm

private theorem toInt_small {i : Nat} (small : i < 2 ^ 31) : (BitVec.ofNat 32 i).toInt = i := by
  rw [BitVec.toInt_eq_toNat_cond, BitVec.toNat_ofNat, Nat.mod_eq_of_lt (by omega), if_pos (by omega)]

theorem stackArgumentCount_toInt {count : Nat} (small : count < 2 ^ 27) :
    (stackArgumentCount (BitVec.ofNat 32 count)).toInt = (count : Int) - 6 := by
  rw [stackArgumentCount, BitVec.toInt_sub, toInt_small (by omega), show (6 : BitVec 32).toInt = 6 from rfl]
  exact Int.bmod_eq_of_le (by omega) (by omega)

/-- The 32-bit arithmetic of the padding does not wrap below 2^27 arguments. -/
theorem extraStackSize_toInt {count : Nat} (small : count < 2 ^ 27) (more : 6 < count) :
    (extraStackSize (BitVec.ofNat 32 count)).toInt =
      8 * (((count : Int) - 6) + ((count : Int) - 6).tmod 2) := by
  have parity : ((stackArgumentCount (BitVec.ofNat 32 count)).srem 2).toInt = ((count : Int) - 6).tmod 2 := by
    rw [BitVec.toInt_srem, stackArgumentCount_toInt small]
    rfl
  rw [extraStackSize, BitVec.toInt_mul, BitVec.toInt_add, stackArgumentCount_toInt small, parity,
    show (8 : BitVec 32).toInt = 8 from rfl]
  have bounded : 0 ≤ ((count : Int) - 6).tmod 2 ∧ ((count : Int) - 6).tmod 2 < 2 :=
    ⟨Int.tmod_nonneg _ (by omega), Int.tmod_lt_of_pos _ (by omega)⟩
  have sum : (((count : Int) - 6) + ((count : Int) - 6).tmod 2).bmod (2 ^ 32) =
      ((count : Int) - 6) + ((count : Int) - 6).tmod 2 := Int.bmod_eq_of_le (by omega) (by omega)
  rw [sum]
  exact Int.bmod_eq_of_le (by omega) (by omega)

private theorem stackArgumentOffset_toNat {i : Nat} (small : i < 2 ^ 27) (more : 6 ≤ i) :
    (stackArgumentOffset (BitVec.ofNat 32 i)).toNat = 8 * (i - 6) := by
  rw [stackArgumentOffset, BitVec.toNat_mul, BitVec.toNat_sub, toNat_counter small,
    show (8 : BitVec 32).toNat = 8 from rfl, show (6 : BitVec 32).toNat = 6 from rfl]
  omega

private theorem argumentOffset_toInt {i : Nat} (small : i < 2 ^ 27) (more : 6 ≤ i) :
    (argumentOffset (BitVec.ofNat 32 i)).toInt = ((i : Int) - 6) * 8 + 16 := by
  have same : argumentOffset (BitVec.ofNat 32 i) = BitVec.ofNat 32 ((i - 6) * 8 + 16) := by
    apply BitVec.eq_of_toNat_eq
    rw [argumentOffset, BitVec.toNat_add, BitVec.toNat_mul, BitVec.toNat_sub, toNat_counter small,
      BitVec.toNat_ofNat, show (8 : BitVec 32).toNat = 8 from rfl, show (6 : BitVec 32).toNat = 6 from rfl,
      show (16 : BitVec 32).toNat = 16 from rfl]
    omega
  rw [same, toInt_small (by omega)]
  omega

section
variable (g : CodeGenerator)

private theorem argumentRegisters_getElem {i : Nat} (small : i < argumentRegisters.length) :
    argumentRegisters[i]? = some (argumentRegisters.getD i .rdi) := by
  rw [List.getD_eq_getElem _ _ small, List.getElem?_eq_getElem small]

/-- Below 2^27 the 32-bit counter counts the arguments. -/
theorem loadCallArguments_eq (i : Nat) (arguments : List LlirOperand) (small : i + arguments.length ≤ 2 ^ 27) :
    loadCallArguments g (BitVec.ofNat 32 i) arguments = generateCallArguments g i arguments := by
  induction arguments generalizing i with
  | nil => rfl
  | cons argument rest ih =>
    rw [List.length_cons] at small
    have counter : (BitVec.ofNat 32 i).toNat = i := toNat_counter (by omega)
    rw [loadCallArguments, generateCallArguments, counter_succ, ih (i + 1) (by omega), counter]
    by_cases few : i < argumentRegisters.length
    · rw [if_pos few, argumentRegisters_getElem few]
    · have offset := stackArgumentOffset_toNat (i := i) (by omega) (not_lt.mp few)
      rw [if_neg few, List.getElem?_eq_none (not_lt.mp few), offset]
      have same : ((8 * (i - 6) : Nat) : Int) = 8 * ((i : Int) - (argumentRegisters.length : Int)) := by
        have more : 6 ≤ i := not_lt.mp few
        simp only [argumentRegisters, List.length_cons, List.length_nil]
        omega
      rw [same]

/-- Below 2^27 the 32-bit counter counts the parameters. -/
theorem storeArguments_eq (i : Nat) (fields : List LlirField) (small : i + fields.length ≤ 2 ^ 27) :
    storeArguments g (BitVec.ofNat 32 i) fields = generateArgumentLines g i fields := by
  induction fields generalizing i with
  | nil => rfl
  | cons field rest ih =>
    rw [List.length_cons] at small
    have counter : (BitVec.ofNat 32 i).toNat = i := toNat_counter (by omega)
    rw [storeArguments, generateArgumentLines, counter_succ, ih (i + 1) (by omega), counter]
    by_cases few : i < argumentRegisters.length
    · rw [if_pos few, argumentRegisters_getElem few]
    · rw [if_neg few, List.getElem?_eq_none (not_lt.mp few), argumentOffset_toInt (by omega) (not_lt.mp few)]
      rfl

/-- With fewer than 2^27 arguments the counters of 32 bits are exact. -/
theorem generateCall_eq (method : String) {arguments : List LlirOperand} (small : arguments.length < 2 ^ 27)
    (destination : LlirField) : generateCall g method arguments destination =
      beforeCall g arguments ++ [.call ⟨method, .method method⟩] ++ afterCall g arguments destination := by
  have positive : (arguments.length : Int) - (argumentRegisters.length : Int) > 0 ↔
      0 < (stackArgumentCount (BitVec.ofNat 32 arguments.length)).toInt := by
    rw [stackArgumentCount_toInt small]
    rfl
  have adjust (mnemonic : Mnemonic) : adjustStack mnemonic (BitVec.ofNat 32 arguments.length) =
      if (arguments.length : Int) - (argumentRegisters.length : Int) > 0 then
        [.instruction mnemonic [.immediate (BitVec.ofInt 64 (8 * ((arguments.length : Int) -
          (argumentRegisters.length : Int) + ((arguments.length : Int) - (argumentRegisters.length : Int)).tmod 2))),
          .register .rsp]]
      else [] := by
    rw [adjustStack]
    by_cases more : (arguments.length : Int) - (argumentRegisters.length : Int) > 0
    · have many : 6 < arguments.length := by
        simp only [argumentRegisters, List.length_cons, List.length_nil] at more
        omega
      rw [if_pos more, if_pos (positive.mp more), extraStackSize_toInt small many]
      rfl
    · rw [if_neg more, if_neg fun other => more (positive.mpr other)]
  have loop : loadCallArguments g 0 arguments = generateCallArguments g 0 arguments :=
    loadCallArguments_eq g 0 arguments (by omega)
  rw [generateCall, beforeCall, afterCall, adjust, adjust, loop]
  simp only [List.append_assoc, List.cons_append, List.nil_append]

/-- The lines of a method are its label, its declaration and its blocks. -/
theorem generateMethodLines_eq {method : LlirMethod} (small : method.arguments.length < 2 ^ 27) :
    (generateMethodLines g method).lines = g.lines ++ ([.globl method.identifier,
      .label ⟨method.identifier, .method method.identifier⟩] ++ methodDeclaration g method ++
      generateBlockLines (methodGenerator g method) method.blocks) := by
  have loop : storeArguments (methodGenerator g method) 0 method.arguments =
      generateArgumentLines (methodGenerator g method) 0 method.arguments :=
    storeArguments_eq _ 0 method.arguments (by omega)
  rw [methodDeclaration, loop]
  simp only [generateMethodLines, CodeGenerator.print, methodGenerator, List.append_assoc, List.cons_append,
    List.nil_append]

end

section
variable {method : LlirMethod} (positive : ∀ field ∈ method.fields, 0 < field.valueCount) (offsets : Offsets)
include positive

/-- The offset of a field counts words of the frame. -/
theorem generateStackAllocation_offset {field : LlirField} (mem : field ∈ method.fields) :
    ∃ words : Nat, 0 < words ∧ (generateStackAllocation offsets method).2 field.identifier = 8 * words ∧
      8 * words ≤ (generateStackAllocation offsets method).1 := by
  obtain ⟨front, last, rest, split, name, absent, -⟩ := exists_last mem
  have size := foldl_allocateField_size positive (0, offsets)
  rw [generateStackAllocation_eq]
  rw [split] at positive size ⊢
  have offset := foldl_allocateField_last positive absent offsets
  rw [name] at offset
  have before : 0 ≤ frameWords front := frameWords_nonneg fun other mem => positive other (by simp [mem])
  have others : 0 ≤ frameWords rest := frameWords_nonneg fun other mem => positive other (by simp [mem])
  have count := positive last (by simp)
  simp only [frameWords_append, frameWords_cons, frameWords_nil] at size offset
  dsimp only
  refine ⟨(frameWords front + last.valueCount).toNat, by omega, by omega, ?_⟩
  split <;> push_cast at * <;> omega

/-- Fields of different names have different offsets. -/
theorem generateStackAllocation_distinct {field other : LlirField} (mem : field ∈ method.fields)
    (mem' : other ∈ method.fields) (differ : field.identifier ≠ other.identifier) :
    (generateStackAllocation offsets method).2 field.identifier ≠
      (generateStackAllocation offsets method).2 other.identifier := by
  obtain ⟨front, last, rest, split, name, absent, -⟩ := exists_last mem
  obtain ⟨front', last', rest', split', name', absent', -⟩ := exists_last mem'
  have names : last ≠ last' := fun same => differ (by rw [← name, ← name', same])
  have offset := foldl_allocateField_last (split ▸ positive) absent offsets
  have offset' := foldl_allocateField_last (split' ▸ positive) absent' offsets
  rw [← split, name] at offset
  rw [← split', name'] at offset'
  rw [generateStackAllocation_eq]
  dsimp only
  have count := positive last (by simp [split])
  have count' := positive last' (by simp [split'])
  rcases append_cons_order (split.symm.trans split') names with ⟨middle, rfl, -⟩ | ⟨middle, rfl, -⟩
  · have between : 0 ≤ frameWords middle := frameWords_nonneg fun other mem => positive other (by simp [split, mem])
    simp only [frameWords_append, frameWords_cons, frameWords_nil] at offset offset'
    omega
  · have between : 0 ≤ frameWords middle := frameWords_nonneg fun other mem => positive other (by simp [split', mem])
    simp only [frameWords_append, frameWords_cons, frameWords_nil] at offset offset'
    omega

/-- The frame keeps the stack pointer aligned. -/
theorem generateStackAllocation_aligned : (generateStackAllocation offsets method).1 % 16 = 0 := by
  have size := foldl_allocateField_size positive (0, offsets)
  rw [generateStackAllocation_eq]
  dsimp only
  split <;> push_cast at * <;> omega

end

section
variable (g : CodeGenerator) (symbols : String → Word)

def fieldPlace (base : Word) (field : LlirField) : Word :=
  if g.offsets field.identifier ≠ 0 then base - BitVec.ofNat 64 (g.offsets field.identifier)
  else symbols field.identifier

def operandWord (base : Word) (memory : Word → Word) : LlirOperand → Word
  | .literal literal => literal
  | .field field => memory (fieldPlace g symbols base field)
  | .string string => symbols (stringLabel (g.stringId string))

theorem stackSlot_address (s : Processor) (offset : Nat) :
    s.address symbols (stackSlot offset) = some (s.registers .rbp - BitVec.ofNat 64 offset) := by
  rw [stackSlot, address, read_eq (by decide), BitVec.ofInt_neg, BitVec.ofInt_natCast, BitVec.sub_eq_add_neg]

theorem relative_address (s : Processor) (field : LlirField) :
    s.address symbols (.relative field.symbol 0) = some (symbols field.identifier) := by
  rw [address, LlirField.symbol]
  simp

theorem executeLines_one {s : Processor} {line : AssemblyLine} {s' : Processor}
    (step : executeAssembly symbols s line = some s') : executeLines symbols s [line] = some s' := by
  rw [executeLines_cons, step]
  rfl

/-- A load leaves the word of the operand in the register. -/
theorem executeLines_loadToRegister {s : Processor} {operand : LlirOperand}
    (aligned : ∀ field, operand = .field field → (fieldPlace g symbols (s.registers .rbp) field).toNat % 8 = 0)
    {register : Register} (wide : register ≠ .al ∧ register ≠ .eax) :
    executeLines symbols s (loadToRegister g operand register) =
      some (s.setRegister register (operandWord g symbols (s.registers .rbp) s.memory operand)) := by
  cases operand with
  | literal literal => exact congrArg some (write_eq wide s literal)
  | string string =>
    have place : s.address symbols (.relative ⟨stringLabel (g.stringId string), .string string⟩ 0) =
        some (symbols (stringLabel (g.stringId string))) := by simp [address]
    rw [loadToRegister, executeLines_cons, executeAssembly, executeInstruction, place, ← write_eq wide]
    rfl
  | field field =>
    have aligned := aligned field rfl
    rw [loadToRegister, operandWord]
    rw [fieldPlace] at aligned ⊢
    split
    · rename_i inFrame
      rw [if_pos inFrame] at aligned
      exact executeLines_one symbols (executeAssembly_loadMemory (stackSlot_address symbols s _) aligned wide)
    · rename_i isGlobal
      rw [if_neg isGlobal] at aligned
      exact executeLines_one symbols (executeAssembly_loadMemory (relative_address symbols s field) aligned wide)

/-- A store leaves the word of the register in the place of the field. -/
theorem executeLines_storeFromRegister {s : Processor} {destination : LlirField}
    (aligned : (fieldPlace g symbols (s.registers .rbp) destination).toNat % 8 = 0)
    {register : Register} (wide : register ≠ .al ∧ register ≠ .eax) :
    executeLines symbols s (storeFromRegister g destination register) =
      some (s.put (fieldPlace g symbols (s.registers .rbp) destination) (s.registers register)) := by
  rw [storeFromRegister]
  rw [fieldPlace] at aligned ⊢
  split
  · rename_i inFrame
    rw [if_pos inFrame] at aligned
    exact executeLines_one symbols (executeAssembly_storeRegister (stackSlot_address symbols s _) aligned wide)
  · rename_i isGlobal
    rw [if_neg isGlobal] at aligned
    exact executeLines_one symbols (executeAssembly_storeRegister (relative_address symbols s destination) aligned wide)

def outgoingPlace (top : Word) (i : Nat) : Word := top + BitVec.ofNat 64 (8 * (i - 6))

theorem operandWord_congr {base : Word} {memory memory' : Word → Word} {operand : LlirOperand}
    (same : ∀ field, operand = .field field →
      memory' (fieldPlace g symbols base field) = memory (fieldPlace g symbols base field)) :
    operandWord g symbols base memory' operand = operandWord g symbols base memory operand := by
  cases operand with
  | field field => exact same field rfl
  | literal literal => rfl
  | string string => rfl

private theorem argumentRegister_ne {i j : Nat} {register other : Register}
    (at_i : argumentRegisters[i]? = some register)
    (at_j : argumentRegisters[j]? = some other) (differ : i ≠ j) : register ≠ other := by
  rintro rfl
  have inside : i < argumentRegisters.length := (List.getElem?_eq_some_iff.mp at_i).1
  exact differ ((List.getElem?_inj inside (by decide)).mp (at_i.trans at_j.symm))

theorem argumentRegister_other {i : Nat} {register : Register} (at_i : argumentRegisters[i]? = some register) :
    (register ≠ .al ∧ register ≠ .eax) ∧ register ≠ .rsp ∧ register ≠ .rbp ∧ register ≠ .r10 ∧ register ≠ .rax := by
  have each : ∀ register ∈ argumentRegisters, (register ≠ .al ∧ register ≠ .eax) ∧ register ≠ .rsp ∧ register ≠ .rbp ∧
      register ≠ .r10 ∧ register ≠ .rax := by decide
  exact each register (List.mem_of_getElem? at_i)

structure PassesArguments (i : Nat) (arguments : List LlirOperand) (s s' : Processor) : Prop where
  rsp : s'.registers .rsp = s.registers .rsp
  rbp : s'.registers .rbp = s.registers .rbp
  earlier : ∀ j < i, ∀ register, argumentRegisters[j]? = some register → s'.registers register = s.registers register
  registers : ∀ k argument, arguments[k]? = some argument → ∀ register, argumentRegisters[i + k]? = some register →
    s'.registers register = operandWord g symbols (s.registers .rbp) s.memory argument
  stack : ∀ k argument, arguments[k]? = some argument → 6 ≤ i + k →
    s'.memory (outgoingPlace (s.registers .rsp) (i + k)) = operandWord g symbols (s.registers .rbp) s.memory argument
  others : ∀ place, (∀ j, 6 ≤ j → j < i + arguments.length → place ≠ outgoingPlace (s.registers .rsp) j) →
    s'.memory place = s.memory place
  before : ∀ j, 6 ≤ j → j < i → s'.memory (outgoingPlace (s.registers .rsp) j) =
    s.memory (outgoingPlace (s.registers .rsp) j)

/-- The registers that one turn of the loop does not change. -/
theorem loadArgument_spec {i : Nat} {argument : LlirOperand} {s : Processor}
    (top : (s.registers .rsp).toNat % 8 = 0) (fits : i < 2 ^ 60)
    (aligned : ∀ field, argument = .field field → (fieldPlace g symbols (s.registers .rbp) field).toNat % 8 = 0) :
    ∃ s', executeLines symbols s (generateCallArguments g i [argument]) = some s' ∧
      PassesArguments g symbols i [argument] s s' := by
  have single {k : Nat} {other : LlirOperand} (at_k : [argument][k]? = some other) : k = 0 ∧ other = argument := by
    cases k with
    | zero => exact ⟨rfl, (Option.some.inj at_k).symm⟩
    | succ k => cases at_k
  rw [generateCallArguments]
  cases at_i : argumentRegisters[i]? with
  | some register =>
    obtain ⟨wide, notTop, notBase, -, -⟩ := argumentRegister_other at_i
    refine ⟨s.setRegister register (operandWord g symbols (s.registers .rbp) s.memory argument), ?_, ?_⟩
    · rw [executeLines_append, executeLines_loadToRegister g symbols aligned wide]
      rfl
    · have few : i < 6 := (List.getElem?_eq_some_iff.mp at_i).1
      refine ⟨Function.update_of_ne notTop.symm _ _, Function.update_of_ne notBase.symm _ _, ?_, ?_, ?_, ?_, ?_⟩
      · intro j before other at_j
        exact Function.update_of_ne (argumentRegister_ne at_j at_i (by omega)) _ _
      · intro k other at_k register' at_ik
        obtain ⟨rfl, rfl⟩ := single at_k
        rw [Nat.add_zero, at_i] at at_ik
        cases at_ik
        exact Function.update_self ..
      · intro k other at_k more
        obtain ⟨rfl, rfl⟩ := single at_k
        omega
      · exact fun place _ => rfl
      · exact fun j _ _ => rfl
  | none =>
    have more : 6 ≤ i := List.getElem?_eq_none_iff.mp at_i
    have located : (s.setRegister .r10 (operandWord g symbols (s.registers .rbp) s.memory argument)).address symbols
        (.memory (8 * ((i : Int) - (argumentRegisters.length : Int))) .rsp) =
        some (outgoingPlace (s.registers .rsp) i) := by
      rw [address, outgoingPlace]
      have same : BitVec.ofInt 64 (8 * ((i : Int) - (argumentRegisters.length : Int))) =
          BitVec.ofNat 64 (8 * (i - 6)) := by
        rw [← BitVec.ofInt_natCast]
        congr 1
        simp only [argumentRegisters, List.length_cons, List.length_nil]
        omega
      rw [same]
      rfl
    have place : (outgoingPlace (s.registers .rsp) i).toNat % 8 = 0 := by
      rw [outgoingPlace, BitVec.toNat_add, BitVec.toNat_ofNat]
      omega
    refine ⟨(s.setRegister .r10 (operandWord g symbols (s.registers .rbp) s.memory argument)).put
        (outgoingPlace (s.registers .rsp) i) (operandWord g symbols (s.registers .rbp) s.memory argument), ?_, ?_⟩
    · rw [executeLines_append, executeLines_append, executeLines_loadToRegister g symbols aligned (by decide), Option.bind_eq_bind,
        Option.bind_some, executeLines_one symbols (executeAssembly_storeRegister located place (by decide))]
      rfl
    · refine ⟨rfl, rfl, ?_, ?_, ?_, ?_, ?_⟩
      · intro j before other at_j
        exact Function.update_of_ne (argumentRegister_other at_j).2.2.2.1 _ _
      · intro k other at_k register at_ik
        obtain ⟨rfl, rfl⟩ := single at_k
        rw [Nat.add_zero, at_i] at at_ik
        cases at_ik
      · intro k other at_k _
        obtain ⟨rfl, rfl⟩ := single at_k
        exact Function.update_self ..
      · intro place apart
        exact Function.update_of_ne (apart i more (by simp)) _ _
      · intro j least before
        refine Function.update_of_ne (fun same => ?_) _ _
        have places := congrArg BitVec.toNat same
        simp only [outgoingPlace, BitVec.toNat_add, BitVec.toNat_ofNat] at places
        omega

end

end Roast
