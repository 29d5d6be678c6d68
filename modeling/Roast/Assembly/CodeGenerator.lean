import Roast.Assembly.StackFrame

/-! The assembly of an LLIR program, `code_generator.c` with the symbol names of Linux, as the list of its
lines. -/
namespace Roast

inductive Register where
  | rdi | rsi | rdx | rcx | r8 | r9 | rax | r10 | r11 | rbp | rsp | al | eax
  deriving DecidableEq, Repr

/-- What a symbol stands for, a ghost; `exit` is the function of the C library. -/
inductive Entity where
  | string (string : String)
  | field (field : LlirField)
  | method (identifier : String)
  | block (id : Nat)
  | exit
  deriving DecidableEq, Repr

structure AssemblySymbol where
  name : String
  entity : Entity
  deriving DecidableEq, Repr

inductive AssemblyOperand where
  | immediate (value : Word)
  | register (register : Register)
  | memory (displacement : Int) (base : Register)
  | relative (symbol : AssemblySymbol) (displacement : Nat)
  deriving DecidableEq, Repr

inductive Mnemonic where
  | pushq | popq | movq | movzbl | movzbq | leaq | addq | subq | imulq | idivq | negq | cmpq | andb | xorb
  | sete | setne | setl | setle | setge | setg | cqto | cltq | ret
  deriving DecidableEq, Repr

inductive JumpMnemonic where
  | jmp | je | jne | jb | jl | jbe | jle | ja | jg | jae | jge
  deriving DecidableEq, Repr

inductive AssemblyLine where
  | data
  | text
  | globl (name : String)
  | label (symbol : AssemblySymbol)
  | string (string : String)
  | fill (bytes : Int)
  | align (bytes : Nat)
  | instruction (mnemonic : Mnemonic) (operands : List AssemblyOperand)
  | jump (mnemonic : JumpMnemonic) (target : AssemblySymbol)
  | call (target : AssemblySymbol)
  deriving DecidableEq, Repr

/-- `struct code_generator` with the lines printed so far. A failed assertion or a loop that does not end is
recorded in `failed`. -/
structure CodeGenerator where
  pinholeOptimize : Bool
  llir : Llir
  offsets : Offsets
  strings : List (String × Nat)
  stringCounter : Nat
  lines : List AssemblyLine
  failed : Bool

namespace CodeGenerator

def print (g : CodeGenerator) (lines : List AssemblyLine) : CodeGenerator := { g with lines := g.lines ++ lines }

/-- A string that is not in the table is looked up as 0. -/
def stringId (g : CodeGenerator) (string : String) : Nat := (g.strings.lookup string).getD 0

end CodeGenerator

def stringLabel (id : Nat) : String := "string_" ++ toString id

def blockLabel (id : Nat) : String := "block_" ++ toString id

def LlirField.symbol (field : LlirField) : AssemblySymbol := ⟨field.identifier, .field field⟩

def blockSymbol (id : Nat) : AssemblySymbol := ⟨blockLabel id, .block id⟩

def generateGlobalString (g : CodeGenerator) (string : String) : CodeGenerator :=
  if g.stringId string ≠ 0 then g
  else
    { g.print [.label ⟨stringLabel g.stringCounter, .string string⟩, .string string, .align 16] with
      strings := (string, g.stringCounter) :: g.strings
      stringCounter := g.stringCounter + 1 }

def findStringsInMethodCall (g : CodeGenerator) (arguments : List LlirOperand) : CodeGenerator :=
  arguments.foldl (fun g argument =>
    match argument with
    | .string string => generateGlobalString g string
    | _ => g) g

def findStringsInBlock (g : CodeGenerator) (block : LlirBlock) : CodeGenerator :=
  block.assignments.foldl (fun g assignment =>
    match assignment with
    | .methodCall _ arguments _ => findStringsInMethodCall g arguments
    | _ => g) g

def findStringsInMethod (g : CodeGenerator) (method : LlirMethod) : CodeGenerator :=
  method.blocks.foldl findStringsInBlock g

def generateGlobalStrings (g : CodeGenerator) : CodeGenerator := g.llir.methods.foldl findStringsInMethod g

def generateGlobalFields (fields : List LlirField) : List AssemblyLine :=
  fields.flatMap fun field => [.label field.symbol, .fill (8 * field.valueCount), .align 16]

def generateDataSection (g : CodeGenerator) : CodeGenerator :=
  (generateGlobalStrings (g.print [.data])).print (generateGlobalFields g.llir.fields)

def argumentRegisters : List Register := [.rdi, .rsi, .rdx, .rcx, .r8, .r9]

def stackSlot (offset : Nat) : AssemblyOperand := .memory (-(offset : Int)) .rbp

section
variable (g : CodeGenerator)

def loadToRegister (operand : LlirOperand) (destination : Register) : List AssemblyLine :=
  match operand with
  | .literal literal => [.instruction .movq [.immediate literal, .register destination]]
  | .field field =>
    if g.offsets field.identifier ≠ 0 then
      [.instruction .movq [stackSlot (g.offsets field.identifier), .register destination]]
    else [.instruction .movq [.relative field.symbol 0, .register destination]]
  | .string string =>
    [.instruction .leaq [.relative ⟨stringLabel (g.stringId string), .string string⟩ 0, .register destination]]

def loadArrayToRegister (array : LlirField) (destination : Register) : List AssemblyLine :=
  if g.offsets array.identifier ≠ 0 then
    [.instruction .leaq [stackSlot (g.offsets array.identifier), .register destination]]
  else [.instruction .leaq [.relative array.symbol 0, .register destination]]

def storeFromRegister (destination : LlirField) (source : Register) : List AssemblyLine :=
  if g.offsets destination.identifier ≠ 0 then
    [.instruction .movq [.register source, stackSlot (g.offsets destination.identifier)]]
  else [.instruction .movq [.register source, .relative destination.symbol 0]]

def generateCallArguments (i : Nat) : List LlirOperand → List AssemblyLine
  | [] => []
  | argument :: rest =>
    (match argumentRegisters[i]? with
      | some register => loadToRegister g argument register
      | none => loadToRegister g argument .r10 ++
          [.instruction .movq [.register .r10, .memory (8 * (i - argumentRegisters.length)) .rsp]]) ++
      generateCallArguments (i + 1) rest

def generateCall (method : String) (arguments : List LlirOperand) (destination : LlirField) : List AssemblyLine :=
  let stackArgumentCount := (arguments.length : Int) - argumentRegisters.length
  let extraStackSize := 8 * (stackArgumentCount + stackArgumentCount.tmod 2)
  let adjust (mnemonic : Mnemonic) : List AssemblyLine :=
    if stackArgumentCount > 0 then
      [.instruction mnemonic [.immediate (BitVec.ofInt 64 extraStackSize), .register .rsp]]
    else []
  adjust .subq ++ generateCallArguments g 0 arguments ++
    [.instruction .movq [.immediate 0, .register .rax], .call ⟨method, .method method⟩] ++
    adjust .addq ++ storeFromRegister g destination .rax

def unaryInstructions : LlirUnaryType → List AssemblyLine × Register
  | .move => ([], .r10)
  | .negate => ([.instruction .negq [.register .r10]], .r10)
  | .not => ([.instruction .cmpq [.immediate 0, .register .r10], .instruction .setne [.register .al],
      .instruction .xorb [.immediate (-1), .register .al], .instruction .andb [.immediate 1, .register .al],
      .instruction .movzbl [.register .al, .register .eax], .instruction .cltq []], .rax)

/-- The comparisons of equality extend through `eax`. -/
def equalityInstructions (set : Mnemonic) : List AssemblyLine × Register :=
  ([.instruction .cmpq [.register .r11, .register .r10], .instruction set [.register .al],
    .instruction .andb [.immediate 1, .register .al], .instruction .movzbl [.register .al, .register .eax],
    .instruction .cltq []], .rax)

def orderInstructions (set : Mnemonic) : List AssemblyLine × Register :=
  ([.instruction .cmpq [.register .r11, .register .r10], .instruction set [.register .al],
    .instruction .andb [.immediate 1, .register .al], .instruction .movzbq [.register .al, .register .r10]], .r10)

def divisionInstructions (result : Register) : List AssemblyLine × Register :=
  ([.instruction .movq [.register .r10, .register .rax], .instruction .cqto [],
    .instruction .idivq [.register .r11]], result)

def binaryInstructions : LlirBinaryType → List AssemblyLine × Register
  | .add => ([.instruction .addq [.register .r11, .register .r10]], .r10)
  | .subtract => ([.instruction .subq [.register .r11, .register .r10]], .r10)
  | .multiply => ([.instruction .imulq [.register .r11, .register .r10]], .r10)
  | .divide => divisionInstructions .rax
  | .modulo => divisionInstructions .rdx
  | .equal => equalityInstructions .sete
  | .notEqual => equalityInstructions .setne
  | .less => orderInstructions .setl
  | .lessEqual => orderInstructions .setle
  | .greaterEqual => orderInstructions .setge
  | .greater => orderInstructions .setg

def indexInstructions : List AssemblyLine :=
  [.instruction .imulq [.immediate 8, .register .r11], .instruction .addq [.register .r11, .register .r10]]

def generateAssignmentLines : LlirAssignment → List AssemblyLine
  | .unary type source destination =>
    loadToRegister g source .r10 ++ (unaryInstructions type).1 ++
      storeFromRegister g destination (unaryInstructions type).2
  | .binary type left right destination =>
    loadToRegister g left .r10 ++ loadToRegister g right .r11 ++ (binaryInstructions type).1 ++
      storeFromRegister g destination (binaryInstructions type).2
  | .arrayAccess index array destination _ =>
    loadArrayToRegister g array .r10 ++ loadToRegister g index .r11 ++ indexInstructions ++
      [.instruction .movq [.memory 0 .r10, .register .r11]] ++ storeFromRegister g destination .r11
  | .arrayUpdate index value destination =>
    loadArrayToRegister g destination .r10 ++ loadToRegister g index .r11 ++ indexInstructions ++
      loadToRegister g value .r11 ++ [.instruction .movq [.register .r11, .memory 0 .r10]]
  | .methodCall method arguments destination => generateCall g method arguments destination

def LlirBranchType.mnemonic (type : LlirBranchType) (unsignedComparison : Bool) : JumpMnemonic :=
  match type with
  | .equal => .je
  | .notEqual => .jne
  | .less => if unsignedComparison then .jb else .jl
  | .lessEqual => if unsignedComparison then .jbe else .jle
  | .greater => if unsignedComparison then .ja else .jg
  | .greaterEqual => if unsignedComparison then .jae else .jge

def generateBranch (branch : LlirBranch) : List AssemblyLine :=
  loadToRegister g branch.left .r11 ++ loadToRegister g branch.right .r10 ++
    [.instruction .cmpq [.register .r10, .register .r11],
      .jump (branch.type.mnemonic branch.unsignedComparison) (blockSymbol branch.falseBlock)]

def generateJump (block : Nat) (next : Option Nat) : List AssemblyLine :=
  if g.pinholeOptimize ∧ next = some block then [] else [.jump .jmp (blockSymbol block)]

def generateReturn (source : LlirOperand) : List AssemblyLine :=
  loadToRegister g source .rax ++ [.instruction .movq [.register .rbp, .register .rsp],
    .instruction .popq [.register .rbp], .instruction .ret []]

def generateShitYourself (returnValue : Word) : List AssemblyLine :=
  [.instruction .movq [.immediate returnValue, .register .rdi], .call ⟨"exit", .exit⟩]

def generateTerminal (terminal : LlirTerminal) (next : Option Nat) : List AssemblyLine :=
  match terminal with
  | .jump block => generateJump g block next
  | .branch branch => generateBranch g branch
  | .llirReturn source => generateReturn g source
  | .shitYourself returnValue => generateShitYourself returnValue
  | .unknown => []

/-- The block loop of `generate_method_body`. -/
def generateBlockLines : List LlirBlock → List AssemblyLine
  | [] => []
  | block :: rest =>
    .label (blockSymbol block.id) :: block.assignments.flatMap (generateAssignmentLines g) ++
      generateTerminal g block.terminal (rest.head?.map LlirBlock.id) ++ generateBlockLines rest

/-- `generate_method_arguments`; `i` counts the arguments. -/
def generateArgumentLines (i : Nat) : List LlirField → List AssemblyLine
  | [] => []
  | field :: rest =>
    (match argumentRegisters[i]? with
      | some register => [.instruction .movq [.register register, stackSlot (g.offsets field.identifier)]]
      | none => [.instruction .movq [.memory ((i - argumentRegisters.length) * 8 + 16) .rbp, .register .r10],
          .instruction .movq [.register .r10, stackSlot (g.offsets field.identifier)]]) ++
      generateArgumentLines (i + 1) rest

end

/-- Below `2 ^ 32` elements; the 32-bit counter of the loop reaches no more. -/
def generateGlobalFieldInitialization (field : LlirField) : List AssemblyLine :=
  (List.range field.valueCount.toNat).flatMap fun i =>
    if field.values.getD i 0 = 0 then []
    else [.instruction .movq [.immediate (field.values.getD i 0), .relative field.symbol (8 * i)]]

def generateInitialization (llir : Llir) (method : LlirMethod) : List AssemblyLine :=
  if method.identifier = "main" then llir.fields.flatMap generateGlobalFieldInitialization else []

/-- Whether an assertion fails in a method, or the loop over a 32-bit counter does not end. -/
def CodeGenerator.Fails (g : CodeGenerator) (method : LlirMethod) : Prop :=
  (∃ field ∈ method.arguments, g.offsets field.identifier = 0) ∨
    (method.identifier = "main" ∧ ∃ field ∈ g.llir.fields, 2 ^ 32 ≤ field.valueCount) ∨
    ∃ block ∈ method.blocks, block.terminal = .unknown

instance (g : CodeGenerator) (method : LlirMethod) : Decidable (g.Fails method) := by
  unfold CodeGenerator.Fails
  infer_instance

/-- `generate_method_declaration` and `generate_method_body`. -/
def generateMethodLines (g : CodeGenerator) (method : LlirMethod) : CodeGenerator :=
  let frame := generateStackAllocation g.offsets method
  let g := { g with offsets := frame.2 }
  let g := { g with failed := g.failed || decide (g.Fails method) }
  g.print ([.globl method.identifier, .label ⟨method.identifier, .method method.identifier⟩,
      .instruction .pushq [.register .rbp], .instruction .movq [.register .rsp, .register .rbp],
      .instruction .subq [.immediate (BitVec.ofNat 64 frame.1), .register .rsp]] ++
    generateArgumentLines g 0 method.arguments ++ generateInitialization g.llir method ++
    generateBlockLines g method.blocks)

def generateTextSection (g : CodeGenerator) : CodeGenerator :=
  g.llir.methods.foldl generateMethodLines (g.print [.text])

def codeGeneratorNew (pinholeOptimize : Bool) (llir : Llir) : CodeGenerator :=
  { pinholeOptimize := pinholeOptimize, llir := llir, offsets := fun _ => 0, strings := [], stringCounter := 1,
    lines := [], failed := false }

def codeGeneratorGenerate (pinholeOptimize : Bool) (llir : Llir) : Option (List AssemblyLine) :=
  let g := generateTextSection (generateDataSection (codeGeneratorNew pinholeOptimize llir))
  if g.failed then none else some g.lines

end Roast
