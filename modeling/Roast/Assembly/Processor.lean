import Roast.Assembly.CodeGenerator

/-! What the emitted instructions do on an x86-64 processor. Memory is read and written in aligned quadwords; an access
that is not aligned is stuck, and so is the use of flags after an instruction other than a comparison. -/
namespace Roast

structure Flags where
  zero : Bool
  sign : Bool
  overflow : Bool
  carry : Bool

/-- The contents of `al` and `eax` are those of `rax`. -/
structure Processor where
  registers : Register → Word
  memory : Word → Word
  flags : Option Flags

namespace Processor

def lowByte (value : Word) : Word := value &&& 0xff

def read (s : Processor) : Register → Word
  | .al => lowByte (s.registers .rax)
  | .eax => (s.registers .rax) &&& 0xffffffff
  | register => s.registers register

def setRegister (s : Processor) (register : Register) (value : Word) : Processor :=
  { s with registers := Function.update s.registers register value }

/-- A write to `al` keeps the rest of `rax`, a write to `eax` clears it. -/
def write (s : Processor) (register : Register) (value : Word) : Processor :=
  match register with
  | .al => s.setRegister .rax ((s.registers .rax &&& ~~~0xff) ||| lowByte value)
  | .eax => s.setRegister .rax (value &&& 0xffffffff)
  | register => s.setRegister register value

def load (s : Processor) (address : Word) : Option Word :=
  if address.toNat % 8 = 0 then some (s.memory address) else none

def put (s : Processor) (address value : Word) : Processor :=
  { s with memory := Function.update s.memory address value }

def store (s : Processor) (address value : Word) : Option Processor :=
  if address.toNat % 8 = 0 then some (s.put address value) else none

def withFlags (s : Processor) (flags : Option Flags) : Processor := { s with flags := flags }

end Processor

def compareFlags (left right : Word) : Flags :=
  { zero := left == right
    sign := (left - right).msb
    overflow := left.msb != right.msb && (left - right).msb != left.msb
    carry := left.ult right }

def Mnemonic.condition (flags : Flags) : Mnemonic → Option Bool
  | .sete => some flags.zero
  | .setne => some !flags.zero
  | .setl => some (flags.sign != flags.overflow)
  | .setle => some (flags.zero || flags.sign != flags.overflow)
  | .setge => some (flags.sign == flags.overflow)
  | .setg => some (!flags.zero && flags.sign == flags.overflow)
  | _ => none

/-- `idivq`: the quotient and the remainder of `rdx:rax`, with a fault when there is no quotient of 64 bits. -/
def divideLong (high low divisor : Word) : Option (Word × Word) :=
  let dividend := (high ++ low).toInt
  let quotient := dividend.tdiv divisor.toInt
  if divisor = 0 ∨ quotient < -2 ^ 63 ∨ 2 ^ 63 ≤ quotient then none
  else some (BitVec.ofInt 64 quotient, BitVec.ofInt 64 (dividend.tmod divisor.toInt))

section
variable (symbols : String → Word)

namespace Processor

def address (s : Processor) : AssemblyOperand → Option Word
  | .memory displacement base => some (s.read base + BitVec.ofInt 64 displacement)
  | .relative symbol displacement => some (symbols symbol.name + BitVec.ofNat 64 displacement)
  | _ => none

def operand (s : Processor) : AssemblyOperand → Option Word
  | .immediate value => some value
  | .register register => some (s.read register)
  | memory => s.address symbols memory >>= s.load

def assign (s : Processor) (target : AssemblyOperand) (value : Word) : Option Processor :=
  match target with
  | .immediate _ => none
  | .register register => some (s.write register value)
  | memory => s.address symbols memory >>= fun address => s.store address value

/-- An instruction of two operands that computes; the flags it leaves are not used by the emitted code. -/
def compute (s : Processor) (operation : Word → Word → Word) (source target : AssemblyOperand) : Option Processor := do
  let left ← s.operand symbols target
  let right ← s.operand symbols source
  (s.withFlags none).assign symbols target (operation left right)

def push (s : Processor) (value : Word) : Option Processor :=
  (s.write .rsp (s.read .rsp - 8)).store (s.read .rsp - 8) value

def pop (s : Processor) : Option (Word × Processor) := do
  let value ← s.load (s.read .rsp)
  return (value, s.write .rsp (s.read .rsp + 8))

end Processor

open Processor

def executeInstruction (s : Processor) : Mnemonic → List AssemblyOperand → Option Processor
  | .pushq, [source] => s.operand symbols source >>= s.push
  | .popq, [.register register] => s.pop >>= fun popped => some (popped.2.write register popped.1)
  | .movq, [source, target] => s.operand symbols source >>= s.assign symbols target
  | .leaq, [source, .register register] => s.address symbols source >>= fun address => some (s.write register address)
  | .addq, [source, target] => s.compute symbols (· + ·) source target
  | .subq, [source, target] => s.compute symbols (· - ·) source target
  | .imulq, [source, target] => s.compute symbols (· * ·) source target
  | .andb, [source, .register .al] => s.compute symbols (· &&& ·) source (.register .al)
  | .xorb, [source, .register .al] => s.compute symbols (· ^^^ ·) source (.register .al)
  | .negq, [.register register] => some ((s.withFlags none).write register (-s.read register))
  | .cmpq, [source, target] => do
    let left ← s.operand symbols target
    let right ← s.operand symbols source
    return s.withFlags (some (compareFlags left right))
  | .movzbl, [.register .al, .register .eax] => some (s.write .eax (s.read .al))
  | .movzbq, [.register .al, .register register] => some (s.write register (s.read .al))
  | .cqto, [] => some (s.write .rdx (if (s.read .rax).msb then -1 else 0))
  | .cltq, [] => some (s.write .rax (((s.read .rax).setWidth 32).signExtend 64))
  | .idivq, [.register register] => do
    let result ← divideLong (s.read .rdx) (s.read .rax) (s.read register)
    return (((s.withFlags none).write .rax result.1).write .rdx result.2)
  | mnemonic, [.register .al] => do
    let flags ← s.flags
    let condition ← mnemonic.condition flags
    return s.write .al (if condition then 1 else 0)
  | _, _ => none

def executeAssembly (s : Processor) : AssemblyLine → Option Processor
  | .instruction mnemonic operands => executeInstruction symbols s mnemonic operands
  | _ => none

def executeLines (s : Processor) (lines : List AssemblyLine) : Option Processor := lines.foldlM (executeAssembly symbols) s

namespace Processor

theorem read_eq {register : Register} (wide : register ≠ .al ∧ register ≠ .eax) (s : Processor) :
    s.read register = s.registers register := by
  cases register <;> first | rfl | exact absurd rfl wide.1 | exact absurd rfl wide.2

theorem write_eq {register : Register} (wide : register ≠ .al ∧ register ≠ .eax) (s : Processor) (value : Word) :
    s.write register value = s.setRegister register value := by
  cases register <;> first | rfl | exact absurd rfl wide.1 | exact absurd rfl wide.2

@[simp] theorem memory_write (s : Processor) (register : Register) (value : Word) :
    (s.write register value).memory = s.memory := by
  cases register <;> rfl

@[simp] theorem memory_withFlags (s : Processor) (flags : Option Flags) : (s.withFlags flags).memory = s.memory := rfl

@[simp] theorem read_withFlags (s : Processor) (flags : Option Flags) (register : Register) :
    (s.withFlags flags).read register = s.read register := by
  cases register <;> rfl

theorem load_of {s : Processor} {address : Word} (aligned : address.toNat % 8 = 0) :
    s.load address = some (s.memory address) := if_pos aligned

theorem store_of {s : Processor} {address : Word} (aligned : address.toNat % 8 = 0) (value : Word) :
    s.store address value = some (s.put address value) := if_pos aligned

/-- An operand in memory is the word at its address. -/
private theorem operand_of_address {s : Processor} {source : AssemblyOperand} {place : Word}
    (located : s.address symbols source = some place) (aligned : place.toNat % 8 = 0) :
    s.operand symbols source = some (s.memory place) := by
  cases source with
  | immediate value => cases located
  | register register => cases located
  | memory displacement base =>
    show s.address symbols _ >>= s.load = _
    rw [located]
    exact load_of aligned
  | relative symbol displacement =>
    show s.address symbols _ >>= s.load = _
    rw [located]
    exact load_of aligned

/-- A write to memory changes the word at its address. -/
private theorem assign_of_address {s : Processor} {target : AssemblyOperand} {place : Word}
    (located : s.address symbols target = some place) (aligned : place.toNat % 8 = 0) (value : Word) :
    s.assign symbols target value = some (s.put place value) := by
  cases target with
  | immediate value => cases located
  | register register => cases located
  | memory displacement base =>
    show s.address symbols _ >>= _ = _
    rw [located]
    exact store_of aligned value
  | relative symbol displacement =>
    show s.address symbols _ >>= _ = _
    rw [located]
    exact store_of aligned value

end Processor

section
variable {symbols} {s : Processor} {operand : AssemblyOperand} {place : Word} {register : Register}

private theorem executeAssembly_move {source target : AssemblyOperand} {value : Word}
    (known : s.operand symbols source = some value) :
    executeAssembly symbols s (.instruction .movq [source, target]) = s.assign symbols target value := by
  rw [executeAssembly, executeInstruction, known]
  rfl

theorem executeAssembly_loadMemory (located : s.address symbols operand = some place) (aligned : place.toNat % 8 = 0)
    (wide : register ≠ .al ∧ register ≠ .eax) :
    executeAssembly symbols s (.instruction .movq [operand, .register register]) =
      some (s.setRegister register (s.memory place)) := by
  rw [executeAssembly_move (operand_of_address symbols located aligned), assign, write_eq wide]

theorem executeAssembly_storeRegister (located : s.address symbols operand = some place) (aligned : place.toNat % 8 = 0)
    (wide : register ≠ .al ∧ register ≠ .eax) :
    executeAssembly symbols s (.instruction .movq [.register register, operand]) =
      some (s.put place (s.registers register)) := by
  rw [executeAssembly_move rfl, read_eq wide, assign_of_address symbols located aligned]

theorem executeAssembly_storeImmediate (located : s.address symbols operand = some place)
    (aligned : place.toNat % 8 = 0) (value : Word) :
    executeAssembly symbols s (.instruction .movq [.immediate value, operand]) = some (s.put place value) := by
  rw [executeAssembly_move rfl, assign_of_address symbols located aligned]

end

theorem executeLines_append (s : Processor) (first second : List AssemblyLine) :
    executeLines symbols s (first ++ second) = executeLines symbols s first >>= fun s => executeLines symbols s second :=
  List.foldlM_append

@[simp] theorem executeLines_nil (s : Processor) : executeLines symbols s [] = some s := rfl

theorem executeLines_cons (s : Processor) (line : AssemblyLine) (lines : List AssemblyLine) :
    executeLines symbols s (line :: lines) = executeAssembly symbols s line >>= fun s => executeLines symbols s lines := rfl

end

end Roast
