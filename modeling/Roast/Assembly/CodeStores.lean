import Roast.Assembly.CallingConvention

/-! What emitted lines store: memory changes at most in the place of a line's last operand, and so a call changes only the
stack and a declaration only the frame and the globals. -/
namespace Roast
open Processor

section
variable (symbols : String → Word)

def AssemblyLine.StoresIn (places : Set Word) (s : Processor) : AssemblyLine → Prop
  | .instruction _ operands =>
    ∀ target ∈ operands.getLast?, ∀ place, s.address symbols target = some place → place ∈ places
  | _ => True

variable {symbols} {places : Set Word} {s s' : Processor}

/-- A write keeps every word outside its places. -/
private theorem memory_assign {target : AssemblyOperand} {value : Word}
    (assigned : s.assign symbols target value = some s')
    (stores : ∀ place, s.address symbols target = some place → place ∈ places) {place : Word} (other : place ∉ places) :
    s'.memory place = s.memory place := by
  have stored (h : (s.address symbols target >>= fun place => s.store place value) = some s') :
      s'.memory place = s.memory place := by
    obtain ⟨there, located, h⟩ := Option.bind_eq_some_iff.mp h
    rw [store] at h
    split at h
    · cases h
      refine Function.update_of_ne (fun same => other ?_) _ _
      rw [same]
      exact stores there located
    · cases h
  cases target with
  | immediate value => cases assigned
  | register register =>
    cases assigned
    rw [memory_write]
  | memory displacement base => exact stored assigned
  | relative symbol displacement => exact stored assigned

private theorem memory_compute {operation : Word → Word → Word} {source target : AssemblyOperand}
    (computed : s.compute symbols operation source target = some s')
    (stores : ∀ place, s.address symbols target = some place → place ∈ places) {place : Word} (other : place ∉ places) :
    s'.memory place = s.memory place := by
  obtain ⟨left, -, h⟩ := Option.bind_eq_some_iff.mp computed
  obtain ⟨right, -, h⟩ := Option.bind_eq_some_iff.mp h
  refine memory_assign (s := s.withFlags none) h (fun there located => stores there ?_) other
  rw [← located]
  cases target with
  | memory displacement base => rw [address, address, read_withFlags]
  | _ => rfl

/-- An instruction keeps every word outside the places that it stores to. -/
private theorem memory_executeAssembly {line : AssemblyLine} (keeps : line.KeepsFrame)
    (stores : line.StoresIn symbols places s)
    (step : executeAssembly symbols s line = some s') {place : Word} (other : place ∉ places) :
    s'.memory place = s.memory place := by
  cases line with
  | instruction mnemonic operands =>
    obtain ⟨notPush, notPop, -⟩ := keeps
    rw [executeAssembly] at step
    unfold executeInstruction at step
    split at step
    · exact absurd rfl notPush
    · exact absurd rfl notPop
    · obtain ⟨value, -, h⟩ := Option.bind_eq_some_iff.mp step
      exact memory_assign h (stores _ rfl) other
    · obtain ⟨there, -, h⟩ := Option.bind_eq_some_iff.mp step
      cases h
      rw [memory_write]
    · exact memory_compute step (stores _ rfl) other
    · exact memory_compute step (stores _ rfl) other
    · exact memory_compute step (stores _ rfl) other
    · exact memory_compute step (stores _ rfl) other
    · exact memory_compute step (stores _ rfl) other
    · cases step
      rw [memory_write, memory_withFlags]
    · obtain ⟨left, -, h⟩ := Option.bind_eq_some_iff.mp step
      obtain ⟨right, -, h⟩ := Option.bind_eq_some_iff.mp h
      cases h
      rfl
    · cases step
      rw [memory_write]
    · cases step
      rw [memory_write]
    · cases step
      rw [memory_write]
    · cases step
      rw [memory_write]
    · obtain ⟨result, -, h⟩ := Option.bind_eq_some_iff.mp step
      cases h
      rw [memory_write, memory_write, memory_withFlags]
    · obtain ⟨flags, -, h⟩ := Option.bind_eq_some_iff.mp step
      obtain ⟨condition, -, h⟩ := Option.bind_eq_some_iff.mp h
      cases h
      rw [memory_write]
    · cases step
  | _ => cases step

/-- Lines that keep the frame keep every word outside the places that they store to. -/
private theorem memory_executeLines {lines : List AssemblyLine} (keeps : ∀ line ∈ lines, line.KeepsFrame)
    (stores : ∀ line ∈ lines, ∀ s', SameFrame s s' → line.StoresIn symbols places s')
    (run : executeLines symbols s lines = some s') {place : Word} (other : place ∉ places) :
    s'.memory place = s.memory place := by
  induction lines generalizing s with
  | nil =>
    cases run
    rfl
  | cons line rest ih =>
    rw [executeLines_cons] at run
    obtain ⟨s1, step, others⟩ := Option.bind_eq_some_iff.mp run
    have first := keeps line List.mem_cons_self
    have same := sameFrame_executeAssembly symbols first step
    rw [ih (fun other mem => keeps other (List.mem_cons_of_mem _ mem))
      (fun other mem s2 same2 => stores other (List.mem_cons_of_mem _ mem) s2 (same.trans same2)) others]
    exact memory_executeAssembly first (stores line List.mem_cons_self s ⟨rfl, rfl⟩) step other

private theorem storesIn_register (mnemonic : Mnemonic) (source : AssemblyOperand) (register : Register) :
    (AssemblyLine.instruction mnemonic [source, .register register]).StoresIn symbols places s := by
  intro target last place located
  obtain rfl : AssemblyOperand.register register = target := Option.some.inj last
  cases located

private theorem storesIn_memory (mnemonic : Mnemonic) (source : AssemblyOperand) {target : AssemblyOperand}
    {place : Word}
    (located : s.address symbols target = some place) (mem : place ∈ places) :
    (AssemblyLine.instruction mnemonic [source, target]).StoresIn symbols places s := by
  intro other last place' located'
  obtain rfl : target = other := Option.some.inj last
  rw [located] at located'
  exact Option.some.inj located' ▸ mem

end

section
variable (g : CodeGenerator) {symbols : String → Word} {s : Processor}

/-- Loading a register stores nothing. -/
private theorem loadToRegister_storesIn (operand : LlirOperand) (register : Register) (places : Set Word) :
    ∀ line ∈ loadToRegister g operand register, line.StoresIn symbols places s := by
  intro line mem
  cases operand with
  | literal literal =>
    obtain rfl := List.mem_singleton.mp mem
    exact storesIn_register _ _ _
  | string string =>
    obtain rfl := List.mem_singleton.mp mem
    exact storesIn_register _ _ _
  | field field =>
    rw [loadToRegister] at mem
    split at mem
    all_goals
      obtain rfl := List.mem_singleton.mp mem
      exact storesIn_register _ _ _

/-- The arguments of a call are stored in the places for them. -/
private theorem generateCallArguments_storesIn (i : Nat) (arguments : List LlirOperand) {top : Word}
    (at_top : s.registers .rsp = top) :
    ∀ line ∈ generateCallArguments g i arguments, line.StoresIn symbols
      {place | ∃ j, 6 ≤ j ∧ j < i + arguments.length ∧ place = outgoingPlace top j} s := by
  induction arguments generalizing i with
  | nil => exact fun line none => (List.not_mem_nil none).elim
  | cons argument rest ih =>
    intro line mem
    rw [generateCallArguments, List.mem_append] at mem
    rw [List.length_cons]
    obtain mem | mem := mem
    · cases at_i : argumentRegisters[i]? with
      | some register =>
        rw [at_i] at mem
        exact loadToRegister_storesIn g argument register _ line mem
      | none =>
        rw [at_i] at mem
        obtain mem | mem := List.mem_append.mp mem
        · exact loadToRegister_storesIn g argument .r10 _ line mem
        · obtain rfl := List.mem_singleton.mp mem
          have more : 6 ≤ i := List.getElem?_eq_none_iff.mp at_i
          have located : s.address symbols (.memory (8 * ((i : Int) - (argumentRegisters.length : Int))) .rsp) =
              some (outgoingPlace top i) := by
            have same : (8 * ((i : Int) - (argumentRegisters.length : Int))) = ((8 * (i - 6) : Nat) : Int) := by
              simp only [argumentRegisters, List.length_cons, List.length_nil]
              omega
            rw [address, same, BitVec.ofInt_natCast, outgoingPlace, ← at_top]
            rfl
          exact storesIn_memory _ _ located ⟨i, more, by omega, rfl⟩
    · have later := ih (i + 1) line mem
      rwa [show i + 1 + rest.length = i + (rest.length + 1) by omega] at later

/-- The parameters are stored in their slots. -/
private theorem generateArgumentLines_storesIn (i : Nat) (fields : List LlirField) {base : Word}
    (at_base : s.registers .rbp = base) :
    ∀ line ∈ generateArgumentLines g i fields, line.KeepsFrame ∧ line.StoresIn symbols
      {place | ∃ field ∈ fields, place = base - BitVec.ofNat 64 (g.offsets field.identifier)} s := by
  subst at_base
  induction fields generalizing i with
  | nil => exact fun line none => (List.not_mem_nil none).elim
  | cons field rest ih =>
    intro line mem
    rw [generateArgumentLines, List.mem_append] at mem
    obtain mem | mem := mem
    · have slot (register : Register) :
          (AssemblyLine.instruction .movq [.register register, stackSlot (g.offsets field.identifier)]).KeepsFrame ∧
            (AssemblyLine.instruction .movq [.register register, stackSlot (g.offsets field.identifier)]).StoresIn symbols
              {place | ∃ other ∈ field :: rest, place = s.registers .rbp - BitVec.ofNat 64 (g.offsets other.identifier)} s :=
        ⟨storeRegister_keeps register (memory_keepsFrame _ _),
          storesIn_memory _ _ (stackSlot_address symbols s _) ⟨field, List.mem_cons_self, rfl⟩⟩
      cases at_i : argumentRegisters[i]? with
      | some register =>
        rw [at_i] at mem
        obtain rfl := List.mem_singleton.mp mem
        exact slot register
      | none =>
        rw [at_i] at mem
        obtain rfl | rfl := List.mem_pair.mp mem
        · refine ⟨⟨by decide, by decide, fun target last => ?_⟩, storesIn_register _ _ _⟩
          obtain rfl : AssemblyOperand.register .r10 = target := Option.some.inj last
          decide
        · exact slot .r10
    · obtain ⟨keeps, stores⟩ := ih (i + 1) line mem
      refine ⟨keeps, ?_⟩
      cases line with
      | instruction mnemonic operands =>
        intro target last place located
        obtain ⟨other, inside, same⟩ := stores target last place located
        exact ⟨other, List.mem_cons_of_mem _ inside, same⟩
      | _ => trivial

end

section
variable {g : CodeGenerator} {space : AddressSpace g.llir.fields} {method : LlirMethod} {s s' : Processor}

/-- Outside the stack nothing changes before a call. -/
theorem memory_beforeCall {arguments : List LlirOperand} (few : arguments.length < 2 ^ 27)
    (room : space.bottom + stackRoom arguments.length ≤ (s.registers .rsp).toNat)
    (top : (s.registers .rsp).toNat ≤ space.top)
    (run : executeLines space.symbols s (beforeCall (methodGenerator g method) arguments) = some s') {place : Word}
    (outside : ¬ (space.bottom ≤ place.toNat ∧ place.toNat < space.top)) : s'.memory place = s.memory place := by
  have bounded := (s.registers .rsp).isLt
  obtain ⟨s1, adjusted, registers1, memory1⟩ := executeLines_adjustStack space.symbols .subq
    (fun left right => left - right) (fun s value => rfl) (fun value => BitVec.sub_zero value) few s
  have top1 : (s1.registers .rsp).toNat + stackRoom arguments.length = (s.registers .rsp).toNat := by
    rw [registers1, Function.update_self, BitVec.toNat_sub, BitVec.toNat_ofNat]
    omega
  have loop : loadCallArguments (methodGenerator g method) 0 arguments =
      generateCallArguments (methodGenerator g method) 0 arguments := loadCallArguments_eq _ 0 arguments (by omega)
  rw [beforeCall, loop, List.append_assoc, executeLines_append, adjusted, Option.bind_eq_bind, Option.bind_some,
    executeLines_append] at run
  obtain ⟨s2, passed, last⟩ := Option.bind_eq_some_iff.mp run
  obtain rfl : s2.setRegister .rax 0 = s' := Option.some.inj last
  show s2.memory place = _
  rw [← memory1]
  refine memory_executeLines (generateCallArguments_keeps _ 0 arguments)
    (fun line mem s3 same => generateCallArguments_storesIn _ 0 arguments same.1 line mem) passed ?_
  rintro ⟨j, more, inside, rfl⟩
  have room_j := le_stackRoom (show j < arguments.length by omega) more
  rw [toNat_outgoingPlace (by omega)] at outside
  omega

/-- Outside the stack nothing changes in a declaration before the initialization of the globals. -/
theorem memory_declaration (callable : method.Callable) (entry : AtEntry g space method s)
    (run : executeLines space.symbols s (methodDeclaration g method) = some s') :
    ∃ s1, executeLines space.symbols s1 (generateInitialization g.llir method) = some s' ∧
      ∀ place : Word, ¬ (space.bottom ≤ place.toNat ∧ place.toNat < space.top) → s1.memory place = s.memory place := by
  obtain ⟨aligned, below, above⟩ := entry
  have bounded := (s.registers .rsp).isLt
  have base : (s.registers .rsp - 8).toNat = (s.registers .rsp).toNat - 8 := by
    rw [BitVec.toNat_sub, show (8 : Word).toNat = 8 from rfl]
    omega
  obtain ⟨s1, entered, base1, -, -, memory1⟩ := executeLines_enter space.symbols (s := s) (by omega)
    (BitVec.ofNat 64 (generateStackAllocation g.offsets method).1)
  have loop : storeArguments (methodGenerator g method) 0 method.arguments =
      generateArgumentLines (methodGenerator g method) 0 method.arguments :=
    storeArguments_eq _ 0 method.arguments (by have := callable.few; omega)
  rw [methodDeclaration, loop, List.append_assoc, executeLines_append, entered, Option.bind_eq_bind, Option.bind_some,
    executeLines_append] at run
  obtain ⟨s2, stored, initialized⟩ := Option.bind_eq_some_iff.mp run
  refine ⟨s2, initialized, fun place outside => ?_⟩
  have lines (s3 : Processor) (same : s3.registers .rbp = s1.registers .rbp) :=
    @generateArgumentLines_storesIn (methodGenerator g method) space.symbols s3 0 method.arguments _ same
  rw [memory_executeLines (fun line mem => (lines s1 rfl line mem).1) (fun line mem s3 same => (lines s3 same.2 line mem).2)
    stored, memory1]
  · refine Function.update_of_ne (fun same => ?_) _ _
    rw [same, base] at outside
    omega
  · rintro ⟨field, mem, rfl⟩
    obtain ⟨words, -, offset, small⟩ := generateStackAllocation_offset callable.positive g.offsets
      (List.mem_append_left _ mem)
    have offset' : (methodGenerator g method).offsets field.identifier = 8 * words := offset
    rw [offset', base1, BitVec.toNat_sub, BitVec.toNat_ofNat, base] at outside
    omega

end

end Roast
