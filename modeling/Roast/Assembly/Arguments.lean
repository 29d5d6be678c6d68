import Roast.Assembly.Calls

/-! The loops that pass the arguments of a call and keep them in the frame of the callee, executed. -/
namespace Roast
open Processor

section
variable (g : CodeGenerator) (symbols : String → Word)

private theorem generateCallArguments_cons (i : Nat) (argument : LlirOperand) (rest : List LlirOperand) :
    generateCallArguments g i (argument :: rest) =
      generateCallArguments g i [argument] ++ generateCallArguments g (i + 1) rest := by
  rw [generateCallArguments, generateCallArguments, generateCallArguments, List.append_nil]

/-- The loop over the arguments from number `i` on. -/
theorem executeLines_callArguments {i : Nat} {arguments : List LlirOperand} {s : Processor}
    (top : (s.registers .rsp).toNat % 8 = 0) (fits : i + arguments.length ≤ 2 ^ 60)
    (aligned : ∀ field, .field field ∈ arguments → (fieldPlace g symbols (s.registers .rbp) field).toNat % 8 = 0)
    (apart : ∀ field, .field field ∈ arguments → ∀ j, 6 ≤ j → j < i + arguments.length →
      fieldPlace g symbols (s.registers .rbp) field ≠ outgoingPlace (s.registers .rsp) j) :
    ∃ s', executeLines symbols s (generateCallArguments g i arguments) = some s' ∧
      PassesArguments g symbols i arguments s s' := by
  induction arguments generalizing i s with
  | nil => exact ⟨s, rfl, rfl, rfl, fun _ _ _ _ => rfl, (fun _ _ none => by cases none), (fun _ _ none => by cases none),
    fun _ _ => rfl, fun _ _ _ => rfl⟩
  | cons argument rest ih =>
    rw [List.length_cons] at fits apart
    obtain ⟨s1, first, passed⟩ := @loadArgument_spec g symbols i argument s top (by omega)
      fun field same => aligned field (same ▸ List.mem_cons_self)
    obtain ⟨s2, others, passes⟩ := ih (i := i + 1) (s := s1) (by rwa [passed.rsp]) (by omega)
      (fun field mem => by
        rw [passed.rbp]
        exact aligned field (List.mem_cons_of_mem _ mem))
      (fun field mem j least before => by
        rw [passed.rbp, passed.rsp]
        exact apart field (List.mem_cons_of_mem _ mem) j least (by omega))
    have word (other : LlirOperand) (mem : other ∈ rest) :
        operandWord g symbols (s.registers .rbp) s1.memory other = operandWord g symbols (s.registers .rbp) s.memory other := by
      refine operandWord_congr g symbols fun field same => passed.others _ fun j least before => ?_
      refine apart field (same ▸ List.mem_cons_of_mem _ mem) j least ?_
      rw [List.length_singleton] at before
      omega
    refine ⟨s2, ?_, passes.rsp.trans passed.rsp, passes.rbp.trans passed.rbp, ?_, ?_, ?_, ?_, ?_⟩
    · rw [generateCallArguments_cons, executeLines_append, first]
      exact others
    · intro j before register at_j
      rw [passes.earlier j (by omega) register at_j, passed.earlier j before register at_j]
    · intro k other at_k register at_ik
      cases k with
      | zero =>
        obtain rfl := Option.some.inj at_k
        rw [passes.earlier i (by omega) register at_ik]
        exact passed.registers 0 argument rfl register at_ik
      | succ k =>
        rw [List.getElem?_cons_succ] at at_k
        rw [passes.registers k other at_k register (by rwa [Nat.add_assoc, Nat.add_comm 1 k]), passed.rbp]
        exact word other (List.mem_of_getElem? at_k)
    · intro k other at_k more
      rw [← passed.rsp]
      cases k with
      | zero =>
        obtain rfl := Option.some.inj at_k
        rw [Nat.add_zero, passes.before i more (by omega), passed.rsp]
        exact passed.stack 0 argument rfl more
      | succ k =>
        rw [List.getElem?_cons_succ] at at_k
        rw [show i + (k + 1) = i + 1 + k by omega, passes.stack k other at_k (by omega), passed.rbp]
        exact word other (List.mem_of_getElem? at_k)
    · intro place differs
      rw [List.length_cons] at differs
      rw [passes.others place fun j least before => by rw [passed.rsp]; exact differs j least (by omega)]
      refine passed.others place fun j least before => differs j least ?_
      rw [List.length_singleton] at before
      omega
    · intro j least before
      rw [← passed.rsp, passes.before j least (by omega), passed.rsp, passed.before j least before]

def incomingWord (s : Processor) (i : Nat) : Word :=
  match argumentRegisters[i]? with
  | some register => s.registers register
  | none => s.memory (outgoingPlace (s.registers .rbp + 16) i)

structure KeepsArguments (i : Nat) (fields : List LlirField) (s s' : Processor) : Prop where
  registers : ∀ register, register ≠ .r10 → s'.registers register = s.registers register
  slots : ∀ k field, fields[k]? = some field →
    s'.memory (fieldPlace g symbols (s.registers .rbp) field) = incomingWord s (i + k)
  others : ∀ place, (∀ field ∈ fields, place ≠ fieldPlace g symbols (s.registers .rbp) field) →
    s'.memory place = s.memory place

private theorem generateArgumentLines_cons (i : Nat) (field : LlirField) (rest : List LlirField) :
    generateArgumentLines g i (field :: rest) = generateArgumentLines g i [field] ++ generateArgumentLines g (i + 1) rest := by
  rw [generateArgumentLines, generateArgumentLines, generateArgumentLines, List.append_nil]

/-- A register is stored in the slot of the parameter. -/
private theorem storeArgument_spec {i : Nat} {field : LlirField} {s : Processor}
    (inFrame : g.offsets field.identifier ≠ 0)
    (base : (s.registers .rbp).toNat % 8 = 0)
    (aligned : (fieldPlace g symbols (s.registers .rbp) field).toNat % 8 = 0) :
    ∃ s', executeLines symbols s (generateArgumentLines g i [field]) = some s' ∧
      KeepsArguments g symbols i [field] s s' := by
  have place : fieldPlace g symbols (s.registers .rbp) field =
      s.registers .rbp - BitVec.ofNat 64 (g.offsets field.identifier) := if_pos inFrame
  rw [place] at aligned
  have single {k : Nat} {other : LlirField} (at_k : [field][k]? = some other) : k = 0 ∧ other = field := by
    cases k with
    | zero => exact ⟨rfl, (Option.some.inj at_k).symm⟩
    | succ k => cases at_k
  rw [generateArgumentLines, generateArgumentLines, List.append_nil]
  cases at_i : argumentRegisters[i]? with
  | some register =>
    refine ⟨_, executeLines_one symbols (executeAssembly_storeRegister (stackSlot_address symbols s _) aligned
      (argumentRegister_other at_i).1), fun _ _ => rfl, ?_, ?_⟩
    · intro k other at_k
      obtain ⟨rfl, rfl⟩ := single at_k
      rw [place, Nat.add_zero, incomingWord, at_i]
      exact Function.update_self ..
    · intro other apart
      exact Function.update_of_ne (place ▸ apart field List.mem_cons_self) _ _
  | none =>
    have more : 6 ≤ i := List.getElem?_eq_none_iff.mp at_i
    have located : s.address symbols (.memory (((i : Int) - (argumentRegisters.length : Int)) * 8 + 16) .rbp) =
        some (outgoingPlace (s.registers .rbp + 16) i) := by
      have same : BitVec.ofInt 64 (((i : Int) - (argumentRegisters.length : Int)) * 8 + 16) =
          16 + BitVec.ofNat 64 (8 * (i - 6)) := by
        rw [show (16 : Word) = BitVec.ofNat 64 16 from rfl, ← BitVec.ofNat_add, ← BitVec.ofInt_natCast]
        congr 1
        simp only [argumentRegisters, List.length_cons, List.length_nil]
        omega
      rw [address, same, outgoingPlace, BitVec.add_assoc]
      rfl
    have even : (outgoingPlace (s.registers .rbp + 16) i).toNat % 8 = 0 := by
      rw [outgoingPlace, BitVec.toNat_add, BitVec.toNat_add, BitVec.toNat_ofNat, show (16 : Word).toNat = 16 from rfl]
      omega
    refine ⟨(s.setRegister .r10 (s.memory (outgoingPlace (s.registers .rbp + 16) i))).put
      (s.registers .rbp - BitVec.ofNat 64 (g.offsets field.identifier))
      (s.memory (outgoingPlace (s.registers .rbp + 16) i)), ?_, ?_, ?_, ?_⟩
    · show executeLines symbols s (_ :: _) = _
      rw [executeLines_cons, executeAssembly_loadMemory located even (by decide)]
      exact executeLines_one symbols (executeAssembly_storeRegister (stackSlot_address symbols _ _) aligned (by decide))
    · exact fun register differs => Function.update_of_ne differs _ _
    · intro k other at_k
      obtain ⟨rfl, rfl⟩ := single at_k
      rw [place, Nat.add_zero, incomingWord, at_i]
      exact Function.update_self ..
    · intro other apart
      exact Function.update_of_ne (place ▸ apart field List.mem_cons_self) _ _

/-- The loop over the parameters from number `i` on. -/
theorem executeLines_argumentLines {i : Nat} {fields : List LlirField} {s : Processor}
    (inFrame : ∀ field ∈ fields, g.offsets field.identifier ≠ 0)
    (base : (s.registers .rbp).toNat % 8 = 0)
    (aligned : ∀ field ∈ fields, (fieldPlace g symbols (s.registers .rbp) field).toNat % 8 = 0)
    (distinct : (fields.map (fieldPlace g symbols (s.registers .rbp))).Nodup)
    (apart : ∀ field ∈ fields, ∀ j, 6 ≤ j → j < i + fields.length →
      outgoingPlace (s.registers .rbp + 16) j ≠ fieldPlace g symbols (s.registers .rbp) field) :
    ∃ s', executeLines symbols s (generateArgumentLines g i fields) = some s' ∧
      KeepsArguments g symbols i fields s s' := by
  induction fields generalizing i s with
  | nil => exact ⟨s, rfl, fun _ _ => rfl, (fun _ _ none => by cases none), fun _ _ => rfl⟩
  | cons field rest ih =>
    rw [List.length_cons] at apart
    rw [List.map_cons, List.nodup_cons] at distinct
    obtain ⟨s1, first, kept⟩ := storeArgument_spec g symbols (i := i) (inFrame field List.mem_cons_self) base
      (aligned field List.mem_cons_self)
    have same : s1.registers .rbp = s.registers .rbp := kept.registers .rbp (by decide)
    obtain ⟨s2, others, keeps⟩ := ih (i := i + 1) (s := s1) (fun other mem => inFrame other (List.mem_cons_of_mem _ mem))
      (by rwa [same]) (by rw [same]; exact fun other mem => aligned other (List.mem_cons_of_mem _ mem))
      (by rw [same]; exact distinct.2) (by
        rw [same]
        exact fun other mem j least before => apart other (List.mem_cons_of_mem _ mem) j least (by omega))
    have incoming {j : Nat} (least : i < j) (before : j < i + (rest.length + 1)) : incomingWord s1 j = incomingWord s j := by
      rw [incomingWord, incomingWord, same]
      cases at_j : argumentRegisters[j]? with
      | some register => exact kept.registers register (argumentRegister_other at_j).2.2.2.1
      | none =>
        refine kept.others _ fun other mem => ?_
        obtain rfl := List.mem_singleton.mp mem
        exact apart other List.mem_cons_self j (List.getElem?_eq_none_iff.mp at_j) before
    refine ⟨s2, ?_, ?_, ?_, ?_⟩
    · rw [generateArgumentLines_cons, executeLines_append, first]
      exact others
    · intro register differs
      rw [keeps.registers register differs, kept.registers register differs]
    · intro k other at_k
      cases k with
      | zero =>
        obtain rfl := Option.some.inj at_k
        rw [keeps.others _ fun other mem equal => distinct.1 (by rw [equal, same]; exact List.mem_map_of_mem mem)]
        exact kept.slots 0 field rfl
      | succ k =>
        rw [List.getElem?_cons_succ] at at_k
        have inside : k < rest.length := (List.getElem?_eq_some_iff.mp at_k).1
        have slot := keeps.slots k other at_k
        rw [same, incoming (by omega) (by omega), Nat.add_assoc, Nat.add_comm 1 k] at slot
        exact slot
    · intro place apart
      rw [keeps.others place fun other mem => by rw [same]; exact apart other (List.mem_cons_of_mem _ mem)]
      refine kept.others place fun other mem => ?_
      obtain rfl := List.mem_singleton.mp mem
      exact apart other List.mem_cons_self

/-- `pushq %rbp`, `movq %rsp, %rbp` and `subq $size, %rsp`. -/
theorem executeLines_enter {s : Processor} (top : (s.registers .rsp - 8).toNat % 8 = 0) (size : Word) :
    ∃ s', executeLines symbols s [.instruction .pushq [.register .rbp],
        .instruction .movq [.register .rsp, .register .rbp],
        .instruction .subq [.immediate size, .register .rsp]] = some s' ∧
      s'.registers .rbp = s.registers .rsp - 8 ∧ s'.registers .rsp = s.registers .rsp - 8 - size ∧
      (∀ register, register ≠ .rbp → register ≠ .rsp → s'.registers register = s.registers register) ∧
      s'.memory = Function.update s.memory (s.registers .rsp - 8) (s.registers .rbp) := by
  have pushed : executeAssembly symbols s (.instruction .pushq [.register .rbp]) =
      some ((s.setRegister .rsp (s.registers .rsp - 8)).put (s.registers .rsp - 8) (s.registers .rbp)) := store_of top _
  refine ⟨((((s.setRegister .rsp (s.registers .rsp - 8)).put (s.registers .rsp - 8) (s.registers .rbp)).setRegister .rbp
    (s.registers .rsp - 8)).withFlags none).setRegister .rsp (s.registers .rsp - 8 - size), ?_, rfl, rfl, ?_, rfl⟩
  · rw [executeLines_cons, pushed]
    rfl
  · intro register notBase notTop
    exact (Function.update_of_ne notTop _ _).trans
      ((Function.update_of_ne notBase _ _).trans (Function.update_of_ne notTop _ _))

/-- `movq %rbp, %rsp`, `popq %rbp` and the return address that `ret` takes. -/
theorem executeLines_leave {s : Processor} (base : (s.registers .rbp).toNat % 8 = 0) :
    executeLines symbols s leaveMethod = some ((s.setRegister .rsp (s.registers .rbp + 8)).setRegister .rbp
      (s.memory (s.registers .rbp))) := by
  have popped : (s.setRegister .rsp (s.registers .rbp)).pop = some (s.memory (s.registers .rbp),
      (s.setRegister .rsp (s.registers .rbp)).setRegister .rsp (s.registers .rbp + 8)) := by
    have loaded : (s.setRegister .rsp (s.registers .rbp)).load (s.registers .rbp) = some (s.memory (s.registers .rbp)) :=
      load_of base
    show (s.setRegister .rsp (s.registers .rbp)).load (s.registers .rbp) >>= _ = _
    rw [loaded]
    rfl
  show executeLines symbols s (_ :: _) = _
  rw [executeLines_cons]
  show executeLines symbols (s.setRegister .rsp (s.registers .rbp)) _ = _
  rw [executeLines_cons, executeAssembly, executeInstruction, popped]
  simp [setRegister, write_eq]

def globalPlace (field : LlirField) (position : Nat) : Word :=
  symbols field.identifier + BitVec.ofNat 64 (8 * position)

/-- The initialization of the globals runs and writes their places only. -/
theorem executeLines_initialization {fields : List LlirField}
    (aligned : ∀ field ∈ fields, (symbols field.identifier).toNat % 8 = 0) (s : Processor) :
    ∃ s', executeLines symbols s (fields.flatMap generateGlobalFieldInitialization) = some s' ∧
      s'.registers = s.registers ∧
      ∀ place, (∀ field ∈ fields, ∀ position : Nat, position < field.valueCount → place ≠ globalPlace symbols field position) →
        s'.memory place = s.memory place := by
  have one (field : LlirField) (even : (symbols field.identifier).toNat % 8 = 0) (positions : List Nat) (s : Processor) :
      ∃ s', executeLines symbols s (positions.flatMap fun i =>
          if field.values.getD i 0 = 0 then []
          else [.instruction .movq [.immediate (field.values.getD i 0), .relative field.symbol (8 * i)]]) = some s' ∧
        s'.registers = s.registers ∧
        ∀ place, (∀ position ∈ positions, place ≠ globalPlace symbols field position) →
          s'.memory place = s.memory place := by
    induction positions generalizing s with
    | nil => exact ⟨s, rfl, rfl, fun _ _ => rfl⟩
    | cons position rest ih =>
      by_cases zero : field.values.getD position 0 = 0
      · obtain ⟨s', run, registers, memory⟩ := ih s
        refine ⟨s', ?_, registers, fun place apart => memory place fun other mem => apart other (List.mem_cons_of_mem _ mem)⟩
        rw [List.flatMap_cons, if_pos zero, List.nil_append]
        exact run
      · have located : s.address symbols (.relative field.symbol (8 * position)) = some (globalPlace symbols field position) :=
          rfl
        have place : (globalPlace symbols field position).toNat % 8 = 0 := by
          rw [globalPlace, BitVec.toNat_add, BitVec.toNat_ofNat]
          omega
        obtain ⟨s', run, registers, memory⟩ := ih (s.put (globalPlace symbols field position) (field.values.getD position 0))
        refine ⟨s', ?_, registers, fun other apart => ?_⟩
        · rw [List.flatMap_cons, if_neg zero, List.singleton_append, executeLines_cons,
            executeAssembly_storeImmediate located place]
          exact run
        · rw [memory other fun position mem => apart position (List.mem_cons_of_mem _ mem)]
          exact Function.update_of_ne (apart position List.mem_cons_self) _ _
  induction fields generalizing s with
  | nil => exact ⟨s, rfl, rfl, fun _ _ => rfl⟩
  | cons field rest ih =>
    obtain ⟨s1, first, registers1, memory1⟩ := one field (aligned field List.mem_cons_self)
      (List.range field.valueCount.toNat) s
    obtain ⟨s2, others, registers2, memory2⟩ := ih (fun other mem => aligned other (List.mem_cons_of_mem _ mem)) s1
    refine ⟨s2, ?_, registers2.trans registers1, fun place apart => ?_⟩
    · rw [List.flatMap_cons, executeLines_append, generateGlobalFieldInitialization, first]
      exact others
    · rw [memory2 place fun other mem => apart other (List.mem_cons_of_mem _ mem)]
      refine memory1 place fun position mem => apart field List.mem_cons_self position ?_
      have := List.mem_range.mp mem
      omega

def SameFrame (s s' : Processor) : Prop :=
  s'.registers .rsp = s.registers .rsp ∧ s'.registers .rbp = s.registers .rbp

theorem SameFrame.trans {s s' s'' : Processor} (first : SameFrame s s') (second : SameFrame s' s'') : SameFrame s s'' :=
  ⟨second.1.trans first.1, second.2.trans first.2⟩

def AssemblyOperand.KeepsFrame (target : AssemblyOperand) : Prop :=
  target ≠ .register .rsp ∧ target ≠ .register .rbp

def AssemblyLine.KeepsFrame : AssemblyLine → Prop
  | .instruction mnemonic operands =>
    mnemonic ≠ .pushq ∧ mnemonic ≠ .popq ∧ ∀ target ∈ operands.getLast?, target.KeepsFrame
  | _ => True

private theorem sameFrame_write {s : Processor} {register : Register}
    (keeps : (AssemblyOperand.register register).KeepsFrame)
    (value : Word) : SameFrame s (s.write register value) := by
  have notTop : register ≠ .rsp := fun same => keeps.1 (congrArg _ same)
  have notBase : register ≠ .rbp := fun same => keeps.2 (congrArg _ same)
  constructor
  all_goals cases register <;> first | rfl | exact absurd rfl notTop | exact absurd rfl notBase

/-- A write to anything but the two stack pointers keeps the frame. -/
private theorem sameFrame_assign {s s' : Processor} {target : AssemblyOperand} (keeps : target.KeepsFrame)
    {value : Word}
    (assigned : s.assign symbols target value = some s') : SameFrame s s' := by
  have stored {place : Option Word} (h : (place >>= fun place => s.store place value) = some s') : SameFrame s s' := by
    obtain ⟨place, -, h⟩ := Option.bind_eq_some_iff.mp h
    rw [store] at h
    split at h
    · cases h
      exact ⟨rfl, rfl⟩
    · cases h
  cases target with
  | immediate value => cases assigned
  | register register =>
    cases assigned
    exact sameFrame_write keeps value
  | memory displacement base => exact stored assigned
  | relative symbol displacement => exact stored assigned

private theorem sameFrame_compute {s s' : Processor} {operation : Word → Word → Word} {source target : AssemblyOperand}
    (keeps : target.KeepsFrame) (computed : s.compute symbols operation source target = some s') : SameFrame s s' := by
  obtain ⟨left, -, h⟩ := Option.bind_eq_some_iff.mp computed
  obtain ⟨right, -, h⟩ := Option.bind_eq_some_iff.mp h
  exact sameFrame_assign symbols (s := s.withFlags none) keeps h

/-- An instruction that keeps off the two stack pointers keeps the frame. -/
theorem sameFrame_executeAssembly {s s' : Processor} {line : AssemblyLine} (keeps : line.KeepsFrame)
    (step : executeAssembly symbols s line = some s') : SameFrame s s' := by
  cases line with
  | instruction mnemonic operands =>
    obtain ⟨notPush, notPop, keeps⟩ := keeps
    rw [executeAssembly] at step
    unfold executeInstruction at step
    split at step
    · exact absurd rfl notPush
    · exact absurd rfl notPop
    · obtain ⟨value, -, h⟩ := Option.bind_eq_some_iff.mp step
      exact sameFrame_assign symbols (keeps _ rfl) h
    · obtain ⟨place, -, h⟩ := Option.bind_eq_some_iff.mp step
      cases h
      exact sameFrame_write (keeps _ rfl) place
    · exact sameFrame_compute symbols (keeps _ rfl) step
    · exact sameFrame_compute symbols (keeps _ rfl) step
    · exact sameFrame_compute symbols (keeps _ rfl) step
    · exact sameFrame_compute symbols (keeps _ rfl) step
    · exact sameFrame_compute symbols (keeps _ rfl) step
    · cases step
      exact sameFrame_write (s := Processor.withFlags s none) (keeps _ rfl) _
    · obtain ⟨left, -, h⟩ := Option.bind_eq_some_iff.mp step
      obtain ⟨right, -, h⟩ := Option.bind_eq_some_iff.mp h
      cases h
      exact ⟨rfl, rfl⟩
    · cases step
      exact ⟨rfl, rfl⟩
    · cases step
      exact sameFrame_write (keeps _ rfl) _
    · cases step
      exact ⟨rfl, rfl⟩
    · cases step
      exact ⟨rfl, rfl⟩
    · obtain ⟨result, -, h⟩ := Option.bind_eq_some_iff.mp step
      cases h
      exact ⟨rfl, rfl⟩
    · obtain ⟨flags, -, h⟩ := Option.bind_eq_some_iff.mp step
      obtain ⟨condition, -, h⟩ := Option.bind_eq_some_iff.mp h
      cases h
      exact ⟨rfl, rfl⟩
    · cases step
  | _ => cases step

theorem sameFrame_executeLines {lines : List AssemblyLine} (keeps : ∀ line ∈ lines, line.KeepsFrame) {s s' : Processor}
    (run : executeLines symbols s lines = some s') : SameFrame s s' := by
  induction lines generalizing s with
  | nil =>
    cases run
    exact ⟨rfl, rfl⟩
  | cons line rest ih =>
    rw [executeLines_cons] at run
    obtain ⟨s1, step, rest_run⟩ := Option.bind_eq_some_iff.mp run
    exact (sameFrame_executeAssembly symbols (keeps line List.mem_cons_self) step).trans
      (ih (fun other mem => keeps other (List.mem_cons_of_mem _ mem)) rest_run)

end

end Roast
