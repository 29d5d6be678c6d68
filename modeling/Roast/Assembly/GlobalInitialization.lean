import Roast.Assembly.Symbols
import Roast.Assembly.ArraySafety

/-! The initialization of the globals. The stores stand in the prologue of `main`, so they are executed
again when `main` is called again. -/
namespace Roast

def executeLine (globals : Store) : AssemblyLine → Store
  | .instruction .movq [.immediate value, .relative ⟨name, .field target⟩ displacement] =>
    globals.set name (displacement / 8) ⟨value, .stored target⟩
  | _ => globals

section
variable (llir : Llir) (environment : Environment)

namespace MachineState

def initialization (s : MachineState) : List AssemblyLine :=
  match s.frames.head?.bind fun frame => llir.method frame.method with
  | some method => generateInitialization llir method
  | none => []

def executePrologue (s : MachineState) : MachineState :=
  { s with globals := (s.initialization llir).foldl executeLine s.globals }

end MachineState

def generatedStep (s : MachineState) : MachineState :=
  if (step llir environment s).activations = s.activations then step llir environment s
  else (step llir environment s).executePrologue llir

/-- The run of the generated code; the data section fills the globals with zeros. It is that of the code as long as the
names are clean: a failed check, or the end of a method that has to return a value, calls `exit`, which must not be a
method of the program. -/
def generatedRun (main : LlirMethod) : Nat → MachineState
  | 0 => (startMethod environment main [] fun _ _ => ⟨0, .garbage⟩).executePrologue llir
  | n + 1 => generatedStep llir environment (generatedRun main n)

def LlirAssignment.position (operand : LlirOperand → Word) : LlirAssignment → Nat
  | .arrayUpdate index _ _ => (operand index).toNat
  | _ => 0

end

def IrField.declaredValue (field : IrField) (position : Nat) : Word :=
  match field.initializer with
  | some initializer => (initializer.literals.map literalToInt64).getD position 0
  | none => 0

theorem executeLine_store (globals : Store) (field : LlirField) (position : Nat) (value : Word) :
    executeLine globals (.instruction .movq [.immediate value, .relative field.symbol (8 * position)]) =
      globals.set field.identifier position ⟨value, .stored field⟩ := by
  rw [LlirField.symbol, executeLine, Nat.mul_div_cancel_left position (by decide : 0 < 8)]

/-- The lines for a field store its values, and nothing else. -/
private theorem foldl_executeLine_field (field : LlirField) (store : Store) (name : String) (position : Nat) :
    ((generateGlobalFieldInitialization field).foldl executeLine store name position).value =
      if name = field.identifier ∧ position < field.valueCount.toNat ∧ field.values.getD position 0 ≠ 0 then
        field.values.getD position 0
      else (store name position).value := by
  unfold generateGlobalFieldInitialization
  induction field.valueCount.toNat with
  | zero => simp
  | succ n ih =>
    rw [List.range_succ, List.flatMap_append, List.foldl_append, List.flatMap_singleton]
    by_cases zero : field.values.getD n 0 = 0
    · rw [if_pos zero, List.foldl_nil, ih]
      apply if_congr _ rfl rfl
      constructor
      · rintro ⟨same, small, value⟩
        exact ⟨same, by omega, value⟩
      · rintro ⟨same, small, value⟩
        have other : position ≠ n := by
          rintro rfl
          exact value zero
        exact ⟨same, by omega, value⟩
    · rw [if_neg zero, List.foldl_cons, List.foldl_nil, executeLine_store, Store.set]
      by_cases last : name = field.identifier ∧ position = n
      · obtain ⟨rfl, rfl⟩ := last
        rw [if_pos ⟨rfl, rfl⟩, if_pos ⟨rfl, Nat.lt_succ_self _, zero⟩]
      · rw [if_neg last, ih]
        apply if_congr _ rfl rfl
        constructor
        · rintro ⟨same, small, value⟩
          exact ⟨same, by omega, value⟩
        · rintro ⟨same, small, value⟩
          have other : position ≠ n := fun equal => last ⟨same, equal⟩
          exact ⟨same, by omega, value⟩

private theorem foldl_executeLine_other {fields : List LlirField} {name : String}
    (other : name ∉ fields.map LlirField.identifier) (store : Store) (position : Nat) :
    ((fields.flatMap generateGlobalFieldInitialization).foldl executeLine store name position).value =
      (store name position).value := by
  induction fields generalizing store with
  | nil => rfl
  | cons first rest ih =>
    rw [List.map_cons, List.mem_cons, not_or] at other
    rw [List.flatMap_cons, List.foldl_append, ih other.2, foldl_executeLine_field,
      if_neg fun same => other.1 same.1]

/-- Each element of a global field receives its value, unless that is 0. -/
theorem foldl_executeLine {fields : List LlirField} (distinct : (fields.map LlirField.identifier).Nodup)
    {field : LlirField} (mem : field ∈ fields) {position : Nat} (small : position < field.valueCount.toNat)
    (store : Store) :
    ((fields.flatMap generateGlobalFieldInitialization).foldl executeLine store field.identifier position).value =
      if field.values.getD position 0 = 0 then (store field.identifier position).value
      else field.values.getD position 0 := by
  induction fields generalizing store with
  | nil => cases mem
  | cons first rest ih =>
    rw [List.map_cons, List.nodup_cons] at distinct
    rw [List.flatMap_cons, List.foldl_append]
    rcases List.mem_cons.mp mem with rfl | mem
    · rw [foldl_executeLine_other distinct.1, foldl_executeLine_field]
      by_cases zero : field.values.getD position 0 = 0
      · rw [if_pos zero, if_neg fun stored => stored.2.2 zero]
      · rw [if_neg zero, if_pos ⟨rfl, small, zero⟩]
    · have other : field.identifier ≠ first.identifier := by
        intro same
        exact distinct.1 (same ▸ List.mem_map_of_mem mem)
      have kept := foldl_executeLine_field first store field.identifier position
      rw [if_neg fun same => other same.1] at kept
      rw [ih distinct.2 mem, kept]

/-- A field of the LLIR holds the declared values. -/
theorem llirField_value {field : IrField} (position : Nat) :
    (field.llirField 0).values.getD position 0 = field.declaredValue position := by
  unfold IrField.declaredValue
  cases initializer : field.initializer with
  | none =>
    simp only [IrField.llirField, llirFieldNew, getFieldInitializer, initializer, List.getD_eq_getElem?_getD,
      List.getElem?_replicate]
    split <;> rfl
  | some i =>
    simp only [IrField.llirField, llirFieldNew, getFieldInitializer, initializer, List.getD_eq_getElem?_getD,
      List.getElem?_append, List.length_map, List.drop_replicate, List.getElem?_replicate]
    by_cases inside : position < i.literals.length
    · rw [if_pos inside]
    · rw [if_neg inside, List.getElem?_eq_none (by simpa using inside)]
      split <;> rfl

def Suspended (llir : Llir) (frames : List Frame) : Prop :=
  ∀ frame ∈ frames.tail, ∃ method arguments destination,
    frame.assignment llir = some (.methodCall method arguments destination)

section
variable {llir : Llir} {environment : Environment} {s : MachineState} {frame : Frame} {rest : List Frame}

theorem store_activations (field : LlirField) (position : Nat) (value : Word) :
    (s.store llir frame rest field position value).activations = s.activations := by
  unfold MachineState.store
  split <;> rfl

end

section
variable {llir : Llir} {environment : Environment} {s : MachineState} {frame : Frame} {rest : List Frame}

end

section
variable {llir : Llir} {environment : Environment} {main : LlirMethod} {s : MachineState}

end

section
variable {program analyzed : IrProgram} {llir : Llir} {environment : Environment} {main : LlirMethod}

theorem IrProgram.Ready.main_arguments (ready : program.Ready)
    (generated : llirGeneratorGenerateLlir program = some llir) (found : llir.method "main" = some main) :
    main.arguments = [] := by
  obtain ⟨method, mem, name, -, arguments⟩ := ready.typed.main
  obtain ⟨g, c, site, found', -⟩ := ready.site generated mem
  rw [name, found] at found'
  rw [Option.some.inj found', generateMethod_eq, (generateMethod_arguments site.matchesScopes site.typed).1,
    arguments, List.map_nil]

/-- A run begins with the declared values in the globals. -/
theorem generatedRun_initial (lowered : Lowered program llir) (found : llir.method "main" = some main)
    {field : IrField} (mem : field ∈ program.fields) {position : Nat} (small : position < field.arrayLength) :
    ((generatedRun llir environment main 0).globals field.identifier position).value =
      field.declaredValue position := by
  have name : main.identifier = "main" := by simpa using List.find?_some found
  have top : (enterMethod environment 0 main []).method = "main" := name
  have mem' : field.llirField 0 ∈ llir.fields := by
    rw [lowered.fields]
    exact List.mem_map_of_mem mem
  have lines : (startMethod environment main [] fun _ _ => ⟨0, .garbage⟩).initialization llir =
      llir.fields.flatMap generateGlobalFieldInitialization := by
    simp only [MachineState.initialization, startMethod, List.head?_cons, Option.bind_some, top, found]
    exact if_pos name
  have stored := foldl_executeLine lowered.named.distinct mem' (Int.lt_toNat.mpr small)
    fun _ _ => ⟨0, .garbage⟩
  rw [llirField_value] at stored
  unfold generatedRun MachineState.executePrologue
  rw [lines]
  refine stored.trans ?_
  by_cases zero : field.declaredValue position = 0
  · rw [if_pos zero, zero]
  · rw [if_neg zero]

end

end Roast
