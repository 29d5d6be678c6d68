import Roast.Assembly.CodeLayout
import Roast.Assembly.LlirMachine

/-! The words of the machine's stores in the memory of the processor: globals at their labels, the locals of an activation in
the frame at `rbp`, and the activations that wait below each other on the stack. -/
namespace Roast
open Processor Systems

structure LlirMethod.Storable (globals : List LlirField) (method : LlirMethod) : Prop where
  callable : method.Callable
  framed : ∀ offsets, FrameInjective (generateStackAllocation offsets method) method.fields
  apart : ∀ field ∈ method.fields, field.identifier ∉ globals.map LlirField.identifier

def GlobalsHold {fields : List LlirField} (loaded : Loaded fields) (memory : Word → Word) (globals : Store) : Prop :=
  ∀ field ∈ fields, ∀ position : Nat, position < field.valueCount →
    memory (globalPlace loaded.symbols field position) = (globals field.identifier position).value

section
variable {g : CodeGenerator} (loaded : Loaded g.llir.fields) (before : LlirMethod → Offsets)

abbrev CodeGenerator.inMethod (g : CodeGenerator) (before : LlirMethod → Offsets) (method : LlirMethod) : CodeGenerator :=
  methodGenerator (g.atMethod before method) method

def elementPlace (method : LlirMethod) (base : Word) (field : LlirField) (position : Nat) : Word :=
  fieldPlace (g.inMethod before method) loaded.symbols base field + BitVec.ofNat 64 (8 * position)

def LocalsHold (method : LlirMethod) (memory : Word → Word) (base : Word) (locals : Store) : Prop :=
  ∀ field ∈ method.fields, ∀ position : Nat, position < field.valueCount →
    memory (elementPlace loaded before method base field position) = (locals field.identifier position).value

structure Holds (method : LlirMethod) (s : Processor) (locals globals : Store) : Prop where
  body : InBody (g.atMethod before method) loaded.toAddressSpace method s
  locals : LocalsHold loaded before method s.memory (s.registers .rbp) locals
  globals : GlobalsHold loaded s.memory globals

variable {loaded before} {lines : List AssemblyLine} {method : LlirMethod} {s s' : Processor} {locals globals : Store}
  {field other : LlirField} {position : Nat}

private theorem Llir.isGlobal_of_mem {llir : Llir} {field : LlirField} (mem : field ∈ llir.fields) :
    llir.IsGlobal field.identifier := List.mem_map_of_mem mem

theorem LlirMethod.Storable.not_global {llir : Llir} {method : LlirMethod} (storable : method.Storable llir.fields)
    {field : LlirField} (mem : field ∈ method.fields) : ¬ llir.IsGlobal field.identifier := storable.apart field mem

theorem elementPlace_zero (base : Word) (field : LlirField) :
    elementPlace loaded before method base field 0 = fieldPlace (g.inMethod before method) loaded.symbols base field :=
  BitVec.add_zero _

theorem global_offset (storable : method.Storable g.llir.fields) (emits : g.Emits before lines)
    (mem : method ∈ g.llir.methods) (isGlobal : field ∈ g.llir.fields) :
    (g.inMethod before method).offsets field.identifier = 0 := by
  have absent : field.identifier ∉ method.fields.map LlirField.identifier := by
    intro named
    obtain ⟨other, inside, same⟩ := List.mem_map.mp named
    exact storable.apart other inside (same ▸ List.mem_map_of_mem isGlobal)
  show (generateStackAllocation (before method) method).2 field.identifier = 0
  rw [generateStackAllocation_eq]
  exact (foldl_allocateField_other absent _).trans (emits.globals method mem field isGlobal)

theorem elementPlace_global (storable : method.Storable g.llir.fields) (emits : g.Emits before lines)
    (mem : method ∈ g.llir.methods) (isGlobal : field ∈ g.llir.fields) (base : Word) (position : Nat) :
    elementPlace loaded before method base field position = globalPlace loaded.symbols field position := by
  rw [elementPlace, fieldPlace, if_neg (not_not.mpr (global_offset storable emits mem isGlobal)), globalPlace]

/-- An element of a local lies in the frame, at the distance that the table says. -/
private theorem elementPlace_local (storable : method.Storable g.llir.fields) {base : Word}
    (room : (generateStackAllocation (before method) method).1 ≤ base.toNat) (isLocal : field ∈ method.fields)
    (inside : position < field.valueCount) :
    (elementPlace loaded before method base field position).toNat + (g.inMethod before method).offsets field.identifier =
        base.toNat + 8 * position ∧
      base.toNat ≤ (elementPlace loaded before method base field position).toNat +
        (generateStackAllocation (before method) method).1 ∧
      (elementPlace loaded before method base field position).toNat < base.toNat := by
  obtain ⟨words, offset, small⟩ : ∃ words : Nat, (g.inMethod before method).offsets field.identifier = 8 * words ∧
      8 * words ≤ (generateStackAllocation (before method) method).1 := by
    obtain ⟨words, -, offset, small⟩ := generateStackAllocation_offset storable.callable.positive (before method) isLocal
    exact ⟨words, offset, small⟩
  have fits : 8 * field.valueCount ≤ (g.inMethod before method).offsets field.identifier := by
    have last : -((g.inMethod before method).offsets field.identifier : Int) + 8 * field.valueCount - 1 ∈
        field.slot (generateStackAllocation (before method) method).2 := by
      rw [LlirField.slot, Set.mem_Ico]
      constructor
      · show -((g.inMethod before method).offsets field.identifier : Int) ≤ _
        omega
      · show _ < -((g.inMethod before method).offsets field.identifier : Int) + 8 * field.valueCount
        omega
    have bound := (Set.mem_Ico.mp ((storable.framed (before method)).inside field isLocal last)).2
    omega
  have bounded := base.isLt
  have inFrame : (g.inMethod before method).offsets field.identifier ≠ 0 := by omega
  have place : (elementPlace loaded before method base field position).toNat = base.toNat - 8 * words + 8 * position := by
    rw [elementPlace, fieldPlace, if_pos inFrame, offset, BitVec.toNat_add, BitVec.toNat_sub, BitVec.toNat_ofNat,
      BitVec.toNat_ofNat]
    omega
  omega

theorem InBody.element (body : InBody (g.atMethod before method) loaded.toAddressSpace method s)
    (storable : method.Storable g.llir.fields) (isLocal : field ∈ method.fields) (inside : position < field.valueCount) :
    (elementPlace loaded before method (s.registers .rbp) field position).toNat +
        (g.inMethod before method).offsets field.identifier = (s.registers .rbp).toNat + 8 * position ∧
      (s.registers .rsp).toNat ≤ (elementPlace loaded before method (s.registers .rbp) field position).toNat ∧
      (elementPlace loaded before method (s.registers .rbp) field position).toNat < (s.registers .rbp).toNat := by
  have frame : (s.registers .rsp).toNat + (generateStackAllocation (before method) method).1 = (s.registers .rbp).toNat :=
    body.frame
  have room : (generateStackAllocation (before method) method).1 ≤ (s.registers .rbp).toNat := by omega
  obtain ⟨address, low, high⟩ := @elementPlace_local _ loaded _ _ _ _ storable _ room isLocal inside
  exact ⟨address, by omega, high⟩

/-- Different elements of locals have different places. -/
private theorem InBody.element_inj (body : InBody (g.atMethod before method) loaded.toAddressSpace method s)
    (storable : method.Storable g.llir.fields) (isLocal : field ∈ method.fields) (inside : position < field.valueCount)
    (isLocal' : other ∈ method.fields) {position' : Nat} (inside' : position' < other.valueCount)
    (same : elementPlace loaded before method (s.registers .rbp) field position =
      elementPlace loaded before method (s.registers .rbp) other position') :
    field.identifier = other.identifier ∧ position = position' := by
  obtain ⟨address, -, -⟩ := body.element storable isLocal inside
  obtain ⟨address', -, -⟩ := body.element storable isLocal' inside'
  rw [same] at address
  have names : field.identifier = other.identifier := by
    by_contra differ
    have disjoint := (storable.framed (before method)).disjoint field isLocal other isLocal' differ
    have place : -((g.inMethod before method).offsets field.identifier : Int) + 8 * position =
        -((g.inMethod before method).offsets other.identifier : Int) + 8 * position' := by omega
    refine Set.disjoint_left.mp disjoint
      (?_ : -((g.inMethod before method).offsets field.identifier : Int) + 8 * position ∈ _) (place ▸ ?_)
    · rw [LlirField.slot, Set.mem_Ico]
      constructor
      · show -((g.inMethod before method).offsets field.identifier : Int) ≤ _
        omega
      · show _ < -((g.inMethod before method).offsets field.identifier : Int) + 8 * field.valueCount
        omega
    · rw [LlirField.slot, Set.mem_Ico]
      constructor
      · show -((g.inMethod before method).offsets other.identifier : Int) ≤ _
        omega
      · show _ < -((g.inMethod before method).offsets other.identifier : Int) + 8 * other.valueCount
        omega
  rw [names] at address
  exact ⟨names, by omega⟩

/-- An element of a global lies outside the stack. -/
private theorem InBody.global_apart (isGlobal : field ∈ g.llir.fields) (inside : position < field.valueCount)
    {place : Word}
    (low : loaded.bottom ≤ place.toNat) (high : place.toNat < loaded.top) :
    place ≠ globalPlace loaded.symbols field position := by
  rintro rfl
  exact loaded.apart field isGlobal position inside ⟨low, high⟩

theorem globalPlace_aligned (isGlobal : field ∈ g.llir.fields) : (globalPlace loaded.symbols field position).toNat % 8 = 0 := by
  have even := loaded.aligned field isGlobal
  rw [globalPlace, BitVec.toNat_add, BitVec.toNat_ofNat]
  omega

theorem GlobalsHold.of_agree {memory memory' : Word → Word} (holds : GlobalsHold loaded memory globals)
    (agree : ∀ place : Word, ¬ (loaded.bottom ≤ place.toNat ∧ place.toNat < loaded.top) → memory' place = memory place) :
    GlobalsHold loaded memory' globals := by
  intro field isGlobal position inside
  rw [agree _ (loaded.apart field isGlobal position inside)]
  exact holds field isGlobal position inside

theorem LocalsHold.of_agree {memory memory' : Word → Word} {base : Word} (storable : method.Storable g.llir.fields)
    (room : (generateStackAllocation (before method) method).1 ≤ base.toNat)
    (holds : LocalsHold loaded before method memory base locals)
    (agree : ∀ place : Word, base.toNat ≤ place.toNat + (generateStackAllocation (before method) method).1 →
      place.toNat < base.toNat → memory' place = memory place) : LocalsHold loaded before method memory' base locals := by
  intro field isLocal position inside
  obtain ⟨-, low, high⟩ := @elementPlace_local _ loaded _ _ _ _ storable _ room isLocal inside
  rw [agree _ low high]
  exact holds field isLocal position inside

/-- The word in the place of a field is the value of its cell. -/
theorem Holds.cell (holds : Holds loaded before method s locals globals) (storable : method.Storable g.llir.fields)
    (emits : g.Emits before lines) (mem : method ∈ g.llir.methods) {state : MachineState} {frame : Frame}
    (sameGlobals : state.globals = globals) (sameLocals : frame.locals = locals)
    (known : field ∈ g.llir.fields ++ method.fields) (inside : position < field.valueCount) :
    s.memory (elementPlace loaded before method (s.registers .rbp) field position) =
      (state.cell g.llir frame field position).value := by
  subst sameGlobals sameLocals
  obtain isGlobal | isLocal := List.mem_append.mp known
  · rw [elementPlace_global storable emits mem isGlobal, MachineState.cell, if_pos (Llir.isGlobal_of_mem isGlobal)]
    exact holds.globals field isGlobal position inside
  · rw [MachineState.cell, if_neg (storable.not_global isLocal)]
    exact holds.locals field isLocal position inside

def Llir.storeGlobal (llir : Llir) (globals : Store) (field : LlirField) (position : Nat) (value : Word) : Store :=
  if llir.IsGlobal field.identifier then globals.set field.identifier position ⟨value, .stored field⟩ else globals

def Llir.storeLocal (llir : Llir) (locals : Store) (field : LlirField) (position : Nat) (value : Word) : Store :=
  if llir.IsGlobal field.identifier then locals else locals.set field.identifier position ⟨value, .stored field⟩

theorem MachineState.store_eq (llir : Llir) (state : MachineState) (frame : Frame) (rest : List Frame) (field : LlirField)
    (position : Nat) (value : Word) : state.store llir frame rest field position value =
      { state with
        globals := llir.storeGlobal state.globals field position value
        frames := { frame with index := frame.index + 1, locals := llir.storeLocal frame.locals field position value } :: rest } := by
  unfold MachineState.store Llir.storeGlobal Llir.storeLocal
  split <;> rfl

private theorem Store.set_value (store : Store) (name : String) (position : Nat) (cell : Cell) (name' : String)
    (position' : Nat) :
    (store.set name position cell name' position').value =
      if name' = name ∧ position' = position then cell.value else (store name' position').value := by
  unfold Store.set
  split <;> rfl

/-- A store to the place of a global is a store to the global. -/
theorem GlobalsHold.set {memory : Word → Word} (holds : GlobalsHold loaded memory globals) (isGlobal : field ∈ g.llir.fields)
    (inside : position < field.valueCount) {value : Word} {origin : Origin} :
    GlobalsHold loaded (Function.update memory (globalPlace loaded.symbols field position) value)
      (globals.set field.identifier position ⟨value, origin⟩) := by
  intro other isGlobal' position' inside'
  rw [Store.set_value]
  split
  · rename_i equal
    have place : globalPlace loaded.symbols other position' = globalPlace loaded.symbols field position := by
      simp only [globalPlace, equal.1, equal.2]
    rw [place, Function.update_self]
  · rename_i differ
    rw [Function.update_of_ne fun equal =>
      differ (loaded.separate other isGlobal' field isGlobal position' position inside' inside equal)]
    exact holds other isGlobal' position' inside'

/-- A store to the place of a field is a store to its cell. -/
theorem Holds.write (holds : Holds loaded before method s locals globals) (storable : method.Storable g.llir.fields)
    (emits : g.Emits before lines) (mem : method ∈ g.llir.methods) (known : field ∈ g.llir.fields ++ method.fields)
    (inside : position < field.valueCount) (same : SameFrame s s') {value : Word}
    (memory : s'.memory =
      Function.update s.memory (elementPlace loaded before method (s.registers .rbp) field position) value) :
    Holds loaded before method s' (g.llir.storeLocal locals field position value)
      (g.llir.storeGlobal globals field position value) := by
  have body := holds.body
  have above := body.above
  have below := body.below
  refine ⟨body.of_sameFrame same, ?_, ?_⟩
  · intro other isLocal position' inside'
    obtain ⟨-, low, high⟩ := body.element storable isLocal inside'
    rw [same.2, memory, Llir.storeLocal]
    obtain isGlobal | isLocal' := List.mem_append.mp known
    · rw [if_pos (Llir.isGlobal_of_mem isGlobal), elementPlace_global storable emits mem isGlobal,
        Function.update_of_ne (InBody.global_apart isGlobal inside (by omega) (by omega))]
      exact holds.locals other isLocal position' inside'
    · rw [if_neg (storable.not_global isLocal'), Store.set_value]
      split
      · rename_i equal
        have place : elementPlace loaded before method (s.registers .rbp) other position' =
            elementPlace loaded before method (s.registers .rbp) field position := by
          simp only [elementPlace, fieldPlace, equal.1, equal.2]
        rw [place, Function.update_self]
      · rename_i differ
        rw [Function.update_of_ne fun equal =>
          differ (body.element_inj storable isLocal inside' isLocal' inside equal)]
        exact holds.locals other isLocal position' inside'
  · rw [memory, Llir.storeGlobal]
    obtain isGlobal | isLocal := List.mem_append.mp known
    · rw [if_pos (Llir.isGlobal_of_mem isGlobal), elementPlace_global storable emits mem isGlobal]
      exact holds.globals.set isGlobal inside
    · obtain ⟨-, low, high⟩ := body.element storable isLocal inside
      rw [if_neg (storable.not_global isLocal)]
      refine holds.globals.of_agree fun place apart => Function.update_of_ne (fun equal => apart ?_) _ _
      rw [equal]
      omega

/-- A store of a method leaves what is on the stack above its frame. -/
theorem Holds.write_above (holds : Holds loaded before method s locals globals) (storable : method.Storable g.llir.fields)
    (emits : g.Emits before lines) (mem : method ∈ g.llir.methods) (known : field ∈ g.llir.fields ++ method.fields)
    (inside : position < field.valueCount) {value : Word} {place : Word}
    (low : (s.registers .rbp).toNat ≤ place.toNat) (high : place.toNat < loaded.top) :
    Function.update s.memory (elementPlace loaded before method (s.registers .rbp) field position) value place =
      s.memory place := by
  have frame := holds.body.frame
  have below := holds.body.below
  refine Function.update_of_ne (fun equal => ?_) _ _
  obtain isGlobal | isLocal := List.mem_append.mp known
  · rw [elementPlace_global storable emits mem isGlobal] at equal
    exact InBody.global_apart isGlobal inside (by omega) high equal
  · obtain ⟨-, -, inFrame⟩ := holds.body.element storable isLocal inside
    rw [← equal] at inFrame
    omega

end

end Roast
