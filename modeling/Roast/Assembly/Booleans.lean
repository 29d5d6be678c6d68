import Roast.Assembly.ArraySafety

/-! The words of boolean variables at run time. They are 0 or 1 unless an initializer is a negated `true`, or
a location is read outside a boolean array. -/
namespace Roast
open Systems

/-- The words of all boolean variables, elements, parameters and results are 0 or 1. A local word is that of
the variable through which it was stored last. -/
structure BooleansCanonical (llir : Llir) (environment : Environment) (program : IrProgram) (s : MachineState) :
    Prop where
  globals : ∀ field ∈ llir.fields, field.IsBool → ∀ position : Nat, position < field.valueCount →
    CanonicalWord (s.globals field.identifier position).value
  locals : ∀ frame ∈ s.frames, ∀ name position field, (frame.locals name position).origin = .argument field ∨
    (frame.locals name position).origin = .stored field → field.IsBool →
      CanonicalWord (frame.locals name position).value
  reads : ∀ frame assignment field, Executes llir s frame assignment → .field field ∈ assignment.operands →
    field.IsBool → ¬ llir.IsGlobal field.identifier → CanonicalWord (s.operand llir environment frame (.field field))
  returns : s.status = .running → ∀ frame ∈ s.frames.head?, ∀ block ∈ frame.code llir,
    block.assignments[frame.index]? = none → ∀ source, block.terminal = .llirReturn source →
    (∃ method ∈ program.methods, method.identifier = frame.method ∧ method.returnType = .bool) →
    CanonicalWord (s.operand llir environment frame source)

def Llir.GlobalsCanonical (llir : Llir) : Prop :=
  ∀ field ∈ llir.fields, field.IsBool → ∀ value ∈ field.values, CanonicalWord value

section
variable {llir : Llir} {environment : Environment} {program : IrProgram} {s : MachineState}

private theorem GoodState.booleansCanonical (good : GoodState llir environment program True s) :
    BooleansCanonical llir environment program s where
  globals field mem bool position small :=
    (good.globals trivial).1 _ _ field (.inr ((good.globals trivial).2 field mem position small)) bool
  locals frame mem name position field origin bool := good.locals trivial frame mem name position field origin bool
  reads frame assignment field executes mem bool isLocal := by
    have next := executes.next
    obtain ⟨method, found, -⟩ := Option.bind_eq_some_iff.mp next
    have owned := (good.executes executes).operands method found field mem isLocal
    rw [operand_local isLocal]
    have mem' : frame ∈ s.frames := List.mem_of_mem_head? executes.head
    exact owned.canonical (good.locals trivial frame mem' _ _) bool
  returns running frame head block code done source terminal bool :=
    (good.terminal running frame head block code done).returns trivial source terminal bool

private theorem initialGlobals_find (named : llir.Named) {field : LlirField} (mem : field ∈ llir.fields) :
    llir.fields.find? (fun other => other.identifier == field.identifier) = some field := by
  obtain ⟨other, found⟩ : ∃ other, llir.fields.find? (fun other => other.identifier == field.identifier) = some other :=
    Option.isSome_iff_exists.mp (List.find?_isSome.mpr ⟨field, mem, beq_iff_eq.mpr rfl⟩)
  rw [found, named.eq_of_name (List.mem_of_find?_eq_some found) mem (by simpa using List.find?_some found)]

theorem initialGlobals_owned (named : llir.Named) (canonical : llir.GlobalsCanonical) :
    llir.initialGlobals.Canonical ∧ GlobalsOwned llir llir.initialGlobals := by
  refine ⟨fun name position field origin bool => ?_, fun field mem position _ => ?_⟩
  · unfold Llir.initialGlobals at origin ⊢
    split at origin
    · rename_i other found
      obtain rfl : other = field := by simpa using origin
      exact canonicalWord_getD (canonical other (List.mem_of_find?_eq_some found) bool) position
    · simp at origin
  · simp [Llir.initialGlobals, initialGlobals_find named mem]

end

@[simp] theorem IrField.negatesTrue_analyzed (field : IrField) : field.analyzed.NegatesTrue ↔ field.NegatesTrue := by
  unfold IrField.analyzed
  split <;> rfl

section
variable {program analyzed : IrProgram} (source : program.FromSource) (accepted : Accepts program analyzed)
include source accepted

private theorem accepts_field_ready {field : IrField} (mem : field ∈ program.fields) : field.analyzed.Ready :=
  (accepts_ready source accepted).typed.fields _ ((accepts_sameOutline source accepted).fields ▸ List.mem_map_of_mem mem)

variable {llir : Llir} (generated : llirGeneratorGenerateLlir analyzed = some llir)
include generated

private theorem accepts_fields : llir.fields = program.fields.map fun field => field.analyzed.llirField 0 := by
  rw [((accepts_ready source accepted).lowered generated).fields, (accepts_sameOutline source accepted).fields,
    List.map_map]
  rfl

private theorem accepts_globalsCanonical (plain : ∀ field ∈ program.fields, ¬ field.NegatesTrue) :
    llir.GlobalsCanonical := by
  rw [Llir.GlobalsCanonical, accepts_fields source accepted generated, List.forall_mem_map]
  intro field mem
  refine (accepts_field_ready source accepted mem).values_canonical 0 ?_
  rintro _ ⟨rfl⟩
  exact fun negates => plain field mem (field.negatesTrue_analyzed.mp negates)

/-- A boolean global with a negated `true` in its initializer is -1 there. -/
private theorem not_booleansCanonical_of_negatesTrue {field : IrField} (mem : field ∈ program.fields)
    (negates : field.NegatesTrue)
    (environment : Environment) {s : MachineState} (start : s.globals = llir.initialGlobals) :
    ¬ BooleansCanonical llir environment analyzed s := by
  intro canonical
  obtain ⟨bool, initializer, given, literal, listed, negated, one⟩ := field.negatesTrue_analyzed.mpr negates
  obtain ⟨position, found⟩ := List.getElem?_of_mem listed
  have inside : position < initializer.literals.length := (List.getElem?_eq_some_iff.mp found).1
  have ready := accepts_field_ready source accepted mem
  have count := ready.count initializer given
  have mem' : field.analyzed.llirField 0 ∈ llir.fields := by
    rw [accepts_fields source accepted generated]
    exact List.mem_map_of_mem mem
  have word := canonical.globals _ mem' ⟨field.analyzed, rfl, bool⟩ position (by
    change (position : Int) < field.analyzed.arrayLength
    omega)
  rw [start, Llir.initialGlobals, initialGlobals_find ((accepts_ready source accepted).lowered generated).named mem'] at word
  have value : (field.analyzed.llirField 0).values.getD position 0 = -1 := by
    rw [List.getD_eq_getElem?_getD]
    unfold IrField.llirField llirFieldNew getFieldInitializer
    rw [Option.mem_def.mp given]
    dsimp only
    rw [List.getElem?_append_left (by simpa using inside), List.getElem?_map, found, Option.map_some, Option.getD_some,
      literalToInt64, if_pos ⟨negated, by rw [one]; decide⟩, one]
    decide
  dsimp only at word
  rw [value] at word
  revert word
  decide

variable (environment : Environment) {method : IrMethod} (mem : method ∈ analyzed.methods) {callee : LlirMethod}
  (found : llir.method method.identifier = some callee) (values : List Word)
  (arguments : List.Forall₂ (fun (field : IrField) value => field.type = .bool → CanonicalWord value)
    method.arguments values)
include mem found arguments

/-- In a run of an accepted program without a boolean global that has a negated `true` in its initializer, booleans are 0
or 1 in every state, as long as no local declared so is stored into and nothing outside a boolean array is read. With such
a global they are not 0 or 1 at the start. -/
theorem accepts_booleansCanonical :
    ((∃ field ∈ program.fields, field.NegatesTrue) →
      ¬ BooleansCanonical llir environment analyzed
        (run llir environment (startMethod environment callee values llir.initialGlobals) 0)) ∧
    ((∀ field ∈ program.fields, ¬ field.NegatesTrue) → ∀ n,
      (∀ m < n, AllowedStep llir environment True
        (run llir environment (startMethod environment callee values llir.initialGlobals) m)) →
      BooleansCanonical llir environment analyzed
        (run llir environment (startMethod environment callee values llir.initialGlobals) n)) := by
  refine ⟨?_, fun plain n steps => ?_⟩
  · rintro ⟨field, mem, negates⟩
    exact not_booleansCanonical_of_negatesTrue source accepted generated mem negates environment rfl
  · have ready := accepts_ready source accepted
    have safe : Safe llir environment analyzed True n (startMethod environment callee values llir.initialGlobals) :=
      ready.startMethod_safe generated environment True mem found
        (fun _ => initialGlobals_owned (ready.lowered generated).named
          (accepts_globalsCanonical source accepted generated plain))
        (arguments.imp fun _ _ bool _ => bool) n
    have good : GoodState llir environment analyzed True
        (run llir environment (startMethod environment callee values llir.initialGlobals) n) := by
      rw [run_eq_iterate]
      refine safe.run_good fun m hm => ?_
      rw [← run_eq_iterate]
      exact steps m hm
    exact good.booleansCanonical

end

def LlirAssignment.readsArray : LlirAssignment → Bool
  | .arrayAccess _ _ _ _ => true
  | _ => false

/-- The next assignment reads no array, and the variable in which it stores has no negated `true`. -/
private theorem allowedStep_of_plain {llir : Llir} {environment : Environment} {s : MachineState}
    (next : (s.frames.head?.bind (Frame.assignment llir)).all fun assignment => !assignment.readsArray &&
      assignment.destination.declaration.all fun declaration => !decide declaration.NegatesTrue) :
    AllowedStep llir environment True s := by
  intro _ _ frame head block code assignment found
  have same : s.frames.head?.bind (Frame.assignment llir) = some assignment := by
    rw [Option.mem_def.mp head, Option.bind_some, Frame.assignment_eq, Option.mem_def.mp code, Option.bind_some]
    exact found
  rw [same, Option.all_some, Bool.and_eq_true] at next
  obtain ⟨noRead, plain⟩ := next
  refine ⟨fun _ declaration declared => ?_, ?_⟩
  · rw [Option.mem_def.mp declared] at plain
    simpa using plain
  · rintro index array destination guarded rfl
    cases noRead

/-- Before `overread` reads outside its array. -/
theorem overread_booleansCanonical :
    BooleansCanonical overreadLlir quietEnvironment (semanticsAnalyze overread).2 (overreadRun 3) :=
  (accepts_booleansCanonical overread_fromSource overread_accepted overread_generated quietEnvironment
    (List.get_mem (semanticsAnalyze overread).2.methods ⟨0, by decide +kernel⟩) (by decide +kernel) []
    (by have none : ((semanticsAnalyze overread).2.methods.get ⟨0, by decide +kernel⟩).arguments = [] := by
          decide +kernel
        rw [none]
        exact .nil)).2 (by decide) 3
    fun m hm => by
      obtain rfl | rfl | rfl : m = 0 ∨ m = 1 ∨ m = 2 := by omega
      · exact allowedStep_of_plain (by decide +kernel)
      · exact allowedStep_of_plain (by decide +kernel)
      · exact allowedStep_of_plain (by decide +kernel)

/-- `bool b = -true; void main() { }` -/
def negatedTrue : IrProgram where
  imports := []
  fields := [{
    node := 0, type := .bool, constant := false, identifier := "b", arrayLength := 1, lengthToken := none
    initializer := some ⟨false, [{ negate := true, type := .bool, value := 1, token := none }]⟩ }]
  methods := [{
    imported := false, returnType := .void, identifier := "main", arguments := [], block := .mk [] .nil }]

/-- `b` is -1 from the start. -/
theorem negatedTrue_notCanonical : negatedTrue.FromSource ∧ Accepts negatedTrue (semanticsAnalyze negatedTrue).2 ∧
    ∃ llir main, llirGeneratorGenerateLlir (semanticsAnalyze negatedTrue).2 = some llir ∧
      llir.method "main" = some main ∧ ¬ ∀ n, BooleansCanonical llir quietEnvironment (semanticsAnalyze negatedTrue).2
        (run llir quietEnvironment (startMethod quietEnvironment main [] llir.initialGlobals) n) := by
  refine ⟨by decide +kernel, Prod.ext (by decide +kernel) rfl, (generateLlir (semanticsAnalyze negatedTrue).2).1,
    ((generateLlir (semanticsAnalyze negatedTrue).2).1.method "main").getD ⟨"", [], []⟩, by decide +kernel,
    by decide +kernel, fun canonical => ?_⟩
  have fromSource : negatedTrue.FromSource := by decide +kernel
  exact not_booleansCanonical_of_negatesTrue fromSource (Prod.ext (by decide +kernel) rfl) (by decide +kernel)
    List.mem_cons_self (by decide) quietEnvironment rfl (canonical 0)

end Roast
