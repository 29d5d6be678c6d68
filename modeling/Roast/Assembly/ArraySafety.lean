import Roast.Assembly.SafePrograms

/-! The bounds of arrays at run time. Assignments check their index and end the program when it is out of
range. A location that is only read is not checked. -/
namespace Roast
open Systems

def LlirAssignment.access : LlirAssignment → Option (LlirOperand × LlirField)
  | .arrayUpdate index _ destination => some (index, destination)
  | .arrayAccess index array _ _ => some (index, array)
  | _ => none

section
variable (llir : Llir) (environment : Environment)

structure Executes (s : MachineState) (frame : Frame) (assignment : LlirAssignment) : Prop where
  running : s.status = .running
  head : s.frames.head? = some frame
  next : frame.assignment llir = some assignment

/-- An array that is about to be read or written is indexed inside its declared length. -/
def AccessesInBounds (s : MachineState) : Prop :=
  ∀ frame assignment index array, Executes llir s frame assignment → assignment.access = some (index, array) →
    (∃ declaration ∈ array.declaration, declaration.arrayLength = array.valueCount) ∧
      InBounds (s.operand llir environment frame index) array

/-- The same of the locations that are only read. -/
def PlainReadsInBounds (s : MachineState) : Prop :=
  ∀ frame index array destination, Executes llir s frame (.arrayAccess index array destination false) →
    InBounds (s.operand llir environment frame index) array

/-- The machine is about to find that an index is out of range. -/
structure FailsBoundsCheck (s : MachineState) : Prop where
  running : s.status = .running
  check : ∃ frame ∈ s.frames.head?, ∃ block ∈ frame.code llir, block.assignments[frame.index]? = none ∧
    ∃ branch, block.terminal = .branch branch ∧ branch.unsignedComparison = true ∧
      branch.type.holds true (s.operand llir environment frame branch.left)
        (s.operand llir environment frame branch.right) = false

end

section
variable {llir : Llir} {environment : Environment} {program : IrProgram} {canonical : Prop} {s : MachineState}

theorem GoodState.executes (good : GoodState llir environment program canonical s) {frame : Frame}
    {assignment : LlirAssignment} (h : Executes llir s frame assignment) :
    GoodAssignment llir environment s frame assignment := by
  have next := h.next
  rw [Frame.assignment_eq] at next
  obtain ⟨block, code, found⟩ := Option.bind_eq_some_iff.mp next
  exact good.assignment h.running frame h.head block code assignment found

/-- Of the accesses of a good state only plain reads can be out of bounds. -/
theorem GoodState.accessesInBounds_iff (good : GoodState llir environment program canonical s) :
    AccessesInBounds llir environment s ↔ PlainReadsInBounds llir environment s := by
  constructor
  · intro h frame index array destination executes
    exact (h frame _ index array executes rfl).2
  · intro h frame assignment index array executes access
    have goodAssignment := good.executes executes
    cases assignment with
    | arrayUpdate index' value destination =>
      obtain ⟨rfl, rfl⟩ := Prod.mk.inj (Option.some.inj access)
      exact ⟨goodAssignment.declared destination rfl, goodAssignment.update _ _ _ rfl⟩
    | arrayAccess index' array' destination guarded =>
      obtain ⟨rfl, rfl⟩ := Prod.mk.inj (Option.some.inj access)
      refine ⟨goodAssignment.declared array' rfl, ?_⟩
      cases guarded with
      | false => exact h frame index' array' destination executes
      | true => exact goodAssignment.access _ _ _ rfl
    | unary | binary | methodCall => cases access

/-- After a failed bounds check the program exits. -/
theorem GoodState.exits (good : GoodState llir environment program canonical s)
    (fails : FailsBoundsCheck llir environment s) :
    step llir environment (step llir environment s) =
      { s with status := .exited (-1), frames := (step llir environment s).frames } := by
  obtain ⟨frame, head, block, code, done, branch, terminal, unsigned, holds⟩ := fails.check
  have goodTerminal := good.terminal fails.running frame head block code done
  obtain ⟨callers, split⟩ : ∃ callers, s.frames = frame :: callers := by
    cases hframes : s.frames with
    | nil => simp [hframes] at head
    | cons first callers => exact ⟨callers, by simpa [hframes] using head⟩
  have first : step llir environment s =
      { s with frames := { frame with block := branch.trueBlock, index := 0 } :: callers } := by
    rw [step_of_code fails.running split code, stepBlock, done, terminal]
    simp only [stepTerminal, unsigned, holds, Bool.false_eq_true, if_false]
  obtain ⟨method, found, inMethod⟩ := Option.bind_eq_some_iff.mp code
  obtain ⟨trap, trapFound, empty, exit⟩ := goodTerminal.guard branch terminal unsigned method found
  have trapCode : Frame.code llir { frame with block := branch.trueBlock, index := 0 } = some trap :=
    Option.bind_eq_some_iff.mpr ⟨method, found, trapFound⟩
  have running : ({ s with frames := { frame with block := branch.trueBlock, index := 0 } :: callers } :
      MachineState).status = .running := fails.running
  rw [first]
  refine (step_of_code running rfl trapCode).trans ?_
  rw [stepBlock, empty, exit]
  rfl

end

/-- Imported methods return 0; words outside an array are 7. -/
def quietEnvironment : Environment where
  imported _ := .returned 0
  stringAddress _ := 0
  garbage _ _ _ := 0
  stray _ := 7

/-- `void main() { bool a[1]; bool x; x = a[1]; }` -/
def overread : IrProgram where
  imports := []
  fields := []
  methods := [{
    imported := false, returnType := .void, identifier := "main", arguments := []
    block := .mk [
        { node := 0, type := .boolArray, constant := false, identifier := "a", arrayLength := 1,
          lengthToken := some ⟨false, ['1']⟩, initializer := none },
        { node := 1, type := .bool, constant := false, identifier := "x", arrayLength := 1,
          lengthToken := none, initializer := none }]
      (.cons (.assignment ⟨.scalar 2 "x", .set, some (.location (.element 3 "a" (.literal
        { negate := false, type := .int, value := 1, token := some ⟨false, ['1']⟩ })))⟩) .nil) }]

def overreadLlir : Llir := (generateLlir (semanticsAnalyze overread).2).1

def overreadRun (n : Nat) : MachineState :=
  run overreadLlir quietEnvironment
    (startMethod quietEnvironment ((overreadLlir.method "main").getD ⟨"", [], []⟩) [] overreadLlir.initialGlobals) n

theorem overread_fromSource : overread.FromSource := by decide +kernel

theorem overread_accepted : Accepts overread (semanticsAnalyze overread).2 := Prod.ext (by decide +kernel) rfl

theorem overread_generated : llirGeneratorGenerateLlir (semanticsAnalyze overread).2 = some overreadLlir := by
  decide +kernel

end Roast
