import Roast.Assembly.Booleans
import Roast.Systems.Runs

/-! A call runs as it would with no callers below it, until it returns. -/
namespace Roast
open Systems

def MachineState.above (s : MachineState) (callers : List Frame) : MachineState :=
  { s with frames := s.frames ++ callers }

def MachineState.Halted (s : MachineState) : Prop := s.status ≠ .running

def MachineState.bottom (s : MachineState) : Option String := s.frames.getLast?.map Frame.method

section
variable {llir : Llir} {environment : Environment}

/-- The machine is about to return from the frame at the bottom. -/
structure Returns (llir : Llir) (environment : Environment) (s : MachineState) (value : Word) : Prop where
  running : s.status = .running
  returns : ∃ frame block source, s.frames = [frame] ∧ frame.code llir = some block ∧
    block.assignments[frame.index]? = none ∧ block.terminal = .llirReturn source ∧
    value = s.operand llir environment frame source

structure StaysWithin (callers : List Frame) (s next lifted : MachineState) : Prop where
  lifted : lifted = next.above callers
  frames : next.frames ≠ []
  bottom : next.bottom = s.bottom
  status : ∀ value, next.status ≠ .returned value

variable {s : MachineState} {frame : Frame} {rest callers : List Frame}

private theorem operand_above : (s.above callers).operand llir environment frame = s.operand llir environment frame := by
  funext source
  cases source <;> rfl

private theorem cell_above (field : LlirField) (position : Nat) :
    (s.above callers).cell llir frame field position = s.cell llir frame field position := rfl

private theorem bottom_of_top {s' : MachineState} {frame' : Frame}
    (bottom : s.bottom = (frame :: rest).getLast?.map Frame.method) (frames : s'.frames = frame' :: rest)
    (same : frame'.method = frame.method) : s'.bottom = s.bottom := by
  rw [bottom, MachineState.bottom, frames]
  cases rest with
  | nil => simp [same]
  | cons next rest => rfl

private theorem bottom_of_frames (frames : s.frames = frame :: rest) :
    s.bottom = (frame :: rest).getLast?.map Frame.method := by rw [MachineState.bottom, frames]

/-- The status of a state that stays within its call. -/
private theorem staysWithin_status (frames : s.frames = frame :: rest) (status : Status)
    (other : ∀ value, status ≠ .returned value) :
    StaysWithin callers s { s with status := status } { s.above callers with status := status } := by
  refine ⟨rfl, ?_, rfl, other⟩
  change s.frames ≠ []
  rw [frames]
  exact List.cons_ne_nil _ _

/-- A store does the same above other callers. -/
private theorem staysWithin_store (running : s.status = .running)
    (bottom : s.bottom = (frame :: rest).getLast?.map Frame.method) (field : LlirField)
    (position : Nat) (value : Word) (strays : Nat) (calls : List Call) :
    StaysWithin callers s
      (MachineState.store llir { s with strays := strays, calls := calls } frame rest field position value)
      (MachineState.store llir { s.above callers with strays := strays, calls := calls } frame (rest ++ callers) field
        position value) := by
  unfold MachineState.store
  by_cases isGlobal : llir.IsGlobal field.identifier
  · rw [if_pos isGlobal, if_pos isGlobal]
    exact ⟨rfl, by simp, bottom_of_top bottom rfl rfl, by simp [running]⟩
  · rw [if_neg isGlobal, if_neg isGlobal]
    exact ⟨rfl, by simp, bottom_of_top bottom rfl rfl, by simp [running]⟩

/-- A call does the same above other callers. -/
private theorem callMethod_within (running : s.status = .running) (frames : s.frames = frame :: rest) (name : String)
    (values : List Word) (destination : LlirField) :
    StaysWithin callers s (callMethod llir environment s frame rest name values destination)
      (callMethod llir environment (s.above callers) frame (rest ++ callers) name values destination) := by
  unfold callMethod
  dsimp only
  cases llir.method name with
  | some method =>
    dsimp only
    by_cases count : method.arguments.length = values.length
    · rw [if_pos count, if_pos count]
      refine ⟨rfl, by simp, ?_, by simp [running]⟩
      simp [MachineState.bottom, frames]
    · rw [if_neg count, if_neg count]
      exact ⟨rfl, by simp [frames], rfl, by simp⟩
  | none =>
    dsimp only
    have same : (s.above callers).calls = s.calls := rfl
    rw [same]
    cases environment.imported (s.calls ++ [(name, values)]) with
    | returned value => exact staysWithin_store running (bottom_of_frames frames) destination 0 value s.strays _
    | exited status => exact ⟨rfl, by simp [frames], rfl, by simp⟩
    | hung => exact ⟨rfl, by simp [frames], rfl, by simp⟩

/-- An assignment does the same above other callers. -/
private theorem stepAssignment_within (running : s.status = .running) (frames : s.frames = frame :: rest)
    (assignment : LlirAssignment) :
    StaysWithin callers s (stepAssignment llir environment s frame rest assignment)
      (stepAssignment llir environment (s.above callers) frame (rest ++ callers) assignment) := by
  cases assignment with
  | unary type source destination =>
    simp only [stepAssignment, operand_above]
    exact staysWithin_store running (bottom_of_frames frames) destination 0 _ s.strays s.calls
  | binary type left right destination =>
    simp only [stepAssignment, operand_above]
    cases type.apply (s.operand llir environment frame left) (s.operand llir environment frame right) with
    | some value => exact staysWithin_store running (bottom_of_frames frames) destination 0 value s.strays s.calls
    | none => exact staysWithin_status frames _ (by simp)
  | arrayUpdate index value destination =>
    simp only [stepAssignment, operand_above]
    by_cases inside : InBounds (s.operand llir environment frame index) destination
    · rw [if_pos inside, if_pos inside]
      exact staysWithin_store running (bottom_of_frames frames) destination _ _ s.strays s.calls
    · rw [if_neg inside, if_neg inside]
      exact staysWithin_status frames _ (by simp)
  | arrayAccess index array destination guarded =>
    simp only [stepAssignment, operand_above, cell_above]
    by_cases inside : InBounds (s.operand llir environment frame index) array
    · rw [if_pos inside, if_pos inside]
      exact staysWithin_store running (bottom_of_frames frames) destination 0 _ s.strays s.calls
    · rw [if_neg inside, if_neg inside]
      exact staysWithin_store running (bottom_of_frames frames) destination 0 _ (s.strays + 1) s.calls
  | methodCall name arguments destination =>
    simp only [stepAssignment, operand_above]
    exact callMethod_within running frames name _ destination

theorem step_of_no_code (running : s.status = .running) (frames : s.frames = frame :: rest)
    (code : frame.code llir = none) : step llir environment s = { s with status := .stuck } := by
  unfold Frame.code at code
  simp only [step, running, frames, code, if_true]

/-- What one step does above callers: it stays within the call, or it returns from its last frame. -/
private theorem step_above (callers : List Frame) (running : s.status = .running) (frames : s.frames = frame :: rest) :
    StaysWithin callers s (step llir environment s) (step llir environment (s.above callers)) ∨
      ∃ value, Returns llir environment s value ∧
        step llir environment s = { s with frames := [], status := .returned value } ∧
        step llir environment (s.above callers) = returnValue llir (s.above callers) callers value := by
  have above : (s.above callers).frames = frame :: (rest ++ callers) := by
    simp [MachineState.above, frames]
  have running' : (s.above callers).status = .running := running
  cases code : frame.code llir with
  | none =>
    left
    rw [step_of_no_code running frames code, step_of_no_code running' above code]
    exact staysWithin_status frames .stuck (by simp)
  | some block =>
    rw [step_of_code running frames code, step_of_code running' above code]
    unfold stepBlock
    cases next : block.assignments[frame.index]? with
    | some assignment => exact .inl (stepAssignment_within running frames assignment)
    | none =>
      dsimp only
      cases terminal : block.terminal with
      | unknown => exact .inl (staysWithin_status frames _ (by simp))
      | shitYourself status => exact .inl (staysWithin_status frames _ (by simp))
      | jump target =>
        exact .inl ⟨rfl, by simp [stepTerminal], bottom_of_top (bottom_of_frames frames) rfl rfl,
          by simp [stepTerminal, running]⟩
      | branch branch =>
        simp only [stepTerminal, operand_above]
        exact .inl ⟨rfl, by simp, bottom_of_top (bottom_of_frames frames) rfl rfl, by simp [running]⟩
      | llirReturn source =>
        simp only [stepTerminal, operand_above]
        cases rest with
        | nil =>
          exact .inr ⟨_, ⟨running, frame, block, source, frames, code, next, terminal, rfl⟩, rfl, rfl⟩
        | cons caller rest =>
          left
          unfold returnValue
          dsimp only [List.cons_append]
          cases caller.assignment llir with
          | some assignment =>
            have bottom : s.bottom = (caller :: rest).getLast?.map Frame.method := by
              rw [MachineState.bottom, frames, List.getLast?_cons_cons]
            exact staysWithin_store running bottom assignment.destination 0 _ s.strays s.calls
          | none => exact staysWithin_status frames _ (by simp)

/-- While a call runs, the callers below do not matter. -/
theorem iterate_above (callers : List Frame) {n : Nat} (nonempty : s.frames ≠ [])
    (running : ∀ m ≤ n, ((step llir environment)^[m] s).status = .running) :
    (step llir environment)^[n] (s.above callers) = ((step llir environment)^[n] s).above callers ∧
      ((step llir environment)^[n] s).frames ≠ [] ∧ ((step llir environment)^[n] s).bottom = s.bottom := by
  induction n with
  | zero => exact ⟨rfl, nonempty, rfl⟩
  | succ n ih =>
    obtain ⟨lifted, frames, bottom⟩ := ih fun m hm => running m (Nat.le_succ_of_le hm)
    obtain ⟨frame, rest, frames⟩ := List.exists_cons_of_ne_nil frames
    have last := running (n + 1) le_rfl
    rw [Function.iterate_succ_apply'] at last
    simp only [Function.iterate_succ_apply', lifted]
    obtain within | ⟨value, -, stopped, -⟩ := step_above callers (running n (Nat.le_succ n)) frames
    · exact ⟨within.lifted, within.frames, within.bottom.trans bottom⟩
    · rw [stopped] at last
      cases last

/-- How a call ends: it stops the machine, or it returns to the callers. -/
theorem stopsIn_above (callers : List Frame) {n : Nat} (nonempty : s.frames ≠ [])
    (stops : StopsIn (step llir environment) MachineState.Halted s (n + 1)) :
    ((step llir environment)^[n + 1] (s.above callers) = ((step llir environment)^[n + 1] s).above callers ∧
        ∀ value, ((step llir environment)^[n + 1] s).status ≠ .returned value) ∨
      ∃ value, Returns llir environment ((step llir environment)^[n] s) value ∧
        (step llir environment)^[n + 1] s =
          { (step llir environment)^[n] s with frames := [], status := .returned value } ∧
        (step llir environment)^[n + 1] (s.above callers) =
          returnValue llir (((step llir environment)^[n] s).above callers) callers value := by
  have running (m : Nat) (hm : m ≤ n) : ((step llir environment)^[m] s).status = .running :=
    not_not.mp (stops.running m (Nat.lt_succ_of_le hm))
  obtain ⟨lifted, frames, -⟩ := iterate_above callers nonempty running
  obtain ⟨frame, rest, frames⟩ := List.exists_cons_of_ne_nil frames
  simp only [Function.iterate_succ_apply', lifted]
  obtain within | returned := step_above callers (running n le_rfl) frames
  · exact .inl ⟨within.lifted, within.status⟩
  · exact .inr returned

end

end Roast
