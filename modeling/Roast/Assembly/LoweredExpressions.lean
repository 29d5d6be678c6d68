import Roast.Assembly.Evaluation

/-! The code that is generated for an expression does what the expression means. -/
namespace Roast
open LlirGenerator Systems

section
variable (llir : Llir) (environment : Environment) (activation : Activation)

abbrev Executing (g : LlirGenerator) (s : MachineState) (locals : Store) : Prop :=
  AtEnd llir False activation g s locals

/-- The operand has a value that no temporary from number `k` on can change. -/
def OperandHolds (locals : Store) (k : Nat) (value : Word) : LlirOperand → Prop
  | .field field => ¬ TemporaryName k field.identifier ∧ ¬ llir.IsGlobal field.identifier ∧
      (locals field.identifier 0).value = value
  | .literal literal => literal = value
  | .string string => environment.stringAddress string = value

/-- From a state on, the machine does what an evaluation does. When the evaluation has a value, it reaches the
end of the code that the generator emitted, having stored into no variable but temporaries from number `k` on. -/
def Performs {α : Type} (g : LlirGenerator) (k : Nat) (locals : Store) (s : MachineState)
    (result : α → Store → Prop) : Outcome α → Prop
  | .value value world => ∃ s' locals', LeadsTo (step llir environment) s s' ∧ Executing llir activation g s' locals' ∧
      s'.world = world ∧ Kept k locals locals' ∧ result value locals'
  | .stopped status world => ∃ s', LeadsTo (step llir environment) s s' ∧ s'.status = status ∧ s'.Halted ∧
      s'.world = world
  -- a method that was called never returns
  | .endless world => ∃ s', LeadsTo (step llir environment) s s' ∧ s'.world = world ∧
      ∀ n, ((step llir environment)^[n] s').status = .running ∧
        activation.callers.length + 1 < ((step llir environment)^[n] s').frames.length
  | .undefined => True

end

section
variable {llir : Llir} {environment : Environment} {activation : Activation}

theorem OperandHolds.kept {locals locals' : Store} {k k' : Nat} {value : Word} {operand : LlirOperand}
    (h : OperandHolds llir environment locals k value operand) (kept : Kept k locals locals') (hk : k ≤ k') :
    OperandHolds llir environment locals' k' value operand := by
  cases operand with
  | field field =>
    obtain ⟨old, isLocal, same⟩ := h
    refine ⟨fun new => old (new.mono hk), isLocal, ?_⟩
    rwa [kept _ old]
  | literal literal => exact h
  | string string => exact h

/-- The machine reads what the operand holds. -/
theorem OperandHolds.operand {locals : Store} {k : Nat} {value : Word} {operand : LlirOperand}
    (h : OperandHolds llir environment locals k value operand) (s : MachineState) (block index : Nat) :
    s.operand llir environment (activation.frame block index locals) operand = value := by
  cases operand with
  | field field =>
    obtain ⟨-, isLocal, same⟩ := h
    simp only [MachineState.operand, MachineState.cell, isLocal, if_false, Activation.frame_locals]
    exact same
  | literal literal => exact h
  | string string => exact h

theorem operands_map {locals : Store} {k : Nat} {values : List Word} {operands : List LlirOperand}
    (holds : List.Forall₂ (fun value operand => OperandHolds llir environment locals k value operand) values operands)
    (s : MachineState) (block index : Nat) :
    operands.map (s.operand llir environment (activation.frame block index locals)) = values := by
  induction holds with
  | nil => rfl
  | cons head _ ih => rw [List.map_cons, ih, head.operand]

variable {g g' : LlirGenerator} {k k' : Nat} {locals : Store} {s s' : MachineState}

/-- What is done from a later state is done from an earlier one. -/
theorem Performs.after {α : Type} {result : α → Store → Prop} {outcome : Outcome α} {locals' : Store}
    (h : Performs llir environment activation g k' locals' s' result outcome)
    (leads : LeadsTo (step llir environment) s s') (kept : Kept k locals locals') (hk : k ≤ k') :
    Performs llir environment activation g k locals s result outcome := by
  cases outcome with
  | value value world =>
    obtain ⟨s'', locals'', leads', at'', same, kept', done⟩ := h
    exact ⟨s'', locals'', leads.trans leads', at'', same, kept.trans kept' hk, done⟩
  | stopped status world =>
    obtain ⟨s'', leads', rest⟩ := h
    exact ⟨s'', leads.trans leads', rest⟩
  | endless world =>
    obtain ⟨s'', leads', rest⟩ := h
    exact ⟨s'', leads.trans leads', rest⟩
  | undefined => trivial

/-- One evaluation after another. -/
theorem Performs.andThen {α β : Type} {first : α → Store → Prop} {second : β → Store → Prop} {outcome : Outcome α}
    {next : α → World → Outcome β} (h : Performs llir environment activation g k locals s first outcome) (hk : k ≤ k')
    (rest : ∀ value s₁ locals₁, Executing llir activation g s₁ locals₁ → outcome = .value value s₁.world →
      Kept k locals locals₁ → first value locals₁ →
      Performs llir environment activation g' k' locals₁ s₁ second (next value s₁.world)) :
    Performs llir environment activation g' k locals s second (outcome.andThen next) := by
  cases outcome with
  | value value world =>
    obtain ⟨s₁, locals₁, leads, at₁, rfl, kept, done⟩ := h
    exact (rest value s₁ locals₁ at₁ rfl kept done).after leads kept hk
  | stopped | endless | undefined => exact h

/-- An evaluation whose value is worked on further. -/
theorem Performs.bind {α : Type} {first second : α → Store → Prop} {outcome : Outcome α}
    (h : Performs llir environment activation g k locals s first outcome) (hk : k ≤ k')
    (rest : ∀ value s₁ locals₁, Executing llir activation g s₁ locals₁ → Kept k locals locals₁ → first value locals₁ →
      Performs llir environment activation g' k' locals₁ s₁ second (.value value s₁.world)) :
    Performs llir environment activation g' k locals s second outcome := by
  have done : Performs llir environment activation g' k locals s second (outcome.andThen .value) :=
    h.andThen hk fun value s₁ locals₁ at₁ _ kept holds => rest value s₁ locals₁ at₁ kept holds
  cases outcome with
  | value | stopped | endless | undefined => exact done

theorem Performs.mono {α : Type} {first second : α → Store → Prop} {outcome : Outcome α}
    (h : Performs llir environment activation g k locals s first outcome)
    (stronger : ∀ value locals', Kept k locals locals' → first value locals' → second value locals') :
    Performs llir environment activation g k locals s second outcome := by
  cases outcome with
  | value value world =>
    obtain ⟨s', locals', leads, at', same, kept, done⟩ := h
    exact ⟨s', locals', leads, at', same, kept, stronger value locals' kept done⟩
  | stopped | endless | undefined => exact h

/-- A value that is reached in some steps. -/
private theorem performs_value {α : Type} {result : α → Store → Prop} {value : α} {locals' : Store}
    (leads : LeadsTo (step llir environment) s s') (at' : Executing llir activation g s' locals')
    (kept : Kept k locals locals') (done : result value locals') :
    Performs llir environment activation g k locals s result (.value value s'.world) :=
  ⟨s', locals', leads, at', rfl, kept, done⟩

end

section
variable {llir : Llir} {environment : Environment} {activation : Activation} (valid : activation.Valid llir)
  (named : llir.Named) {g : LlirGenerator} {s : MachineState} {locals : Store}

private theorem store_world {frame : Frame} {rest : List Frame} {field : LlirField}
    (isLocal : ¬ llir.IsGlobal field.identifier)
    (position : Nat) (value : Word) : (s.store llir frame rest field position value).world = s.world := by
  unfold MachineState.store
  rw [if_neg isLocal]
  rfl

include valid

/-- A jump ends a block. -/
private theorem leadsTo_jump {target block : Nat} (begins : (g.jumpTo target block).Begins activation.blocks)
    (at' : Executing llir activation g s locals) :
    ∃ s', LeadsTo (step llir environment) s s' ∧ AtPoint llir False activation target 0 s' locals ∧
      s'.world = s.world := by
  refine ⟨_, leadsTo_step s, ?_⟩
  rw [step_of_terminal valid begins.closed at']
  exact ⟨⟨at'.status, rfl, False.elim, False.elim⟩, rfl⟩

/-- A branch goes to its false block when the comparison holds. -/
private theorem leadsTo_branch {branch : LlirBranch} (begins : (g.branchTo branch).Begins activation.blocks)
    (at' : Executing llir activation g s locals) {left right : Word}
    (hl : s.operand llir environment (activation.frameAt g locals) branch.left = left)
    (hr : s.operand llir environment (activation.frameAt g locals) branch.right = right) :
    ∃ s', LeadsTo (step llir environment) s s' ∧ AtPoint llir False activation
      (if branch.type.holds branch.unsignedComparison left right then branch.falseBlock else branch.trueBlock) 0 s'
      locals ∧ s'.world = s.world := by
  refine ⟨_, leadsTo_step s, ?_⟩
  rw [step_of_terminal valid begins.closed at']
  subst hl hr
  exact ⟨⟨at'.status, rfl, False.elim, False.elim⟩, rfl⟩

include named

/-- An assignment that stores a value into a variable that is not global. -/
private theorem leadsTo_store {assignment : LlirAssignment}
    (begins : (g.addAssignment assignment).Begins activation.blocks)
    (at' : Executing llir activation g s locals) {field : LlirField} (isLocal : ¬ llir.IsGlobal field.identifier)
    {value : Word} (stores : stepAssignment llir environment s (activation.frameAt g locals) activation.callers assignment =
      s.store llir (activation.frameAt g locals) activation.callers field 0 value) :
    ∃ s', LeadsTo (step llir environment) s s' ∧
      Executing llir activation (g.addAssignment assignment) s' (locals.write llir field 0 value) ∧
      s'.world = s.world := by
  refine ⟨_, leadsTo_step s, ?_⟩
  rw [step_of_assignment valid begins at', stores]
  exact ⟨at'.store named assignment 0 False.elim fun isGlobal => absurd isGlobal isLocal, store_world isLocal 0 value⟩

omit valid named in
theorem FreshTemporary.holds {g₀ : LlirGenerator} {field : LlirField} (fresh : FreshTemporary llir g₀ field)
    (locals : Store) {k : Nat} (hk : g₀.temporaryCounter + 1 ≤ k) (value : Word) :
    OperandHolds llir environment (locals.write llir field 0 value) k value (.field field) := by
  refine ⟨fun new => fresh.old (new.mono hk), fresh.isLocal, ?_⟩
  rw [Store.write_self fresh.isLocal]

/-- A value is stored into a temporary. -/
private theorem performs_store {assignment : LlirAssignment}
    (begins : (g.addAssignment assignment).Begins activation.blocks)
    (at' : Executing llir activation g s locals) {g₀ : LlirGenerator} {field : LlirField}
    (fresh : FreshTemporary llir g₀ field) {k : Nat} (hk : g₀.temporaryCounter + 1 ≤ k) {value : Word}
    (stores : stepAssignment llir environment s (activation.frameAt g locals) activation.callers assignment =
      s.store llir (activation.frameAt g locals) activation.callers field 0 value) :
    Performs llir environment activation (g.addAssignment assignment) g₀.temporaryCounter locals s
      (fun value locals' => OperandHolds llir environment locals' k value (.field field)) (.value value s.world) := by
  obtain ⟨s', leads, at'', world⟩ := leadsTo_store valid named begins at' fresh.isLocal stores
  rw [← world]
  exact performs_value leads at'' (Kept.write fresh.name locals 0 value) (fresh.holds locals hk value)

/-- A unary assignment to a new temporary. -/
private theorem performs_unary {type : LlirUnaryType} {source : LlirOperand} {k : Nat} {value : Word}
    (begins : (g.newLocalTemporary.2.addAssignment (.unary type source g.newLocalTemporary.1)).Begins activation.blocks)
    (at' : Executing llir activation g s locals)
    (holds : s.operand llir environment (activation.frameAt g locals) source = value)
    (hk : g.temporaryCounter + 1 ≤ k) :
    Performs llir environment activation (g.newLocalTemporary.2.addAssignment (.unary type source g.newLocalTemporary.1))
      g.temporaryCounter locals s
      (fun value locals' => OperandHolds llir environment locals' k value (.field g.newLocalTemporary.1))
      (.value (type.apply value) s.world) := by
  subst holds
  have at₁ : Executing llir activation g.newLocalTemporary.2 s locals := at'
  exact performs_store valid named begins at₁ (newLocalTemporary_fresh named g) hk rfl

/-- A binary assignment to a new temporary, which may trap. -/
private theorem performs_binary {type : LlirBinaryType} {left right : LlirOperand} {k k' : Nat}
    {leftValue rightValue : Word}
    (begins : (g.newLocalTemporary.2.addAssignment (.binary type left right g.newLocalTemporary.1)).Begins
      activation.blocks) (at' : Executing llir activation g s locals)
    (hl : OperandHolds llir environment locals k' leftValue left)
    (hr : OperandHolds llir environment locals k' rightValue right) (hk : g.temporaryCounter + 1 ≤ k) :
    Performs llir environment activation
      (g.newLocalTemporary.2.addAssignment (.binary type left right g.newLocalTemporary.1)) g.temporaryCounter locals s
      (fun value locals' => OperandHolds llir environment locals' k value (.field g.newLocalTemporary.1))
      (match type.apply leftValue rightValue with
        | some value => .value value s.world
        | none => .stopped .trapped s.world) := by
  have at₁ : Executing llir activation g.newLocalTemporary.2 s locals := at'
  have stepped : stepAssignment llir environment s (activation.frameAt g.newLocalTemporary.2 locals) activation.callers
      (.binary type left right g.newLocalTemporary.1) = match type.apply leftValue rightValue with
        | some value => s.store llir (activation.frameAt g.newLocalTemporary.2 locals) activation.callers
            g.newLocalTemporary.1 0 value
        | none => { s with status := .trapped } := by
    have leftRead : s.operand llir environment (activation.frameAt g.newLocalTemporary.2 locals) left = leftValue :=
      hl.operand s _ _
    have rightRead : s.operand llir environment (activation.frameAt g.newLocalTemporary.2 locals) right = rightValue :=
      hr.operand s _ _
    rw [← leftRead, ← rightRead]
    rfl
  cases applied : type.apply leftValue rightValue with
  | some value =>
    rw [applied] at stepped
    exact performs_store valid named begins at₁ (newLocalTemporary_fresh named g) hk stepped
  | none =>
    rw [applied] at stepped
    dsimp only at stepped
    refine ⟨_, leadsTo_step s, ?_⟩
    rw [step_of_assignment valid begins at₁, stepped]
    exact ⟨rfl, by simp [MachineState.Halted], rfl⟩

/-- An element is read into a temporary. -/
private theorem performs_access {index : LlirOperand} {array : LlirField} {g₀ : LlirGenerator} {field : LlirField}
    {k k' : Nat} {position : Word}
    (begins : (g.addAssignment (.arrayAccess index array field false)).Begins activation.blocks)
    (at' : Executing llir activation g s locals) (holds : OperandHolds llir environment locals k' position index)
    (fresh : FreshTemporary llir g₀ field) (hk : g₀.temporaryCounter + 1 ≤ k) (inside : InBounds position array) :
    Performs llir environment activation (g.addAssignment (.arrayAccess index array field false)) g₀.temporaryCounter
      locals s (fun value locals' => OperandHolds llir environment locals' k value (.field field))
      (.value (s.cell llir (activation.frameAt g locals) array position.toNat).value s.world) := by
  refine performs_store valid named begins at' fresh hk ?_
  have read : s.operand llir environment (activation.frameAt g locals) index = position := holds.operand s _ _
  unfold stepAssignment
  dsimp only
  rw [read]
  exact if_pos inside

omit valid named in
private theorem returnValue_suspended {caller : Frame} {rest : List Frame} {assignment : LlirAssignment}
    (suspended : caller.assignment llir = some assignment) (value : Word) :
    returnValue llir s (caller :: rest) value = s.store llir caller rest assignment.destination 0 value := by
  unfold returnValue
  dsimp only
  rw [suspended]

omit named in
/-- The frame that executes a call waits in it. -/
theorem assignment_suspended {assignment : LlirAssignment} (begins : (g.addAssignment assignment).Begins activation.blocks) :
    (activation.frameAt g locals).assignment llir = some assignment := by
  obtain ⟨block, code, found⟩ := valid.assignment locals begins
  rw [Frame.assignment_eq, code]
  exact found

/-- A method of the program that is called does what it does on its own. -/
private theorem performs_method {identifier : String} {operands : List LlirOperand} {g₀ : LlirGenerator}
    {field : LlirField}
    {k : Nat} (begins : (g.addAssignment (.methodCall identifier operands field)).Begins activation.blocks)
    (fresh : FreshTemporary llir g₀ field) (hk : g₀.temporaryCounter + 1 ≤ k) {s' : MachineState} (callee : LlirMethod)
    (values : List Word) (entered : LeadsTo (step llir environment) s
      ((s'.world.enter environment callee values).above (activation.frameAt g locals :: activation.callers))) :
    Performs llir environment activation (g.addAssignment (.methodCall identifier operands field)) g₀.temporaryCounter
      locals s (fun value locals' => OperandHolds llir environment locals' k value (.field field))
      (executeMethod llir environment s'.world callee values) := by
  have nonempty : (s'.world.enter environment callee values).frames ≠ [] := List.cons_ne_nil _ _
  unfold executeMethod
  split
  · split
    · rename_i stops
      have first := (exists_stopsIn stops).choose_spec
      generalize (exists_stopsIn stops).choose = n at first ⊢
      cases n with
      | zero => exact absurd rfl first.stopped
      | succ n =>
        obtain ⟨lifted, other⟩ | ⟨value, returns, stopped, returned⟩ :=
          stopsIn_above (activation.frameAt g locals :: activation.callers) nonempty first
        · have halted := first.stopped
          generalize (step llir environment)^[n + 1] (s'.world.enter environment callee values) = last at *
          unfold MachineState.outcome
          split
          · rename_i found
            exact absurd found (other _)
          · exact ⟨_, entered.trans ⟨n + 1, lifted⟩, rfl, halted, rfl⟩
        · rw [stopped]
          rw [returnValue_suspended (assignment_suspended valid begins)] at returned
          refine ⟨_, locals.write llir field 0 value, entered.trans ⟨n + 1, returned⟩, ?_⟩
          have at₁ : Executing llir activation g
              { ((step llir environment)^[n] (s'.world.enter environment callee values)) with
                frames := activation.frameAt g locals :: activation.callers } locals :=
            ⟨returns.running, rfl, False.elim, False.elim⟩
          refine ⟨at₁.store named _ 0 False.elim fun isGlobal => absurd isGlobal fresh.isLocal,
            store_world fresh.isLocal 0 value, Kept.write fresh.name locals 0 value, fresh.holds locals hk value⟩
    · rename_i endless
      refine ⟨_, entered, rfl, fun n => ?_⟩
      have running (m : Nat) : ((step llir environment)^[m] (s'.world.enter environment callee values)).status =
          .running := not_not.mp fun halted => endless ⟨m, halted⟩
      obtain ⟨lifted, frames, -⟩ := iterate_above (activation.frameAt g locals :: activation.callers) nonempty
        (n := n) fun m _ => running m
      rw [lifted]
      refine ⟨running n, ?_⟩
      have positive := List.length_pos_iff.mpr frames
      simp only [MachineState.above, List.length_append, List.length_cons]
      omega
  · trivial

/-- A call in an expression. -/
private theorem performs_call {identifier : String} {operands : List LlirOperand} {values : List Word}
    {g₀ : LlirGenerator}
    {field : LlirField} {k k' : Nat}
    (begins : (g.addAssignment (.methodCall identifier operands field)).Begins activation.blocks)
    (at' : Executing llir activation g s locals)
    (holds : List.Forall₂ (fun value operand => OperandHolds llir environment locals k' value operand) values operands)
    (fresh : FreshTemporary llir g₀ field) (hk : g₀.temporaryCounter + 1 ≤ k) :
    Performs llir environment activation (g.addAssignment (.methodCall identifier operands field)) g₀.temporaryCounter
      locals s (fun value locals' => OperandHolds llir environment locals' k value (.field field))
      (invokeMethod llir environment s.world identifier values) := by
  have stepped : step llir environment s = callMethod llir environment s (activation.frameAt g locals) activation.callers
      identifier values field := by
    rw [step_of_assignment valid begins at']
    exact congrArg (fun values => callMethod llir environment s _ _ identifier values field)
      (operands_map holds s _ _)
  unfold callMethod at stepped
  unfold invokeMethod
  dsimp only at stepped ⊢
  cases target : llir.method identifier with
  | some callee =>
    simp only [target] at stepped ⊢
    by_cases count : callee.arguments.length = values.length
    · rw [if_pos count] at stepped ⊢
      have world : { s.world with calls := s.world.calls ++ [(identifier, values)] } =
          MachineState.world { s with calls := s.calls ++ [(identifier, values)] } := rfl
      rw [world]
      refine performs_method valid named begins fresh hk callee values ⟨1, ?_⟩
      rw [Function.iterate_one, stepped]
      simp only [MachineState.above, World.enter, MachineState.world, at'.status, List.singleton_append]
    · rw [if_neg count]
      trivial
  | none =>
    simp only [target] at stepped ⊢
    have calls : s.world.calls = s.calls := rfl
    rw [calls]
    cases response : environment.imported (s.calls ++ [(identifier, values)]) with
    | returned value =>
      simp only [response] at stepped
      refine ⟨_, locals.write llir field 0 value, ⟨1, stepped⟩, ?_, store_world fresh.isLocal 0 value,
        Kept.write fresh.name locals 0 value, fresh.holds locals hk value⟩
      exact (at'.withCalls _).store named _ 0 False.elim fun isGlobal => absurd isGlobal fresh.isLocal
    | exited status =>
      simp only [response] at stepped
      exact ⟨_, ⟨1, stepped⟩, rfl, by simp [MachineState.Halted], rfl⟩
    | hung =>
      simp only [response] at stepped
      exact ⟨_, ⟨1, stepped⟩, rfl, by simp [MachineState.Halted], rfl⟩

end

def SameVariables (scopes : List (List IrField)) (locals locals' : Store) : Prop :=
  ∀ identifier field, storage scopes identifier = some field → locals' field.identifier = locals field.identifier

theorem SameVariables.kept {scopes : List (List IrField)} {tables : List (List (String × LlirField))}
    (hm : Matches scopes tables) {locals locals' locals'' : Store} (h : SameVariables scopes locals locals') {k : Nat}
    (kept : Kept k locals' locals'') : SameVariables scopes locals locals'' := by
  intro identifier field found
  obtain ⟨declaration, level, -, rfl, ready, -⟩ := hm.declaration found
  rw [kept _ (llirField_not_temporaryName ready.identifier level k)]
  exact h identifier _ found

section
variable {llir : Llir} {environment : Environment} {activation : Activation} {g : LlirGenerator} {s : MachineState}

theorem SameVariables.cell {scopes : List (List IrField)} {locals locals' : Store}
    (h : SameVariables scopes locals locals') {identifier : String} {field : LlirField}
    (found : storage scopes identifier = some field) (block index position : Nat) :
    (s.cell llir (activation.frame block index locals') field position).value =
      s.world.read llir locals field position := by
  unfold MachineState.cell World.read
  rw [Activation.frame_locals, h identifier field found, apply_ite Cell.value]
  rfl

/-- A value is moved into a variable and tested: the code goes on at the false block when it is 1 for `||`, and when
it is not 1 for `&&`. -/
private theorem leadsTo_choose (valid : activation.Valid llir) (named : llir.Named) {locals : Store}
    {comparison : LlirBranchType} {operand : LlirOperand} {destination : LlirField} {k : Nat} {value : Word}
    (begins : ((g.addMove operand destination).branchNew comparison false operand (.literal 1)).2.Begins
      activation.blocks) (at' : Executing llir activation g s locals)
    (holds : OperandHolds llir environment locals k value operand)
    (isLocal : ¬ llir.IsGlobal destination.identifier)
    (other : ∀ field, operand = .field field → field.identifier ≠ destination.identifier) :
    ∃ s', LeadsTo (step llir environment) s s' ∧ AtPoint llir False activation
      (if comparison.holds false value 1 then g.blockCounter + 1 else g.blockCounter) 0 s'
      (locals.write llir destination 0 value) ∧ s'.world = s.world := by
  have stores : stepAssignment llir environment s (activation.frameAt g locals) activation.callers
      (.unary .move operand destination) = s.store llir (activation.frameAt g locals) activation.callers destination 0
        value := congrArg (s.store llir _ _ destination 0) (holds.operand s _ _)
  obtain ⟨s₁, leads₁, at₁, world₁⟩ := leadsTo_store valid named ((branchNew_grows _ _ _ _ _).begins_of begins) at' isLocal
    stores
  have kept : OperandHolds llir environment (locals.write llir destination 0 value) k value operand := by
    cases operand with
    | field field =>
      obtain ⟨old, isLocal, same⟩ := holds
      exact ⟨old, isLocal, by rwa [Store.write_other llir locals destination 0 value (other field rfl)]⟩
    | literal literal => exact holds
    | string string => exact holds
  have right (locals : Store) : s₁.operand llir environment
      (activation.frameAt (g.addMove operand destination) locals) (.literal 1) = 1 := rfl
  obtain ⟨s₂, leads₂, at₂, world₂⟩ := leadsTo_branch valid begins at₁ (kept.operand s₁ _ _) (right _)
  exact ⟨s₂, leads₁.trans leads₂, at₂, world₂.trans world₁⟩

end

/-- The code tests whether the left side is 1, which decides as long as it is 0 or 1. -/
private theorem shortCircuit_outcome {operator : IrBinaryOperator} (shortCircuit : operator = .or ∨ operator = .and)
    {value : Word} (canonical : CanonicalWord value) (right other : Outcome Word) (world : World) :
    (if operator = .or then if value = 0 then right else .value 1 world
      else if operator = .and then if value = 0 then .value 0 world else right else other) =
      if (if operator = .or then LlirBranchType.equal else .notEqual).holds false value 1 = true then
        .value value world else right := by
  obtain rfl | rfl := shortCircuit <;> obtain rfl | rfl := canonical <;> rfl

section
variable {llir : Llir} {environment : Environment} {program : IrProgram} {activation : Activation}
  {c : Context} {memory : Store}

mutual

/-- The lowered expression is performed as the expression is evaluated. -/
private theorem generateExpression_performs (ready : program.Ready)
    (generated : llirGeneratorGenerateLlir program = some llir) (valid : activation.Valid llir)
    (fits : ContextFits program c) (booleans : LocalsCanonical llir c.scopes memory) (g : LlirGenerator)
    (hm : Matches c.scopes g.symbolTable)
    (expression : IrExpression) {type : IrDataType} (typed : ExpressionTyped readyRules c expression type)
    (begins : (generateExpression g expression).2.Begins activation.blocks) {s : MachineState} {locals : Store}
    (at' : Executing llir activation g s locals) (good : s.world.Good llir)
    (same : SameVariables c.scopes memory locals) :
    Performs llir environment activation (generateExpression g expression).2 g.temporaryCounter locals s
      (fun value locals' => OperandHolds llir environment locals'
        (generateExpression g expression).2.temporaryCounter value (generateExpression g expression).1)
      (evaluate llir environment (invokeMethod llir environment) c.scopes memory expression s.world) := by
  have named := (ready.lowered generated).named
  cases expression with
  | binary operator left right =>
    cases typed with
    | binary op hl hr =>
      unfold evaluate
      by_cases shortCircuit : operator = .or ∨ operator = .and
      · have unfolded : generateExpression g (.binary operator left right) =
            let first := generateExpression g.newNonLocalTemporary.2 left
            let branched := (first.2.addMove first.1 g.newNonLocalTemporary.1).branchNew
              (if operator = .or then .equal else .notEqual) false first.1 (.literal 1)
            let second := generateExpression branched.2 right
            (.field g.newNonLocalTemporary.1,
              (second.2.addMove second.1 g.newNonLocalTemporary.1).jumpTo branched.1 branched.1) := by
          rw [generateExpression, if_pos shortCircuit]
        rw [unfolded] at begins ⊢
        obtain ⟨rfl, rfl⟩ := operatorTyped_shortCircuit op shortCircuit
        have fresh : FreshTemporary llir g g.newNonLocalTemporary.1 := newTemporary_fresh named g (.inr rfl)
        have followsStart : g.Follows False g.newNonLocalTemporary.2 [] := newNonLocalTemporary_follows g
        have matchesStart := followsStart.matchesScopes hm
        have followsLeft : g.newNonLocalTemporary.2.Follows False _ _ := generateExpression_follows _ matchesStart left hl
        have counter : g.temporaryCounter + 1 ≤ _ :=
          (generateExpression_grows g.newNonLocalTemporary.2 left).temporaryCounter
        obtain ⟨source, found, recent⟩ := generateExpression_field g.newNonLocalTemporary.2 left
        dsimp only at begins ⊢
        have performsLeft := fun begins =>
          generateExpression_performs ready generated valid fits booleans g.newNonLocalTemporary.2 matchesStart left
            hl begins at' good same
        generalize generateExpression g.newNonLocalTemporary.2 left = first at *
        have followsBranch := (followsLeft.andThen (addMove_follows first.2 first.1 g.newNonLocalTemporary.1)).andThen
          (branchNew_follows _ (if operator = .or then .equal else .notEqual) false first.1 (.literal 1))
        have growsBranch := (addMove_grows first.2 first.1 g.newNonLocalTemporary.1).trans
          (branchNew_grows _ (if operator = .or then .equal else .notEqual) false first.1 (.literal 1))
        have beginsRight := (addMove_grows _ _ _).begins_of ((jumpTo_grows _ _ _).begins_of begins)
        have beginsBranch := (generateExpression_grows _ right).begins_of beginsRight
        have growsRight := (generateExpression_grows ((first.2.addMove first.1 g.newNonLocalTemporary.1).branchNew
          (if operator = .or then .equal else .notEqual) false first.1 (.literal 1)).2 right).temporaryCounter
        have older := counter.trans growsRight
        refine ((performsLeft (growsBranch.begins_of beginsBranch)).after (.refl s) (.refl _ _)
          (newNonLocalTemporary_grows g).temporaryCounter).andThen le_rfl
            fun leftValue s₁ locals₁ at₁ result kept₁ holds₁ => ?_
        obtain ⟨good₁, canonical⟩ := evaluate_good ready generated fits hm booleans left hl good result
        obtain ⟨s₂, leads₂, at₂, world₂⟩ := leadsTo_choose valid named beginsBranch at₁ holds₁ fresh.isLocal
          fun field result same => fresh.old (same ▸ LlirOperand.field.inj (found.symm.trans result) ▸ recent)
        have kept₂ : Kept g.temporaryCounter locals₁ (locals₁.write llir g.newNonLocalTemporary.1 0 leftValue) :=
          Kept.write fresh.name locals₁ 0 leftValue
        rw [shortCircuit_outcome shortCircuit (canonical rfl)]
        by_cases skips : (if operator = .or then LlirBranchType.equal else .notEqual).holds false leftValue 1 = true
        · rw [if_pos skips] at at₂ ⊢
          rw [← world₂]
          exact performs_value leads₂ at₂ kept₂ (fresh.holds locals₁ older leftValue)
        · rw [if_neg skips] at at₂ ⊢
          rw [← world₂] at good₁ ⊢
          have performsRight := generateExpression_performs ready generated valid fits booleans _
            (followsBranch.matchesScopes matchesStart) right hr
            beginsRight at₂ good₁ ((same.kept hm kept₁).kept hm kept₂)
          have lower := Nat.le_of_succ_le (counter.trans growsBranch.temporaryCounter)
          refine ((performsRight.after (.refl s₂) (.refl _ _) lower).bind le_rfl
            fun rightValue s₃ locals₃ at₃ kept₃ holds₃ => ?_).after leads₂ kept₂ le_rfl
          obtain ⟨s₄, leads₄, at₄, world₄⟩ := leadsTo_store valid named ((jumpTo_grows _ _ _).begins_of begins) at₃
            fresh.isLocal (congrArg (s₃.store llir _ _ g.newNonLocalTemporary.1 0) (holds₃.operand s₃ _ _))
          obtain ⟨s₅, leads₅, at₅, world₅⟩ := leadsTo_jump valid begins at₄
          rw [← world₄, ← world₅]
          exact performs_value (leads₄.trans leads₅) at₅ (Kept.write fresh.name locals₃ 0 rightValue)
            (fresh.holds locals₃ older rightValue)
      · have unfolded : generateExpression g (.binary operator left right) =
            let first := generateExpression g left
            let second := generateExpression first.2 right
            (.field second.2.newLocalTemporary.1, second.2.newLocalTemporary.2.addAssignment
              (.binary (irOperatorToAssignmentType operator) first.1 second.1 second.2.newLocalTemporary.1)) := by
          rw [generateExpression, if_neg shortCircuit]
        rw [unfolded] at begins ⊢
        have follows : g.Follows False _ _ := generateExpression_follows g hm left hl
        have growsRight := generateExpression_grows (generateExpression g left).2 right
        have beginsRight := (newLocalTemporary_grows _).begins_of ((addAssignment_grows _ _).begins_of begins)
        refine (generateExpression_performs ready generated valid fits booleans g hm left hl
          (growsRight.begins_of beginsRight) at' good same).andThen
          (generateExpression_grows g left).temporaryCounter fun leftValue s₁ locals₁ at₁ result kept₁ holds₁ => ?_
        rw [if_neg (not_or.mp shortCircuit).1, if_neg (not_or.mp shortCircuit).2]
        have good₁ := (evaluate_good ready generated fits hm booleans left hl good result).1
        refine (generateExpression_performs ready generated valid fits booleans _ (follows.matchesScopes hm) right hr
          beginsRight at₁ good₁
          (same.kept hm kept₁)).andThen growsRight.temporaryCounter fun rightValue s₂ locals₂ at₂ _ kept₂ holds₂ => ?_
        rw [← irOperatorToAssignmentType_apply shortCircuit]
        exact performs_binary valid named begins at₂ (holds₁.kept kept₂ growsRight.temporaryCounter) holds₂ le_rfl
  | not expression =>
    cases typed with
    | not h =>
      unfold evaluate
      have grows := (newLocalTemporary_grows (generateExpression g expression).2).trans (addAssignment_grows _
        (.unary .not (generateExpression g expression).1 (generateExpression g expression).2.newLocalTemporary.1))
      refine (generateExpression_performs ready generated valid fits booleans g hm expression h
        (grows.begins_of begins) at' good same).andThen
        (generateExpression_grows g expression).temporaryCounter fun value s₁ locals₁ at₁ _ _ holds₁ => ?_
      rw [← beq_eq_decide]
      exact performs_unary valid named begins at₁ (holds₁.operand s₁ _ _) le_rfl
  | negate expression =>
    cases typed with
    | negate h =>
      unfold evaluate
      have grows := (newLocalTemporary_grows (generateExpression g expression).2).trans (addAssignment_grows _
        (.unary .negate (generateExpression g expression).1 (generateExpression g expression).2.newLocalTemporary.1))
      refine (generateExpression_performs ready generated valid fits booleans g hm expression h
        (grows.begins_of begins) at' good same).andThen
        (generateExpression_grows g expression).temporaryCounter fun value s₁ locals₁ at₁ _ _ holds₁ => ?_
      exact performs_unary valid named begins at₁ (holds₁.operand s₁ _ _) le_rfl
  | len identifier length =>
    unfold evaluate
    exact performs_unary valid named begins at' rfl le_rfl
  | methodCall identifier arguments =>
    cases typed with
    | methodCall h value =>
      unfold evaluate
      have follows : g.Follows False _ _ := newLocalTemporary_follows g
      have beginsArguments : (generateArguments g.newLocalTemporary.2 arguments).2.Begins activation.blocks :=
        (addAssignment_grows _ _).begins_of begins
      have fresh := newLocalTemporary_fresh named g
      have counter := (generateArguments_grows g.newLocalTemporary.2 arguments).temporaryCounter
      have typed : ImportedArgumentsTyped readyRules c arguments := by
        cases h with
        | imported _ _ _ h => exact h
        | declared _ _ _ h => exact h.imported
      have performed := generateArguments_performs ready generated valid fits booleans _ (follows.matchesScopes hm)
        arguments typed beginsArguments at' good
        same
      refine (performed.after (.refl s) (.refl _ _) (Nat.le_succ _)).andThen le_rfl
        fun values s₁ locals₁ at₁ _ _ holds => ?_
      exact performs_call valid named begins at₁ holds fresh counter
  | literal literal =>
    cases typed with
    | literal h =>
      unfold evaluate
      have at₁ : Executing llir activation (g.assert (literalInRange literal)) s locals := by
        unfold Executing AtEnd
        rw [assert_currentBlock]
        exact at'
      rw [← literalToInt64_eq]
      exact (performs_unary valid named begins at₁ rfl le_rfl).after (.refl s) (.refl _ _)
        (assert_grows g _).temporaryCounter
  | location location =>
    cases typed with
    | location h =>
      unfold evaluate
      exact generateLocation_performs ready generated valid fits booleans g hm location h begins at' good same

/-- The lowered location is performed as the location is evaluated. -/
private theorem generateLocation_performs (ready : program.Ready)
    (generated : llirGeneratorGenerateLlir program = some llir) (valid : activation.Valid llir)
    (fits : ContextFits program c) (booleans : LocalsCanonical llir c.scopes memory) (g : LlirGenerator)
    (hm : Matches c.scopes g.symbolTable)
    (location : IrLocation)
    {field : IrField} {type : IrDataType} (typed : LocationTyped readyRules c location field type)
    (begins : (generateLocation g location).2.Begins activation.blocks) {s : MachineState} {locals : Store}
    (at' : Executing llir activation g s locals) (good : s.world.Good llir)
    (same : SameVariables c.scopes memory locals) :
    Performs llir environment activation (generateLocation g location).2 g.temporaryCounter locals s
      (fun value locals' => OperandHolds llir environment locals' (generateLocation g location).2.temporaryCounter value
        (generateLocation g location).1)
      (evaluateLocation llir environment (invokeMethod llir environment) c.scopes memory location s.world) := by
  have named := (ready.lowered generated).named
  cases location with
  | scalar node identifier =>
    cases typed with
    | scalar found =>
      obtain ⟨level, -, result, stored, -⟩ := lookup_found hm (.scalar node identifier) found
      have at₁ : Executing llir activation (g.lookup (.scalar node identifier)).2 s locals := by
        unfold Executing AtEnd
        rw [lookup_currentBlock]
        exact at'
      have read : s.operand llir environment (activation.frameAt (g.lookup (.scalar node identifier)).2 locals)
          (.field (g.lookup (.scalar node identifier)).1) = s.world.read llir memory (field.llirField level) 0 := by
        rw [result]
        exact same.cell stored _ _ 0
      unfold evaluateLocation
      rw [show storage c.scopes identifier = some (field.llirField level) from stored]
      exact (performs_unary valid named begins at₁ read le_rfl).after (.refl s) (.refl _ _)
        (lookup_temporaryCounter g _).ge
  | element node identifier index =>
    cases typed with
    | element found array h =>
      obtain ⟨level, -, result, stored, -⟩ := lookup_found hm (.element node identifier index) found
      have follows : g.Follows False _ _ := (lookup_follows hm (.element node identifier index) found).andThen
        (newLocalTemporary_follows _)
      have fresh := newLocalTemporary_fresh named (g.lookup (.element node identifier index)).2
      have at₁ : Executing llir activation (g.lookup (.element node identifier index)).2 s locals := by
        unfold Executing AtEnd
        rw [lookup_currentBlock]
        exact at'
      have counter := (generateExpression_grows (g.lookup (.element node identifier index)).2.newLocalTemporary.2
        index).temporaryCounter
      unfold evaluateLocation
      have performed := generateExpression_performs ready generated valid fits booleans _ (follows.matchesScopes hm)
        index h
        ((addAssignment_grows _ _).begins_of begins) at₁ good same
      have older := (lookup_temporaryCounter g (.element node identifier index)).ge
      refine (performed.after (.refl s) (.refl _ _) (older.trans (Nat.le_succ _))).andThen older
        fun position s₁ locals₁ at₁ _ kept holds => ?_
      have read : (s₁.cell llir (activation.frameAt (generateExpression (g.lookup
          (.element node identifier index)).2.newLocalTemporary.2 index).2 locals₁)
          (g.lookup (.element node identifier index)).1 position.toNat).value =
            s₁.world.read llir memory (field.llirField level) position.toNat := by
        rw [result]
        exact (same.kept hm kept).cell stored _ _ _
      rw [show storage c.scopes identifier = some (field.llirField level) from stored]
      dsimp only
      by_cases inside : InBounds position (field.llirField level)
      · have within : InBounds position (g.lookup (.element node identifier index)).1 := by rwa [result]
        rw [if_pos inside, ← read]
        exact performs_access valid named begins at₁ holds fresh counter within
      · rw [if_neg inside]
        trivial

/-- The lowered arguments are performed as the arguments are evaluated. -/
private theorem generateArguments_performs (ready : program.Ready)
    (generated : llirGeneratorGenerateLlir program = some llir) (valid : activation.Valid llir)
    (fits : ContextFits program c) (booleans : LocalsCanonical llir c.scopes memory) (g : LlirGenerator)
    (hm : Matches c.scopes g.symbolTable)
    (arguments : IrArguments) (typed : ImportedArgumentsTyped readyRules c arguments)
    (begins : (generateArguments g arguments).2.Begins activation.blocks) {s : MachineState} {locals : Store}
    (at' : Executing llir activation g s locals) (good : s.world.Good llir)
    (same : SameVariables c.scopes memory locals) :
    Performs llir environment activation (generateArguments g arguments).2 g.temporaryCounter locals s
      (fun values locals' => List.Forall₂ (fun value operand => OperandHolds llir environment locals'
        (generateArguments g arguments).2.temporaryCounter value operand) values (generateArguments g arguments).1)
      (evaluateArguments llir environment (invokeMethod llir environment) c.scopes memory arguments s.world) := by
  cases arguments with
  | nil =>
    unfold evaluateArguments
    exact performs_value (.refl s) at' (.refl _ _) .nil
  | string string rest =>
    cases typed with
    | string h =>
      unfold evaluateArguments
      refine (generateArguments_performs ready generated valid fits booleans g hm rest h begins at' good same).andThen
        le_rfl
        fun values s₁ locals₁ at₁ _ _ holds => ?_
      exact performs_value (.refl s₁) at₁ (.refl _ _) (.cons rfl holds)
  | expression expression rest =>
    cases typed with
    | expression he h =>
      unfold evaluateArguments
      have follows : g.Follows False _ _ := generateExpression_follows g hm expression he
      have growsRest := generateArguments_grows (generateExpression g expression).2 rest
      refine (generateExpression_performs ready generated valid fits booleans g hm expression he
        (growsRest.begins_of begins) at' good same).andThen
        (generateExpression_grows g expression).temporaryCounter fun value s₁ locals₁ at₁ result kept₁ holds₁ => ?_
      have good₁ := (evaluate_good ready generated fits hm booleans expression he good result).1
      refine (generateArguments_performs ready generated valid fits booleans _ (follows.matchesScopes hm) rest h
        begins at₁ good₁
        (same.kept hm kept₁)).andThen le_rfl fun values s₂ locals₂ at₂ _ kept₂ holds₂ => ?_
      exact performs_value (.refl s₂) at₂ (.refl _ _) (.cons (holds₁.kept kept₂ growsRest.temporaryCounter) holds₂)

end

end

/-- In an accepted program, the code of an expression makes the calls of its evaluation, leaves the world of its
evaluation, and its operand holds the value of the expression. Operands that held a value before still hold it. Nothing
is said of an expression that calls a method which enters the declaration of a boolean with a negated `true`, or reads
outside a boolean array: its evaluation is undefined, whatever the method returns. -/
theorem generateExpression_evaluates {program analyzed : IrProgram} (source : program.FromSource)
    (accepted : Accepts program analyzed) {llir : Llir} (generated : llirGeneratorGenerateLlir analyzed = some llir)
    (environment : Environment) {activation : Activation} (valid : activation.Valid llir) {c : Context}
    (fits : ContextFits analyzed c) (g : LlirGenerator) (hm : Matches c.scopes g.symbolTable)
    (expression : IrExpression) {type : IrDataType} (typed : ExpressionTyped readyRules c expression type)
    (begins : (generateExpression g expression).2.Begins activation.blocks) {s : MachineState} {locals : Store}
    (at' : Executing llir activation g s locals) (good : s.world.Good llir)
    (booleans : LocalsCanonical llir c.scopes locals) :
    Performs llir environment activation (generateExpression g expression).2 g.temporaryCounter locals s
      (fun value locals' =>
        OperandHolds llir environment locals' (generateExpression g expression).2.temporaryCounter value
          (generateExpression g expression).1 ∧
        ∀ earlier value', OperandHolds llir environment locals g.temporaryCounter value' earlier →
          OperandHolds llir environment locals' (generateExpression g expression).2.temporaryCounter value' earlier)
      (evaluate llir environment (invokeMethod llir environment) c.scopes locals expression s.world) := by
  have grows := (generateExpression_grows g expression).temporaryCounter
  exact (generateExpression_performs (accepts_ready source accepted) generated valid fits booleans g hm expression typed
    begins at' good fun _ _ _ => rfl).mono fun _ _ kept holds => ⟨holds, fun _ _ earlier => earlier.kept kept grows⟩

/-- `import f; void main() { if (f() == 0 || true) { } }` -/
def callInCondition : IrProgram where
  imports := [{ imported := true, returnType := .int, identifier := "f", arguments := [], block := .mk [] .nil }]
  fields := []
  methods := [{
    imported := false, returnType := .void, identifier := "main", arguments := []
    block := .mk [] (.cons (.ifStatement (.binary .or (.binary .equal (.methodCall "f" .nil)
      (.literal ⟨false, .int, 0, some ⟨false, ['0']⟩⟩)) (.literal ⟨false, .bool, 1, none⟩)) (.mk [] .nil)) .nil) }]

private theorem callInCondition_fromSource : callInCondition.FromSource := by decide +kernel

private theorem callInCondition_accepted : Accepts callInCondition callInCondition := Prod.ext (by decide +kernel) rfl

def callInConditionLlir : Llir := (generateLlir callInCondition).1

def callInConditionStart : LlirGenerator :=
  { llirGeneratorNew.symbolTablePushScope.newBlock.2 with currentBlock := llirBlockNew 0 }

def callInConditionMain : IrMethod := callInCondition.methods.headD ⟨false, .void, "", [], .mk [] .nil⟩

def callInConditionActivation : Activation := generatedActivation llirGeneratorNew callInConditionMain []

def callCondition : IrExpression :=
  .binary .or (.binary .equal (.methodCall "f" .nil) (.literal ⟨false, .int, 0, some ⟨false, ['0']⟩⟩))
    (.literal ⟨false, .bool, 1, none⟩)

def callConditionContext : Context := ⟨[[], []], callInCondition.imports ++ callInCondition.methods⟩

private theorem callCondition_typed : ExpressionTyped readyRules callConditionContext callCondition .bool := by
  have call : ExpressionTyped readyRules callConditionContext (.methodCall "f" .nil) .int := by
    refine .methodCall ?_ (by decide)
    exact @CallTyped.imported _ _ _ _ (callInCondition.imports.headD ⟨false, .void, "", [], .mk [] .nil⟩) rfl rfl rfl
      .nil
  refine .binary (.logical (by decide)) (.binary (.equality (by decide) rfl) call (.literal ?_)) (.literal ?_)
  · exact ⟨⟨by decide, fun bool => by cases bool⟩, fun negate => by cases negate⟩
  · exact ⟨⟨by decide, fun _ => .inr rfl⟩, fun negate => by cases negate⟩

def callInConditionState : MachineState :=
  startMethod quietEnvironment callInConditionActivation.method [] callInConditionLlir.initialGlobals

private theorem callCondition_value (locals : Store) (world : World) :
    evaluate callInConditionLlir quietEnvironment (invokeMethod callInConditionLlir quietEnvironment)
      callConditionContext.scopes locals callCondition world =
        .value 1 { world with calls := world.calls ++ [("f", [])] } := by
  have missing : callInConditionLlir.method "f" = none := by decide +kernel
  simp [callCondition, evaluate, evaluateArguments, Outcome.andThen, invokeMethod, missing, quietEnvironment,
    IrBinaryOperator.apply, IrLiteral.word, boolWord]

private theorem callCondition_begins :
    (generateExpression callInConditionStart callCondition).2.Begins callInConditionActivation.blocks := by
  refine ⟨callInConditionActivation.blocks.getD 2 (llirBlockNew 0), callInConditionActivation.blocks.drop 3,
    by decide +kernel, by decide +kernel, ?_, ?_⟩
  · exact List.isPrefixOf_iff_prefix.mp (by decide +kernel)
  · exact List.isPrefixOf_iff_prefix.mp (by decide +kernel)

/-- A method that is called from outside starts with its first block. -/
private theorem startMethod_executing (llir : Llir) (environment : Environment) {activation : Activation}
    {g : LlirGenerator}
    (values : List Word) (globals : Store) (callers : activation.callers = [])
    (block : (enterMethod environment 0 activation.method values).block = g.currentBlock.id)
    (fresh : g.currentBlock.assignments = []) :
    Executing llir activation g (startMethod environment activation.method values globals)
      (enterMethod environment 0 activation.method values).locals := by
  refine ⟨rfl, ?_, False.elim, False.elim⟩
  rw [callers, ← block, fresh]
  rfl

/-- The condition calls `f` once, and its operand holds `true`. -/
theorem callInCondition_evaluates : ∃ s' locals',
    LeadsTo (step callInConditionLlir quietEnvironment) callInConditionState s' ∧ s'.calls = [("f", [])] ∧
      OperandHolds callInConditionLlir quietEnvironment locals'
        (generateExpression callInConditionStart callCondition).2.temporaryCounter 1
        (generateExpression callInConditionStart callCondition).1 := by
  have noFields : callInConditionLlir.fields = [] := by decide +kernel
  have performed := generateExpression_evaluates callInCondition_fromSource callInCondition_accepted
    (show llirGeneratorGenerateLlir callInCondition = some callInConditionLlir by decide +kernel) quietEnvironment
    (show callInConditionActivation.Valid callInConditionLlir from
      ⟨by decide +kernel, by decide +kernel, by decide +kernel⟩)
    (show ContextFits callInCondition callConditionContext from ⟨rfl, fun method mem => List.mem_append.mp mem⟩)
    callInConditionStart (.cons (by simp) (by simp) (fun _ _ => rfl) (.cons (by simp) (by simp) (fun _ _ => rfl) .nil))
    callCondition callCondition_typed callCondition_begins
    (startMethod_executing callInConditionLlir quietEnvironment [] callInConditionLlir.initialGlobals rfl
      (by decide +kernel) rfl)
    ⟨(initialGlobals_owned ⟨by simp [noFields], by simp [noFields]⟩ (by simp [Llir.GlobalsCanonical, noFields])).1,
      fun field mem => by simp [noFields] at mem⟩
    fun _ _ found => by simp [callConditionContext, storage] at found
  rw [callCondition_value] at performed
  obtain ⟨s', locals', leads, -, world, -, holds, -⟩ := performed
  exact ⟨s', locals', leads, congrArg World.calls world, holds⟩

end Roast
