import Roast.Assembly.CallStack

/-! The meaning of expressions: they are evaluated strictly and from left to right, but for the right side of
`&&` and `||`, which is evaluated only when it is needed. A called method does what its code does. -/
namespace Roast
open Systems

structure World where
  globals : Store
  calls : List Call
  activations : Nat
  strays : Nat

/-- How an evaluation ends. It is `endless` when a call does not come to an end, with the world in which its
method is entered, and `undefined` when a word outside an array is read. -/
inductive Outcome (α : Type) where
  | value (value : α) (world : World)
  | stopped (status : Status) (world : World)
  | endless (world : World)
  | undefined

def Outcome.andThen {α β : Type} (outcome : Outcome α) (next : α → World → Outcome β) : Outcome β :=
  match outcome with
  | .value result world => next result world
  | .stopped status world => .stopped status world
  | .endless world => .endless world
  | .undefined => .undefined

/-- The operators that evaluate both sides. Division truncates towards zero. -/
def IrBinaryOperator.apply (operator : IrBinaryOperator) (left right : Word) : Option Word :=
  match operator with
  | .equal => some (boolWord (left = right))
  | .notEqual => some (boolWord (left ≠ right))
  | .less => some (boolWord (left.toInt < right.toInt))
  | .lessEqual => some (boolWord (left.toInt ≤ right.toInt))
  | .greaterEqual => some (boolWord (right.toInt ≤ left.toInt))
  | .greater => some (boolWord (right.toInt < left.toInt))
  | .add => some (left + right)
  | .sub => some (left - right)
  | .mul => some (left * right)
  | .div => if divisionTraps left right then none else some (BitVec.ofInt 64 (left.toInt.tdiv right.toInt))
  | .mod => if divisionTraps left right then none else some (BitVec.ofInt 64 (left.toInt.tmod right.toInt))
  | .or | .and => none

def IrLiteral.word (literal : IrLiteral) : Word :=
  if literal.negate then -literal.value else literal.value

section
variable (llir : Llir) (environment : Environment) (invoke : World → String → List Word → Outcome Word)
  (scopes : List (List IrField)) (locals : Store)

def World.read (world : World) (field : LlirField) (position : Nat) : Word :=
  if llir.IsGlobal field.identifier then (world.globals field.identifier position).value
  else (locals field.identifier position).value

mutual

def evaluate : IrExpression → World → Outcome Word
  | .binary operator left right, world =>
    (evaluate left world).andThen fun leftValue world =>
      if operator = .or then if leftValue = 0 then evaluate right world else .value 1 world
      else if operator = .and then if leftValue = 0 then .value 0 world else evaluate right world
      else (evaluate right world).andThen fun rightValue world =>
        match operator.apply leftValue rightValue with
        | some value => .value value world
        | none => .stopped .trapped world
  | .not expression, world => (evaluate expression world).andThen fun value world => .value (boolWord (value = 0)) world
  | .negate expression, world => (evaluate expression world).andThen fun value world => .value (-value) world
  | .len _ length, world => .value (BitVec.ofInt 64 length) world
  | .methodCall identifier arguments, world =>
    (evaluateArguments arguments world).andThen fun values world => invoke world identifier values
  | .literal literal, world => .value literal.word world
  | .location location, world => evaluateLocation location world

def evaluateLocation : IrLocation → World → Outcome Word
  | .scalar _ identifier, world =>
    match storage scopes identifier with
    | some field => .value (world.read llir locals field 0) world
    | none => .undefined
  | .element _ identifier index, world =>
    (evaluate index world).andThen fun position world =>
      match storage scopes identifier with
      | some field =>
        if InBounds position field then .value (world.read llir locals field position.toNat) world else .undefined
      | none => .undefined

def evaluateArguments : IrArguments → World → Outcome (List Word)
  | .nil, world => .value [] world
  | .string string rest, world => (evaluateArguments rest world).andThen fun values world =>
    .value (environment.stringAddress string :: values) world
  | .expression expression rest, world => (evaluate expression world).andThen fun value world =>
    (evaluateArguments rest world).andThen fun values world => .value (value :: values) world

end

end

def MachineState.world (s : MachineState) : World := ⟨s.globals, s.calls, s.activations, s.strays⟩

section
variable (llir : Llir) (environment : Environment)

def World.enter (world : World) (callee : LlirMethod) (values : List Word) : MachineState where
  status := .running
  frames := [enterMethod environment world.activations callee values]
  globals := world.globals
  calls := world.calls
  activations := world.activations + 1
  strays := world.strays

def MachineState.outcome (s : MachineState) : Outcome Word :=
  match s.status with
  | .returned value => .value value s.world
  | status => .stopped status s.world

open Classical in
/-- The outcome of a method is that of its code. It is not defined when the method, or one that it calls, enters the
declaration of a boolean with a negated `true` or reads outside a boolean array: a boolean need not be 0 or 1 then. -/
noncomputable def executeMethod (world : World) (callee : LlirMethod) (values : List Word) : Outcome Word :=
  if ∀ n, AllowedStep llir environment True ((step llir environment)^[n] (world.enter environment callee values)) then
    if stops : ∃ n, ((step llir environment)^[n] (world.enter environment callee values)).Halted then
      ((step llir environment)^[(exists_stopsIn stops).choose] (world.enter environment callee values)).outcome
    else .endless (world.enter environment callee values).world
  else .undefined

noncomputable def invokeMethod (world : World) (name : String) (values : List Word) : Outcome Word :=
  let world := { world with calls := world.calls ++ [(name, values)] }
  match llir.method name with
  | some callee =>
    if callee.arguments.length = values.length then executeMethod llir environment world callee values else .undefined
  | none =>
    match environment.imported world.calls with
    | .returned value => .value value world
    | .exited status => .stopped (.exited status) world
    | .hung => .stopped .hung world

end

/-- An imported method takes what a method of the program takes. -/
theorem ArgumentsTyped.imported {r : Rules} {c : Context} {fields : List IrField} {arguments : IrArguments}
    (h : ArgumentsTyped r c fields arguments) : ImportedArgumentsTyped r c arguments := by
  cases h with
  | nil => exact .nil
  | expression he h => exact .expression he h.imported

private theorem sdiv_eq_tdiv (left right : Word) : left.sdiv right = BitVec.ofInt 64 (left.toInt.tdiv right.toInt) := by
  apply BitVec.eq_of_toInt_eq
  rw [BitVec.toInt_sdiv, BitVec.toInt_ofInt]

private theorem srem_eq_tmod (left right : Word) : left.srem right = BitVec.ofInt 64 (left.toInt.tmod right.toInt) := by
  rw [← BitVec.toInt_srem, BitVec.ofInt_toInt]

/-- The assignment type of an operator computes what the operator means. -/
theorem irOperatorToAssignmentType_apply {operator : IrBinaryOperator} (both : ¬ (operator = .or ∨ operator = .and))
    (left right : Word) : (irOperatorToAssignmentType operator).apply left right = operator.apply left right := by
  cases operator with
  | or => exact absurd (.inl rfl) both
  | and => exact absurd (.inr rfl) both
  | add | sub | mul => rfl
  | less | lessEqual | greater | greaterEqual => rfl
  | equal =>
    show some (boolWord (left == right)) = some (boolWord (left = right))
    rw [beq_eq_decide]
  | notEqual =>
    show some (boolWord (left != right)) = some (boolWord (left ≠ right))
    rw [bne, beq_eq_decide, decide_not]
  | div =>
    show (if divisionTraps left right then none else some (left.sdiv right)) = _
    rw [sdiv_eq_tdiv]
    rfl
  | mod =>
    show (if divisionTraps left right then none else some (left.srem right)) = _
    rw [srem_eq_tmod]
    rfl

theorem literalToInt64_eq (literal : IrLiteral) : literalToInt64 literal = literal.word := by
  unfold literalToInt64 IrLiteral.word
  cases literal.negate with
  | false => simp
  | true =>
    by_cases least : literal.value = 1 <<< 63
    · rw [least]
      decide
    · rw [if_pos ⟨rfl, least⟩, if_pos rfl]
      exact mul_neg_one literal.value

section
variable {llir : Llir} {environment : Environment} {program : IrProgram}

/-- The boolean globals hold 0 or 1, each written through its declaration. -/
structure World.Good (llir : Llir) (world : World) : Prop where
  canonical : world.globals.Canonical
  owned : GlobalsOwned llir world.globals

def LocalsCanonical (llir : Llir) (scopes : List (List IrField)) (locals : Store) : Prop :=
  ∀ identifier field, storage scopes identifier = some field → ¬ llir.IsGlobal field.identifier → field.IsBool →
    ∀ position : Nat, position < field.valueCount → CanonicalWord (locals field.identifier position).value

/-- A name that denotes a global denotes a field of the program. -/
private theorem Matches.global_mem {scopes : List (List IrField)} {tables : List (List (String × LlirField))}
    (lowered : Lowered program llir) (hm : Matches scopes tables) (bottom : scopes.getLast? = some program.fields)
    {identifier : String} {field : LlirField} (found : storage scopes identifier = some field)
    (isGlobal : llir.IsGlobal field.identifier) : field ∈ llir.fields := by
  induction hm with
  | nil => simp [storage] at found
  | @cons scope scopes _ _ ready _ _ _ ih =>
    unfold storage at found
    split at found
    · rename_i declaration declared
      obtain rfl := Option.some.inj found
      have mem := List.mem_of_find?_eq_some declared
      cases scopes with
      | nil =>
        obtain rfl : scope = program.fields := by simpa using bottom
        exact lowered.fields ▸ List.mem_map_of_mem mem
      | cons scope' scopes =>
        exact absurd isGlobal (lowered.named.not_isGlobal (llirField_not_identifier (Nat.succ_pos _) _))
    · cases scopes with
      | nil => simp [storage] at found
      | cons scope' scopes => exact ih (by simpa using bottom) found

/-- A declared bool reads as 0 or 1. -/
private theorem World.Good.read_canonical {scopes : List (List IrField)} {tables : List (List (String × LlirField))}
    {locals : Store} {world : World} (lowered : Lowered program llir) (hm : Matches scopes tables)
    (bottom : scopes.getLast? = some program.fields) (good : world.Good llir)
    (booleans : LocalsCanonical llir scopes locals) {identifier : String} {field : LlirField}
    (found : storage scopes identifier = some field) (bool : field.IsBool) {position : Nat}
    (small : position < field.valueCount) : CanonicalWord (world.read llir locals field position) := by
  unfold World.read
  by_cases isGlobal : llir.IsGlobal field.identifier
  · rw [if_pos isGlobal]
    have mem := hm.global_mem lowered bottom found isGlobal
    exact good.canonical _ _ field (.inr (good.owned field mem position small)) bool
  · rw [if_neg isGlobal]
    exact booleans identifier field found isGlobal bool position small

/-- A call that returns a value keeps to the allowed steps and returns to a good world. -/
private theorem executeMethod_value {world world' : World} {callee : LlirMethod} {values : List Word} {value : Word}
    (result : executeMethod llir environment world callee values = .value value world') :
    (∀ n, AllowedStep llir environment True ((step llir environment)^[n] (world.enter environment callee values))) ∧
      ∃ n, ((step llir environment)^[n] (world.enter environment callee values)).world = world' ∧
        Returns llir environment ((step llir environment)^[n] (world.enter environment callee values)) value ∧
        ((step llir environment)^[n] (world.enter environment callee values)).bottom = some callee.identifier := by
  unfold executeMethod at result
  split at result
  · rename_i allowed
    refine ⟨allowed, ?_⟩
    split at result
    · rename_i stops
      have first := (exists_stopsIn stops).choose_spec
      generalize (exists_stopsIn stops).choose = n at first result
      cases n with
      | zero => exact absurd rfl first.stopped
      | succ n =>
        have nonempty : (world.enter environment callee values).frames ≠ [] := List.cons_ne_nil _ _
        obtain ⟨-, other⟩ | ⟨returned, returns, stopped, -⟩ := stopsIn_above [] nonempty first
        · exfalso
          unfold MachineState.outcome at result
          split at result
          · rename_i found
            exact other _ found
          · cases result
        · rw [stopped] at result
          obtain ⟨rfl, rfl⟩ : returned = value ∧ _ = world' := by
            simpa only [MachineState.outcome, Outcome.value.injEq] using result
          refine ⟨n, rfl, returns, ?_⟩
          exact (iterate_above [] nonempty fun m hm => not_not.mp (first.running m (Nat.lt_succ_of_le hm))).2.2
    · cases result
  · cases result

/-- A method that is called with booleans 0 or 1 leaves booleans 0 or 1. -/
private theorem executeMethod_good (ready : program.Ready) (generated : llirGeneratorGenerateLlir program = some llir)
    {method : IrMethod} (mem : method ∈ program.methods) {callee : LlirMethod}
    (found : llir.method method.identifier = some callee) {world world' : World} {values : List Word} {value : Word}
    (good : world.Good llir)
    (arguments : List.Forall₂ (fun (field : IrField) value => field.type = .bool → CanonicalWord value)
      method.arguments values)
    (result : executeMethod llir environment world callee values = .value value world') :
    world'.Good llir ∧ (method.returnType = .bool → CanonicalWord value) := by
  obtain ⟨allowed, n, rfl, ⟨running, frame, block, source, frames, code, done, terminal, rfl⟩, bottom⟩ :=
    executeMethod_value result
  obtain ⟨callee', found', -, enter⟩ := ready.callsSafe generated environment True (n + 1) n (Nat.lt_succ_self n)
    method mem
  obtain rfl := Option.some.inj (found'.symm.trans found)
  -- the run of the method alone is safe, and its end too
  have safe : Safe llir environment program True n (world.enter environment callee' values) := by
    refine enter ⟨.running, [], world.globals, world.calls, world.activations, world.strays⟩ values [] rfl
      (fun _ => ⟨good.canonical, good.owned⟩) (by simp) (arguments.imp fun _ _ bool _ => bool)
      fun m _ s status globals value bool => ?_
    have stopped : (returnValue llir s [] value).status ≠ .running := by simp [returnValue]
    exact safeFor_of_fixed ⟨globals, by simp [returnValue], fun running => absurd running stopped,
      fun running => absurd running stopped⟩ (step_stopped stopped) m
  have last := safe.run_good fun m _ => allowed m
  refine ⟨⟨(last.globals trivial).1, (last.globals trivial).2⟩, fun bool => ?_⟩
  have name : method.identifier = frame.method := by
    have same : callee'.identifier = method.identifier := by simpa using List.find?_some found'
    rw [MachineState.bottom, frames] at bottom
    rw [← same]
    exact (Option.some.inj bottom).symm
  have head : ((step llir environment)^[n] (world.enter environment callee' values)).frames.head? = some frame := by
    rw [frames]
    rfl
  exact (last.terminal running frame head block code done).returns trivial source terminal ⟨method, mem, name, bool⟩

private theorem Outcome.andThen_value {α β : Type} {outcome : Outcome α} {next : α → World → Outcome β} {result : β}
    {world' : World} (h : outcome.andThen next = .value result world') :
    ∃ first world, outcome = .value first world ∧ next first world = .value result world' := by
  cases outcome with
  | value first world => exact ⟨first, world, rfl, h⟩
  | stopped | endless | undefined => cases h

private theorem invokeMethod_imported_good {name : String} (missing : llir.method name = none) {world world' : World}
    {values : List Word} {value : Word} (good : world.Good llir)
    (result : invokeMethod llir environment world name values = .value value world') : world'.Good llir := by
  unfold invokeMethod at result
  rw [missing] at result
  dsimp only at result
  split at result
  · cases result
    exact ⟨good.canonical, good.owned⟩
  · cases result
  · cases result

/-- A call of a method of the program keeps the world good, and returns 0 or 1 for a bool. -/
private theorem invokeMethod_declared_good (ready : program.Ready)
    (generated : llirGeneratorGenerateLlir program = some llir)
    {method : IrMethod} (mem : method ∈ program.methods) {world world' : World} {values : List Word} {value : Word}
    (good : world.Good llir)
    (arguments : List.Forall₂ (fun (field : IrField) value => field.type = .bool → CanonicalWord value)
      method.arguments values)
    (result : invokeMethod llir environment world method.identifier values = .value value world') :
    world'.Good llir ∧ (method.returnType = .bool → CanonicalWord value) := by
  unfold invokeMethod at result
  obtain ⟨callee, found, -, -⟩ := ready.callsSafe generated environment True 1 0 Nat.zero_lt_one method mem
  rw [found] at result
  dsimp only at result
  split at result
  · have same : World.Good llir { world with calls := world.calls ++ [(method.identifier, values)] } :=
      ⟨good.canonical, good.owned⟩
    exact executeMethod_good ready generated mem found same arguments result
  · cases result

private theorem binary_apply_canonical {operator : IrBinaryOperator} {operand : IrDataType}
    (typed : OperatorTyped operator operand .bool) (both : ¬ (operator = .or ∨ operator = .and))
    {left right value : Word} (result : operator.apply left right = some value) : CanonicalWord value := by
  rw [← irOperatorToAssignmentType_apply both] at result
  exact canonicalWord_of_operator typed both result

section
variable {c : Context} {tables : List (List (String × LlirField))} {locals : Store}

mutual

/-- Evaluation keeps booleans 0 or 1, and gives 0 or 1 for an expression of type `bool`. -/
theorem evaluate_good (ready : program.Ready) (generated : llirGeneratorGenerateLlir program = some llir)
    (fits : ContextFits program c) (hm : Matches c.scopes tables)
    (booleans : LocalsCanonical llir c.scopes locals) (expression : IrExpression) {type : IrDataType}
    (typed : ExpressionTyped readyRules c expression type) {world world' : World} {value : Word}
    (good : world.Good llir)
    (result : evaluate llir environment (invokeMethod llir environment) c.scopes locals expression world =
      .value value world') : world'.Good llir ∧ (type = .bool → CanonicalWord value) := by
  cases expression with
  | binary operator left right =>
    cases typed with
    | binary op hl hr =>
      unfold evaluate at result
      obtain ⟨leftValue, world₁, first, result⟩ := Outcome.andThen_value result
      obtain ⟨good₁, -⟩ := evaluate_good ready generated fits hm booleans left hl good first
      by_cases both : operator = .or ∨ operator = .and
      · obtain ⟨rfl, rfl⟩ := operatorTyped_shortCircuit op both
        have rightGood (second : evaluate llir environment (invokeMethod llir environment) c.scopes locals right
            world₁ = .value value world') := evaluate_good ready generated fits hm booleans right hr good₁ second
        obtain rfl | rfl := both
        · simp only [if_true] at result
          split at result
          · exact rightGood result
          · cases result
            exact ⟨good₁, fun _ => .inr rfl⟩
        · simp only [reduceCtorEq, if_false, if_true] at result
          split at result
          · cases result
            exact ⟨good₁, fun _ => .inl rfl⟩
          · exact rightGood result
      · rw [if_neg (not_or.mp both).1, if_neg (not_or.mp both).2] at result
        obtain ⟨rightValue, world₂, second, result⟩ := Outcome.andThen_value result
        obtain ⟨good₂, -⟩ := evaluate_good ready generated fits hm booleans right hr good₁ second
        split at result
        · rename_i applied
          cases result
          refine ⟨good₂, fun bool => ?_⟩
          subst bool
          exact binary_apply_canonical op both applied
        · cases result
  | not expression =>
    cases typed with
    | not h =>
      unfold evaluate at result
      obtain ⟨inner, world₁, first, result⟩ := Outcome.andThen_value result
      cases result
      exact ⟨(evaluate_good ready generated fits hm booleans expression h good first).1, fun _ =>
        canonicalWord_boolWord _⟩
  | negate expression =>
    cases typed with
    | negate h =>
      unfold evaluate at result
      obtain ⟨inner, world₁, first, result⟩ := Outcome.andThen_value result
      cases result
      exact ⟨(evaluate_good ready generated fits hm booleans expression h good first).1, fun int => by cases int⟩
  | len identifier length =>
    cases typed with
    | len found array =>
      unfold evaluate at result
      cases result
      exact ⟨good, fun int => by cases int⟩
  | methodCall identifier arguments =>
    cases typed with
    | methodCall h value =>
      unfold evaluate at result
      obtain ⟨values, world₁, first, result⟩ := Outcome.andThen_value result
      cases h with
      | imported unshadowed found flag h =>
        obtain ⟨missing, int⟩ := fits.imported (ready.lowered generated) found flag
        have good₁ := evaluateImportedArguments_good ready generated fits hm booleans arguments h good first
        refine ⟨invokeMethod_imported_good missing good₁ result, fun bool => ?_⟩
        rw [int] at bool
        cases bool
      | declared unshadowed found flag h =>
        obtain ⟨mem, rfl⟩ := fits.declared (ready.lowered generated) found flag
        obtain ⟨good₁, canonical⟩ := evaluateArguments_good ready generated fits hm booleans arguments h good first
        exact invokeMethod_declared_good ready generated mem good₁ canonical result
  | literal literal =>
    cases typed with
    | literal h =>
      unfold evaluate at result
      cases result
      refine ⟨good, fun bool => ?_⟩
      have isBool : literal.type = .bool := by
        cases htype : literal.type <;> simp [htype, IrLiteralType.dataType] at bool ⊢
      rw [← literalToInt64_eq]
      refine literalToInt64_bool h.1 isBool ?_
      cases hnegate : literal.negate with
      | false => rfl
      | true =>
        have := h.2 hnegate
        simp [isBool] at this
  | location location =>
    cases typed with
    | location h =>
      unfold evaluate at result
      exact evaluateLocation_good ready generated fits hm booleans location h good result

/-- Reading a location keeps the world good, and a bool reads as 0 or 1. -/
private theorem evaluateLocation_good (ready : program.Ready)
    (generated : llirGeneratorGenerateLlir program = some llir) (fits : ContextFits program c)
    (hm : Matches c.scopes tables) (booleans : LocalsCanonical llir c.scopes locals) (location : IrLocation)
    {field : IrField} {type : IrDataType}
    (typed : LocationTyped readyRules c location field type) {world world' : World} {value : Word}
    (good : world.Good llir)
    (result : evaluateLocation llir environment (invokeMethod llir environment) c.scopes locals location world =
      .value value world') : world'.Good llir ∧ (type = .bool → CanonicalWord value) := by
  have lowered := ready.lowered generated
  cases location with
  | scalar node identifier =>
    cases typed with
    | scalar found =>
      obtain ⟨fieldReady, -, level, -, stored⟩ := hm.field c.methods found
      unfold evaluateLocation at result
      rw [stored] at result
      cases result
      refine ⟨good, fun bool =>
        good.read_canonical lowered hm fits.bottom booleans stored ⟨field, rfl, ?_⟩ fieldReady.positive⟩
      rw [bool]
      rfl
  | element node identifier index =>
    cases typed with
    | element found array h =>
      obtain ⟨fieldReady, -, level, -, stored⟩ := hm.field c.methods found
      unfold evaluateLocation at result
      obtain ⟨position, world₁, first, result⟩ := Outcome.andThen_value result
      obtain ⟨good₁, -⟩ := evaluate_good ready generated fits hm booleans index h good first
      rw [stored] at result
      dsimp only at result
      split at result
      · rename_i inside
        cases result
        exact ⟨good₁, fun bool =>
          good₁.read_canonical lowered hm fits.bottom booleans stored ⟨field, rfl, bool⟩ inside⟩
      · cases result

private theorem evaluateImportedArguments_good (ready : program.Ready)
    (generated : llirGeneratorGenerateLlir program = some llir) (fits : ContextFits program c)
    (hm : Matches c.scopes tables) (booleans : LocalsCanonical llir c.scopes locals) (arguments : IrArguments)
    (typed : ImportedArgumentsTyped readyRules c arguments) {world world' : World} {values : List Word}
    (good : world.Good llir)
    (result : evaluateArguments llir environment (invokeMethod llir environment) c.scopes locals arguments world =
      .value values world') : world'.Good llir := by
  cases arguments with
  | nil =>
    unfold evaluateArguments at result
    cases result
    exact good
  | string string rest =>
    cases typed with
    | string h =>
      unfold evaluateArguments at result
      obtain ⟨values, world₁, first, result⟩ := Outcome.andThen_value result
      cases result
      exact evaluateImportedArguments_good ready generated fits hm booleans rest h good first
  | expression expression rest =>
    cases typed with
    | expression he h =>
      unfold evaluateArguments at result
      obtain ⟨value, world₁, first, result⟩ := Outcome.andThen_value result
      obtain ⟨values, world₂, second, result⟩ := Outcome.andThen_value result
      cases result
      exact evaluateImportedArguments_good ready generated fits hm booleans rest h
        (evaluate_good ready generated fits hm booleans expression he good first).1 second

/-- Evaluating arguments keeps the world good, and each bool is 0 or 1. -/
private theorem evaluateArguments_good (ready : program.Ready)
    (generated : llirGeneratorGenerateLlir program = some llir) (fits : ContextFits program c)
    (hm : Matches c.scopes tables) (booleans : LocalsCanonical llir c.scopes locals) (arguments : IrArguments)
    {fields : List IrField}
    (typed : ArgumentsTyped readyRules c fields arguments) {world world' : World} {values : List Word}
    (good : world.Good llir)
    (result : evaluateArguments llir environment (invokeMethod llir environment) c.scopes locals arguments world =
      .value values world') :
    world'.Good llir ∧
      List.Forall₂ (fun (field : IrField) value => field.type = .bool → CanonicalWord value) fields values := by
  cases arguments with
  | nil =>
    cases typed
    unfold evaluateArguments at result
    cases result
    exact ⟨good, .nil⟩
  | string string rest => cases typed
  | expression expression rest =>
    cases typed with
    | expression he h =>
      unfold evaluateArguments at result
      obtain ⟨value, world₁, first, result⟩ := Outcome.andThen_value result
      obtain ⟨values, world₂, second, result⟩ := Outcome.andThen_value result
      cases result
      obtain ⟨good₁, canonical⟩ := evaluate_good ready generated fits hm booleans expression he good first
      obtain ⟨good₂, rest⟩ := evaluateArguments_good ready generated fits hm booleans rest h good₁ second
      exact ⟨good₂, .cons canonical rest⟩

end

end

end

end Roast
