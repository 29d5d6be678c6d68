import Roast.Assembly.SafeStatements
import Roast.Systems.Loops

/-! Every run of a lowered program is safe: its methods are, whatever they are called with. -/
namespace Roast
open LlirGenerator Systems

section
variable {fields : List LlirField} {values : List Word} {store : Store}

def bindArguments (store : Store) (arguments : List (LlirField × Word)) : Store :=
  arguments.foldl (fun store argument => store.set argument.1.identifier 0 ⟨argument.2, .argument argument.1⟩) store

theorem bindArguments_other {arguments : List (LlirField × Word)} (store : Store) {name : String}
    (other : ∀ argument ∈ arguments, argument.1.identifier ≠ name) (position : Nat) :
    bindArguments store arguments name position = store name position := by
  induction arguments generalizing store with
  | nil => rfl
  | cons argument rest ih =>
    rw [bindArguments, List.foldl_cons]
    refine (ih _ fun other' mem => other other' (List.mem_cons_of_mem _ mem)).trans ?_
    have differ : ¬ (name = argument.1.identifier ∧ position = 0) :=
      fun same => other argument (List.mem_cons_self ..) same.1.symm
    exact if_neg differ

/-- A parameter holds its argument. -/
theorem bindArguments_origin {arguments : List (LlirField × Word)} (store : Store)
    (distinct : (arguments.map fun argument => argument.1.identifier).Nodup) {argument : LlirField × Word}
    (mem : argument ∈ arguments) :
    bindArguments store arguments argument.1.identifier 0 = ⟨argument.2, .argument argument.1⟩ := by
  induction arguments generalizing store with
  | nil => cases mem
  | cons first rest ih =>
    obtain ⟨fresh, distinct⟩ := List.nodup_cons.mp distinct
    rw [bindArguments, List.foldl_cons]
    obtain rfl | mem := List.mem_cons.mp mem
    · refine (bindArguments_other _ (fun other mem same => fresh ?_) 0).trans (if_pos ⟨rfl, rfl⟩)
      exact List.mem_map.mpr ⟨other, mem, same⟩
    · exact ih _ distinct mem

private theorem bindArguments_canonical {arguments : List (LlirField × Word)} {store : Store} (h : store.Canonical)
    (canonical : ∀ argument ∈ arguments, argument.1.IsBool → CanonicalWord argument.2) :
    (bindArguments store arguments).Canonical := by
  induction arguments generalizing store with
  | nil => exact h
  | cons first rest ih =>
    obtain ⟨head, tail⟩ := List.forall_mem_cons.mp canonical
    rw [bindArguments, List.foldl_cons]
    refine ih (fun name position => ?_) tail
    unfold Store.set
    split
    · rintro field (same | same) bool
      · cases same
        exact head bool
      · cases same
    · exact h name position

end

structure MethodSite (program : IrProgram) (g : LlirGenerator) (c : Context) (method : IrMethod) : Prop where
  matchesScopes : Matches c.scopes g.symbolTable
  scopes : c.scopes = [program.fields]
  methods : ∀ method ∈ c.methods, method ∈ program.imports ∨ method ∈ program.methods
  typed : BlockTyped readyRules method.returnType c False method.arguments method.block
  rests : g.Rests

theorem MethodSite.fits {program : IrProgram} {g : LlirGenerator} {c : Context} {method : IrMethod}
    (site : MethodSite program g c method) : ContextFits program c :=
  ⟨by rw [site.scopes]; rfl, site.methods⟩

/-- Every method of a program is generated at some site. -/
private theorem generateMethods_sites {program : IrProgram} {methods : List IrMethod} {g : LlirGenerator} {c : Context}
    (hm : Matches c.scopes g.symbolTable) (scopes : c.scopes = [program.fields])
    (known : ∀ method ∈ c.methods, method ∈ program.imports ∨ method ∈ program.methods)
    (declared : ∀ method ∈ methods, method ∈ program.methods) (typed : MethodsTyped readyRules c methods)
    (rests : g.Rests) :
    ((generateMethods g methods).2.failed = false → g.failed = false) ∧
      ∀ method ∈ methods, ∃ g' c', MethodSite program g' c' method ∧
        (generateMethod g' method).1 ∈ (generateMethods g methods).1 ∧
        ((generateMethods g methods).2.failed = false → (generateMethod g' method).2.failed = false) := by
  induction methods generalizing g c with
  | nil => exact ⟨id, by simp⟩
  | cons method rest ih =>
    cases typed with
    | cons hmethod hrest =>
      have follows : g.Follows False _ _ :=
        generateMethod_follows (c := ⟨c.scopes, c.methods ++ [method]⟩) hm hmethod False.elim
      have known' : ∀ other ∈ c.methods ++ [method], other ∈ program.imports ∨ other ∈ program.methods := by
        intro other mem
        obtain mem | mem := List.mem_append.mp mem
        · exact known other mem
        · exact .inr (List.mem_singleton.mp mem ▸ declared method (List.mem_cons_self ..))
      obtain ⟨succeeds, sites⟩ := ih (c := ⟨c.scopes, c.methods ++ [method]⟩) (follows.matchesScopes hm) scopes known'
        (fun other mem => declared other (List.mem_cons_of_mem _ mem)) hrest
        (generateMethod_rests (c := ⟨c.scopes, c.methods ++ [method]⟩) hm hmethod rests).1
      refine ⟨fun done => ?_, List.forall_mem_cons.mpr ⟨?_, fun other mem => ?_⟩⟩
      · exact (generateMethod_keeps g method).1 (succeeds done)
      · exact ⟨g, ⟨c.scopes, c.methods ++ [method]⟩, ⟨hm, scopes, known', hmethod, rests⟩,
          List.mem_cons_self .., succeeds⟩
      · obtain ⟨g', c', site, mem', done⟩ := sites other mem
        exact ⟨g', c', site, List.mem_cons_of_mem _ mem', done⟩

/-- The frame of a call of a generated method. -/
private theorem enterMethod_owned {fields : List LlirField} {arguments : List IrField} {values : List Word}
    {level : Nat}
    (same : fields = arguments.map (IrField.llirField level)) (length : values.length = arguments.length)
    (distinct : (arguments.map IrField.identifier).Nodup) (ready : ∀ field ∈ arguments, field.Ready)
    (scalar : ∀ field ∈ arguments, field.type.isArray = false) (positive : 0 < level) (store : Store)
    {field : IrField} (mem : field ∈ arguments) {position : Nat} (small : position < field.arrayLength) :
    (bindArguments store (fields.zip values) (field.llirField level).identifier position).BelongsTo fields
      (field.llirField level) := by
  have zero : position = 0 := by
    have one := (ready field mem).scalar (scalar field mem)
    omega
  have mem' : field.llirField level ∈ fields := same ▸ List.mem_map_of_mem mem
  have names : ((fields.zip values).map fun argument => argument.1.identifier).Nodup := by
    have first : (fields.zip values).map Prod.fst = fields := List.map_fst_zip (by simp [same, length])
    have split : (fields.zip values).map (fun argument => argument.1.identifier) =
        ((fields.zip values).map Prod.fst).map LlirField.identifier := by rw [List.map_map]; rfl
    rw [split, first, same, List.map_map]
    refine List.Nodup.map_on (fun a ha b hb equal => ?_) distinct.of_map
    have name := (llirField_identifier_inj positive positive (ready a ha).identifier (ready b hb).identifier equal).2
    exact List.inj_on_of_nodup_map distinct ha hb name
  obtain ⟨i, hi, rfl⟩ := List.mem_iff_getElem.mp mem
  have hf : i < fields.length := by rw [same, List.length_map]; exact hi
  have hv : i < values.length := by rw [length]; exact hi
  have element : fields[i] = arguments[i].llirField level := by simp [same]
  have pair : (arguments[i].llirField level, values[i]) ∈ fields.zip values := by
    rw [← element]
    exact List.mem_iff_getElem.mpr ⟨i, by simp [hf, hv], by simp⟩
  rw [zero]
  exact .inr ⟨by rw [bindArguments_origin store names pair], mem'⟩

section
variable {llir : Llir} {environment : Environment} {program : IrProgram} {canonical : Prop}
  (lowered : Lowered program llir) {N : Nat} (calls : CallsSafe llir environment program canonical N)
include lowered calls

def generatedActivation (g : LlirGenerator) (method : IrMethod) (callers : List Frame) : Activation where
  method := (generateMethod g method).1
  blocks := ((generateMethodBody g method).setTerminal (methodEnd method)).layout
  predecessors := ((generateMethodBody g method).setTerminal (methodEnd method)).predecessors
  callers := callers

omit lowered calls in
theorem generatedActivation_valid {g : LlirGenerator} {c : Context} {method : IrMethod} {callers : List Frame}
    (site : MethodSite program g c method) (found : llir.method method.identifier = some (generateMethod g method).1) :
    (generatedActivation g method callers).Valid llir := by
  refine ⟨found, rfl, ?_⟩
  have laid := generateMethodBody_laid site.matchesScopes site.typed site.rests
  have distinct := laid.distinct
  rw [List.append_nil] at distinct
  have same : (generatedActivation g method callers).blocks.map LlirBlock.id = (generateMethodBody g method).ids := by
    simp [generatedActivation, LlirGenerator.layout, LlirGenerator.ids, LlirGenerator.setTerminal]
  rw [same]
  exact distinct

/-- A call of a generated method is safe when its return is. -/
private theorem method_safe {g : LlirGenerator} {c : Context} {method : IrMethod} (site : MethodSite program g c method)
    (mem : method ∈ program.methods)
    (found : llir.method method.identifier = some (generateMethod g method).1)
    (succeeds : (generateMethod g method).2.failed = false) {n : Nat} (hn : n ≤ N) {s : MachineState}
    {values : List Word} {callers : List Frame} (status : s.status = .running)
    (globals : canonical → s.globals.Canonical ∧ GlobalsOwned llir s.globals)
    (suspended : canonical → ∀ frame ∈ callers, frame.locals.Canonical)
    (arguments : List.Forall₂ (fun (field : IrField) value => canonical → field.type = .bool → CanonicalWord value)
      method.arguments values)
    (resumes : Resumes llir environment program canonical N method callers) :
    Safe llir environment program canonical n (enterCall environment s (generateMethod g method).1 values callers) := by
  have hm := site.matchesScopes
  have fits := site.fits
  have valid : (generatedActivation g method callers).Valid llir := generatedActivation_valid site found
  obtain ⟨argumentFields, ready⟩ := generateMethod_arguments hm site.typed
  have typed := site.typed
  cases hblock : method.block with
  | mk fields statements =>
    rw [hblock] at typed
    cases typed with
    | mk scope typed =>
      have nonempty : c.scopes ≠ [] := by simp [site.scopes]
      have distinct := scope.distinct
      rw [List.map_append, List.nodup_append] at distinct
      obtain ⟨-, start⟩ := generateMethodStart_laid hm distinct.1 ready site.rests
      have readyFields (field : IrField) (mem : field ∈ fields) : field.Ready :=
        scope.field field (List.mem_append_right _ mem)
      obtain ⟨-, hm'⟩ : Declares False _ _ ∧ _ := generateBlockFields_declares start scope.distinct readyFields False.elim
      rw [map_analyzed scope.field] at typed
      have body : generateMethodBody g method = generateStatements (fields.foldl generateBlockField
          (generateMethodStart g method)) none statements := by
        rw [generateMethodBody, hblock]
        rfl
      have growsBody := generateStatements_grows (fields.foldl generateBlockField (generateMethodStart g method)) none
        statements
      have begins : (generateStatements (fields.foldl generateBlockField (generateMethodStart g method)) none
          statements).Begins (generatedActivation g method callers).blocks := by
        rw [← body]
        exact ⟨_, [], rfl, rfl, List.prefix_rfl, List.prefix_rfl⟩
      have succeedsBody : (generateStatements (fields.foldl generateBlockField (generateMethodStart g method)) none
          statements).failed = false := by
        rw [← body]
        exact (assert_grows ((generateMethodBody g method).setTerminal (methodEnd method)) _).succeeds succeeds
      -- the frame starts in the first block
      have first : ((generateMethod g method).1.blocks.head?.map LlirBlock.id).getD 0 =
          (generateMethodStart g method).currentBlock.id := by
        obtain ⟨current, rest, blocks, growth⟩ := ((generateBlockFields_grows fields _).trans growsBody).begins_of begins
        have valid' := valid.blocks
        have split : (generateMethod g method).1.blocks = (current :: rest).map fun block =>
            block.withPredecessors (generatedActivation g method callers).predecessors := by
          rw [← show (generateMethodStart g method).blocks ++ current :: rest = current :: rest from rfl, ← blocks]
          exact valid'
        rw [split]
        exact growth.id
      have length : values.length = method.arguments.length := arguments.length_eq.symm
      have entered : (enterMethod environment s.activations (generateMethod g method).1 values) =
          (generatedActivation g method callers).frame (generateMethodStart g method).currentBlock.id 0
            (bindArguments (fun name position => ⟨environment.garbage s.activations name position, .garbage⟩)
              ((generateMethod g method).1.arguments.zip values)) := by
        unfold enterMethod
        rw [first]
        rfl
      have garbage : Store.Canonical fun name position => ⟨environment.garbage s.activations name position, .garbage⟩ := by
        rintro name position field (same | same) <;> cases same
      have at' : AtEnd llir canonical (generatedActivation g method callers) (generateMethodStart g method)
          (enterCall environment s (generateMethod g method).1 values callers)
          (bindArguments (fun name position => ⟨environment.garbage s.activations name position, .garbage⟩)
            ((generateMethod g method).1.arguments.zip values)) := by
        refine ⟨status, by rw [enterCall, entered]; rfl, globals, fun asked => bindArguments_canonical garbage ?_⟩
        rw [generateMethod_eq, argumentFields, List.zip_map_left]
        intro argument mem'
        obtain ⟨⟨field, value⟩, pair, rfl⟩ := List.mem_map.mp mem'
        rintro ⟨declaration, same, bool⟩
        obtain rfl := Option.some.inj same
        have plain := (lowered.ready.arguments method mem field (List.of_mem_zip pair).1).1
        refine List.forall₂_zip arguments pair asked ?_
        cases htype : field.type <;> simp_all [IrDataType.element, IrDataType.isArray]
      have owned : Owned (generatedActivation g method callers).method.arguments
          (bindArguments (fun name position => ⟨environment.garbage s.activations name position, .garbage⟩)
            ((generateMethod g method).1.arguments.zip values)) (method.arguments :: c.scopes) := by
        refine ⟨fun _ field mem' position small => ?_, ?_⟩
        · exact enterMethod_owned (generateMethod_arguments hm site.typed).1 length distinct.1 ready
            (fun field mem' => (lowered.ready.arguments method mem field mem').1) (by simp [site.scopes]) _ mem' small
        · rw [site.scopes]
          exact ⟨fun absurd' => absurd rfl absurd', trivial⟩
      refine generateBlockFields_safe valid suspended lowered nonempty readyFields start scope.distinct
        (growsBody.begins_of begins) (growsBody.succeeds succeedsBody) at' owned fun m hmn s₁ locals₁ at₁ owned₁ => ?_
      refine generateStatements_safe valid suspended lowered calls mem rfl resumes _ none statements (fits.enter _) hm'
        (fun inLoop => inLoop.elim) typed begins succeedsBody (hmn.trans hn) at₁ owned₁ (by simp [ExitsSafely])
        fun m' hm' s₂ locals₂ at₂ owned₂ => ?_
      -- control falls off the end of the method
      have closed : ((generateMethodBody g method).setTerminal (methodEnd method)).currentBlock ∈
          (generatedActivation g method callers).blocks := by simp [generatedActivation, LlirGenerator.layout]
      rw [← body] at at₂
      unfold methodEnd at closed
      split at closed
      · rename_i void
        refine safe_return valid suspended lowered mem rfl resumes closed (by omega) at₂ (k := 0) ?_
        exact fun _ bool => by rw [void] at bool; cases bool
      · refine safe_terminal valid suspended closed at₂ ⟨operandsOwned_of (by simp [LlirTerminal.operands]), by simp,
          by simp⟩ fun k _ => ?_
        refine at₂.safe_stopped suspended ?_ ?_ ?_ k <;> simp [stepTerminal]

end

/-- A method is found under its name. -/
theorem Llir.method_of_mem {llir : Llir} (distinct : (llir.methods.map LlirMethod.identifier).Nodup) {method : LlirMethod}
    (mem : method ∈ llir.methods) : llir.method method.identifier = some method :=
  find?_key distinct mem

section
variable {program : IrProgram} {llir : Llir} (ready : program.Ready)
  (generated : llirGeneratorGenerateLlir program = some llir)
include ready generated

theorem IrProgram.Ready.lowered : Lowered program llir := by
  obtain ⟨rfl, -⟩ := llirGeneratorGenerateLlir_eq generated
  exact ⟨ready, (ready.globals False).1, generateMethods_identifiers _ _⟩

theorem IrProgram.Ready.methods_distinct : (llir.methods.map LlirMethod.identifier).Nodup := by
  rw [(ready.lowered generated).methods]
  exact ((names_nodup program).mp ready.typed.distinct).2.2.1

/-- Every method is found under its name, as it was generated. -/
theorem IrProgram.Ready.site {method : IrMethod} (mem : method ∈ program.methods) :
    ∃ g c, MethodSite program g c method ∧ llir.method method.identifier = some (generateMethod g method).1 ∧
      (generateMethod g method).2.failed = false := by
  obtain ⟨-, -, hm⟩ := ready.globals False
  have distinct := ready.methods_distinct generated
  obtain ⟨rfl, succeeds⟩ := llirGeneratorGenerateLlir_eq generated
  obtain ⟨-, sites⟩ := generateMethods_sites (c := ⟨[program.fields], program.imports⟩) hm rfl (fun _ => .inl)
    (fun _ => id) ready.methods_typed ready.globals_rests.1
  obtain ⟨g, c, site, mem', done⟩ := sites method mem
  exact ⟨g, c, site, Llir.method_of_mem distinct mem', done succeeds⟩

theorem IrProgram.Ready.callsSafe (environment : Environment) (canonical : Prop) (N : Nat) :
    CallsSafe llir environment program canonical N := by
  induction N with
  | zero => exact fun m hm => absurd hm (Nat.not_lt_zero m)
  | succ N ih =>
    intro m hm method mem
    obtain ⟨g, c, site, found, succeeds⟩ := ready.site generated mem
    refine ⟨_, found, ?_, fun s values callers status globals suspended arguments resumes => ?_⟩
    · rw [generateMethod_eq, (generateMethod_arguments site.matchesScopes site.typed).1, List.length_map]
    · exact method_safe (ready.lowered generated) (fun k hk => ih k (by omega)) site mem found succeeds le_rfl status
        globals suspended arguments resumes

/-- A call from outside is safe for any number of steps. -/
theorem IrProgram.Ready.startMethod_safe (environment : Environment) (canonical : Prop) {method : IrMethod}
    (mem : method ∈ program.methods) {callee : LlirMethod} (found : llir.method method.identifier = some callee)
    {values : List Word} {globals : Store} (owned : canonical → globals.Canonical ∧ GlobalsOwned llir globals)
    (arguments : List.Forall₂ (fun (field : IrField) value => canonical → field.type = .bool → CanonicalWord value)
      method.arguments values) (n : Nat) :
    Safe llir environment program canonical n (startMethod environment callee values globals) := by
  obtain ⟨callee', found', -, enter⟩ := ready.callsSafe generated environment canonical (n + 1) n (Nat.lt_succ_self n)
    method mem
  obtain rfl := Option.some.inj (found'.symm.trans found)
  refine enter ⟨.running, [], globals, [], 0, 0⟩ values [] rfl owned (by simp) arguments
    fun m _ s status globals value bool => ?_
  have stopped : (returnValue llir s [] value).status ≠ .running := by simp [returnValue]
  refine safeFor_of_fixed ⟨globals, by simp [returnValue], fun running => absurd running stopped,
    fun running => absurd running stopped⟩ (step_stopped stopped) m

end

theorem run_eq_iterate (llir : Llir) (environment : Environment) (s : MachineState) (n : Nat) :
    run llir environment s n = (step llir environment)^[n] s := by
  induction n with
  | zero => rfl
  | succ n ih => rw [run, ih, Function.iterate_succ_apply']

end Roast
