import Roast.Assembly.CodeRuns
import Roast.Assembly.SsaForm
import Roast.Assembly.StackFrame

/-! The emitted assembly of an accepted program, assembled, linked and loaded, runs as the machine of its LLIR does. -/
namespace Roast
open Processor Systems

private theorem lastDeclarationsFit_of_scalars {fields : List LlirField}
    (scalars : ∀ field ∈ fields, field.valueCount = 1) :
    LastDeclarationsFit fields := by
  intro front other middle last rest split _ _ field mem _
  have small : ∀ field ∈ other :: (middle ++ last :: rest), field.valueCount = 1 :=
    fun field inside => scalars field (split ▸ List.mem_append_right _ inside)
  have between : 0 ≤ (middle.map LlirField.valueCount).sum := by
    refine List.sum_nonneg fun count inside => ?_
    obtain ⟨field, mem', rfl⟩ := List.mem_map.mp inside
    rw [small field (List.mem_cons_of_mem _ (List.mem_append_left _ mem'))]
    exact Int.one_nonneg
  rw [scalars field mem, List.map_append, List.sum_append, List.map_singleton, List.sum_singleton, small last (by simp)]
  omega

/-- Fields of one name have room in one slot, calls have fewer than 2^27 arguments, and `exit` is called with a status. -/
structure Llir.Representable (llir : Llir) : Prop where
  fit : ∀ method ∈ llir.methods, LastDeclarationsFit method.fields
  few : ∀ method ∈ llir.methods, method.arguments.length < 2 ^ 27
  calls : ∀ method ∈ llir.methods, ∀ block ∈ method.blocks, ∀ name arguments destination,
    .methodCall name arguments destination ∈ block.assignments → arguments.length < 2 ^ 27
  exits : llir.ExitsWithStatus

structure Linkable (imports : List String) (llir : Llir) (lines : List AssemblyLine) : Prop where
  hygienic : Hygienic imports llir lines
  imports : ∀ name ∈ imports, name ∉ (definitions lines).map AssemblySymbol.name
  encodable : ∀ line ∈ lines, line.Encodable

section
variable {program analyzed : IrProgram} (source : program.FromSource) (accepted : Accepts program analyzed) {llir : Llir}
  (generated : llirGeneratorGenerateLlir analyzed = some llir)
include source accepted generated

/-- A lowered program that fits the words can be compiled. -/
private theorem accepts_compilable (representable : llir.Representable) : llir.Compilable := by
  have ready := accepts_ready source accepted
  have lowered := ready.lowered generated
  obtain ⟨same, succeeds⟩ := llirGeneratorGenerateLlir_eq generated
  have wellFormed : ∀ method ∈ llir.methods, method.WellFormed := same ▸ ready.wellFormed.methods
  have resolved := ready.resolved succeeds
  rw [same] at resolved
  refine ⟨fun field isGlobal => ?_, fun method mem => ⟨⟨(wellFormed method mem).positive, ?_, representable.few method mem,
    representable.calls method mem⟩, fun offsets => ?_, fun field isLocal isGlobal => ?_⟩, wellFormed,
    fun method mem => ⟨_, _, resolved method mem⟩⟩
  · rw [lowered.fields] at isGlobal
    obtain ⟨original, declared, rfl⟩ := List.mem_map.mp isGlobal
    exact (ready.typed.fields original declared).positive
  · exact (accepts_ssaReady source accepted generated mem).distinct
  · have positive := (wellFormed method mem).positive
    have size := foldl_allocateField_size positive (0, offsets)
    rw [generateStackAllocation_eq]
    refine (frameInjective_iff positive offsets ?_).mpr (representable.fit method mem)
    split <;> push_cast <;> omega
  · obtain ⟨character, inside, mark⟩ := ((accepts_ssaReady source accepted generated mem).fields field isLocal).marked
    have plain := (accepts_ssaReady source accepted generated mem).identifiers field.identifier isGlobal
    exact plain.unmarked character inside mark

end

private theorem generateDataSection_offsets (pinholeOptimize : Bool) (llir : Llir) :
    (generateDataSection (codeGeneratorNew pinholeOptimize llir)).offsets = fun _ => 0 := by
  have one (g : CodeGenerator) (string : String) : (generateGlobalString g string).offsets = g.offsets := by
    rw [generateGlobalString]
    split <;> rfl
  have all (strings : List String) (g : CodeGenerator) : (strings.foldl generateGlobalString g).offsets = g.offsets := by
    induction strings generalizing g with
    | nil => rfl
    | cons string rest ih => rw [List.foldl_cons, ih, one]
  show (generateGlobalStrings ((codeGeneratorNew pinholeOptimize llir).print [.data])).offsets = fun _ => 0
  rw [generateGlobalStrings_eq, all]
  rfl

/-- The generator behind the data section, which prints the methods, and the places of their code. -/
private theorem codeGeneratorGenerate_emits {llir : Llir} (compilable : llir.Compilable) {pinholeOptimize : Bool}
    {lines : List AssemblyLine} (emitted : codeGeneratorGenerate pinholeOptimize llir = some lines)
    (distinct : ((definitions lines).map AssemblySymbol.name).Nodup) (encodable : ∀ line ∈ lines, line.Encodable) :
    ∃ (g : CodeGenerator) (before : LlirMethod → Offsets), g.llir = llir ∧ g.Emits before lines ∧
      ∀ string ∈ llir.strings, stringSymbol (string, g.stringId string) ∈ definitions lines := by
  obtain ⟨order, -, -, -, -, same, known⟩ := generateDataSection_symbols pinholeOptimize llir
  have unknown := generateDataSection_offsets pinholeOptimize llir
  unfold codeGeneratorGenerate at emitted
  generalize generateDataSection (codeGeneratorNew pinholeOptimize llir) = g at *
  have text : lines = (llir.methods.foldl generateMethodLines (g.print [.text])).lines := by
    dsimp only at emitted
    split at emitted
    · cases emitted
    · rw [generateTextSection, same] at emitted
      exact (Option.some.inj emitted).symm
  have few : ∀ method ∈ llir.methods, method.arguments.length < 2 ^ 27 :=
    fun method mem => (compilable.storable method mem).callable.few
  have apart : ∀ method ∈ llir.methods, ∀ field ∈ method.fields, field.identifier ∉ llir.fields.map LlirField.identifier :=
    fun method mem => (compilable.storable method mem).apart
  have places : ∀ method ∈ llir.methods, ∃ offsets : Offsets,
      (∀ name ∈ llir.fields.map LlirField.identifier, offsets name = 0) ∧
        ∃ line, Placed lines line (methodLines { g.print [.text] with offsets := offsets } method) := by
    intro method mem
    rw [text]
    exact foldl_generateMethodLines_placed llir.methods few apart (g.print [.text])
      (fun name _ => congrFun unknown name) mem
  choose! before zero placed using places
  refine ⟨g.print [.text], before, same, ⟨?_, ?_, distinct, encodable⟩, fun string passed => ?_⟩
  · intro method mem
    have mem' : method ∈ llir.methods := same ▸ mem
    exact placed method mem'
  · intro method mem field isGlobal
    have mem' : method ∈ llir.methods := same ▸ mem
    have isGlobal' : field ∈ llir.fields := same ▸ isGlobal
    exact zero method mem' field.identifier (List.mem_map_of_mem isGlobal')
  · obtain ⟨rest, printed⟩ := foldl_generateMethodLines_lines llir.methods few (g.print [.text])
    rw [text, ← printed, definitions_append]
    refine List.mem_append_left _ ?_
    show _ ∈ definitions (g.lines ++ [.text])
    rw [definitions_append]
    exact List.mem_append_left _ (known string passed)

section
variable {program analyzed : IrProgram} (source : program.FromSource) (accepted : Accepts program analyzed) {llir : Llir}
  (generated : llirGeneratorGenerateLlir analyzed = some llir)
include source accepted generated

/-- The calls that leave the program find no label. -/
private theorem accepts_links {pinholeOptimize : Bool} {lines : List AssemblyLine}
    (emitted : codeGeneratorGenerate pinholeOptimize llir = some lines)
    (linkable : Linkable (analyzed.imports.map IrMethod.identifier) llir lines) {g : CodeGenerator} (same : g.llir = llir)
    {behind : Nat → Word} {outside : Word} (apart : ReturnsApart lines behind outside) : g.Links lines behind outside := by
  subst same
  have ready := accepts_ready source accepted
  have lowered := ready.lowered generated
  obtain ⟨order, -, -, -, -, exits⟩ := codeGeneratorGenerate_symbols ready generated emitted
  obtain ⟨same, succeeds⟩ := llirGeneratorGenerateLlir_eq generated
  have resolved := ready.resolved succeeds
  rw [same] at resolved
  refine ⟨apart, ?_, ?_⟩
  · intro method mem block inside name arguments destination listed missing
    refine labelLine_eq_none (linkable.imports name ?_)
    obtain ⟨callable, -, -⟩ := ((resolved method mem).assignments block inside _ listed).1
    refine (List.mem_append.mp callable).resolve_right fun declared => ?_
    rw [← lowered.methods] at declared
    obtain ⟨callee, calleeMem, rfl⟩ := List.mem_map.mp declared
    have found := Llir.method_of_mem (ready.methods_distinct generated) calleeMem
    rw [missing] at found
    cases found
  · intro method mem block inside value terminal
    exact labelLine_eq_none (linkable.hygienic.exits exitSymbol (exits ⟨method, mem, block, inside, value, terminal⟩) rfl)

section
variable (representable : llir.Representable) {main : LlirMethod} (found : llir.method "main" = some main)
  {pinholeOptimize : Bool} {lines : List AssemblyLine} (emitted : codeGeneratorGenerate pinholeOptimize llir = some lines)
  (linkable : Linkable (analyzed.imports.map IrMethod.identifier) llir lines) (loaded : Loaded llir.fields)
include emitted linkable

/-- A string has one label. -/
theorem accepts_stringAddress {g : CodeGenerator}
    (known : ∀ string ∈ llir.strings, stringSymbol (string, g.stringId string) ∈ definitions lines) :
    ∀ symbol ∈ definitions lines, ∀ string, symbol.entity = .string string →
      loaded.symbols (stringLabel (g.stringId string)) = loaded.symbols symbol.name := by
  intro symbol inside string isString
  have ready := accepts_ready source accepted
  obtain ⟨order, distinct, passed, defined, -, -⟩ := codeGeneratorGenerate_symbols ready generated emitted
  have labelled : symbol ∈ (order.zipIdx 1).map stringSymbol := by
    rw [defined] at inside
    obtain isLabel | ⟨_, other⟩ | ⟨_, other⟩ | ⟨_, other⟩ := mem_symbols inside
    · exact isLabel
    · exact absurd (isString.symm.trans other) (by simp)
    · exact absurd (isString.symm.trans other) (by simp)
    · exact absurd (isString.symm.trans other) (by simp)
  obtain ⟨⟨text, k⟩, entry, rfl⟩ := List.mem_map.mp labelled
  obtain rfl : text = string := Entity.string.inj isString
  have listed : text ∈ llir.strings := (passed text).mp (by
    rw [← List.zipIdx_map_fst 1 order]
    exact List.mem_map_of_mem entry)
  have one := linkable.hygienic.strings text listed
  obtain ⟨only, single⟩ := List.length_eq_one_iff.mp one
  have first : stringSymbol (text, k) ∈ [only] := single ▸ List.mem_filter.mpr ⟨inside, by simp [stringSymbol]⟩
  have second : stringSymbol (text, g.stringId text) ∈ [only] :=
    single ▸ List.mem_filter.mpr ⟨known text listed, by simp [stringSymbol]⟩
  have equal : stringSymbol (text, k) = stringSymbol (text, g.stringId text) :=
    (List.mem_singleton.mp first).trans (List.mem_singleton.mp second).symm
  exact congrArg loaded.symbols (congrArg AssemblySymbol.name equal).symm

include representable found

/-- The code follows the run of the lowered program, for some reads outside the arrays. -/
theorem accepts_follows {outside : Word} (apart : ReturnsApart lines loaded.behind outside) {limit : Nat}
    (small : limit ≤ loaded.top) {imported : List Call → Response} (serves : loaded.host.Serves imported) {c : CodeState}
    (starts : c.Starts loaded lines outside limit) :
    ∃ environment : Environment, environment.imported = imported ∧
      (∃ g : CodeGenerator, (∀ string ∈ llir.strings, stringSymbol (string, g.stringId string) ∈ definitions lines) ∧
        ∀ string, environment.stringAddress string = loaded.symbols (stringLabel (g.stringId string))) ∧
      ∀ n, (∀ i ≤ n, (generatedRun llir environment main i).Fits llir loaded.bottom limit) →
        ∃ m, n ≤ m ∧ Observes loaded (generatedRun llir environment main n) ((codeStep lines loaded)^[m] c) := by
  have ready := accepts_ready source accepted
  have compilable := accepts_compilable source accepted generated representable
  have arguments := ready.main_arguments generated found
  obtain ⟨g, before, same, emits, known⟩ := codeGeneratorGenerate_emits compilable emitted linkable.hygienic.distinct
    linkable.encodable
  have links := accepts_links source accepted generated emitted linkable same apart
  subst same
  have prepared : Prepared loaded before lines outside limit ⟨imported,
      fun string => loaded.symbols (stringLabel (g.stringId string)), default, default⟩ :=
    ⟨compilable, emits, links, representable.exits, fun _ => rfl, serves, small⟩
  obtain ⟨answers, runs⟩ := follows_generatedRun prepared found arguments starts
  exact ⟨_, rfl, ⟨g, known, fun _ => rfl⟩, runs⟩

end

/-- The emitted assembly of an accepted program, started at `main` with zeros in its globals, runs as the machine of its LLIR
does, for as long as the stack has room for the activations: it makes the same calls, stores the same globals, ends when the
machine ends and in the same way, and runs on when the machine runs on. All memory is taken as readable: a read outside an
array gives a word and never faults. -/
theorem accepts_codeGeneratorGenerate_follows (representable : llir.Representable) {main : LlirMethod}
    (found : llir.method "main" = some main) {pinholeOptimize : Bool} {lines : List AssemblyLine}
    (emitted : codeGeneratorGenerate pinholeOptimize llir = some lines)
    (linkable : Linkable (analyzed.imports.map IrMethod.identifier) llir lines) (loaded : Loaded llir.fields)
    {outside : Word} (apart : ReturnsApart lines loaded.behind outside) {limit : Nat} (small : limit ≤ loaded.top)
    {imported : List Call → Response} (serves : loaded.host.Serves imported) {c : CodeState}
    (starts : c.Starts loaded lines outside limit) :
    ∃ environment : Environment, environment.imported = imported ∧
      (∀ symbol ∈ definitions lines, ∀ string, symbol.entity = .string string →
        environment.stringAddress string = loaded.symbols symbol.name) ∧
      ∀ n, (∀ i ≤ n, (generatedRun llir environment main i).Fits llir loaded.bottom limit) →
        ∃ m, n ≤ m ∧ Observes loaded (generatedRun llir environment main n) ((codeStep lines loaded)^[m] c) := by
  obtain ⟨environment, serving, ⟨g, known, address⟩, runs⟩ := accepts_follows source accepted generated representable found
    emitted linkable loaded apart small serves starts
  refine ⟨environment, serving, fun symbol inside string isString => ?_, runs⟩
  rw [address]
  exact accepts_stringAddress source accepted generated emitted linkable loaded known symbol inside string isString

end

/-- `import print; int g = 1; void main() { g = 2; print(g); }` -/
def printedGlobal : IrProgram where
  imports := [{ imported := true, returnType := .int, identifier := "print", arguments := [], block := .mk [] .nil }]
  fields := [{
    node := 0, type := .int, constant := false, identifier := "g", arrayLength := 1, lengthToken := none
    initializer := some ⟨false, [{ negate := false, type := .int, value := 1, token := some ⟨false, ['1']⟩ }]⟩ }]
  methods := [{
    imported := false, returnType := .void, identifier := "main", arguments := []
    block := .mk [] (.cons (.assignment ⟨.scalar 1 "g", .set, some (.literal
        { negate := false, type := .int, value := 2, token := some ⟨false, ['2']⟩ })⟩)
      (.cons (.methodCall "print" (.expression (.location (.scalar 2 "g")) .nil)) .nil)) }]

def printedGlobalLlir : Llir := (generateLlir (semanticsAnalyze printedGlobal).2).1

def printedGlobalMain : LlirMethod := (printedGlobalLlir.method "main").getD ⟨"", [], []⟩

def printedGlobalLines : List AssemblyLine := (codeGeneratorGenerate true printedGlobalLlir).getD []

def quietResponse (signals : List Signal) : Response :=
  match signals.getLast? with
  | some (name, words) => if name = "exit" then .exited (words 0) else .returned 0
  | none => .returned 0

def quietHost : Host := { response := quietResponse, registers := fun _ _ => 0, memory := fun _ _ => 0 }

def quietImports (calls : List Call) : Response :=
  match calls.getLast? with
  | some (name, values) => if name = "exit" then .exited (values.getD 0 0) else .returned 0
  | none => .returned 0

theorem quietHost_serves : quietHost.Serves quietImports := by
  constructor
  · intro signals calls same notExit
    show quietResponse signals = quietImports calls
    obtain rfl | ⟨calls', ⟨name, values⟩, rfl⟩ := List.eq_nil_or_concat calls
    · cases same
      rfl
    · obtain rfl | ⟨signals', ⟨name', words⟩, rfl⟩ := List.eq_nil_or_concat signals
      · exact absurd (List.Forall₂.length_eq same) (by simp)
      · have last := List.forall₂_reverse_iff.mpr same
        rw [List.concat_eq_append, List.concat_eq_append, List.reverse_append, List.reverse_append] at last
        obtain ⟨⟨rfl, passed⟩, -⟩ := List.forall₂_cons.mp last
        rw [List.concat_eq_append, List.getLast?_concat] at notExit
        rw [quietResponse, quietImports, List.concat_eq_append, List.concat_eq_append, List.getLast?_concat,
          List.getLast?_concat]
        dsimp only
        split
        · rename_i isExit
          cases values with
          | nil => exact absurd (by rw [isExit]) notExit
          | cons value rest =>
            rw [show words 0 = value from passed 0 value rfl]
            rfl
        · rfl
  · intro signals words
    show quietResponse (signals ++ [("exit", words)]) = _
    rw [quietResponse, List.getLast?_concat]
    rfl

theorem printedGlobal_generated : printedGlobal.FromSource ∧ (semanticsAnalyze printedGlobal).1 = 0 ∧
    llirGeneratorGenerateLlir (semanticsAnalyze printedGlobal).2 = some printedGlobalLlir ∧
    printedGlobalLlir.method "main" = some printedGlobalMain ∧
    (∀ field ∈ printedGlobalLlir.fields, field.identifier = "g" ∧ field.valueCount = 1) ∧
    codeGeneratorGenerate true printedGlobalLlir = some printedGlobalLines ∧ printedGlobalLines.length = 26 ∧
    labelLine printedGlobalLines "main" = some 6 := by
  decide +kernel

theorem printedGlobal_accepted : Accepts printedGlobal (semanticsAnalyze printedGlobal).2 :=
  Prod.ext printedGlobal_generated.2.1 rfl

theorem printedGlobal_emitted : codeGeneratorGenerate true printedGlobalLlir = some printedGlobalLines :=
  printedGlobal_generated.2.2.2.2.2.1

private theorem printedGlobal_field {field : LlirField} (isGlobal : field ∈ printedGlobalLlir.fields) {position : Nat}
    (inside : position < field.valueCount) : field.identifier = "g" ∧ position = 0 := by
  obtain ⟨name, count⟩ := printedGlobal_generated.2.2.2.2.1 field isGlobal
  exact ⟨name, by omega⟩

/-- The stack is below 2^16, the global above, and the code is somewhere else. -/
def printedGlobalLoaded : Loaded printedGlobalLlir.fields where
  symbols _ := 1048576
  bottom := 4096
  top := 65536
  bounded := by decide
  aligned := fun _ _ => rfl
  apart := by
    intro field isGlobal position inside
    obtain ⟨-, rfl⟩ := printedGlobal_field isGlobal inside
    show ¬ (4096 ≤ ((1048576 : Word) + BitVec.ofNat 64 (8 * 0)).toNat ∧
      ((1048576 : Word) + BitVec.ofNat 64 (8 * 0)).toNat < 65536)
    decide
  separate := by
    intro field isGlobal other isGlobal' i j inside inside' _
    obtain ⟨name, rfl⟩ := printedGlobal_field isGlobal inside
    obtain ⟨name', rfl⟩ := printedGlobal_field isGlobal' inside'
    exact ⟨name.trans name'.symm, rfl⟩
  behind line := BitVec.ofNat 64 (line + 1)
  host := quietHost

def printedGlobalStart : CodeState where
  status := .running
  line := 6
  processor := { registers := fun register => if register = .rsp then 32760 else 0, memory := fun _ => 0, flags := none }
  calls := []

theorem printedGlobal_linkable : Linkable ["print"] printedGlobalLlir printedGlobalLines := by
  refine ⟨⟨by decide +kernel, ?_, by decide +kernel, ?_⟩, by decide +kernel, by decide +kernel⟩
  · decide +kernel
  · decide +kernel

theorem printedGlobal_apart : ReturnsApart printedGlobalLines printedGlobalLoaded.behind 0 := by
  have few : printedGlobalLines.length = 26 := printedGlobal_generated.2.2.2.2.2.2.1
  have address {line : Nat} {call : AssemblySymbol} (here : printedGlobalLines[line]? = some (.call call)) :
      (printedGlobalLoaded.behind line).toNat = line + 1 := by
    have inside := (List.getElem?_eq_some_iff.mp here).1
    show (BitVec.ofNat 64 (line + 1)).toNat = _
    rw [BitVec.toNat_ofNat]
    omega
  refine ⟨fun line line' call call' here here' same => ?_, fun line call here same => ?_⟩
  · have first := address here
    have second := address here'
    rw [same] at first
    omega
  · have first := address here
    rw [same] at first
    exact absurd first (by simp)

theorem printedGlobal_representable : printedGlobalLlir.Representable := by
  have passed : ∀ method ∈ printedGlobalLlir.methods, ∀ block ∈ method.blocks, ∀ assignment ∈ block.assignments,
      assignment.operands ≠ [] ∧ assignment.operands.length < 2 ^ 27 := by decide +kernel
  refine ⟨fun method mem => lastDeclarationsFit_of_scalars ?_, by decide +kernel, ?_, ?_⟩
  · revert method
    decide +kernel
  · exact fun method mem block inside name arguments destination listed => (passed method mem block inside _ listed).2
  · exact fun method mem block inside destination listed => (passed method mem block inside _ listed).1 rfl

theorem printedGlobal_starts : printedGlobalStart.Starts printedGlobalLoaded printedGlobalLines 0 32768 :=
  ⟨rfl, printedGlobal_generated.2.2.2.2.2.2.2, rfl, by decide, by decide, rfl, fun _ _ _ _ => rfl⟩

theorem accepts_codeGeneratorGenerate_follows_printedGlobal :
    ∃ environment : Environment, environment.imported = quietImports ∧
      (∀ symbol ∈ definitions printedGlobalLines, ∀ string, symbol.entity = .string string →
        environment.stringAddress string = printedGlobalLoaded.symbols symbol.name) ∧
      ∀ n, (∀ i ≤ n, (generatedRun printedGlobalLlir environment printedGlobalMain i).Fits printedGlobalLlir 4096 32768) →
        ∃ m, n ≤ m ∧ Observes printedGlobalLoaded (generatedRun printedGlobalLlir environment printedGlobalMain n)
          ((codeStep printedGlobalLines printedGlobalLoaded)^[m] printedGlobalStart) := by
  obtain ⟨source, -, generated, found, -⟩ := printedGlobal_generated
  exact accepts_codeGeneratorGenerate_follows source printedGlobal_accepted generated printedGlobal_representable found
    printedGlobal_emitted printedGlobal_linkable
    printedGlobalLoaded printedGlobal_apart (by decide) quietHost_serves printedGlobal_starts

end Roast
