import Roast.Assembly.InterpretedCode
import Roast.Optimizations.CopyPropagation
import Roast.Optimizations.DeadCodeElimination
import Roast.Parser.Termination
import Roast.Semantics.Decides
import Roast.Semantics.FrontEnd

/-! The targets of the compiler, `main.c`: the stages in order, and what the assembly of a source text does. -/
namespace Roast
open Systems

/-- `enum optimzation`, a flag for each bit. -/
structure Optimizations where
  cf : Bool
  cp : Bool
  dce : Bool
  ph : Bool
  deriving DecidableEq, Repr

section
variable (newline : Char → Bool) (n : Nat)

/-- `optimization_apply`; `none` when a fold traps or a search is cut off. -/
def optimizationApply (optimizations : Optimizations) (llir : Llir) : Option Llir := do
  let llir ← if optimizations.cf then (optimizationConstantFolding n llir).toOption else some llir
  let llir ← if optimizations.cp then CopyPropagation.optimizationCopyPropagation n llir else some llir
  if optimizations.dce then optimizationDeadCodeElimination n llir else some llir

/-- `run_parse_target`: the result, and the tree when it is 0. -/
def runParseTarget (source : List Char) : Option (Int × Option AstNode) := do
  let (result, tokens) ← scannerTokenize newline n source
  match tokens with
  | some tokens => if result = 0 then return parserParse n tokens else return (-1, none)
  | none => return (-1, none)

/-- `semantics_analyze` on a syntax tree; `none` when an assertion fails. -/
def semanticsAnalyzeAst (source : List Char) (ast : AstNode) : Option (Int × Option IrProgram) := do
  let (program, _) ← irProgramNew source (linearizeAst ast).length (linearizeAst ast)
  let (result, analyzed) := semanticsAnalyze program
  return (result, if result = 0 then some analyzed else none)

def runIntermediateTarget (source : List Char) : Option (Int × Option IrProgram) := do
  let (result, ast) ← runParseTarget newline n source
  match ast with
  | some ast => if result = 0 then semanticsAnalyzeAst source ast else return (-1, none)
  | none => return (-1, none)

/-- `run_assembly_target` without `debug`: the result, and the lines that are printed when it is 0. -/
def runAssemblyTarget (optimizations : Optimizations) (source : List Char) : Option (Int × Option (List AssemblyLine)) := do
  let (result, program) ← runIntermediateTarget newline n source
  match program with
  | some program =>
    if result = 0 then
      let llir ← llirGeneratorGenerateLlir program
      let llir ← optimizationApply n optimizations llir
      let lines ← codeGeneratorGenerate optimizations.ph llir
      return (0, some lines)
    else return (-1, none)
  | none => return (-1, none)

end

section
variable {newline : Char → Bool} {n : Nat} {source : List Char}

private theorem runParseTarget_some {ast : AstNode} (parsed : runParseTarget newline n source = some (0, some ast)) :
    ∃ tokens, scannerTokenize newline n source = some (0, some tokens) ∧ parserParse n tokens = (0, some ast) := by
  obtain ⟨⟨result, tokens⟩, scanned, parsed⟩ := Option.bind_eq_some_iff.mp parsed
  dsimp only at parsed
  cases tokens with
  | none => cases parsed
  | some tokens =>
    dsimp only at parsed
    by_cases fine : result = 0
    · rw [if_pos fine] at parsed
      exact ⟨tokens, fine ▸ scanned, Option.some.inj parsed⟩
    · rw [if_neg fine] at parsed
      cases parsed

/-- An accepted source text was scanned, derived, built and checked. -/
private theorem runIntermediateTarget_some (small : source.length < 2 ^ 32) {analyzed : IrProgram}
    (built : runIntermediateTarget newline n source = some (0, some analyzed)) :
    ∃ tokens program, scannerTokenize newline n source = some (0, some tokens) ∧ DerivesProgram True tokens program ∧
      (program.toIr source).FromSource ∧ Accepts (program.toIr source) analyzed := by
  obtain ⟨⟨result, ast⟩, parsed, built⟩ := Option.bind_eq_some_iff.mp built
  dsimp only at built
  cases ast with
  | none => cases built
  | some ast =>
    dsimp only at built
    by_cases fine : result = 0
    · rw [if_pos fine] at built
      obtain ⟨tokens, scanned, parsed⟩ := runParseTarget_some (fine ▸ parsed)
      obtain ⟨program, derives, rfl⟩ := parserParse_program parsed
      have lexed := scannerTokenize_scanned small scanned
      have constructed := derives.takes (scannerTokenize_hasCharacters scanned) _ le_rfl
      refine ⟨tokens, program, scanned, derives, derives.fromSource lexed, ?_⟩
      rw [semanticsAnalyzeAst, constructed, Option.bind_eq_bind, Option.bind_some] at built
      obtain ⟨accepted, same⟩ := Prod.mk.inj (Option.some.inj built)
      rw [if_pos accepted] at same
      exact Prod.ext accepted (Option.some.inj same)
    · rw [if_neg fine] at built
      cases built

/-- Without passes over the LLIR the lines are those of the LLIR of the accepted program. -/
private theorem runAssemblyTarget_some {optimizations : Optimizations}
    (plain : optimizations.cf = false ∧ optimizations.cp = false ∧ optimizations.dce = false) {lines : List AssemblyLine}
    (compiled : runAssemblyTarget newline n optimizations source = some (0, some lines)) :
    ∃ analyzed llir, runIntermediateTarget newline n source = some (0, some analyzed) ∧
      llirGeneratorGenerateLlir analyzed = some llir ∧ codeGeneratorGenerate optimizations.ph llir = some lines := by
  obtain ⟨⟨result, analyzed⟩, built, compiled⟩ := Option.bind_eq_some_iff.mp compiled
  dsimp only at compiled
  cases analyzed with
  | none => cases compiled
  | some analyzed =>
    dsimp only at compiled
    by_cases fine : result = 0
    · rw [if_pos fine] at compiled
      obtain ⟨llir, generated, next⟩ := Option.bind_eq_some_iff.mp compiled
      obtain ⟨optimized, same, last⟩ := Option.bind_eq_some_iff.mp next
      obtain ⟨lines', emitted, done⟩ := Option.bind_eq_some_iff.mp last
      obtain rfl : lines' = lines := Option.some.inj (Prod.mk.inj (Option.some.inj done)).2
      obtain rfl : llir = optimized := by
        simpa [optimizationApply, plain.1, plain.2.1, plain.2.2] using same
      exact ⟨analyzed, llir, fine ▸ built, generated, emitted⟩
    · rw [if_neg fine] at compiled
      cases compiled

/-- The scanner ends with tokens or with an error. -/
private theorem scannerTokenize_verdict (newline : Char → Bool) {source : List Char} (small : source.length < 2 ^ 32) :
    (∃ tokens, ∀ n, source.length < n → scannerTokenize newline n source = some (0, some tokens)) ∨
      ∀ n, source.length < n → scannerTokenize newline n source = some (-1, none) := by
  obtain ⟨spans, computed, -⟩ := scannerSpans_spec newline small source.length (Nat.zero_add _)
  have looped {n : Nat} (long : source.length < n) := tokenizeLoop_spans (computed n long) 0 []
  by_cases error : spans.any (fun span => !span.type.isIgnored && span.type.isError) = true
  · right
    intro n long
    rw [scannerTokenize, scannerStart, looped long, if_pos error]
    rfl
  · left
    refine ⟨[] ++ spans.filter fun span => !span.type.isIgnored && !span.type.isError, fun n long => ?_⟩
    rw [scannerTokenize, scannerStart, looped long, if_neg error]
    rfl

/-- A bound that is large enough does not matter. -/
private theorem runParseTarget_stable (newline : Char → Bool) {source : List Char} (small : source.length < 2 ^ 32) :
    ∃ enough, ∀ n ≥ enough, runParseTarget newline n source = runParseTarget newline enough source := by
  obtain ⟨tokens, scanned⟩ | failed := scannerTokenize_verdict newline small
  · refine ⟨max (source.length + 1) (parserDepth tokens.length), fun n enough => ?_⟩
    have long := (Nat.le_max_left _ _).trans enough
    have same := (@parseProgram_agrees n (max (source.length + 1) (parserDepth tokens.length)) tokens.length
      ((Nat.le_max_right _ _).trans enough) (Nat.le_max_right _ _) ⟨tokens, []⟩ le_rfl).1
    rw [runParseTarget, runParseTarget, scanned n long, scanned _ (Nat.le_max_left _ _), Option.bind_eq_bind,
      Option.bind_some, Option.bind_some]
    dsimp only
    rw [parserParse, parserParse, same]
  · refine ⟨source.length + 1, fun n enough => ?_⟩
    rw [runParseTarget, runParseTarget, failed n enough, failed _ (Nat.lt_succ_self _)]
    rfl

end

private theorem runAssemblyTarget_stable (newline : Char → Bool) {optimizations : Optimizations}
    (plain : optimizations.cf = false ∧ optimizations.cp = false ∧ optimizations.dce = false) {source : List Char}
    (small : source.length < 2 ^ 32) :
    ∃ enough, ∀ n ≥ enough,
      runAssemblyTarget newline n optimizations source = runAssemblyTarget newline enough optimizations source := by
  obtain ⟨enough, same⟩ := runParseTarget_stable newline small
  refine ⟨enough, fun n long => ?_⟩
  have apply (n : Nat) : optimizationApply n optimizations = some := by
    funext llir
    simp [optimizationApply, plain.1, plain.2.1, plain.2.2]
  rw [runAssemblyTarget, runAssemblyTarget, runIntermediateTarget, runIntermediateTarget, same n long, apply, apply]

section
variable {newline : Char → Bool} {n : Nat} {source : List Char} {tokens : List Token} {program : AstProgram}

private theorem semanticsAnalyze_verdict (program : IrProgram) :
    (semanticsAnalyze program).1 = 0 ∨ (semanticsAnalyze program).1 = -1 := by
  unfold semanticsAnalyze
  dsimp only
  split
  · exact .inr rfl
  · exact .inl rfl

private theorem semanticsAnalyze_iff {program : IrProgram} (fromSource : program.FromSource) :
    (semanticsAnalyze program).1 = 0 ↔ ProgramTyped checkerRules program := by
  rw [← analyzeProgram_error fromSource.toSorted]
  unfold semanticsAnalyze
  dsimp only
  cases (analyzeProgram semanticsNew program).2.error with
  | true => exact iff_of_false (by decide) (by decide)
  | false => exact iff_of_true rfl rfl

/-- The empty text has no `main`. -/
private theorem DerivesProgram.tokens_ne_nil {missing : Prop} (derives : DerivesProgram missing tokens program)
    (fromSource : (program.toIr source).FromSource) (accepted : (semanticsAnalyze (program.toIr source)).1 = 0) :
    tokens ≠ [] := by
  intro empty
  obtain ⟨method, mem, -⟩ := ((semanticsAnalyze_iff fromSource).mp accepted).main
  obtain ⟨item, inside, -⟩ := mem_listToIr mem
  cases derives with
  | mk himports hfields hmethods =>
    obtain ⟨part, sublist, derives⟩ := hmethods.mem_part item inside
    rw [(List.append_eq_nil_iff.mp (List.append_eq_nil_iff.mp empty).2).2] at sublist
    obtain rfl := List.sublist_nil.mp sublist
    cases derives

/-- A derived text is built and checked, whichever of its derivations is taken. -/
private theorem runIntermediateTarget_derived (scanned : scannerTokenize newline n source = some (0, some tokens))
    (derives : DerivesProgram True tokens program) (nonempty : tokens ≠ []) (bound : 2 * source.length + 2 ≤ n) :
    runIntermediateTarget newline n source = some ((semanticsAnalyze (program.toIr source)).1,
      if (semanticsAnalyze (program.toIr source)).1 = 0 then some (semanticsAnalyze (program.toIr source)).2 else none) := by
  have short := scannerTokenize_length scanned
  have parsed : parserParse n tokens = (0, some program.toNode) := by
    rw [parserParse, if_neg nonempty, derives.parse (by omega)]
    rfl
  have target : runParseTarget newline n source = some (0, some program.toNode) := by
    rw [runParseTarget, scanned, ← parsed]
    rfl
  have constructed := derives.takes (scannerTokenize_hasCharacters scanned) _ le_rfl
  rw [runIntermediateTarget, target, Option.bind_eq_bind, Option.bind_some]
  dsimp only
  rw [if_pos rfl, semanticsAnalyzeAst, constructed]
  rfl

private theorem parserParse_rejected (rejected : (parserParse n tokens).1 ≠ 0) : parserParse n tokens = (-1, none) := by
  by_cases empty : tokens = []
  · rw [parserParse, if_pos empty]
  · rw [parserParse, if_neg empty] at rejected ⊢
    dsimp only at rejected ⊢
    split at rejected
    · exact absurd rfl rejected
    · rename_i errors
      rw [if_neg errors]

private theorem runIntermediateTarget_rejected (rejected : runParseTarget newline n source = some (-1, none)) :
    runIntermediateTarget newline n source = some (-1, none) := by
  rw [runIntermediateTarget, rejected]
  rfl

/-- A text that is not derived is rejected. -/
private theorem runIntermediateTarget_verdict (newline : Char → Bool) (small : source.length < 2 ^ 32)
    (bound : 2 * source.length + 2 ≤ n) :
    runIntermediateTarget newline n source = some (-1, none) ∨ ∃ tokens program,
      scannerTokenize newline n source = some (0, some tokens) ∧ DerivesProgram True tokens program ∧ tokens ≠ [] := by
  obtain ⟨tokens, scanned⟩ | failed := scannerTokenize_verdict newline small
  · have scanned := scanned n (by omega)
    have short := scannerTokenize_length scanned
    by_cases accepted : (parserParse n tokens).1 = 0
    · have nonempty : tokens ≠ [] := by
        rintro rfl
        cases accepted
      obtain ⟨program, derives⟩ := (parserParse_iff nonempty (by omega)).mp accepted
      exact .inr ⟨tokens, program, scanned, derives, nonempty⟩
    · left
      apply runIntermediateTarget_rejected
      rw [runParseTarget, scanned, ← parserParse_rejected accepted]
      rfl
  · left
    apply runIntermediateTarget_rejected
    rw [runParseTarget, failed n (by omega)]
    rfl

/-- No other derivation of the tokens has another verdict. -/
private theorem runIntermediateTarget_iff (small : source.length < 2 ^ 32)
    (scanned : scannerTokenize newline n source = some (0, some tokens)) (derives : DerivesProgram True tokens program)
    (bound : 2 * source.length + 2 ≤ n) :
    (∃ analyzed, runIntermediateTarget newline n source = some (0, some analyzed)) ↔
      (semanticsAnalyze (program.toIr source)).1 = 0 := by
  have fromSource := derives.fromSource (scannerTokenize_scanned small scanned)
  constructor
  · rintro ⟨analyzed, built⟩
    obtain ⟨tokens', program', scanned', derives', fromSource', accepted⟩ := runIntermediateTarget_some small built
    obtain rfl : tokens' = tokens :=
      Option.some.inj (Prod.mk.inj (Option.some.inj (scanned'.symm.trans scanned))).2
    have nonempty := derives'.tokens_ne_nil fromSource' (Prod.mk.inj accepted).1
    rw [runIntermediateTarget_derived scanned derives nonempty bound] at built
    exact (Prod.mk.inj (Option.some.inj built)).1
  · intro accepted
    rw [runIntermediateTarget_derived scanned derives (derives.tokens_ne_nil fromSource accepted) bound, accepted,
      if_pos rfl]
    exact ⟨_, rfl⟩

end

/-- Every source text gets a verdict. Those accepted are the ones whose tokens derive a program that obeys the rules as the
checker tests them. Where the literals are in range, and overlong ones are rejected just when they go unnoticed, these are
the well typed programs. -/
theorem runIntermediateTarget_decides (newline : Char → Bool) {source : List Char} (few : source.length < 2 ^ 31) {n : Nat}
    (bound : 2 * source.length + 2 ≤ n) :
    (runIntermediateTarget newline n source = some (-1, none) ∨
      ∃ analyzed, runIntermediateTarget newline n source = some (0, some analyzed)) ∧
    ((∃ analyzed, runIntermediateTarget newline n source = some (0, some analyzed)) ↔
      ∃ tokens program, scannerTokenize newline n source = some (0, some tokens) ∧ DerivesProgram True tokens program ∧
        ProgramTyped checkerRules (program.toIr source)) ∧
    ∀ tokens program, scannerTokenize newline n source = some (0, some tokens) → DerivesProgram True tokens program →
      (program.toIr source).All rangeRules →
      ((program.toIr source).All rejectedOverlong ↔ (program.toIr source).All unnoticedOverlong) →
      ((∃ analyzed, runIntermediateTarget newline n source = some (0, some analyzed)) ↔
        ProgramTyped typeRules (program.toIr source)) := by
  have small : source.length < 2 ^ 32 := few.trans (by decide)
  refine ⟨?_, ⟨?_, ?_⟩, fun tokens program scanned derives range overlong => ?_⟩
  · obtain rejected | ⟨tokens, program, scanned, derives, nonempty⟩ := runIntermediateTarget_verdict newline small bound
    · exact .inl rejected
    · rw [runIntermediateTarget_derived scanned derives nonempty bound]
      obtain accepted | rejected := semanticsAnalyze_verdict (program.toIr source)
      · rw [accepted, if_pos rfl]
        exact .inr ⟨_, rfl⟩
      · rw [rejected]
        exact .inl rfl
  · rintro ⟨analyzed, built⟩
    obtain ⟨tokens, program, scanned, derives, fromSource, accepted⟩ := runIntermediateTarget_some small built
    exact ⟨tokens, program, scanned, derives, (semanticsAnalyze_iff fromSource).mp (Prod.mk.inj accepted).1⟩
  · rintro ⟨tokens, program, scanned, derives, typed⟩
    have fromSource := derives.fromSource (scannerTokenize_scanned small scanned)
    exact (runIntermediateTarget_iff small scanned derives bound).mpr ((semanticsAnalyze_iff fromSource).mpr typed)
  · have fromSource := derives.fromSource (scannerTokenize_scanned small scanned)
    rw [runIntermediateTarget_iff small scanned derives bound, accepts_iff fromSource range, typed_iff fromSource range,
      overlong]

def printedGlobalText : List Char := "import print;int g=1;void main(){g=2;print(g);}".toList

def printedGlobalTokens : List Token :=
  [⟨.keywordImport, 0, 6⟩, ⟨.identifier, 7, 5⟩, ⟨.semicolon, 12, 1⟩, ⟨.keywordInt, 13, 3⟩, ⟨.identifier, 17, 1⟩,
    ⟨.assign, 18, 1⟩, ⟨.decimalLiteral, 19, 1⟩, ⟨.semicolon, 20, 1⟩, ⟨.keywordVoid, 21, 4⟩, ⟨.identifier, 26, 4⟩,
    ⟨.openParenthesis, 30, 1⟩, ⟨.closeParenthesis, 31, 1⟩, ⟨.openCurlyBracket, 32, 1⟩, ⟨.identifier, 33, 1⟩,
    ⟨.assign, 34, 1⟩, ⟨.decimalLiteral, 35, 1⟩, ⟨.semicolon, 36, 1⟩, ⟨.identifier, 37, 5⟩, ⟨.openParenthesis, 42, 1⟩,
    ⟨.identifier, 43, 1⟩, ⟨.closeParenthesis, 44, 1⟩, ⟨.semicolon, 45, 1⟩, ⟨.closeCurlyBracket, 46, 1⟩]

def printedGlobalAst : AstProgram where
  imports := [⟨.identifier, 7, 5⟩]
  fields := [⟨false, ⟨.keywordInt, 13, 3⟩,
    [⟨⟨.identifier, 17, 1⟩, .none, some (.scalar ⟨none, ⟨.decimalLiteral, 19, 1⟩⟩)⟩]⟩]
  methods := [⟨⟨.keywordVoid, 21, 4⟩, ⟨.identifier, 26, 4⟩, [], .mk []
    (.cons (.assignment (.assign (.scalar ⟨.identifier, 33, 1⟩) ⟨.assign, 34, 1⟩
      (.literal ⟨none, ⟨.decimalLiteral, 35, 1⟩⟩)))
    (.cons (.methodCall ⟨⟨.identifier, 37, 5⟩, .expression (.scalar ⟨.identifier, 43, 1⟩) .nil⟩) .nil))⟩]

private theorem printedGlobalText_scanned :
    scannerTokenize (· == '\n') 100 printedGlobalText = some (0, some printedGlobalTokens) := by decide +kernel

private theorem printedGlobalTokens_parsed :
    parserParse 100 printedGlobalTokens = (0, some printedGlobalAst.toNode) := rfl

private theorem printedGlobalAst_built :
    irProgramNew printedGlobalText (linearizeAst printedGlobalAst.toNode).length (linearizeAst printedGlobalAst.toNode) =
      some (printedGlobal, [⟨.programEnd, none⟩]) := rfl

private theorem printedGlobalText_accepted :
    runIntermediateTarget (· == '\n') 100 printedGlobalText = some (0, some (semanticsAnalyze printedGlobal).2) := by
  have parsed : runParseTarget (· == '\n') 100 printedGlobalText = some (0, some printedGlobalAst.toNode) := by
    rw [runParseTarget, printedGlobalText_scanned, ← printedGlobalTokens_parsed]
    rfl
  have accepted := printedGlobal_generated.2.1
  rw [runIntermediateTarget, parsed, Option.bind_eq_bind, Option.bind_some]
  dsimp only
  rw [if_pos rfl, semanticsAnalyzeAst, printedGlobalAst_built, Option.bind_eq_bind, Option.bind_some]
  dsimp only
  rw [if_pos accepted, accepted]
  rfl

private theorem printedGlobal_all {r : Rules} (field : ∀ field ∈ printedGlobal.fields, r.field field)
    (literal : r.literal { negate := false, type := .int, value := 2, token := some ⟨false, ['2']⟩ }) :
    printedGlobal.All r := by
  refine ⟨field, fun method mem => ?_⟩
  obtain rfl := List.mem_singleton.mp mem
  refine ⟨by simp, ?_⟩
  simp [IrBlock.All, IrStatements.All, IrStatement.All, IrAssignment.All, IrLocation.All, IrExpression.All,
    IrArguments.All]
  exact literal

private theorem printedGlobal_inRange : printedGlobal.All rangeRules := by
  refine printedGlobal_all (by simp [printedGlobal, rangeRules, IntLiteralToken.InRange]; decide) ?_
  rintro _ ⟨rfl⟩
  unfold IntLiteralToken.InRange
  decide

private theorem printedGlobal_rejectedOverlong : printedGlobal.All rejectedOverlong :=
  printedGlobal_all (by simp [printedGlobal, rejectedOverlong, IntLiteralToken.Overlong]) (by
    rintro _ ⟨rfl⟩
    decide)

private theorem printedGlobal_unnoticedOverlong : printedGlobal.All unnoticedOverlong :=
  printedGlobal_all (by simp [printedGlobal, unnoticedOverlong]) trivial

/-- The text is well typed, since it is accepted. -/
theorem runIntermediateTarget_decides_printedGlobal : ProgramTyped typeRules printedGlobal := by
  obtain ⟨program, derives, same⟩ := parserParse_program printedGlobalTokens_parsed
  have scanned := printedGlobalText_scanned
  have built := derives.takes (scannerTokenize_hasCharacters scanned) _ le_rfl
  rw [← same] at built
  have represented : program.toIr printedGlobalText = printedGlobal :=
    (Prod.mk.inj (Option.some.inj (built.symm.trans printedGlobalAst_built))).1
  have decides := (@runIntermediateTarget_decides (· == '\n') printedGlobalText (by decide) 100 (by decide)).2.2
    printedGlobalTokens program scanned derives
  rw [represented] at decides
  exact (decides printedGlobal_inRange (iff_of_true printedGlobal_rejectedOverlong printedGlobal_unnoticedOverlong)).mp
    ⟨_, printedGlobalText_accepted⟩

/-- An accepted program has a `main`. -/
private theorem IrProgram.Ready.exists_main {program : IrProgram} (ready : program.Ready) {llir : Llir}
    (generated : llirGeneratorGenerateLlir program = some llir) : ∃ method ∈ program.methods, ∃ main,
      method.identifier = "main" ∧ llir.method "main" = some main := by
  obtain ⟨method, mem, isMain, -⟩ := ready.typed.main
  obtain ⟨g, c, -, found, -⟩ := ready.site generated mem
  exact ⟨method, mem, _, isMain, isMain ▸ found⟩

/-- The compiler ends on every source text, with a result that a larger bound does not change. When it succeeds without
passes over the LLIR, the text was derived and accepted, and its assembly, with or without the peephole option, does what
the interpreter says of the accepted program. -/
theorem runAssemblyTarget_behaves (newline : Char → Bool) {optimizations : Optimizations}
    (plain : optimizations.cf = false ∧ optimizations.cp = false ∧ optimizations.dce = false) {source : List Char}
    (few : source.length < 2 ^ 31) :
    (∃ enough, ∀ n ≥ enough,
      runAssemblyTarget newline n optimizations source = runAssemblyTarget newline enough optimizations source) ∧
    ∀ n lines, runAssemblyTarget newline n optimizations source = some (0, some lines) →
      ∃ tokens program analyzed llir, scannerTokenize newline n source = some (0, some tokens) ∧
        DerivesProgram True tokens program ∧ Accepts (program.toIr source) analyzed ∧
        runIntermediateTarget newline n source = some (0, some analyzed) ∧
        llirGeneratorGenerateLlir analyzed = some llir ∧
        ∃ method ∈ analyzed.methods, ∃ main, method.identifier = "main" ∧ llir.method "main" = some main ∧
          (llir.Representable → Linkable (analyzed.imports.map IrMethod.identifier) llir lines →
            ∀ (loaded : Loaded llir.fields) (outside : Word) (limit : Nat) (imported : List Call → Response) (c : CodeState),
              ReturnsApart lines loaded.behind outside → limit ≤ loaded.top → loaded.host.Serves imported →
              c.Starts loaded lines outside limit →
                CodeBehaves loaded lines limit analyzed llir method main imported c) := by
  have small : source.length < 2 ^ 32 := few.trans (by decide)
  refine ⟨runAssemblyTarget_stable newline plain small, fun n lines compiled => ?_⟩
  obtain ⟨analyzed, llir, built, generated, emitted⟩ := runAssemblyTarget_some plain compiled
  obtain ⟨tokens, program, scanned, derives, fromSource, accepted⟩ := runIntermediateTarget_some small built
  obtain ⟨method, mem, main, isMain, found⟩ := (accepts_ready fromSource accepted).exists_main generated
  exact ⟨tokens, program, analyzed, llir, scanned, derives, accepted, built, generated, method, mem, main, isMain, found,
    fun representable linkable loaded outside limit imported c apart room serves starts => accepts_codeBehaves fromSource
      accepted generated representable mem isMain found emitted linkable loaded apart room serves starts⟩

private theorem printedGlobalText_compiled :
    runAssemblyTarget (· == '\n') 100 ⟨false, false, false, true⟩ printedGlobalText = some (0, some printedGlobalLines) := by
  rw [runAssemblyTarget, printedGlobalText_accepted, Option.bind_eq_bind, Option.bind_some]
  dsimp only
  have unchanged : optimizationApply 100 ⟨false, false, false, true⟩ printedGlobalLlir = some printedGlobalLlir := rfl
  rw [if_pos rfl, printedGlobal_generated.2.2.1, Option.bind_eq_bind, Option.bind_some, unchanged, Option.bind_eq_bind,
    Option.bind_some, printedGlobal_emitted]
  rfl

/-- The compiled text prints 2 and returns. -/
theorem runAssemblyTarget_behaves_printedGlobal : ∃ m,
    ((codeStep printedGlobalLines printedGlobalLoaded)^[m] printedGlobalStart).status = .returned 0 ∧
      CodeHolds printedGlobalLoaded (semanticsAnalyze printedGlobal).2 ⟨[], [("g", [2])], [("print", [2])], 0⟩
        ((codeStep printedGlobalLines printedGlobalLoaded)^[m] printedGlobalStart) := by
  obtain ⟨tokens, program, analyzed, llir, -, -, -, built, generated, method, mem, main, isMain, found, behaves⟩ :=
    (runAssemblyTarget_behaves (· == '\n') ⟨rfl, rfl, rfl⟩ (by decide)).2 100 printedGlobalLines printedGlobalText_compiled
  obtain rfl : (semanticsAnalyze printedGlobal).2 = analyzed := by
    rw [printedGlobalText_accepted] at built
    exact Option.some.inj (Prod.mk.inj (Option.some.inj built)).2
  obtain rfl : printedGlobalLlir = llir := Option.some.inj (printedGlobal_generated.2.2.1.symm.trans generated)
  obtain rfl : printedGlobalMain = main := Option.some.inj (printedGlobal_generated.2.2.2.1.symm.trans found)
  obtain rfl : method = printedGlobalAnalyzed := List.mem_singleton.mp mem
  obtain ⟨⟨imported, address, garbage, stray⟩, serving, -, behaves⟩ := behaves printedGlobal_representable
    printedGlobal_linkable printedGlobalLoaded 0 32768 quietImports printedGlobalStart printedGlobal_apart (by decide)
    quietHost_serves printedGlobal_starts
  obtain rfl : imported = quietImports := serving
  have realizes := behaves (printedGlobal_room ⟨quietImports, address, garbage, stray⟩) 1
  rw [printedGlobal_run] at realizes
  exact realizes

end Roast
