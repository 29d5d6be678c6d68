import Mathlib.Data.List.Count
import Mathlib.Logic.Relation

/-! Graphs of blocks of lines that define and use variables: which lines run on every walk to a point, and what becomes of
a graph when the definitions of each name are numbered in the order of the lines. -/
namespace Systems

/-- What each line of a block defines and uses, what the end of the block uses, and where it leads. -/
structure FlowBlock (φ : Type*) where
  id : ℕ
  lines : List (Option φ × List φ)
  final : List φ
  successors : List ℕ

section
variable {φ ν : Type*}

def FlowBlock.uses (block : FlowBlock φ) : List (List φ) := block.lines.map Prod.snd ++ [block.final]

def FlowBlock.outline (block : FlowBlock φ) : ℕ × ℕ × List ℕ := (block.id, block.lines.length, block.successors)

section
variable (blocks : List (FlowBlock φ))

/-- A step between points: a block and the number of lines before the point. -/
inductive FlowStep : ℕ × ℕ → ℕ × ℕ → Prop where
  | next {block : FlowBlock φ} {index : ℕ} (mem : block ∈ blocks) (inside : index < block.lines.length) :
    FlowStep (block.id, index) (block.id, index + 1)
  | edge {block : FlowBlock φ} {successor : ℕ} (mem : block ∈ blocks) (leads : successor ∈ block.successors) :
    FlowStep (block.id, block.lines.length) (successor, 0)

/-- Every walk from the entry to the point runs the line. -/
def Dominates (line point : ℕ × ℕ) : Prop :=
  ∀ first ∈ blocks.head?, ¬ Relation.ReflTransGen (fun here next => here ≠ line ∧ FlowStep blocks here next) (first.id, 0) point

end

theorem FlowStep.of_outline {blocks blocks' : List (FlowBlock φ)}
    (same : blocks.map FlowBlock.outline = blocks'.map FlowBlock.outline) {point next : ℕ × ℕ}
    (step : FlowStep blocks point next) : FlowStep blocks' point next := by
  have other {block : FlowBlock φ} (mem : block ∈ blocks) : ∃ block' ∈ blocks', block'.id = block.id ∧
      block'.lines.length = block.lines.length ∧ block'.successors = block.successors := by
    obtain ⟨block', mem', outline⟩ := List.mem_map.mp (same ▸ List.mem_map_of_mem mem)
    obtain ⟨id, rest⟩ := Prod.mk.inj outline
    exact ⟨block', mem', id, Prod.mk.inj rest⟩
  cases step with
  | next mem inside =>
    obtain ⟨block', mem', id, length, -⟩ := other mem
    rw [← id]
    exact .next mem' (length ▸ inside)
  | edge mem leads =>
    obtain ⟨block', mem', id, length, successors⟩ := other mem
    rw [← id, ← length]
    exact .edge mem' (successors ▸ leads)

/-- Graphs with the same outlines have the same walks. -/
private theorem dominates_of_outline {blocks blocks' : List (FlowBlock φ)}
    (same : blocks.map FlowBlock.outline = blocks'.map FlowBlock.outline) :
    Dominates blocks = Dominates blocks' := by
  funext line point
  have steps : FlowStep blocks = FlowStep blocks' := by
    funext here next
    exact propext ⟨fun step => step.of_outline same, fun step => step.of_outline same.symm⟩
  have heads : blocks.head?.map FlowBlock.id = blocks'.head?.map FlowBlock.id := by
    have firsts := congrArg (fun outlines => outlines.head?.map Prod.fst) same
    rwa [List.head?_map, List.head?_map, Option.map_map, Option.map_map] at firsts
  rw [Dominates, Dominates, steps]
  cases first : blocks.head? with
  | none =>
    rw [first, Option.map_none, eq_comm, Option.map_eq_none_iff] at heads
    simp [heads]
  | some block =>
    rw [first, Option.map_some, eq_comm, Option.map_eq_some_iff] at heads
    obtain ⟨block', first', id⟩ := heads
    simp [first', id]

/-- A line runs before every later point of its block. -/
theorem dominates_same {blocks : List (FlowBlock φ)} {id index point : ℕ} (before : index < point) :
    Dominates blocks (id, index) (id, point) := by
  intro first _ walk
  have bounded : ∀ here, Relation.ReflTransGen (fun here next => here ≠ (id, index) ∧ FlowStep blocks here next)
      (first.id, 0) here → here.1 = id → here.2 ≤ index := by
    intro here walk
    induction walk with
    | refl => exact fun _ => Nat.zero_le _
    | tail _ step ih =>
      obtain ⟨other, step⟩ := step
      cases step with
      | next _ _ =>
        rintro rfl
        exact Nat.lt_of_le_of_ne (ih rfl) fun same => other (by rw [same])
      | edge _ _ => exact fun _ => Nat.zero_le _
  exact absurd (bounded _ walk rfl) (Nat.not_le.mpr before)

section
variable (name : φ → ν)

def definedNames (lines : List (Option φ × List φ)) : List ν := lines.filterMap fun line => line.1.map name

def definedBefore (blocks : List (FlowBlock φ)) (position index : ℕ) : List ν :=
  definedNames name ((blocks.take position).flatMap FlowBlock.lines ++ (blocks[position]?.elim [] FlowBlock.lines).take index)

def DefinedOnWalks (blocks : List (FlowBlock φ)) (wanted : ν) (point : ℕ × ℕ) : Prop :=
  ∃ block ∈ blocks, ∃ index line, block.lines[index]? = some line ∧ line.1.map name = some wanted ∧
    Dominates blocks (block.id, index) point

/-- The definition of the name that has the number runs on every walk to the point. -/
def NumberedOnWalks [DecidableEq ν] (blocks : List (FlowBlock φ)) (wanted : ν) (number : ℕ) (point : ℕ × ℕ) : Prop :=
  ∃ position block index line, blocks[position]? = some block ∧ block.lines[index]? = some line ∧
    line.1.map name = some wanted ∧ (definedBefore name blocks position index).count wanted = number ∧
    Dominates blocks (block.id, index) point

variable {name}

theorem definedNames_append (lines lines' : List (Option φ × List φ)) :
    definedNames name (lines ++ lines') = definedNames name lines ++ definedNames name lines' := List.filterMap_append

theorem definedNames_cons (line : Option φ × List φ) (lines : List (Option φ × List φ)) :
    definedNames name (line :: lines) = (line.1.map name).toList ++ definedNames name lines := by
  rw [definedNames, List.filterMap_cons]
  cases line.1.map name with
  | none => rfl
  | some defined => rfl

theorem definedBefore_eq {blocks : List (FlowBlock φ)} {position : ℕ} {block : FlowBlock φ}
    (at_ : blocks[position]? = some block) (index : ℕ) : definedBefore name blocks position index =
      definedNames name ((blocks.take position).flatMap FlowBlock.lines) ++ definedNames name (block.lines.take index) := by
  rw [definedBefore, at_, Option.elim_some, definedNames_append]

/-- What is defined before a point begins all definitions. -/
theorem definedBefore_extends (blocks : List (FlowBlock φ)) (position index : ℕ) :
    definedBefore name blocks position index <+: definedNames name (blocks.flatMap FlowBlock.lines) := by
  cases at_ : blocks[position]? with
  | none =>
    have all : definedBefore name blocks position index = definedNames name (blocks.flatMap FlowBlock.lines) := by
      rw [definedBefore, at_, Option.elim_none, List.take_nil, List.append_nil,
        List.take_of_length_le (List.getElem?_eq_none_iff.mp at_)]
    exact all ▸ List.prefix_rfl
  | some block =>
    obtain ⟨inside, rfl⟩ := List.getElem?_eq_some_iff.mp at_
    have split : blocks.flatMap FlowBlock.lines = (blocks.take position).flatMap FlowBlock.lines ++
        (blocks[position].lines.take index ++ blocks[position].lines.drop index) ++
          (blocks.drop (position + 1)).flatMap FlowBlock.lines := by
      rw [List.take_append_drop, List.append_assoc, ← List.flatMap_cons, ← List.drop_eq_getElem_cons inside,
        ← List.flatMap_append, List.take_append_drop]
    rw [definedBefore_eq at_, split, definedNames_append, definedNames_append, definedNames_append, List.append_assoc,
      List.append_assoc]
    rw [← List.append_assoc]
    exact List.prefix_append _ _

/-- Before a definition of a name there are fewer of them than in all. -/
theorem count_definedBefore_lt [DecidableEq ν] {blocks : List (FlowBlock φ)} {position : ℕ} {block : FlowBlock φ}
    (at_ : blocks[position]? = some block) {index : ℕ} {line : Option φ × List φ} (here : block.lines[index]? = some line)
    {wanted : ν} (defined : line.1.map name = some wanted) :
    (definedBefore name blocks position index).count wanted <
      (definedNames name (blocks.flatMap FlowBlock.lines)).count wanted := by
  have next : definedBefore name blocks position (index + 1) = definedBefore name blocks position index ++ [wanted] := by
    rw [definedBefore_eq at_, definedBefore_eq at_, List.take_add_one, here, Option.toList_some, definedNames_append,
      definedNames_cons, defined, List.append_assoc]
    rfl
  have le := (@definedBefore_extends _ _ name blocks position (index + 1)).sublist.count_le wanted
  rw [next, List.count_append, List.count_singleton_self] at le
  exact le

end

/-- How a variable is replaced where it is used and where it is defined, after the definitions of some names. -/
structure Renaming (φ ν : Type*) where
  name : φ → ν
  use : List ν → φ → φ
  define : List ν → φ → φ

namespace Renaming
variable (scheme : Renaming φ ν)

def renameLines (past : List ν) : List (Option φ × List φ) → List (Option φ × List φ)
  | [] => []
  | line :: rest => (line.1.map (scheme.define past), line.2.map (scheme.use past)) ::
      renameLines (past ++ (line.1.map scheme.name).toList) rest

def renameBlock (past : List ν) (block : FlowBlock φ) : FlowBlock φ :=
  { block with
    lines := scheme.renameLines past block.lines
    final := block.final.map (scheme.use (past ++ definedNames scheme.name block.lines)) }

def renameBlocks (past : List ν) : List (FlowBlock φ) → List (FlowBlock φ)
  | [] => []
  | block :: rest => scheme.renameBlock past block ::
      renameBlocks (past ++ definedNames scheme.name block.lines) rest

variable {scheme}

theorem renameLines_length (past : List ν) (lines : List (Option φ × List φ)) :
    (scheme.renameLines past lines).length = lines.length := by
  induction lines generalizing past with
  | nil => rfl
  | cons line rest ih => exact congrArg (· + 1) (ih _)

theorem renameLines_getElem? (past : List ν) (lines : List (Option φ × List φ)) (index : ℕ) :
    (scheme.renameLines past lines)[index]? = lines[index]?.map fun line =>
      (line.1.map (scheme.define (past ++ definedNames scheme.name (lines.take index))),
        line.2.map (scheme.use (past ++ definedNames scheme.name (lines.take index)))) := by
  induction lines generalizing past index with
  | nil => rfl
  | cons line rest ih =>
    cases index with
    | zero => simp [renameLines, definedNames]
    | succ index =>
      rw [renameLines, List.getElem?_cons_succ, ih, List.getElem?_cons_succ, List.take_succ_cons, definedNames_cons,
        List.append_assoc]

private theorem renameBlocks_outline (past : List ν) (blocks : List (FlowBlock φ)) :
    (scheme.renameBlocks past blocks).map FlowBlock.outline = blocks.map FlowBlock.outline := by
  induction blocks generalizing past with
  | nil => rfl
  | cons block rest ih =>
    have here : (scheme.renameBlock past block).outline = block.outline := by
      rw [FlowBlock.outline, FlowBlock.outline, renameBlock, renameLines_length]
    rw [renameBlocks, List.map_cons, List.map_cons, ih, here]

theorem renameBlocks_getElem? (past : List ν) (blocks : List (FlowBlock φ)) (position : ℕ) :
    (scheme.renameBlocks past blocks)[position]? = blocks[position]?.map
      (scheme.renameBlock (past ++ definedNames scheme.name ((blocks.take position).flatMap FlowBlock.lines))) := by
  induction blocks generalizing past position with
  | nil => rfl
  | cons block rest ih =>
    cases position with
    | zero => simp [renameBlocks, definedNames]
    | succ position =>
      rw [renameBlocks, List.getElem?_cons_succ, ih, List.getElem?_cons_succ, List.take_succ_cons, List.flatMap_cons,
        definedNames_append, List.append_assoc]

/-- A line of the renamed graph. -/
private theorem renameBlocks_line {blocks : List (FlowBlock φ)} {position : ℕ} {block : FlowBlock φ}
    (at_ : blocks[position]? = some block) (index : ℕ) :
    ∃ block', (scheme.renameBlocks [] blocks)[position]? = some block' ∧ block'.id = block.id ∧
      block'.lines[index]? = block.lines[index]?.map fun line =>
        (line.1.map (scheme.define (definedBefore scheme.name blocks position index)),
          line.2.map (scheme.use (definedBefore scheme.name blocks position index))) := by
  refine ⟨_, (renameBlocks_getElem? [] blocks position).trans (congrArg _ at_), rfl, ?_⟩
  rw [renameBlock, renameLines_getElem?, List.nil_append, definedBefore_eq at_]

/-- The uses at a point of the renamed graph. -/
theorem renameBlocks_uses {blocks : List (FlowBlock φ)} {position : ℕ} {block block' : FlowBlock φ}
    (at_ : blocks[position]? = some block) (at' : (scheme.renameBlocks [] blocks)[position]? = some block')
    (index : ℕ) : block'.uses[index]? = block.uses[index]?.map
      (List.map (scheme.use (definedBefore scheme.name blocks position index))) := by
  rw [renameBlocks_getElem?, at_, List.nil_append, Option.map_some, Option.some.injEq] at at'
  subst at'
  rw [definedBefore_eq at_, FlowBlock.uses, FlowBlock.uses]
  obtain inside | rfl | outside := Nat.lt_trichotomy index block.lines.length
  · rw [List.getElem?_append_left, List.getElem?_append_left, List.getElem?_map, List.getElem?_map, renameBlock,
      renameLines_getElem?, Option.map_map, Option.map_map]
    · rfl
    · simpa using inside
    · simpa [renameBlock, renameLines_length] using inside
  · rw [List.getElem?_append_right, List.getElem?_append_right]
    · simp [renameBlock, renameLines_length]
    · simp
    · simp [renameBlock, renameLines_length]
  · rw [List.getElem?_eq_none, List.getElem?_eq_none, Option.map_none]
    · simpa using Nat.succ_le_of_lt outside
    · simpa [renameBlock, renameLines_length] using Nat.succ_le_of_lt outside

section
variable [DecidableEq ν] (version : ν → ℕ → ν)

/-- The definitions of a name get its versions one after another, and what is used is the version before. -/
structure Numbers (scheme : Renaming φ ν) (version : ν → ℕ → ν) : Prop where
  use (past : List ν) (item : φ) :
    scheme.name (scheme.use past item) = version (scheme.name item) (past.count (scheme.name item) - 1)
  define (past : List ν) (item : φ) :
    scheme.name (scheme.define past item) = version (scheme.name item) (past.count (scheme.name item))

def versions (past : List ν) : List ν → List ν
  | [] => []
  | name :: rest => version name (past.count name) :: versions (past ++ [name]) rest

private theorem versions_append (past names names' : List ν) : versions version past (names ++ names') =
    versions version past names ++ versions version (past ++ names) names' := by
  induction names generalizing past with
  | nil => rw [List.nil_append, List.append_nil, versions, List.nil_append]
  | cons name rest ih => rw [List.cons_append, versions, versions, ih, List.append_assoc, List.singleton_append, List.cons_append]

variable {version}

/-- A version occurs once if its number is reached, and not at all otherwise. -/
theorem count_versions {wanted : ν} {number : ℕ} (past : List ν) {names : List ν}
    (distinct : ∀ name ∈ names, ∀ n, version name n = version wanted number → name = wanted ∧ n = number) :
    (versions version past names).count (version wanted number) =
      if past.count wanted ≤ number ∧ number < past.count wanted + names.count wanted then 1 else 0 := by
  induction names generalizing past with
  | nil => exact (if_neg (by simp)).symm
  | cons name rest ih =>
    have later := ih (past ++ [name]) fun other mem => distinct other (List.mem_cons_of_mem name mem)
    rw [versions, List.count_cons, later, List.count_append]
    have here := distinct name List.mem_cons_self (past.count name)
    by_cases same : name = wanted
    · subst same
      rw [List.count_singleton_self, List.count_cons_self]
      by_cases reached : past.count name = number
      · subst reached
        rw [if_pos (beq_self_eq_true _), if_neg (by omega), if_pos (by omega)]
      · have other : ¬ (version name (past.count name) == version name number) = true :=
          fun equal => reached (here (beq_iff_eq.mp equal)).2
        rw [if_neg other]
        split_ifs <;> omega
    · have other : version name (past.count name) ≠ version wanted number := fun equal => same (here equal).1
      simp [other, same]

variable (numbers : scheme.Numbers version)
include numbers

private theorem Numbers.definedNames_renameLines (past : List ν) (lines : List (Option φ × List φ)) :
    definedNames scheme.name (scheme.renameLines past lines) =
      versions version past (definedNames scheme.name lines) := by
  induction lines generalizing past with
  | nil => rfl
  | cons line rest ih =>
    rw [renameLines, definedNames_cons, definedNames_cons, versions_append, ih]
    cases line.1 with
    | none => rfl
    | some item =>
      simp only [Option.map_some, Option.toList_some, versions, numbers.define]

theorem Numbers.definedNames_renameBlocks (past : List ν) (blocks : List (FlowBlock φ)) :
    definedNames scheme.name ((scheme.renameBlocks past blocks).flatMap FlowBlock.lines) =
      versions version past (definedNames scheme.name (blocks.flatMap FlowBlock.lines)) := by
  induction blocks generalizing past with
  | nil => rfl
  | cons block rest ih =>
    rw [renameBlocks, List.flatMap_cons, List.flatMap_cons, definedNames_append, definedNames_append, versions_append, ih,
      renameBlock, numbers.definedNames_renameLines]

/-- A version of a name is defined on the walks to a point if the definition of the name with its number is. -/
theorem Numbers.definedOnWalks {blocks : List (FlowBlock φ)} {wanted : ν} {number : ℕ}
    (distinct : ∀ name ∈ definedNames scheme.name (blocks.flatMap FlowBlock.lines), ∀ n,
      version name n = version wanted number → name = wanted ∧ n = number) (point : ℕ × ℕ) :
    DefinedOnWalks scheme.name (scheme.renameBlocks [] blocks) (version wanted number) point ↔
      NumberedOnWalks scheme.name blocks wanted number point := by
  rw [DefinedOnWalks, dominates_of_outline (renameBlocks_outline [] blocks)]
  constructor
  · rintro ⟨block', mem', index, line', here', defined', dominates⟩
    obtain ⟨position, at'⟩ := List.mem_iff_getElem?.mp mem'
    obtain ⟨block, at_, -⟩ := Option.map_eq_some_iff.mp ((renameBlocks_getElem? [] blocks position).symm.trans at')
    obtain ⟨other, again, id, lines⟩ := @renameBlocks_line _ _ scheme _ _ _ at_ index
    obtain rfl := Option.some.inj (again.symm.trans at')
    obtain ⟨line, here, rfl⟩ := Option.map_eq_some_iff.mp (lines.symm.trans here')
    obtain ⟨replaced, isDefined, same⟩ := Option.map_eq_some_iff.mp defined'
    obtain ⟨item, known, rfl⟩ := Option.map_eq_some_iff.mp isDefined
    have defined : line.1.map scheme.name = some (scheme.name item) := Option.map_eq_some_iff.mpr ⟨item, known, rfl⟩
    rw [numbers.define] at same
    have mem : scheme.name item ∈ definedNames scheme.name (blocks.flatMap FlowBlock.lines) :=
      List.mem_filterMap.mpr
        ⟨line, List.mem_flatMap.mpr ⟨block, List.mem_of_getElem? at_, List.mem_of_getElem? here⟩, defined⟩
    obtain ⟨rfl, count⟩ := distinct _ mem _ same
    exact ⟨position, block, index, line, at_, here, defined, count, id ▸ dominates⟩
  · rintro ⟨position, block, index, line, at_, here, defined, count, dominates⟩
    obtain ⟨item, known, rfl⟩ := Option.map_eq_some_iff.mp defined
    obtain ⟨block', at', id, lines⟩ := @renameBlocks_line _ _ scheme _ _ _ at_ index
    rw [here, Option.map_some] at lines
    refine ⟨block', List.mem_of_getElem? at', index, _, lines, ?_, id.symm ▸ dominates⟩
    rw [known, Option.map_some, Option.map_some, numbers.define, count]

end

end Renaming

end

end Systems
