import Mathlib.Data.List.Basic
import Mathlib.Data.List.TakeWhile
import Mathlib.Order.Basic

/-! Regular expressions with ordered alternatives, as backtracking engines match them: the matches at a place
are listed in the order in which the engine tries them. -/
namespace Systems

/-- A place in a text: the character before it and those after it. -/
structure Place where
  before : Option Char
  after : List Char
  deriving DecidableEq, Repr

inductive Regex where
  | empty
  | character (accepts : Char → Bool)
  | boundary (word : Char → Bool)
  | sequence (first second : Regex)
  | alternative (first second : Regex)
  | greedy (body : Regex)
  | lazy (body : Regex)

/-- The places after at most `n` rounds, longer ones first. -/
def greedyEnds (round : Place → List Place) : Nat → Place → List Place
  | 0, place => [place]
  | n + 1, place => (round place).flatMap (greedyEnds round n) ++ [place]

/-- The places after at most `n` rounds, shorter ones first. -/
def lazyEnds (round : Place → List Place) : Nat → Place → List Place
  | 0, place => [place]
  | n + 1, place => place :: (round place).flatMap (lazyEnds round n)

namespace Regex

/-- The places where a match may end, in the order of the search. A round of a repetition consumes a
character, so there are no more rounds than characters. -/
def ends : Regex → Place → List Place
  | empty, place => [place]
  | character accepts, place =>
    match place.after with
    | [] => []
    | first :: rest => if accepts first then [⟨some first, rest⟩] else []
  | boundary word, place => if place.before.any word = place.after.head?.any word then [] else [place]
  | sequence first second, place => (first.ends place).flatMap second.ends
  | alternative first second, place => first.ends place ++ second.ends place
  | greedy body, place => greedyEnds body.ends place.after.length place
  | lazy body, place => lazyEnds body.ends place.after.length place

def plus (body : Regex) : Regex := sequence body (greedy body)

def text (characters : List Char) : Regex :=
  characters.foldr (fun character => sequence (Regex.character (· == character))) empty

def leads : Regex → Bool
  | character _ => true
  | sequence first _ => first.leads
  | alternative first second => first.leads && second.leads
  | _ => false

def begins : Regex → Char → Bool
  | character accepts, head => accepts head
  | sequence first _, head => first.begins head
  | alternative first second, head => first.begins head || second.begins head
  | _, _ => true

end Regex

private theorem greedyEnds_suffix {round : Place → List Place}
    (forward : ∀ place, ∀ stop ∈ round place, stop.after <:+ place.after) (n : Nat) (place : Place) :
    ∀ stop ∈ greedyEnds round n place, stop.after <:+ place.after := by
  induction n generalizing place with
  | zero => simp [greedyEnds]
  | succ n ih =>
    intro stop mem
    rcases List.mem_append.mp mem with mem | mem
    · obtain ⟨next, reached, mem⟩ := List.mem_flatMap.mp mem
      exact (ih next stop mem).trans (forward place next reached)
    · exact List.mem_singleton.mp mem ▸ List.suffix_rfl

private theorem lazyEnds_suffix {round : Place → List Place}
    (forward : ∀ place, ∀ stop ∈ round place, stop.after <:+ place.after) (n : Nat) (place : Place) :
    ∀ stop ∈ lazyEnds round n place, stop.after <:+ place.after := by
  induction n generalizing place with
  | zero => simp [lazyEnds]
  | succ n ih =>
    intro stop mem
    rcases List.mem_cons.mp mem with rfl | mem
    · exact List.suffix_rfl
    · obtain ⟨next, reached, mem⟩ := List.mem_flatMap.mp mem
      exact (ih next stop mem).trans (forward place next reached)

namespace Regex

theorem ends_character_nil (accepts : Char → Bool) (before : Option Char) :
    (character accepts).ends ⟨before, []⟩ = [] := rfl

theorem ends_character_cons (accepts : Char → Bool) (before : Option Char) (first : Char) (rest : List Char) :
    (character accepts).ends ⟨before, first :: rest⟩ = if accepts first then [⟨some first, rest⟩] else [] := rfl

theorem ends_boundary (word : Char → Bool) (place : Place) : (boundary word).ends place =
    if place.before.any word = place.after.head?.any word then [] else [place] := rfl

theorem ends_sequence (first second : Regex) (place : Place) :
    (sequence first second).ends place = (first.ends place).flatMap second.ends := rfl

theorem ends_alternative (first second : Regex) (place : Place) :
    (alternative first second).ends place = first.ends place ++ second.ends place := rfl

theorem mem_ends_character {accepts : Char → Bool} {place stop : Place} :
    stop ∈ (character accepts).ends place ↔
      ∃ first rest, place.after = first :: rest ∧ accepts first = true ∧ stop = ⟨some first, rest⟩ := by
  obtain ⟨before, after⟩ := place
  cases after with
  | nil => simp [ends_character_nil]
  | cons head tail =>
    rw [ends_character_cons]
    split
    · rename_i accepted
      rw [List.mem_singleton]
      constructor
      · rintro rfl
        exact ⟨head, tail, rfl, accepted, rfl⟩
      · rintro ⟨first, rest, same, -, rfl⟩
        cases same
        rfl
    · rename_i refused
      simp only [List.not_mem_nil, false_iff]
      rintro ⟨first, rest, same, accepted, -⟩
      cases same
      exact refused accepted

/-- A match ends at a suffix of the text. -/
theorem ends_suffix (regex : Regex) (place : Place) : ∀ stop ∈ regex.ends place, stop.after <:+ place.after := by
  induction regex generalizing place with
  | empty =>
    intro stop mem
    exact List.mem_singleton.mp mem ▸ List.suffix_rfl
  | character accepts =>
    intro stop mem
    obtain ⟨first, rest, after, -, rfl⟩ := mem_ends_character.mp mem
    rw [after]
    exact List.suffix_cons first rest
  | boundary word =>
    intro stop mem
    rw [ends_boundary] at mem
    split at mem
    · cases mem
    · exact List.mem_singleton.mp mem ▸ List.suffix_rfl
  | sequence first second ihf ihs =>
    intro stop mem
    obtain ⟨next, reached, mem⟩ := List.mem_flatMap.mp mem
    exact (ihs next stop mem).trans (ihf place next reached)
  | alternative first second ihf ihs =>
    intro stop mem
    rcases List.mem_append.mp mem with mem | mem
    · exact ihf place stop mem
    · exact ihs place stop mem
  | greedy body ih => exact greedyEnds_suffix ih _ place
  | lazy body ih => exact lazyEnds_suffix ih _ place

/-- A match of an expression that leads consumes a character with which it begins. -/
theorem ends_begins {regex : Regex} (leads : regex.leads = true) {place stop : Place} (mem : stop ∈ regex.ends place) :
    ∃ first rest, place.after = first :: rest ∧ regex.begins first = true ∧ stop.after <:+ rest := by
  induction regex generalizing place stop with
  | character accepts =>
    obtain ⟨first, rest, after, accepted, rfl⟩ := mem_ends_character.mp mem
    exact ⟨first, rest, after, accepted, List.suffix_rfl⟩
  | sequence first second ihf _ =>
    obtain ⟨next, reached, mem⟩ := List.mem_flatMap.mp mem
    obtain ⟨character, rest, after, begins, suffix⟩ := ihf leads reached
    exact ⟨character, rest, after, begins, (second.ends_suffix next stop mem).trans suffix⟩
  | alternative first second ihf ihs =>
    rw [Regex.leads, Bool.and_eq_true] at leads
    rcases List.mem_append.mp mem with mem | mem
    · obtain ⟨character, rest, after, begins, suffix⟩ := ihf leads.1 mem
      exact ⟨character, rest, after, by rw [Regex.begins, begins, Bool.true_or], suffix⟩
    · obtain ⟨character, rest, after, begins, suffix⟩ := ihs leads.2 mem
      exact ⟨character, rest, after, by rw [Regex.begins, begins, Bool.or_true], suffix⟩
  | _ => cases leads

/-- What comes before a place does not matter to an expression that leads. -/
theorem ends_before {regex : Regex} (leads : regex.leads = true) (before before' : Option Char) (after : List Char) :
    regex.ends ⟨before, after⟩ = regex.ends ⟨before', after⟩ := by
  induction regex with
  | character accepts => rfl
  | sequence first second ihf _ => rw [ends_sequence, ends_sequence, ihf leads]
  | alternative first second ihf ihs =>
    rw [Regex.leads, Bool.and_eq_true] at leads
    rw [ends_alternative, ends_alternative, ihf leads.1, ihs leads.2]
  | _ => cases leads

/-- A fixed text matches where the text begins with it. -/
theorem text_ends (characters : List Char) (place : Place) : (text characters).ends place =
    if characters <+: place.after then
      [⟨characters.getLast?.or place.before, place.after.drop characters.length⟩]
    else [] := by
  induction characters generalizing place with
  | nil =>
    rw [if_pos List.nil_prefix]
    rfl
  | cons character rest ih =>
    obtain ⟨before, after⟩ := place
    have first : (text (character :: rest)).ends ⟨before, after⟩ =
        ((Regex.character (· == character)).ends ⟨before, after⟩).flatMap (text rest).ends := rfl
    rw [first]
    cases after with
    | nil => simp [ends_character_nil]
    | cons head tail =>
      rw [ends_character_cons]
      by_cases same : head = character
      · subst same
        rw [beq_self_eq_true, if_pos rfl, List.flatMap_singleton, ih]
        have prefixes : head :: rest <+: head :: tail ↔ rest <+: tail := List.prefix_cons_inj head
        by_cases continued : rest <+: tail
        · rw [if_pos continued, if_pos (prefixes.mpr continued), List.getLast?_cons]
          cases rest.getLast? <;> rfl
        · rw [if_neg continued, if_neg fun h => continued (prefixes.mp h)]
      · rw [beq_false_of_ne same, if_neg (by decide), if_neg]
        · rfl
        · intro prefixed
          exact same (List.cons_prefix_cons.mp prefixed).1.symm

/-- The first match of a repeated character drops all that it accepts. -/
private theorem greedyEnds_character (accepts : Char → Bool) (n : Nat) (place : Place)
    (enough : place.after.length ≤ n) :
    (∃ stop, (greedyEnds (Regex.character accepts).ends n place).head? = some stop ∧
        stop.after = place.after.dropWhile accepts) ∧
      ∀ stop ∈ greedyEnds (Regex.character accepts).ends n place,
        (place.after.dropWhile accepts).length ≤ stop.after.length := by
  induction n generalizing place with
  | zero =>
    have none : place.after = [] := List.eq_nil_of_length_eq_zero (by omega)
    exact ⟨⟨place, rfl, by rw [none, List.dropWhile_nil]⟩, by simp [greedyEnds, none]⟩
  | succ n ih =>
    obtain ⟨before, after⟩ := place
    have stays (stop : Place) : (after.dropWhile accepts).length ≤ after.length :=
      (List.dropWhile_suffix accepts).length_le
    cases after with
    | nil => exact ⟨⟨⟨before, []⟩, rfl, rfl⟩, by simp [greedyEnds, ends_character_nil]⟩
    | cons first rest =>
      by_cases accepted : accepts first = true
      · have small : rest.length ≤ n := by
          rw [List.length_cons] at enough
          omega
        obtain ⟨⟨stop, head, same⟩, longest⟩ := ih ⟨some first, rest⟩ small
        have round : (Regex.character accepts).ends ⟨before, first :: rest⟩ = [⟨some first, rest⟩] := by
          rw [ends_character_cons, if_pos accepted]
        rw [greedyEnds, round, List.flatMap_singleton, List.dropWhile_cons_of_pos accepted]
        refine ⟨⟨stop, by rw [List.head?_append, head]; rfl, same⟩, fun other mem => ?_⟩
        rcases List.mem_append.mp mem with mem | mem
        · exact longest other mem
        · rw [List.mem_singleton.mp mem]
          exact ((List.dropWhile_suffix accepts).trans (List.suffix_cons first rest)).length_le
      · have round : (Regex.character accepts).ends ⟨before, first :: rest⟩ = [] := by
          rw [ends_character_cons, if_neg accepted]
        rw [greedyEnds, round, List.flatMap_nil, List.nil_append, List.dropWhile_cons_of_neg accepted]
        exact ⟨⟨_, rfl, rfl⟩, by simp⟩

/-- The first match of a repeated character is the longest one. -/
theorem greedy_character (accepts : Char → Bool) (place : Place) :
    (∃ stop, ((greedy (character accepts)).ends place).head? = some stop ∧
        stop.after = place.after.dropWhile accepts) ∧
      ∀ stop ∈ (greedy (character accepts)).ends place,
        (place.after.dropWhile accepts).length ≤ stop.after.length :=
  greedyEnds_character accepts _ place le_rfl

def Single (regex : Regex) : Prop := ∀ place, (regex.ends place).length ≤ 1

def LongestFirst (regex : Regex) : Prop :=
  ∀ place stop, (regex.ends place).head? = some stop → ∀ other ∈ regex.ends place, stop.after.length ≤ other.after.length

theorem Single.longestFirst {regex : Regex} (single : regex.Single) : regex.LongestFirst := by
  intro place stop head other mem
  have one := single place
  cases found : regex.ends place with
  | nil => simp [found] at mem
  | cons first rest =>
    rw [found] at one head mem
    obtain rfl : rest = [] := List.eq_nil_of_length_eq_zero (by rw [List.length_cons] at one; omega)
    rw [List.mem_singleton.mp mem, ← Option.some.inj head]

theorem single_character (accepts : Char → Bool) : (character accepts).Single := by
  rintro ⟨before, after⟩
  cases after with
  | nil => exact Nat.zero_le _
  | cons first rest =>
    rw [ends_character_cons]
    split
    · exact le_rfl
    · exact Nat.zero_le _

theorem single_boundary (word : Char → Bool) : (boundary word).Single := by
  intro place
  rw [ends_boundary]
  split
  · exact Nat.zero_le _
  · exact le_rfl

theorem single_text (characters : List Char) : (text characters).Single := by
  intro place
  rw [text_ends]
  split
  · exact le_rfl
  · exact Nat.zero_le _

/-- What follows an expression with one match begins at one place. -/
theorem Single.sequence_ends {first : Regex} (single : first.Single) (second : Regex) (place : Place) :
    (sequence first second).ends place = [] ∨
      ∃ next ∈ first.ends place, (sequence first second).ends place = second.ends next := by
  have one := single place
  cases found : first.ends place with
  | nil =>
    left
    rw [ends_sequence, found, List.flatMap_nil]
  | cons next rest =>
    right
    rw [found] at one
    obtain rfl : rest = [] := List.eq_nil_of_length_eq_zero (by rw [List.length_cons] at one; omega)
    exact ⟨next, List.mem_singleton_self next, by rw [ends_sequence, found, List.flatMap_singleton]⟩

theorem single_sequence {first second : Regex} (hf : first.Single) (hs : second.Single) :
    (sequence first second).Single := by
  intro place
  rcases hf.sequence_ends second place with none | ⟨next, -, same⟩
  · rw [none]
    exact Nat.zero_le _
  · rw [same]
    exact hs next

theorem longestFirst_sequence {first second : Regex} (hf : first.Single) (hs : second.LongestFirst) :
    (sequence first second).LongestFirst := by
  intro place stop head other mem
  rcases hf.sequence_ends second place with none | ⟨next, -, same⟩
  · rw [none] at mem
    cases mem
  · rw [same] at head mem
    exact hs next stop head other mem

/-- Alternatives that begin with different characters. -/
theorem single_alternative {first second : Regex} (hf : first.Single) (hs : second.Single)
    (leads : (alternative first second).leads = true)
    (apart : ∀ head, first.begins head = true → second.begins head = false) : (alternative first second).Single := by
  intro place
  rw [Regex.leads, Bool.and_eq_true] at leads
  rw [ends_alternative, List.length_append]
  cases found : first.ends place with
  | nil =>
    rw [List.length_nil, Nat.zero_add]
    exact hs place
  | cons stop rest =>
    have none : second.ends place = [] := by
      rw [List.eq_nil_iff_forall_not_mem]
      intro other mem
      obtain ⟨head, _, after, begins, -⟩ := ends_begins leads.1 (found ▸ List.mem_cons_self ..)
      obtain ⟨head', _, after', begins', -⟩ := ends_begins leads.2 mem
      rw [after] at after'
      rw [← (List.cons.inj after').1, apart head begins] at begins'
      cases begins'
    rw [none, ← found]
    exact hf place

theorem longestFirst_greedy_character (accepts : Char → Bool) : (greedy (character accepts)).LongestFirst := by
  intro place stop head other mem
  obtain ⟨⟨first, head', same⟩, longest⟩ := greedy_character accepts place
  rw [head] at head'
  rw [Option.some.inj head', same]
  exact longest other mem

theorem longestFirst_plus_character (accepts : Char → Bool) : (plus (character accepts)).LongestFirst :=
  longestFirst_sequence (single_character accepts) (longestFirst_greedy_character accepts)

/-- A lazy repetition up to a closing character that no round begins with has one end at most, when a round
has. -/
theorem single_lazy_close {body : Regex} (leads : body.leads = true) {close : Char} (apart : body.begins close = false)
    (single : body.Single) : (sequence (lazy body) (character (· == close))).Single := by
  have rounds (n : Nat) (place : Place) :
      ((lazyEnds body.ends n place).flatMap (character (· == close)).ends).length ≤ 1 := by
    induction n generalizing place with
    | zero =>
      rw [lazyEnds, List.flatMap_singleton]
      exact single_character _ place
    | succ n ih =>
      rw [lazyEnds, List.flatMap_cons, List.length_append]
      by_cases closed : ∃ rest, place.after = close :: rest
      · obtain ⟨rest, after⟩ := closed
        have none : body.ends place = [] := by
          rw [List.eq_nil_iff_forall_not_mem]
          intro stop mem
          obtain ⟨first, _, after', begins, -⟩ := ends_begins leads mem
          rw [after] at after'
          rw [← (List.cons.inj after').1, apart] at begins
          cases begins
        rw [none, List.flatMap_nil, List.flatMap_nil, List.length_nil]
        exact single_character _ place
      · have none : (character (· == close)).ends place = [] := by
          rw [List.eq_nil_iff_forall_not_mem]
          intro stop mem
          obtain ⟨first, rest, after, same, -⟩ := mem_ends_character.mp mem
          exact closed ⟨rest, by rw [after, beq_iff_eq.mp same]⟩
        rw [none, List.length_nil, Nat.zero_add]
        have one := single place
        cases found : body.ends place with
        | nil => simp
        | cons next others =>
          have alone : others = [] := by
            rw [found, List.length_cons] at one
            exact List.eq_nil_of_length_eq_zero (by omega)
          rw [alone, List.flatMap_singleton]
          exact ih next
  exact fun place => rounds _ place

end Regex

end Systems
