import LogPipeline.Intake
import Mathlib.Data.Nat.Find
import Mathlib.Logic.ExistsUnique

/-!
# Severity markers

The level of a raw line is that of the most severe marker it holds, wherever that stands
(`guesses_most_severe`), and not that of its first marker: the two differ exactly if a more
severe marker comes after the first one (`error_outranks_first_marker`). Each line with a marker
has one first marker (`existsUnique_firstMarked`), as no two markers begin with the same letter.
-/

namespace LogPipeline

theorem Level.le_antisymm {l l' : Level} (h : l ≤ l') (h' : l' ≤ l) : l = l' := by
  revert h h'
  cases l <;> cases l' <;> decide

namespace Intake

/-- The marker that suggests a level. -/
def marker? : Level → Option String
  | .error => some "ERROR"
  | .warn => some "WARN"
  | .debug => some "DEBUG"
  | .info => none

/-- The marker of a level stands in a line, after so many characters. -/
def MarkedAt (line : String) (l : Level) (n : Nat) : Prop :=
  ∃ m ∈ marker? l, m.toList <+: line.toList.drop n

/-- A line holds the marker of a level. -/
def Marked (line : String) (l : Level) : Prop := ∃ n, MarkedAt line l n

/-- Of all markers in a line, that of a level comes first. -/
def FirstMarked (line : String) (l : Level) : Prop :=
  ∃ n, MarkedAt line l n ∧ ∀ l' n', MarkedAt line l' n' → n ≤ n'

variable {line : String} {l l' : Level} {n : Nat}

/-! ## Places of markers -/

theorem hasInfix_iff_prefix_drop {part s : List Char} :
    Text.hasInfix part s = true ↔ ∃ n, part <+: s.drop n := by
  rw [Text.hasInfix_iff]
  constructor
  · rintro ⟨a, b, rfl⟩
    exact ⟨a.length, b, by simp⟩
  · rintro ⟨n, b, hb⟩
    exact ⟨s.take n, b, by rw [List.append_assoc, hb, List.take_append_drop]⟩

theorem marked_iff {m : String} (hm : marker? l = some m) :
    Marked line l ↔ Text.hasInfix m.toList line.toList = true := by
  simp [Marked, MarkedAt, hm, hasInfix_iff_prefix_drop]

theorem not_marked_info : ¬Marked line .info := by
  rintro ⟨n, m, hm, -⟩
  cases hm

/-- The letter that the marker of a level begins with. -/
def initial? (l : Level) : Option Char := (marker? l).bind (·.toList.head?)

theorem MarkedAt.head?_eq (h : MarkedAt line l n) :
    (line.toList.drop n).head? = initial? l ∧ initial? l ≠ none := by
  obtain ⟨m, hm, t, ht⟩ := h
  rw [← ht, initial?, hm, Option.bind_some]
  cases l <;> cases hm <;> exact ⟨rfl, nofun⟩

/-- At one place stands one marker. -/
theorem MarkedAt.unique (h : MarkedAt line l n) (h' : MarkedAt line l' n) : l = l' := by
  have hsame : initial? l = initial? l' := h.head?_eq.1.symm.trans h'.head?_eq.1
  have hne := h.head?_eq.2
  revert hsame hne
  cases l <;> cases l' <;> decide

theorem FirstMarked.unique (h : FirstMarked line l) (h' : FirstMarked line l') : l = l' := by
  obtain ⟨n, hn, hfirst⟩ := h
  obtain ⟨n', hn', hfirst'⟩ := h'
  obtain rfl : n = n' := Nat.le_antisymm (hfirst l' n' hn') (hfirst' l n hn)
  exact hn.unique hn'

/-- A line that holds a marker has exactly one first marker. -/
theorem existsUnique_firstMarked (h : ∃ l, Marked line l) : ∃! l, FirstMarked line l := by
  classical
  have hplace : ∃ n, ∃ l, MarkedAt line l n := by
    obtain ⟨l, n, hn⟩ := h
    exact ⟨n, l, hn⟩
  obtain ⟨l, hl⟩ := Nat.find_spec hplace
  have hfirst : FirstMarked line l :=
    ⟨Nat.find hplace, hl, fun l' n' hn' => Nat.find_min' hplace ⟨l', hn'⟩⟩
  exact ⟨l, hfirst, fun l' hl' => hl'.unique hfirst⟩

/-! ## The level of a line -/

/-- The markers are looked for from the most severe one down. -/
theorem guessLevel_cases (line : String) :
    Marked line .error ∧ guessLevel line = .error ∨
      ¬Marked line .error ∧ Marked line .warn ∧ guessLevel line = .warn ∨
      ¬Marked line .error ∧ ¬Marked line .warn ∧ Marked line .debug ∧ guessLevel line = .debug ∨
      (∀ l, ¬Marked line l) ∧ guessLevel line = .info := by
  have herror : Marked line .error ↔ _ := marked_iff rfl
  have hwarn : Marked line .warn ↔ _ := marked_iff rfl
  have hdebug : Marked line .debug ↔ _ := marked_iff rfl
  simp only [guessLevel]
  split
  · next h => exact .inl ⟨herror.2 h, rfl⟩
  · next he =>
    refine .inr ?_
    split
    · next h => exact .inl ⟨herror.not.2 he, hwarn.2 h, rfl⟩
    · next hw =>
      refine .inr ?_
      split
      · next h => exact .inl ⟨herror.not.2 he, hwarn.not.2 hw, hdebug.2 h, rfl⟩
      · next hd =>
        refine .inr ⟨fun l => ?_, rfl⟩
        cases l with
        | error => exact herror.not.2 he
        | warn => exact hwarn.not.2 hw
        | debug => exact hdebug.not.2 hd
        | info => exact not_marked_info

/-- A line with a marker has the level of the most severe one. -/
theorem le_guessLevel (h : Marked line l) :
    Marked line (guessLevel line) ∧ l ≤ guessLevel line := by
  rcases guessLevel_cases line with ⟨hm, heq⟩ | ⟨he, hm, heq⟩ | ⟨he, hw, hm, heq⟩ | ⟨hnone, -⟩
  · rw [heq]
    exact ⟨hm, by cases l <;> decide⟩
  · rw [heq]
    refine ⟨hm, ?_⟩
    cases l with
    | error => exact (he h).elim
    | _ => decide
  · rw [heq]
    refine ⟨hm, ?_⟩
    cases l with
    | error => exact (he h).elim
    | warn => exact (hw h).elim
    | info => exact (not_marked_info h).elim
    | debug => decide
  · exact (hnone l h).elim

theorem guessLevel_eq_info_iff : guessLevel line = .info ↔ ∀ l, ¬Marked line l := by
  constructor
  · intro hinfo l h
    exact not_marked_info (hinfo ▸ (le_guessLevel h).1)
  · intro hnone
    rcases guessLevel_cases line with ⟨hm, -⟩ | ⟨-, hm, -⟩ | ⟨-, -, hm, -⟩ | ⟨-, heq⟩
    · exact (hnone _ hm).elim
    · exact (hnone _ hm).elim
    · exact (hnone _ hm).elim
    · exact heq

/-- A line is of level info exactly if it holds no marker, and has the level of its most severe
marker otherwise; this is the level of its first marker, of which there is one, exactly if no
more severe marker stands anywhere in the line. -/
theorem guesses_most_severe (line : String) :
    (guessLevel line = .info ↔ ∀ l, ¬Marked line l) ∧
      (∀ l, Marked line l → Marked line (guessLevel line) ∧ l ≤ guessLevel line) ∧
      ((∃ l, Marked line l) → ∃! l, FirstMarked line l) ∧
      ∀ l, FirstMarked line l → (guessLevel line = l ↔ ∀ l', Marked line l' → l' ≤ l) := by
  refine ⟨guessLevel_eq_info_iff, fun l => le_guessLevel, existsUnique_firstMarked,
    fun l hfirst => ⟨?_, fun hmost => ?_⟩⟩
  · rintro rfl l' h
    exact (le_guessLevel h).2
  · obtain ⟨n, hn, -⟩ := hfirst
    obtain ⟨hmarked, hle⟩ := le_guessLevel ⟨n, hn⟩
    exact Level.le_antisymm (hmost _ hmarked) hle

/-- The first marker of this line suggests debug, and the line is logged as an error. -/
theorem error_outranks_first_marker :
    let line := "DEBUG then ERROR"
    FirstMarked line .debug ∧ lineCall line = input.log .error [.text line] site := by
  intro line
  have hfirst : MarkedAt line .debug 0 := ⟨"DEBUG", rfl, by decide⟩
  have hlevel : guessLevel line = .error := by decide
  exact ⟨⟨0, hfirst, fun _ _ _ => Nat.zero_le _⟩, by rw [lineCall, hlevel]⟩

end Intake

end LogPipeline
