/-!
# Affixes

What is left of a list without a given beginning or a given end, if it has
that beginning or end.
-/

namespace LogPipeline.Text

variable {α : Type} [DecidableEq α]

/-- The rest of a list after a given beginning. -/
def afterStart? : List α → List α → Option (List α)
  | [], s => some s
  | _ :: _, [] => none
  | a :: start, b :: s => if a = b then afterStart? start s else none

/-- The rest of a list before a given end. -/
def beforeEnd? (ending s : List α) : Option (List α) :=
  (afterStart? ending.reverse s.reverse).map List.reverse

/-- Whether a list holds another one somewhere as a whole. -/
def hasInfix (part : List α) : List α → Bool
  | [] => part.isEmpty
  | a :: s => (afterStart? part (a :: s)).isSome || hasInfix part s

theorem afterStart?_eq_some_iff {start s rest : List α} :
    afterStart? start s = some rest ↔ s = start ++ rest := by
  induction start generalizing s with
  | nil => simp [afterStart?]
  | cons a start ih =>
    cases s with
    | nil => simp [afterStart?]
    | cons b s =>
      simp only [afterStart?, List.cons_append, List.cons.injEq]
      split
      · next h => simp [h, ih]
      · next h => simp [Ne.symm h]

theorem beforeEnd?_eq_some_iff {ending s rest : List α} :
    beforeEnd? ending s = some rest ↔ s = rest ++ ending := by
  simp only [beforeEnd?, Option.map_eq_some_iff, afterStart?_eq_some_iff]
  constructor
  · rintro ⟨r, h, rfl⟩
    simpa using congrArg List.reverse h
  · rintro rfl
    exact ⟨rest.reverse, by simp, by simp⟩

omit [DecidableEq α] in
theorem ne_of_holds {p : α → Bool} {a b : α} (ha : p a = true) (hb : p b = false) : a ≠ b := by
  rintro rfl
  rw [ha] at hb
  cases hb

omit [DecidableEq α] in
/-- A list is cut behind a beginning on which a condition holds, if it does not
hold on what comes next. -/
theorem span_append {p : α → Bool} {start rest : List α} (hstart : ∀ a ∈ start, p a = true)
    (hrest : ∀ a ∈ rest.head?, p a = false) :
    (start ++ rest).takeWhile p = start ∧ (start ++ rest).dropWhile p = rest := by
  rw [List.takeWhile_append_of_pos hstart, List.dropWhile_append_of_pos hstart]
  cases rest with
  | nil => simp
  | cons a rest => simp [hrest a rfl]

theorem hasInfix_iff {part s : List α} : hasInfix part s = true ↔ ∃ a b, s = a ++ part ++ b := by
  induction s with
  | nil => cases part <;> simp [hasInfix]
  | cons c s ih =>
    simp only [hasInfix, Bool.or_eq_true, Option.isSome_iff_exists, afterStart?_eq_some_iff, ih]
    constructor
    · rintro (⟨b, h⟩ | ⟨a, b, h⟩)
      · exact ⟨[], b, by simpa using h⟩
      · exact ⟨c :: a, b, by simp [h]⟩
    · rintro ⟨a, b, h⟩
      cases a with
      | nil => exact .inl ⟨b, by simpa using h⟩
      | cons d a =>
        simp only [List.cons_append, List.cons.injEq] at h
        exact .inr ⟨a, b, h.2⟩

end LogPipeline.Text
