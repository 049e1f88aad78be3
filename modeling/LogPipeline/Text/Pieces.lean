/-!
# Pieces of a text

A text cut at every occurrence of a separator, and the pieces joined again.
Joining undoes cutting (`joinWith_pieces`), a cut piece never holds the separator
(`not_mem_of_mem_pieces`), and cutting undoes the joining of such pieces
(`pieces_joinWith`).
-/

namespace LogPipeline.Text

/-- Cuts a text at each separator; the empty text is one empty piece. -/
def pieces (sep : Char) : List Char → List (List Char)
  | [] => [[]]
  | c :: cs =>
    if c = sep then [] :: pieces sep cs
    else
      match pieces sep cs with
      | [] => [[c]]
      | p :: ps => (c :: p) :: ps

/-- Joins pieces with the separator between each two of them. -/
def joinWith (sep : Char) : List (List Char) → List Char
  | [] => []
  | [p] => p
  | p :: q :: ps => p ++ sep :: joinWith sep (q :: ps)

theorem pieces_ne_nil (sep : Char) (cs : List Char) : pieces sep cs ≠ [] := by
  cases cs with
  | nil => simp [pieces]
  | cons c cs =>
    simp only [pieces]
    split
    · simp
    · split <;> simp

theorem joinWith_cons_of_ne_nil (sep : Char) (p : List Char) {ps : List (List Char)}
    (h : ps ≠ []) : joinWith sep (p :: ps) = p ++ sep :: joinWith sep ps := by
  cases ps with
  | nil => exact absurd rfl h
  | cons q ps => rfl

theorem joinWith_cons_head (sep c : Char) (p : List Char) (ps : List (List Char)) :
    joinWith sep ((c :: p) :: ps) = c :: joinWith sep (p :: ps) := by
  cases ps <;> rfl

theorem joinWith_pieces (sep : Char) (cs : List Char) : joinWith sep (pieces sep cs) = cs := by
  induction cs with
  | nil => rfl
  | cons c cs ih =>
    simp only [pieces]
    split
    · next h => rw [joinWith_cons_of_ne_nil _ _ (pieces_ne_nil sep cs), ih, h]; rfl
    · cases hp : pieces sep cs with
      | nil => exact absurd hp (pieces_ne_nil sep cs)
      | cons p ps => rw [hp] at ih; simp only [joinWith_cons_head, ih]

theorem not_mem_of_mem_pieces {sep : Char} {cs p : List Char} (h : p ∈ pieces sep cs) :
    sep ∉ p := by
  induction cs generalizing p with
  | nil => simp_all [pieces]
  | cons c cs ih =>
    simp only [pieces] at h
    split at h
    · rcases List.mem_cons.1 h with rfl | h
      · simp
      · exact ih h
    · next hc =>
      cases hp : pieces sep cs with
      | nil => exact absurd hp (pieces_ne_nil sep cs)
      | cons q ps =>
        rw [hp] at h
        rcases List.mem_cons.1 h with rfl | h
        · have := ih (p := q) (by simp [hp])
          simp [Ne.symm hc, this]
        · exact ih (by simp [hp, h])

theorem pieces_of_not_mem {sep : Char} {p : List Char} (h : sep ∉ p) : pieces sep p = [p] := by
  induction p with
  | nil => rfl
  | cons c p ih =>
    obtain ⟨hc, hp⟩ := not_or.1 (mt List.mem_cons.2 h)
    rw [pieces, if_neg (Ne.symm hc), ih hp]

theorem pieces_append {sep : Char} {p : List Char} (h : sep ∉ p) (cs : List Char) :
    pieces sep (p ++ sep :: cs) = p :: pieces sep cs := by
  induction p with
  | nil => simp [pieces]
  | cons c p ih =>
    obtain ⟨hc, hp⟩ := not_or.1 (mt List.mem_cons.2 h)
    rw [List.cons_append, pieces, if_neg (Ne.symm hc), ih hp]

/-- Cutting undoes joining, if no piece holds the separator. -/
theorem pieces_joinWith {sep : Char} {ps : List (List Char)} (hne : ps ≠ [])
    (h : ∀ p ∈ ps, sep ∉ p) : pieces sep (joinWith sep ps) = ps := by
  induction ps with
  | nil => exact absurd rfl hne
  | cons p ps ih =>
    cases ps with
    | nil => exact pieces_of_not_mem (h p List.mem_cons_self)
    | cons q ps =>
      rw [joinWith, pieces_append (h p List.mem_cons_self),
        ih (List.cons_ne_nil q ps) fun r hr => h r (List.mem_cons_of_mem p hr)]

theorem joinWith_concat (sep : Char) {ps : List (List Char)} (hne : ps ≠ []) (p : List Char) :
    joinWith sep (ps ++ [p]) = joinWith sep ps ++ sep :: p := by
  induction ps with
  | nil => exact absurd rfl hne
  | cons q ps ih =>
    cases ps with
    | nil => rfl
    | cons r ps =>
      rw [List.cons_append, joinWith_cons_of_ne_nil sep q (by simp), ih (List.cons_ne_nil r ps),
        joinWith, List.append_assoc, List.cons_append]

/-- A last piece behind a separator is cut off. -/
theorem pieces_concat {sep : Char} {p : List Char} (h : sep ∉ p) (cs : List Char) :
    pieces sep (cs ++ sep :: p) = pieces sep cs ++ [p] := by
  have hall : ∀ q ∈ pieces sep cs ++ [p], sep ∉ q := by
    intro q hq
    rcases List.mem_append.1 hq with hq | hq
    · exact not_mem_of_mem_pieces hq
    · rwa [List.mem_singleton.1 hq]
  rw [← pieces_joinWith (by simp) hall, joinWith_concat sep (pieces_ne_nil sep cs),
    joinWith_pieces]

end LogPipeline.Text
