import LogPipeline.Path

/-!
# Paths and their file names

A path with another file name keeps its directory (`splitLast?_withFileName`), and two
paths that are the same have the same file name (`fileName?_plain`). A file name's
extension holds no dot, and one that has none has no dot but perhaps in front
(`splitExtension_cases`); so a text without dots that is put in front of the extension
goes to the stem (`splitExtension_insert`).
-/

namespace LogPipeline.Path

open Text (joinWith)

/-! ## Directory and file name -/

theorem isVoid_of_length {piece : List Char} (h : 2 ≤ piece.length) : isVoid piece = false := by
  simp only [isVoid, Bool.or_eq_false_iff, beq_eq_false_iff_ne]
  constructor <;>
  · rintro rfl
    simp at h

theorem trimPieces_cons (first : List Char) (rest : List (List Char)) :
    trimPieces (first :: rest) = first :: (rest.reverse.dropWhile isVoid).reverse := rfl

theorem trimPieces_subset {ps : List (List Char)} : trimPieces ps ⊆ ps := by
  cases ps with
  | nil => exact List.nil_subset _
  | cons first rest =>
    refine List.cons_subset_cons _ fun piece hp => ?_
    exact List.mem_reverse.1 ((List.dropWhile_sublist _).subset (List.mem_reverse.1 hp))

theorem trimPieces_concat (first : List Char) (rest : List (List Char)) {piece : List Char}
    (h : isVoid piece = false) : trimPieces (first :: (rest ++ [piece])) = first :: (rest ++ [piece]) := by
  simp [trimPieces, h]

/-- What is left ends in a piece that names something, or is the first piece. -/
theorem trimPieces_cases (first : List Char) (rest : List (List Char)) :
    trimPieces (first :: rest) = [first] ∨
      ∃ front last, trimPieces (first :: rest) = first :: (front ++ [last]) ∧ isVoid last = false := by
  rw [trimPieces_cons]
  cases h : rest.reverse.dropWhile isVoid with
  | nil => exact .inl rfl
  | cons last front =>
    refine .inr ⟨front.reverse, last, by simp, ?_⟩
    have := List.head?_dropWhile_not isVoid rest.reverse
    simpa [h] using this

/-- Pieces that are the pieces of a directory: they are not blank, hold no slash, and
the last of several names something. -/
structure IsDirectory (ps : List (List Char)) : Prop where
  ne_nil : ps ≠ []
  trimmed : trimPieces ps = ps
  slash : ∀ piece ∈ ps, '/' ∉ piece

theorem isDirectory_trimPieces {ps : List (List Char)} (hne : ps ≠ [])
    (h : ∀ piece ∈ ps, '/' ∉ piece) : IsDirectory (trimPieces ps) := by
  obtain ⟨first, rest, rfl⟩ := List.exists_cons_of_ne_nil hne
  refine ⟨by simp [trimPieces], ?_, fun piece hp => h piece (trimPieces_subset hp)⟩
  rcases trimPieces_cases first rest with hone | ⟨front, last, heq, hlast⟩
  · rw [hone]
    rfl
  · rw [heq, trimPieces_concat first front hlast]

/-- The directory and the last piece of a path. -/
theorem splitLast?_cases {p dir : Path} {last : List Char} (h : p.splitLast? = some (dir, last)) :
    '/' ∉ last ∧ (dir = ⟨""⟩ ∨ ∃ ps, IsDirectory ps ∧ dir = ofPieces ps) := by
  have hslash : ∀ piece ∈ trimPieces p.pieces, '/' ∉ piece := fun piece hp =>
    Text.not_mem_of_mem_pieces (trimPieces_subset hp)
  unfold splitLast? at h
  split at h
  · cases h
  · next first heq =>
    split at h
    · cases h
    · cases h
      exact ⟨hslash _ (by simp [heq]), .inl rfl⟩
  · next first second rest heq =>
    cases h
    rw [heq] at hslash
    refine ⟨hslash _ (List.mem_cons_of_mem _ (List.getLast_mem _)), .inr ⟨_, ?_, rfl⟩⟩
    refine isDirectory_trimPieces (List.cons_ne_nil _ _) fun piece hp => hslash piece ?_
    exact List.cons_subset_cons _ (List.dropLast_subset _) hp

variable {ps : List (List Char)} {name : List Char}

/-- The text of a directory ends in a slash only if it is the root. -/
theorem IsDirectory.getLast?_joinWith (h : IsDirectory ps) (hroot : ps ≠ [[]]) :
    ∃ c, (joinWith '/' ps).getLast? = some c ∧ c ≠ '/' := by
  -- the last piece is not empty, and holds no slash
  have hlast : ∃ front last, ps = front ++ [last] ∧ last ≠ [] := by
    obtain ⟨first, rest, rfl⟩ := List.exists_cons_of_ne_nil h.ne_nil
    rcases trimPieces_cases first rest with hone | ⟨front, last, heq, hvoid⟩
    · rw [h.trimmed] at hone
      rw [hone] at hroot ⊢
      exact ⟨[], first, rfl, fun hnil => hroot (by rw [hnil])⟩
    · rw [h.trimmed] at heq
      refine ⟨first :: front, last, heq, ?_⟩
      rintro rfl
      cases hvoid
  obtain ⟨front, last, rfl, hne⟩ := hlast
  obtain ⟨start, c, rfl⟩ := List.eq_nil_or_concat last |>.resolve_left hne
  refine ⟨c, ?_, ?_⟩
  · by_cases hfront : front = []
    · subst hfront
      simp [joinWith]
    · rw [Text.joinWith_concat '/' hfront, List.concat_eq_append, ← List.cons_append,
        ← List.append_assoc, List.getLast?_concat]
  · rintro rfl
    exact h.slash _ (List.mem_append_right _ (List.mem_singleton_self _)) (by simp)

theorem isAbsolute_name (hslash : '/' ∉ name) : isAbsolute ⟨String.ofList name⟩ = false := by
  cases name with
  | nil => rfl
  | cons c name =>
    have hc : c ≠ '/' := fun hc => hslash (by simp [hc])
    simp [isAbsolute, hc]

/-- A name put into a directory is one piece more. -/
theorem IsDirectory.join_ofPieces (h : IsDirectory ps) (hslash : '/' ∉ name) :
    (ofPieces ps).join ⟨String.ofList name⟩ = ⟨String.ofList (joinWith '/' (ps ++ [name]))⟩ := by
  have habsolute := isAbsolute_name hslash
  by_cases hroot : ps = [[]]
  · subst hroot
    simp [ofPieces, join, habsolute, joinWith, String.ofList_cons]
  · obtain ⟨c, hc, hne⟩ := h.getLast?_joinWith hroot
    have hnil : joinWith '/' ps ≠ [] := by
      intro hnil
      rw [hnil] at hc
      cases hc
    simp [ofPieces, hroot, join, habsolute, hc, hne, hnil, Text.joinWith_concat '/' h.ne_nil,
      String.append_assoc]

/-- A file in a directory is split into the directory and its name. -/
theorem IsDirectory.splitLast?_join (h : IsDirectory ps) (hslash : '/' ∉ name)
    (hvoid : isVoid name = false) :
    splitLast? ⟨String.ofList (joinWith '/' (ps ++ [name]))⟩ = some (ofPieces ps, name) := by
  have hpieces : Text.pieces '/' (joinWith '/' (ps ++ [name])) = ps ++ [name] := by
    refine Text.pieces_joinWith (by simp) fun piece hp => ?_
    rcases List.mem_append.1 hp with hp | hp
    · exact h.slash piece hp
    · rwa [List.mem_singleton.1 hp]
  obtain ⟨first, rest, rfl⟩ := List.exists_cons_of_ne_nil h.ne_nil
  have htrim := trimPieces_concat first rest hvoid
  unfold splitLast?
  simp only [Path.pieces, String.toList_ofList, hpieces]
  rw [List.cons_append, htrim]
  cases rest with
  | nil => simp [h.trimmed]
  | cons second rest =>
    have hfront : (second :: (rest ++ [name])).dropLast = second :: rest := by
      rw [← List.cons_append, List.dropLast_concat]
    simp [hfront, h.trimmed, List.getLast_cons]

theorem splitLast?_name (hslash : '/' ∉ name) (hvoid : isVoid name = false) :
    splitLast? ⟨String.ofList name⟩ = some (⟨""⟩, name) := by
  have hne : name ≠ [] := by
    rintro rfl
    cases hvoid
  simp [splitLast?, Path.pieces, Text.pieces_of_not_mem hslash, trimPieces, hne]

/-- A path with another file name keeps its directory. -/
theorem splitLast?_withFileName {p : Path} (h : p.fileName?.isSome) (hslash : '/' ∉ name)
    (hvoid : isVoid name = false) :
    (p.withFileName name).splitLast? = p.parent?.map fun directory => (directory, name) := by
  obtain ⟨⟨directory, last⟩, hsplit⟩ : ∃ split, p.splitLast? = some split := by
    unfold fileName? at h
    split at h
    · next split heq => exact ⟨_, heq⟩
    · cases h
  simp only [withFileName, h, if_true, parent?, hsplit, Option.map_some, Option.getD_some]
  rcases (splitLast?_cases hsplit).2 with rfl | ⟨ps, hps, rfl⟩
  · simp only [join, isAbsolute_name hslash, Bool.false_or, decide_true, if_true]
    exact splitLast?_name hslash hvoid
  · rw [hps.join_ofPieces hslash, hps.splitLast?_join hslash hvoid]

/-! ## The file names of equal paths -/

theorem head?_filter_not {α : Type} (p : α → Bool) (l : List α) :
    (l.filter fun a => !p a).head? = (l.dropWhile p).head? := by
  induction l with
  | nil => rfl
  | cons a l ih => cases h : p a <;> simp [h, ih]

/-- The last piece of a path that names something, or its first piece. -/
theorem map_snd_splitLast? {p : Path} {first : List Char} {rest : List (List Char)}
    (h : p.pieces = first :: rest) :
    p.splitLast?.map Prod.snd = ((rest.filter fun piece => !isVoid piece).getLast?).or
      (if first = [] then none else some first) := by
  have hlast : (rest.filter fun piece => !isVoid piece).getLast? =
      ((rest.reverse.dropWhile isVoid).reverse).getLast? := by
    rw [List.getLast?_reverse, ← head?_filter_not, List.filter_reverse, List.head?_reverse]
  rw [hlast]
  unfold splitLast?
  rw [h, trimPieces_cons]
  cases hrest : (rest.reverse.dropWhile isVoid).reverse with
  | nil =>
    simp only [List.getLast?_nil, Option.none_or]
    split <;> rfl
  | cons second rest => simp [List.getLast?_eq_some_getLast]

theorem fileName?_eq (p : Path) : p.fileName? = (p.splitLast?.map Prod.snd).bind fun name =>
    if name = ['.'] || name = ['.', '.'] then none else some name := by
  unfold fileName?
  cases p.splitLast? <;> rfl

/-- The pieces that name nothing do not count for the file name. -/
theorem fileName?_plain (p : Path) : p.plain.fileName? = p.fileName? := by
  obtain ⟨first, rest, hpieces⟩ := List.exists_cons_of_ne_nil (Text.pieces_ne_nil '/' p.text.toList)
  have hp : p.pieces = first :: rest := hpieces
  have hslash : ∀ piece ∈ first :: rest.filter fun piece => !isVoid piece, '/' ∉ piece := by
    intro piece hmem
    refine Text.not_mem_of_mem_pieces (hp ▸ ?_ : piece ∈ p.pieces)
    exact List.cons_subset_cons first (List.filter_sublist.subset) hmem
  rw [fileName?_eq, fileName?_eq, map_snd_splitLast? hp]
  congr 1
  by_cases hempty : p.text = ""
  · rw [plain, hp]
    simp only [if_pos hempty]
    exact map_snd_splitLast? hp
  rw [plain, hp]
  simp only [if_neg hempty]
  by_cases hroot : first :: rest.filter (fun piece => !isVoid piece) = [[]]
  · obtain ⟨rfl, hnil⟩ := List.cons.inj hroot
    rw [ofPieces, if_pos hroot, hnil]
    rfl
  · have hjoined : (ofPieces (first :: rest.filter fun piece => !isVoid piece)).pieces =
        first :: rest.filter fun piece => !isVoid piece := by
      rw [ofPieces, if_neg hroot, Path.pieces, String.toList_ofList]
      exact Text.pieces_joinWith (by simp) hslash
    rw [map_snd_splitLast? hjoined, List.filter_filter]
    simp only [Bool.and_self]

/-- A name put behind a path is its last piece. -/
theorem map_snd_splitLast?_join {name : List Char} (p : Path) (hslash : '/' ∉ name)
    (hvoid : isVoid name = false) :
    (p.join ⟨String.ofList name⟩).splitLast?.map Prod.snd = some name := by
  by_cases hempty : p.text = ""
  · rw [join, hempty]
    simp [isAbsolute_name hslash, splitLast?_name hslash hvoid]
  · obtain ⟨cs, hcs⟩ : ∃ cs, (p.join ⟨String.ofList name⟩).text.toList = cs ++ '/' :: name := by
      simp only [join, isAbsolute_name hslash, hempty, Bool.false_or, decide_false]
      split
      · next h => cases h
      · split
        · next hlast =>
          obtain ⟨cs, hp⟩ := List.getLast?_eq_some_iff.1 hlast
          exact ⟨cs, by simp [hp]⟩
        · exact ⟨p.text.toList, by simp⟩
    obtain ⟨first, rest, hrest⟩ := List.exists_cons_of_ne_nil (Text.pieces_ne_nil '/' cs)
    have hpieces : (p.join ⟨String.ofList name⟩).pieces = first :: (rest ++ [name]) := by
      rw [Path.pieces, hcs, Text.pieces_concat hslash, hrest]
      rfl
    rw [map_snd_splitLast? hpieces]
    simp [hvoid]

/-! ## Extensions -/

/-- A file name is its stem and its extension, if it has one. A name without extension
has no dot but perhaps in front. -/
theorem splitExtension_cases (file : List Char) :
    (∃ stem ext, splitExtension file = (stem, some ext) ∧ file = stem ++ '.' :: ext ∧ stem ≠ [] ∧
        '.' ∉ ext) ∨
      splitExtension file = (file, none) ∧
        (file.reverse.dropWhile (· ≠ '.') = [] ∨ file.reverse.dropWhile (· ≠ '.') = ['.']) := by
  have hsplit := List.takeWhile_append_dropWhile (p := (· ≠ '.')) (l := file.reverse)
  have hdot := List.head?_dropWhile_not (· ≠ '.') file.reverse
  unfold splitExtension
  simp only
  split
  · next h => exact .inr ⟨rfl, .inl h⟩
  · next c h =>
    rw [h] at hdot
    simp at hdot
    exact .inr ⟨rfl, .inr (by rw [h, hdot])⟩
  · next c stem hstem h =>
    rw [h] at hdot hsplit
    simp at hdot
    refine .inl ⟨_, _, rfl, ?_, ?_, ?_⟩
    · have := congrArg List.reverse hsplit
      simpa [hdot] using this.symm
    · intro hnil
      exact hstem (List.reverse_eq_nil_iff.1 hnil)
    · intro hmem
      have := List.all_eq_true.1 List.all_takeWhile _ (List.mem_reverse.1 hmem)
      simp at this

theorem splitExtension_of_dot {stem ext : List Char} (hne : stem ≠ []) (hdot : '.' ∉ ext) :
    splitExtension (stem ++ '.' :: ext) = (stem, some ext) := by
  have hall : ∀ c ∈ ext.reverse, (decide (c ≠ '.')) = true := fun c hc => by
    simpa using fun h : c = '.' => hdot (h ▸ List.mem_reverse.1 hc)
  have hreverse : (stem ++ '.' :: ext).reverse = ext.reverse ++ '.' :: stem.reverse := by simp
  obtain ⟨front, c, rfl⟩ := List.eq_nil_or_concat stem |>.resolve_left hne
  unfold splitExtension
  simp only [hreverse, List.takeWhile_append_of_pos hall, List.dropWhile_append_of_pos hall]
  simp

/-- What is put in front of the extension, or at the end if there is none, goes to the
stem. -/
theorem splitExtension_insert (file : List Char) {body : List Char} (hne : body ≠ [])
    (hdot : '.' ∉ body) :
    splitExtension ((splitExtension file).1 ++ body ++
        (splitExtension file).2.elim [] ('.' :: ·)) =
      ((splitExtension file).1 ++ body, (splitExtension file).2) := by
  rcases splitExtension_cases file with ⟨stem, ext, hsplit, -, -, hext⟩ | ⟨hsplit, hdrop⟩
  · rw [hsplit]
    exact splitExtension_of_dot (by simp [hne]) hext
  · rw [hsplit]
    have hall : ∀ c ∈ body.reverse, (decide (c ≠ '.')) = true := fun c hc => by
      simpa using fun h : c = '.' => hdot (h ▸ List.mem_reverse.1 hc)
    simp only [Option.elim_none, List.append_nil]
    unfold splitExtension
    simp only [List.reverse_append, List.dropWhile_append_of_pos hall]
    rcases hdrop with h | h <;> rw [h]

variable {p : Path} {file : List Char}

theorem stem_eq (h : p.fileName? = some file) : p.stem = (splitExtension file).1 := by
  simp [stem, h]

theorem suffix_eq (h : p.fileName? = some file) :
    p.suffix = (splitExtension file).2.elim [] ('.' :: ·) := by
  simp only [suffix, extension?, h, Option.bind_some]
  cases (splitExtension file).2 <;> rfl

theorem stem_append_suffix (h : p.fileName? = some file) : p.stem ++ p.suffix = file := by
  rw [stem_eq h, suffix_eq h]
  rcases splitExtension_cases file with ⟨stem, ext, hsplit, rfl, -⟩ | ⟨hsplit, -⟩
  · rw [hsplit]
    rfl
  · rw [hsplit]
    exact List.append_nil file

theorem slash_not_mem (h : p.fileName? = some file) : '/' ∉ file := by
  unfold fileName? at h
  split at h
  · next hsplit =>
    split at h
    · cases h
    · cases h
      exact (splitLast?_cases hsplit).1
  · cases h

end LogPipeline.Path
