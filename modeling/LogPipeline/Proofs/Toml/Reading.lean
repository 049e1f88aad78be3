import LogPipeline.Proofs.Toml.Strings
import LogPipeline.Toml.Reader

/-!
# Reading back TOML lines

Digits at the end of a line are an integer and neither a date nor a floating
point number (`readNumber_digits`). A line of a bare key and a value is read as
that key and value (`readPair_line`), and a text of such lines, none of them for a
key that another has, as a table of them in order (`parse_lines`).
-/

namespace LogPipeline.Toml

open Decimal (isDigit digits)

/-! ## Numbers -/

/-- Digits up to the end of a line. -/
def IsRow (cs : List Char) : Prop :=
  ∃ ds rest, (∀ c ∈ ds, isDigit c = true) ∧ cs = ds ++ '\n' :: rest

theorem IsRow.tail {c : Char} {cs : List Char} (h : IsRow (c :: cs)) (hc : isDigit c = true) :
    IsRow cs := by
  obtain ⟨ds, rest, hds, heq⟩ := h
  cases ds with
  | nil => rw [(List.cons.inj heq).1] at hc; exact absurd hc (by decide)
  | cons d ds =>
    exact ⟨ds, rest, fun e he => hds e (List.mem_cons_of_mem d he), (List.cons.inj heq).2⟩

theorem IsRow.head {c : Char} {cs : List Char} (h : IsRow (c :: cs)) : isDigit c = true ∨ c = '\n' := by
  obtain ⟨ds, rest, hds, heq⟩ := h
  cases ds with
  | nil => exact .inr (List.cons.inj heq).1
  | cons d ds => exact .inl ((List.cons.inj heq).1 ▸ hds d List.mem_cons_self)

theorem IsRow.after?_eq_none {cs : List Char} (h : IsRow cs) {c : Char}
    (hc : ¬(isDigit c = true ∨ c = '\n')) : after? c cs = none := by
  cases cs with
  | nil => rfl
  | cons d cs =>
    refine if_neg fun heq => hc ?_
    rw [heq]
    exact h.head

theorem IsRow.of_readTwo {cs : List Char} (h : IsRow cs) {low high n : Nat} {rest : List Char}
    (hread : readTwo low high cs = some (n, rest)) : IsRow rest := by
  unfold readTwo at hread
  split at hread
  · next a b cs =>
    simp only at hread
    split at hread
    · next hcond =>
      simp only [Bool.and_eq_true] at hcond
      cases hread
      exact (h.tail hcond.1.1.1).tail hcond.1.1.2
    · cases hread
  · cases hread

theorem skipDate_row {cs : List Char} (h : IsRow cs) : skipDate cs = none := by
  unfold skipDate
  cases hcentury : readTwo 0 99 cs with
  | none => rfl
  | some r =>
    cases hyear : readTwo 0 99 r.2 with
    | none => simp [hyear]
    | some s =>
      have hrow := (h.of_readTwo hcentury).of_readTwo hyear
      simp [hyear, hrow.after?_eq_none (c := '-') (by decide)]

theorem skipTime_row {cs : List Char} (h : IsRow cs) : skipTime cs = none := by
  unfold skipTime
  cases hhour : readTwo 0 23 cs with
  | none => rfl
  | some r =>
    have hrow := h.of_readTwo hhour
    simp [hrow.after?_eq_none (c := ':') (by decide)]

theorem readGrouped_row {ds : List Char} (hds : ∀ c ∈ ds, isDigit c = true) (rest : List Char) :
    readGrouped isDigit (ds ++ '\n' :: rest) = some (ds, '\n' :: rest) := by
  induction ds with
  | nil => rfl
  | cons d ds ih =>
    have hd := hds d List.mem_cons_self
    have hunderscore : d ≠ '_' := Text.ne_of_holds hd rfl
    rw [List.cons_append, readGrouped, if_pos hd, ih fun c hc => hds c (List.mem_cons_of_mem d hc),
      Option.map_some]
    exact fun _ _ h => absurd h hunderscore

theorem readWhole_digits (n : Nat) (rest : List Char) :
    readWhole (digits n ++ '\n' :: rest) = some (digits n, '\n' :: rest) := by
  have hdigits : ∀ c ∈ digits n, isDigit c = true := fun _ => Decimal.isDigit_of_mem_digits
  obtain ⟨c, cs, hc, hdigit⟩ := Decimal.digits_eq_cons n
  by_cases hzero : c = '0'
  · subst hzero
    have hn := Decimal.eq_zero_of_digits hc
    subst hn
    rw [Decimal.digits_zero]
    rfl
  · rw [hc] at hdigits ⊢
    rw [List.cons_append, readWhole, readDigits, if_pos hdigit,
      readGrouped_row fun d hd => hdigits d (List.mem_cons_of_mem c hd), Option.map_some]
    exact fun _ h => absurd (List.cons.inj h).1 hzero

theorem readNumber_digits {n : Nat} (h : n < Nat.pow 2 63) (rest : List Char) :
    readNumber (digits n ++ '\n' :: rest) = some (.integer n, '\n' :: rest) := by
  have hrow : IsRow (digits n ++ '\n' :: rest) :=
    ⟨digits n, rest, fun _ => Decimal.isDigit_of_mem_digits, rfl⟩
  have hwhole := readWhole_digits n rest
  have hinteger : integer? (n : Int) = some (.integer n) := by
    rw [integer?, if_pos]
    simp only [Bool.and_eq_true, decide_eq_true_eq]
    constructor
    · have : (0 : Int) ≤ Nat.pow 2 63 := Int.natCast_nonneg _
      omega
    · exact_mod_cast h
  have hmoment : readMoment (digits n ++ '\n' :: rest) = none := by
    rw [readMoment, skipDate_row hrow, skipTime_row hrow]
    rfl
  obtain ⟨c, cs, hc, hdigit⟩ := Decimal.digits_eq_cons n
  have hother : ∀ d, isDigit d = false → c ≠ d := fun d => Text.ne_of_holds hdigit
  have hsign : readSign (c :: (cs ++ '\n' :: rest)) = (false, false, c :: (cs ++ '\n' :: rest)) := by
    rw [readSign]
    · exact fun _ h => hother '-' rfl (List.cons.inj h).1
    · exact fun _ h => hother '+' rfl (List.cons.inj h).1
  have hfloat : readFloat (digits n ++ '\n' :: rest) = none := by
    rw [hc, List.cons_append] at hwhole ⊢
    rw [readFloat, hsign]
    simp only
    split
    · next heq => exact absurd (List.cons.inj heq).1 (hother 'i' rfl)
    · next heq => exact absurd (List.cons.inj heq).1 (hother 'n' rfl)
    · rw [hwhole]
      rfl
  have hread : readInteger (digits n ++ '\n' :: rest) = some (.integer n, '\n' :: rest) := by
    rw [hc, List.cons_append] at hwhole hrow ⊢
    rw [readInteger]
    · simp only [hsign, hwhole, Bool.false_eq_true, if_false, ← hc, Decimal.value_digits, hinteger,
        Option.map_some]
    all_goals
      intro r heq
      obtain ⟨rfl, heq⟩ := List.cons.inj heq
      rw [heq] at hrow
      exact absurd (hrow.tail rfl).head (by decide)
  rw [readNumber, hmoment, hfloat, hread]
  rfl

/-! ## Keys and lines -/

theorem skipBlank_cons_of_not_blank {c : Char} (h : isBlank c = false) (cs : List Char) :
    skipBlank (c :: cs) = c :: cs := List.dropWhile_cons_of_neg (by simp [h])

/-- A key that needs no quotes. -/
def IsBare (key : String) : Prop := key ≠ "" ∧ ∀ c ∈ key.toList, isBareKey c = true

theorem IsBare.cons {key : String} (h : IsBare key) :
    ∃ c cs, key.toList = c :: cs ∧ isBareKey c = true := by
  cases hkey : key.toList with
  | nil => exact absurd (String.toList_eq_nil_iff.1 hkey) h.1
  | cons c cs => exact ⟨c, cs, rfl, h.2 c (hkey ▸ List.mem_cons_self)⟩

theorem readSimpleKey_bare {key : String} (h : IsBare key) (rest : List Char) :
    readSimpleKey (key.toList ++ ' ' :: rest) = some (key, ' ' :: rest) := by
  have hend : ∀ c ∈ (' ' :: rest).head?, isBareKey c = false := by rintro c ⟨⟩; rfl
  obtain ⟨htake, hdrop⟩ := Text.span_append h.2 hend
  obtain ⟨c, cs, hkey, hc⟩ := h.cons
  rw [hkey, List.cons_append] at htake hdrop ⊢
  rw [readSimpleKey]
  · simp only [htake, hdrop, List.isEmpty_cons, Bool.false_eq_true, if_false]
    rw [← hkey, String.ofList_toList]
  · exact fun _ heq => Text.ne_of_holds hc (b := '"') rfl (List.cons.inj heq).1
  · exact fun _ heq => Text.ne_of_holds hc (b := '\'') rfl (List.cons.inj heq).1

theorem skipBlank_bare {key : String} (h : IsBare key) (rest : List Char) :
    skipBlank (key.toList ++ rest) = key.toList ++ rest := by
  obtain ⟨c, cs, hkey, hc⟩ := h.cons
  rw [hkey, List.cons_append, skipBlank_cons_of_not_blank]
  simp [isBlank, Text.ne_of_holds hc (b := ' ') rfl, Text.ne_of_holds hc (b := '\t') rfl]

theorem readKey_bare {key : String} (h : IsBare key) (rest : List Char) :
    readKey (key.toList ++ ' ' :: '=' :: rest) = some (([], key), '=' :: rest) := by
  have hparts : readParts ((key.toList ++ ' ' :: '=' :: rest).length + 1)
      (key.toList ++ ' ' :: '=' :: rest) = some ([key], '=' :: rest) := by
    rw [readParts, skipBlank_bare h, readSimpleKey_bare h]
    rfl
  rw [readKey, hparts]
  rfl

theorem readPair_line {read : List Char → Option (Toml × List Char)} {key : String}
    (h : IsBare key) {value rest : List Char} {v : Toml}
    (hread : read (skipBlank (value ++ rest)) = some (v, rest)) :
    readPair read (key.toList ++ ' ' :: '=' :: ' ' :: value ++ rest) =
      some ((([], key), v), rest) := by
  rw [List.append_assoc, List.cons_append, List.cons_append, readPair, readKey_bare h]
  have hblank : skipBlank (' ' :: (value ++ rest)) = skipBlank (value ++ rest) := rfl
  simp only [skipBlank_cons_of_not_blank (c := '=') rfl, List.cons_append, hblank, hread, Option.map_some]

/-! ## Values -/

theorem writeString_cons (s : String) :
    ∃ c cs, writeString s = c :: cs ∧ (c = '"' ∨ c = '\'') := by
  unfold writeString
  simp only
  split
  · exact ⟨_, _, rfl, .inl rfl⟩
  · exact ⟨_, _, rfl, .inr rfl⟩
  · exact ⟨_, _, rfl, .inl rfl⟩
  · exact ⟨_, _, rfl, .inr rfl⟩

theorem readValue_writeString (depth : Nat) (s : String) (rest : List Char) :
    readValue depth (skipBlank (writeString s ++ '\n' :: rest)) = some (.string s, '\n' :: rest) := by
  have hread : readString (writeString s ++ '\n' :: rest) = some (s, '\n' :: rest) :=
    readString_writeString s (by simp) (by simp)
  obtain ⟨c, cs, hs, rfl | rfl⟩ := writeString_cons s
  · rw [hs, List.cons_append] at hread ⊢
    rw [skipBlank_cons_of_not_blank rfl, readValue, hread, Option.map_some]
  · rw [hs, List.cons_append] at hread ⊢
    rw [skipBlank_cons_of_not_blank rfl, readValue, hread, Option.map_some]

theorem readValue_digits (depth : Nat) {n : Nat} (h : n < Nat.pow 2 63) (rest : List Char) :
    readValue depth (skipBlank (digits n ++ '\n' :: rest)) = some (.integer n, '\n' :: rest) := by
  have hread := readNumber_digits h rest
  obtain ⟨c, cs, hc, hdigit⟩ := Decimal.digits_eq_cons n
  have hother : ∀ d, isDigit d = false → c ≠ d := fun d => Text.ne_of_holds hdigit
  rw [hc, List.cons_append] at hread ⊢
  rw [skipBlank_cons_of_not_blank (by simp [isBlank, hother ' ' rfl, hother '\t' rfl]),
    readValue.eq_def]
  simp only
  split
  · next heq => exact absurd (List.cons.inj heq).1 (hother '"' rfl)
  · next heq => exact absurd (List.cons.inj heq).1 (hother '\'' rfl)
  · next heq => exact absurd (List.cons.inj heq).1 (hother 't' rfl)
  · next heq => exact absurd (List.cons.inj heq).1 (hother 'f' rfl)
  · next heq => exact absurd (List.cons.inj heq).1 (hother '[' rfl)
  · next heq => exact absurd (List.cons.inj heq).1 (hother '\x7b' rfl)
  · exact hread

/-! ## Texts of lines -/

theorem endLine_newline (rest : List Char) : endLine ('\n' :: rest) = some rest := rfl

section Lines

variable {β : Type} {line : β → List Char} {pair : β → (List String × String) × Toml} {xs : List β}

/-- What a text of lines is read as, if each line is read as a key and a value up
to its end. -/
theorem readParts?_lines (hfirst : ∀ x ∈ xs, ∃ c cs, line x = c :: cs ∧ isBareKey c = true)
    (hread : ∀ x ∈ xs, ∀ rest, readPair (readValue depthLimit) (line x ++ '\n' :: rest) =
      some (pair x, '\n' :: rest))
    {fuel : Nat} (hfuel : (xs.flatMap fun x => line x ++ ['\n']).length < fuel) :
    readParts? fuel (xs.flatMap fun x => line x ++ ['\n']) = some ⟨xs.map pair, []⟩ := by
  induction xs generalizing fuel with
  | nil =>
    obtain ⟨fuel, rfl⟩ := Nat.exists_eq_succ_of_ne_zero (Nat.ne_of_gt hfuel)
    rfl
  | cons x xs ih =>
    obtain ⟨fuel, rfl⟩ := Nat.exists_eq_succ_of_ne_zero (Nat.ne_of_gt (Nat.zero_lt_of_lt hfuel))
    obtain ⟨c, cs, hx, hc⟩ := hfirst x List.mem_cons_self
    have hline := hread x List.mem_cons_self (xs.flatMap fun x => line x ++ ['\n'])
    have hrest : readParts? fuel (xs.flatMap fun x => line x ++ ['\n']) =
        some ⟨xs.map pair, []⟩ := by
      refine ih (fun y hy => hfirst y (List.mem_cons_of_mem x hy))
        (fun y hy => hread y (List.mem_cons_of_mem x hy)) ?_
      rw [List.flatMap_cons, List.length_append, List.length_append, List.length_singleton] at hfuel
      omega
    have hblank : isBlank c = false := by
      simp [isBlank, Text.ne_of_holds hc (b := ' ') rfl, Text.ne_of_holds hc (b := '\t') rfl]
    have hkey : (c = '#' || c = '\n' || c = '\r') = false := by
      simp [Text.ne_of_holds hc (b := '#') rfl, Text.ne_of_holds hc (b := '\n') rfl,
        Text.ne_of_holds hc (b := '\r') rfl]
    rw [List.flatMap_cons, List.append_assoc, List.singleton_append]
    rw [hx, List.cons_append] at hline ⊢
    rw [readParts?, skipBlank_cons_of_not_blank hblank]
    split
    · next heq => cases heq
    · next heq => exact absurd (List.cons.inj heq).1 (Text.ne_of_holds hc (b := '[') rfl)
    · next heq =>
      obtain ⟨rfl, rfl⟩ := List.cons.inj heq
      rw [if_neg (by simp [hkey]), hline]
      simp only [endLine_newline, hrest, Option.map_some, List.map_cons]

end Lines

/-- Keys that are written out one after the other without dots make a table of
them in order, if none is there twice. -/
theorem addAll_undotted (entries : Entries) (l : List (String × Toml))
    (h : ((entries ++ l).map (·.1)).Nodup) :
    addAll entries (l.map fun e => (([], e.1), e.2)) = some (entries ++ l) := by
  induction l generalizing entries with
  | nil => rw [List.map_nil, addAll, List.append_nil]
  | cons e l ih =>
    have hfree : entries.lookup e.1 = none := by
      rw [List.lookup_eq_none_iff]
      intro e' he'
      rw [List.map_append, List.nodup_append] at h
      exact bne_iff_ne.2 (Ne.symm (h.2.2 _ (List.mem_map_of_mem he') _ List.mem_cons_self))
    have hadd : addDotted .header false entries e.1 e.2 [] = some (entries ++ [e]) := by
      rw [addDotted, addKey, if_neg (by decide), hfree]
      rfl
    rw [List.append_cons] at h ⊢
    rw [List.map_cons, addAll, hadd, Option.bind_some, ih _ h]

theorem parse_of_ne {cs : List Char} (h : ∀ rest, cs ≠ '\uFEFF' :: rest) :
    parse (String.ofList cs) =
      (readParts? (cs.length + 1) cs).bind fun p => ofSections p.keys p.sections := by
  -- the match on a byte order mark falls through by `h`
  simp only [parse, String.toList_ofList]

/-- The text of a line for each key and value. -/
def lines {β : Type} (key : β → String) (value : β → List Char) (xs : List β) : List Char :=
  xs.flatMap fun x => ((key x).toList ++ ' ' :: '=' :: ' ' :: value x) ++ ['\n']

/-- A text of lines with keys that need no quotes, none of them twice. -/
theorem parse_lines {β : Type} {key : β → String} {value : β → List Char} {v : β → Toml}
    {xs : List β} (hbare : ∀ x ∈ xs, IsBare (key x)) (hnodup : (xs.map key).Nodup)
    (hread : ∀ x ∈ xs, ∀ rest, readValue depthLimit (skipBlank (value x ++ '\n' :: rest)) =
      some (v x, '\n' :: rest)) :
    parse (String.ofList (lines key value xs)) = some (xs.map fun x => (key x, v x)) := by
  have hfirst : ∀ x ∈ xs, ∃ c cs,
      (key x).toList ++ ' ' :: '=' :: ' ' :: value x = c :: cs ∧ isBareKey c = true := by
    intro x hx
    obtain ⟨c, cs, hkey, hc⟩ := (hbare x hx).cons
    exact ⟨c, _, by rw [hkey, List.cons_append], hc⟩
  have hparts : readParts? ((lines key value xs).length + 1) (lines key value xs) =
      some ⟨xs.map fun x => (([], key x), v x), []⟩ :=
    readParts?_lines hfirst (fun x hx rest => readPair_line (hbare x hx) (hread x hx rest))
      (Nat.lt_succ_self _)
  have hmark : ∀ rest, lines key value xs ≠ '\uFEFF' :: rest := by
    intro rest heq
    cases xs with
    | nil => cases heq
    | cons x xs =>
      obtain ⟨c, cs, hx, hc⟩ := hfirst x List.mem_cons_self
      rw [lines, List.flatMap_cons, hx] at heq
      exact absurd (List.cons.inj heq).1 (Text.ne_of_holds hc (b := '\uFEFF') (by decide))
  have hall := addAll_undotted [] (xs.map fun x => (key x, v x))
    (by simpa [List.map_map, Function.comp_def] using hnodup)
  rw [List.map_map, List.nil_append] at hall
  rw [parse_of_ne hmark, hparts, Option.bind_some, ofSections]
  exact congrArg (fun r => Option.bind r fun root => [].foldlM addSection root) hall

end LogPipeline.Toml
