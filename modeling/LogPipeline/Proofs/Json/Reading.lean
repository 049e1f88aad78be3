import LogPipeline.Json.Reader
import LogPipeline.Json.Writer
import LogPipeline.Text.Affix

/-!
# Reading back what JSON was written

A written character is read as one part of a string and means that character
(`readItems_writeChar`), so that strings come back whatever they hold
(`readString_writeString`). Digits are read as their number if nothing follows
that a number could go on with (`readNumber_digits`), and elements on lines of
their own are read one after the other (`readElements_lines`).
-/

namespace LogPipeline.Json

open Decimal (isDigit digits)

/-! ## Strings -/

/-- The part of a string that a written character is read as. -/
def itemOf (c : Char) : StringItem :=
  if c.toNat < 0x20 ∧ c ∉ ['\x08', '\x0c', '\n', '\r', '\t'] then .unit c.toNat else .char c

theorem readItems_writeChar (c : Char) (rest : List Char) :
    readItems (writeChar c ++ rest) = consItem (itemOf c) (readItems rest) := by
  unfold writeChar
  split
  · next h => subst h; rfl
  split
  · next h => subst h; rfl
  split
  · next h => subst h; rfl
  split
  · next h => subst h; rfl
  split
  · next h => subst h; rfl
  split
  · next h => subst h; rfl
  split
  · next h => subst h; rfl
  split
  · next hb hf hn hr ht hlow =>
    have hcode := Text.hexNumber?_hexFour false (show c.toNat < 65536 by omega)
    rw [Text.hexFour] at hcode ⊢
    simp only [List.cons_append, List.nil_append]
    rw [readItems, hcode, itemOf, if_pos ⟨hlow, by simp [hb, hf, hn, hr, ht]⟩]
  · next hquote hslash hb hf hn hr ht hlow =>
    rw [itemOf, if_neg (fun h => hlow h.1)]
    rw [List.cons_append, List.nil_append, readItems, if_neg (by simp [hlow, hslash])]
    · exact hquote
    · exact fun _ _ _ _ _ h => absurd h hslash
    · exact fun _ _ h => absurd h hslash

theorem readItems_flatMap (cs rest : List Char) :
    readItems (cs.flatMap writeChar ++ '"' :: rest) = some (cs.map itemOf, rest) := by
  induction cs with
  | nil => rw [List.flatMap_nil, List.nil_append, readItems, List.map_nil]
  | cons c cs ih =>
    rw [List.flatMap_cons, List.append_assoc, readItems_writeChar, ih, consItem, List.map_cons]

theorem decodeItems_map_itemOf (cs : List Char) : decodeItems (cs.map itemOf) = some cs := by
  induction cs with
  | nil => rfl
  | cons c cs ih =>
    rw [List.map_cons, itemOf]
    split
    · next h =>
      have hlow : (decide (c.toNat < 0xD800) || decide (0xE000 ≤ c.toNat)) = true := by
        simp only [Bool.or_eq_true, decide_eq_true_eq]
        omega
      unfold decodeItems
      rw [if_pos hlow, ih, Char.ofNat_toNat, Option.map_some]
    · rw [decodeItems, ih, Option.map_some]

theorem readString_flatMap (s : String) (rest : List Char) :
    readString (s.toList.flatMap writeChar ++ '"' :: rest) = some (some s, rest) := by
  simp only [readString, readItems_flatMap, Option.map_some, decodeItems_map_itemOf,
    String.ofList_toList]

/-! ## Numbers -/

/-- A text with which no number goes on. -/
def EndsNumber (rest : List Char) : Prop :=
  ∀ c ∈ rest.head?, isDigit c = false ∧ c ≠ '.' ∧ c ≠ 'e' ∧ c ≠ 'E'

theorem readDigits_append {ds rest : List Char} (hds : ∀ c ∈ ds, isDigit c = true)
    (h : EndsNumber rest) : readDigits (ds ++ rest) = (ds, rest) := by
  obtain ⟨htake, hdrop⟩ := Text.span_append hds fun c hc => (h c hc).1
  rw [readDigits, htake, hdrop]

theorem readWhole_digits (n : Nat) {rest : List Char} (h : EndsNumber rest) :
    readWhole (digits n ++ rest) = some (digits n, rest) := by
  have hread := readDigits_append (fun c => Decimal.isDigit_of_mem_digits (n := n)) h
  obtain ⟨c, cs, hc, -⟩ := Decimal.digits_eq_cons n
  unfold readWhole
  split
  · next c' rest' heq =>
    -- a number that begins with a zero is zero, and its digits end there
    have hn : n = 0 := by
      rw [hc] at heq
      exact Decimal.eq_zero_of_digits (hc.trans (congrArg (· :: cs) (List.cons.inj heq).1))
    subst hn
    rw [Decimal.digits_zero] at heq ⊢
    obtain rfl : rest = c' :: rest' := (List.cons.inj heq).2
    rw [if_neg (by simp [(h c' rfl).1])]
  · rw [hread, hc]

theorem readNumber_digits (n : Nat) {rest : List Char} (h : EndsNumber rest) :
    readNumber (digits n ++ rest) = some (.natural n, rest) := by
  obtain ⟨c, cs, hc, hdigit⟩ := Decimal.digits_eq_cons n
  have hminus : c ≠ '-' := Text.ne_of_holds hdigit rfl
  have hfraction : skipFraction rest = some (false, rest) := by
    cases rest with
    | nil => rfl
    | cons d rest => rw [skipFraction]; exact (fun _ hd => (h d rfl).2.1 (List.cons.inj hd).1)
  have hexponent : skipExponent rest = some (false, rest) := by
    cases rest with
    | nil => rfl
    | cons d rest => simp [skipExponent, (h d rfl).2.2.1, (h d rfl).2.2.2]
  have hwhole := readWhole_digits n h
  rw [hc, List.cons_append] at hwhole ⊢
  rw [readNumber, hwhole]
  · simp only [hfraction, hexponent, Bool.or_self, Bool.false_eq_true, if_false, ← hc,
      Decimal.value_digits]
  · exact fun _ heq => hminus (List.cons.inj heq).1

/-! ## Lists -/

theorem skipBlank_cons_of_blank {c : Char} (h : isBlank c = true) (cs : List Char) :
    skipBlank (c :: cs) = skipBlank cs := List.dropWhile_cons_of_pos h

theorem skipBlank_cons_of_not_blank {c : Char} (h : isBlank c = false) (cs : List Char) :
    skipBlank (c :: cs) = c :: cs := List.dropWhile_cons_of_neg (by simp [h])

section Elements

variable {α β : Type} {read : List Char → Option (α × List Char)} {line : β → List Char}
  {value : β → α} {close : Char}

/-- Elements on lines of their own, separated by commas, are read one after the
other, if each line is read wherever a comma or the end of the line follows. -/
theorem readElements_lines (hclose : isBlank close = false) (hcomma : close ≠ ',') {x : β}
    {xs : List β}
    (hread : ∀ y ∈ x :: xs, ∀ rest, rest.head? = some ',' ∨ rest.head? = some '\n' →
      read ('\n' :: line y ++ rest) = some (value y, rest))
    {fuel : Nat} (hfuel : xs.length < fuel) (rest : List Char) :
    readElements read close fuel
      ('\n' :: [',', '\n'].intercalate ((x :: xs).map line) ++ '\n' :: close :: rest) =
      some ((x :: xs).map value, rest) := by
  induction xs generalizing x fuel with
  | nil =>
    obtain ⟨fuel, rfl⟩ := Nat.exists_eq_succ_of_ne_zero (Nat.ne_of_gt hfuel)
    have hx := hread x List.mem_cons_self ('\n' :: close :: rest) (.inr rfl)
    rw [List.map_singleton, List.intercalate_singleton, readElements, hx]
    simp only [skipBlank_cons_of_blank (c := '\n') rfl, skipBlank_cons_of_not_blank hclose,
      if_neg hcomma, if_pos, List.map_singleton]
  | cons y ys ih =>
    obtain ⟨fuel, rfl⟩ := Nat.exists_eq_succ_of_ne_zero (Nat.ne_of_gt (Nat.zero_lt_of_lt hfuel))
    have hrest := ih (x := y) (fun z hz => hread z (List.mem_cons_of_mem x hz))
      (Nat.lt_of_succ_lt_succ hfuel)
    have htext : '\n' :: [',', '\n'].intercalate ((x :: y :: ys).map line) ++
        '\n' :: close :: rest = '\n' :: line x ++ ',' :: ('\n' ::
          [',', '\n'].intercalate ((y :: ys).map line) ++ '\n' :: close :: rest) := by
      simp [List.intercalate_cons_cons]
    rw [htext, readElements, hread x List.mem_cons_self _ (.inl rfl)]
    simp only [skipBlank_cons_of_not_blank (c := ',') rfl, if_pos]
    rw [hrest]
    rfl

theorem length_lt_of_lines (x : β) (xs : List β) (rest : List Char) :
    xs.length < ('\n' :: [',', '\n'].intercalate ((x :: xs).map line) ++ rest).length := by
  induction xs generalizing x with
  | nil => simp
  | cons y ys ih =>
    have := ih y
    simp only [List.map_cons, List.intercalate_cons_cons, List.length_append, List.length_cons,
      List.length_nil] at this ⊢
    omega

/-- The same for a whole list, from after its opening bracket on. -/
theorem readList_lines (hclose : isBlank close = false) (hcomma : close ≠ ',') {x : β}
    {xs : List β}
    (hread : ∀ y ∈ x :: xs, ∀ rest, rest.head? = some ',' ∨ rest.head? = some '\n' →
      read ('\n' :: line y ++ rest) = some (value y, rest))
    {c : Char} {cs : List Char} (hx : skipBlank (line x) = c :: cs) (hc : c ≠ close)
    (rest : List Char) :
    readList read close
      ('\n' :: [',', '\n'].intercalate ((x :: xs).map line) ++ '\n' :: close :: rest) =
      some ((x :: xs).map value, rest) := by
  have hfirst : ∃ ds, skipBlank
      ('\n' :: [',', '\n'].intercalate ((x :: xs).map line) ++ '\n' :: close :: rest) = c :: ds := by
    obtain ⟨ds, hds⟩ : ∃ ds, [',', '\n'].intercalate ((x :: xs).map line) = line x ++ ds := by
      cases xs with
      | nil => exact ⟨[], by simp⟩
      | cons y ys => exact ⟨_, by rw [List.map_cons, List.map_cons, List.intercalate_cons_cons,
          List.append_assoc]⟩
    refine ⟨cs ++ (ds ++ '\n' :: close :: rest), ?_⟩
    rw [hds, List.cons_append, skipBlank_cons_of_blank rfl, List.append_assoc, skipBlank,
      List.dropWhile_append, ← skipBlank, hx, if_neg (by simp), List.cons_append]
  obtain ⟨ds, hds⟩ := hfirst
  rw [readList, hds]
  simp only [if_neg hc]
  exact readElements_lines hclose hcomma hread
    (Nat.lt_succ_of_lt (length_lt_of_lines x xs _)) rest

end Elements

/-! ## Members -/

theorem readValue_blank (depth : Nat) {c : Char} (h : isBlank c = true) (cs : List Char) :
    readValue depth (c :: cs) = readValue depth cs := by
  cases depth with
  | zero => rw [readValue, readValue]
  | succ depth => rw [readValue, readValue, skipBlank_cons_of_blank h]

theorem readValue_writeString (depth : Nat) (s : String) (rest : List Char) :
    readValue (depth + 1) (writeString s ++ rest) = some (.string (some s), rest) := by
  rw [readValue, writeString]
  simp only [List.cons_append, List.append_assoc, List.nil_append,
    skipBlank_cons_of_not_blank (c := '"') rfl, readString_flatMap, Option.map_some]

theorem readValue_digits (depth n : Nat) {rest : List Char} (h : EndsNumber rest) :
    readValue (depth + 1) (digits n ++ rest) = some (.natural n, rest) := by
  obtain ⟨c, cs, hc, hdigit⟩ := Decimal.digits_eq_cons n
  have hother : ∀ d, isDigit d = false → c ≠ d := fun d => Text.ne_of_holds hdigit
  have hblank : isBlank c = false := by
    simp [isBlank, hother ' ' rfl, hother '\n' rfl, hother '\t' rfl, hother '\r' rfl]
  have hread := readNumber_digits n h
  rw [hc, List.cons_append] at hread ⊢
  rw [readValue, skipBlank_cons_of_not_blank hblank]
  split
  · next heq => exact absurd (List.cons.inj heq).1 (hother '"' rfl)
  · next heq => exact absurd (List.cons.inj heq).1 (hother '[' rfl)
  · next heq => exact absurd (List.cons.inj heq).1 (hother '\x7b' rfl)
  · next heq => exact absurd (List.cons.inj heq).1 (hother 't' rfl)
  · next heq => exact absurd (List.cons.inj heq).1 (hother 'f' rfl)
  · next heq => exact absurd (List.cons.inj heq).1 (hother 'n' rfl)
  · exact hread

/-- A member with its key and a value, on a line of its own. -/
theorem readMember_line {read : List Char → Option (Json × List Char)} {key : String}
    {value : List Char} {v : Json} {rest : List Char}
    (hread : read (' ' :: value ++ rest) = some (v, rest)) :
    readMember read ('\n' :: ' ' :: ' ' :: writeString key ++ ':' :: ' ' :: value ++ rest) =
      some ((some key, v), rest) := by
  rw [readMember, writeString]
  simp only [List.cons_append, List.append_assoc, List.nil_append,
    skipBlank_cons_of_blank (c := '\n') rfl, skipBlank_cons_of_blank (c := ' ') rfl,
    skipBlank_cons_of_not_blank (c := '"') rfl, skipBlank_cons_of_not_blank (c := ':') rfl,
    readString_flatMap]
  rw [← List.cons_append, hread, Option.map_some]

end LogPipeline.Json
