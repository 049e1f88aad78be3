import LogPipeline.Text.Affix
import LogPipeline.Toml.Strings
import LogPipeline.Toml.Writer

/-!
# Reading back TOML strings

A string comes back from each of the four styles in which it may be written. On
one line an escape stands for each character that could end the string
(`readQuoted_writeQuoted`), or no such character occurs (`readLiteral_append`).
On several lines delimiters may stand in the text, at most two in a row: the
closing three are found behind them, also when the text ends in one or two
(`closing?_cases`).
-/

namespace LogPipeline.Toml

/-! ## Characters and escapes -/

theorem isPlain_of_not_needsCode {c : Char} (h : needsCode c = false) (hn : c ≠ '\n') :
    isPlain c = true := by
  simp only [needsCode, Bool.or_eq_false_iff, Bool.and_eq_false_iff, decide_eq_false_iff_not,
    Decidable.not_not] at h
  simp only [isPlain, Bool.or_eq_true, beq_iff_eq, Bool.and_eq_true, decide_eq_true_eq]
  obtain ⟨(hlow | htab) | hnew, hdel⟩ := h
  · exact .inr ⟨by omega, hdel⟩
  · exact .inl (by simpa using htab)
  · exact absurd (by simpa using hnew) hn

/-- The escapes of a character that has a code below 65536. -/
theorem readEscape_hexFour {c : Char} (h : c.toNat < 0xD800) (rest : List Char) :
    readEscape ('u' :: Text.hexFour true c.toNat ++ rest) = some (c, rest) := by
  have hcode := Text.hexNumber?_hexFour true (show c.toNat < 65536 by omega)
  rw [Text.hexFour] at hcode ⊢
  simp only [List.cons_append, List.nil_append, readEscape, scalar?, hcode]
  rw [if_pos (by simp [h]), Option.map_some, Char.ofNat_toNat]

/-- What is written between quotes for a character other than a quote: the
character itself, an escape of it, or a line end. -/
theorem writeChar_cases (lines : Bool) {c : Char} (hc : c ≠ '"') :
    (writeChar lines c = [c] ∧ isPlain c = true ∧ c ≠ '\\') ∨
    (lines = true ∧ c = '\n' ∧ writeChar lines c = ['\n']) ∨
    (∃ code, writeChar lines c = '\\' :: code ∧
      ∀ rest, readEscape (code ++ rest) = some (c, rest)) := by
  unfold writeChar
  split
  · next h => subst h; exact .inr (.inr ⟨_, rfl, fun _ => rfl⟩)
  split
  · next h => subst h; exact .inr (.inr ⟨_, rfl, fun _ => rfl⟩)
  split
  · next h =>
    subst h
    cases lines with
    | true => exact .inr (.inl ⟨rfl, rfl, rfl⟩)
    | false => exact .inr (.inr ⟨_, rfl, fun _ => rfl⟩)
  split
  · next h => subst h; exact .inr (.inr ⟨_, rfl, fun _ => rfl⟩)
  split
  · next h => subst h; exact .inr (.inr ⟨_, rfl, fun _ => rfl⟩)
  split
  · next h => subst h; exact .inr (.inr ⟨_, rfl, fun _ => rfl⟩)
  split
  · next h =>
    simp only [Bool.or_eq_true, decide_eq_true_eq] at h
    exact .inr (.inr ⟨_, rfl, readEscape_hexFour (by omega)⟩)
  · next hn _ _ hslash hlow =>
    refine .inl ⟨rfl, ?_, hslash⟩
    simp only [Bool.or_eq_true, decide_eq_true_eq, not_or] at hlow
    simp only [isPlain, Bool.or_eq_true, beq_iff_eq, Bool.and_eq_true, decide_eq_true_eq]
    omega

theorem writeQuoted_of_ne {lines : Bool} {run : Nat} {c : Char} (hc : c ≠ '"') (cs : List Char) :
    writeQuoted lines run (c :: cs) = writeChar lines c ++ writeQuoted lines 0 cs := by
  rw [writeQuoted, if_neg hc]

theorem writeQuoted_escaped {lines : Bool} {run : Nat} (h : (if lines then 2 else 0) ≤ run)
    (cs : List Char) :
    writeQuoted lines run ('"' :: cs) = '\\' :: '"' :: writeQuoted lines 0 cs := by
  rw [writeQuoted, if_pos rfl, if_pos h]

theorem writeQuoted_plain {lines : Bool} {run : Nat} (h : ¬(if lines then 2 else 0) ≤ run)
    (cs : List Char) :
    writeQuoted lines run ('"' :: cs) = '"' :: writeQuoted lines (run + 1) cs := by
  rw [writeQuoted, if_pos rfl, if_neg h]

/-! ## Strings on one line -/

theorem readQuoted_writeQuoted (cs : List Char) (run : Nat) {fuel : Nat} (h : cs.length < fuel)
    (rest : List Char) :
    readQuoted fuel (writeQuoted false run cs ++ '"' :: rest) = some (cs, rest) := by
  induction cs generalizing run fuel with
  | nil =>
    obtain ⟨fuel, rfl⟩ := Nat.exists_eq_succ_of_ne_zero (Nat.ne_of_gt h)
    rfl
  | cons c cs ih =>
    obtain ⟨fuel, rfl⟩ := Nat.exists_eq_succ_of_ne_zero (Nat.ne_of_gt (Nat.zero_lt_of_lt h))
    have hrest := fun run => ih run (Nat.lt_of_succ_lt_succ h)
    by_cases hc : c = '"'
    · subst hc
      rw [writeQuoted_escaped (Nat.zero_le run), List.cons_append, List.cons_append, readQuoted]
      simp only [readEscape, hrest, consChar]
    · rw [writeQuoted_of_ne hc, List.append_assoc]
      obtain ⟨hw, hplain, hslash⟩ | ⟨hlines, -⟩ | ⟨code, hw, hread⟩ := writeChar_cases false hc
      · rw [hw, List.cons_append, List.nil_append, readQuoted, if_pos hplain, hrest, consChar]
        · exact hc
        · exact hslash
      · cases hlines
      · rw [hw, List.cons_append, readQuoted, hread]
        simp only [hrest, consChar]

theorem readLiteral_append {cs : List Char} (h : ∀ c ∈ cs, isPlain c = true ∧ c ≠ '\'')
    (rest : List Char) : readLiteral (cs ++ '\'' :: rest) = some (cs, rest) := by
  induction cs with
  | nil => rfl
  | cons c cs ih =>
    obtain ⟨hplain, hc⟩ := h c List.mem_cons_self
    rw [List.cons_append, readLiteral, if_neg hc, if_pos hplain,
      ih fun d hd => h d (List.mem_cons_of_mem c hd), consChar]

/-! ## Strings of several lines -/

section Runs

variable {q : Char} {run : Nat} {w : List Char}

/-- A text goes on from a run of some length without making it longer than two. -/
def GoesOn (q : Char) (run : Nat) (w : List Char) : Prop :=
  ∃ j, j + run ≤ 2 ∧
    (w = List.replicate j q ∨ ∃ c w', w = List.replicate j q ++ c :: w' ∧ c ≠ q)

theorem goesOn_nil (h : run ≤ 2) : GoesOn q run [] := ⟨0, by omega, .inl rfl⟩

theorem goesOn_cons_of_ne {c : Char} (hc : c ≠ q) (h : run ≤ 2) : GoesOn q run (c :: w) :=
  ⟨0, by omega, .inr ⟨c, w, rfl, hc⟩⟩

theorem GoesOn.cons_self (h : GoesOn q (run + 1) w) : GoesOn q run (q :: w) := by
  obtain ⟨j, hj, rfl | ⟨c, w', rfl, hc⟩⟩ := h
  · exact ⟨j + 1, by omega, .inl rfl⟩
  · exact ⟨j + 1, by omega, .inr ⟨c, w', rfl, hc⟩⟩

theorem goesOn_of_longestRun (h : longestRun q run w ≤ 2) : GoesOn q run w := by
  induction w generalizing run with
  | nil => exact goesOn_nil h
  | cons c w ih =>
    rw [longestRun] at h
    split at h
    · next hc => exact hc ▸ (ih h).cons_self
    · next hc => exact goesOn_cons_of_ne hc (by omega)

theorem takeWhile_replicate (j : Nat) {rest : List Char} (h : rest.head? ≠ some q) :
    (List.replicate j q ++ rest).takeWhile (· == q) = List.replicate j q :=
  (Text.span_append (by simp) fun c hc => by
    rw [beq_eq_false_iff_ne]
    rintro rfl
    exact h hc).1

/-- Before the closing delimiters a text that goes on like this either is a run of
them itself, and then the whole rest is read at once, or does not look closed. -/
theorem closing?_cases (h : GoesOn q run w) {rest : List Char}
    (hrest : rest.head? ≠ some q) :
    ((∀ c ∈ w, c = q) ∧ closing? q (w ++ q :: q :: q :: rest) = some (w, rest)) ∨
    (w ≠ [] ∧ closing? q (w ++ q :: q :: q :: rest) = none ∧
      ∀ cs, w ++ q :: q :: q :: rest ≠ q :: q :: q :: cs) := by
  obtain ⟨j, hj, rfl | ⟨c, w, rfl, hc⟩⟩ := h
  · refine .inl ⟨fun c hc => (List.mem_replicate.1 hc).2, ?_⟩
    have htext : List.replicate j q ++ q :: q :: q :: rest = List.replicate (j + 3) q ++ rest := by
      rw [← List.replicate_append_replicate, List.append_assoc]
      rfl
    rw [htext, closing?, takeWhile_replicate _ hrest]
    simp only [List.length_replicate, List.drop_replicate, Nat.add_sub_cancel]
    rw [if_pos (by simp; omega), List.drop_append_of_le_length (by simp)]
    simp
  · have hhead : (c :: w ++ q :: q :: q :: rest).head? ≠ some q := by simpa using hc
    rw [List.append_assoc]
    refine .inr ⟨by simp, ?_, fun cs heq => ?_⟩
    · rw [closing?, takeWhile_replicate _ hhead, List.length_replicate]
      rw [if_neg (by simp; omega)]
    · have hlength := congrArg (fun cs => (cs.takeWhile (· == q)).length) heq
      simp only [takeWhile_replicate _ hhead, List.length_replicate, List.takeWhile_cons,
        beq_self_eq_true, if_true, List.length_cons] at hlength
      omega

end Runs

theorem goesOn_writeQuoted (cs : List Char) {run : Nat} (h : run ≤ 2) :
    GoesOn '"' run (writeQuoted true run cs) := by
  induction cs generalizing run with
  | nil => exact goesOn_nil h
  | cons c cs ih =>
    by_cases hc : c = '"'
    · subst hc
      by_cases hrun : 2 ≤ run
      · rw [writeQuoted_escaped hrun]
        exact goesOn_cons_of_ne (by decide) h
      · rw [writeQuoted_plain hrun]
        exact (ih (by omega)).cons_self
    · rw [writeQuoted_of_ne hc]
      obtain ⟨hw, -, -⟩ | ⟨-, -, hw⟩ | ⟨code, hw, -⟩ := writeChar_cases true hc
      · rw [hw]
        exact goesOn_cons_of_ne hc h
      · rw [hw]
        exact goesOn_cons_of_ne (by decide) h
      · rw [hw]
        exact goesOn_cons_of_ne (by decide) h

/-- Quotes alone are only written for themselves. -/
theorem writeQuoted_eq_self {lines : Bool} {run : Nat} {cs : List Char}
    (h : ∀ c ∈ writeQuoted lines run cs, c = '"') : writeQuoted lines run cs = cs := by
  induction cs generalizing run with
  | nil => rfl
  | cons c cs ih =>
    by_cases hc : c = '"'
    · subst hc
      by_cases hrun : (if lines then 2 else 0) ≤ run
      · rw [writeQuoted_escaped hrun] at h
        exact absurd (h '\\' List.mem_cons_self) (by decide)
      · rw [writeQuoted_plain hrun] at h ⊢
        rw [ih fun d hd => h d (List.mem_cons_of_mem _ hd)]
    · rw [writeQuoted_of_ne hc] at h
      obtain ⟨hw, -, -⟩ | ⟨-, -, hw⟩ | ⟨code, hw, -⟩ := writeChar_cases lines hc
      · rw [hw] at h
        exact absurd (h c List.mem_cons_self) hc
      · rw [hw] at h
        exact absurd (h '\n' List.mem_cons_self) (by decide)
      · rw [hw] at h
        exact absurd (h '\\' List.mem_cons_self) (by decide)

theorem afterNewline?_of_isPlain {c : Char} (h : isPlain c = true) (cs : List Char) :
    afterNewline? (c :: cs) = none := by
  unfold afterNewline?
  split
  · next heq => rw [(List.cons.inj heq).1] at h; exact absurd h (by decide)
  · next heq => rw [(List.cons.inj heq).1] at h; exact absurd h (by decide)
  · rfl

section Steps

variable {fuel : Nat} {c : Char} {cs rest : List Char}

theorem readQuotedLines_closed {r : List Char × List Char} (h : closing? '"' cs = some r) :
    readQuotedLines (fuel + 1) cs = some r := by
  rw [readQuotedLines.eq_def]
  simp only [h]

theorem readQuotedLines_newline (h : closing? '"' ('\n' :: cs) = none) :
    readQuotedLines (fuel + 1) ('\n' :: cs) = consChar '\n' (readQuotedLines fuel cs) := by
  rw [readQuotedLines.eq_def]
  simp only [h, afterNewline?]

theorem readQuotedLines_escape (h : closing? '"' ('\\' :: cs) = none)
    (hread : readEscape cs = some (c, rest)) :
    readQuotedLines (fuel + 1) ('\\' :: cs) = consChar c (readQuotedLines fuel rest) := by
  rw [readQuotedLines.eq_def]
  simp only [h, afterNewline?_of_isPlain (c := '\\') rfl, hread]

theorem readQuotedLines_plain (h : closing? '"' (c :: cs) = none) (hplain : isPlain c = true)
    (hslash : c ≠ '\\') (hopen : ∀ r, c :: cs ≠ '"' :: '"' :: '"' :: r) :
    readQuotedLines (fuel + 1) (c :: cs) = consChar c (readQuotedLines fuel cs) := by
  rw [readQuotedLines.eq_def]
  simp only [h, afterNewline?_of_isPlain hplain]
  split
  · next heq => cases heq
  · next heq => exact absurd (List.cons.inj heq).1 hslash
  · next heq => exact absurd heq (hopen _)
  · next heq =>
    obtain ⟨rfl, rfl⟩ := List.cons.inj heq
    rw [if_pos hplain]

theorem readLiteralLines_closed {r : List Char × List Char} (h : closing? '\'' cs = some r) :
    readLiteralLines (fuel + 1) cs = some r := by
  rw [readLiteralLines.eq_def]
  simp only [h]

theorem readLiteralLines_newline (h : closing? '\'' ('\n' :: cs) = none) :
    readLiteralLines (fuel + 1) ('\n' :: cs) = consChar '\n' (readLiteralLines fuel cs) := by
  rw [readLiteralLines.eq_def]
  simp only [h, afterNewline?]

theorem readLiteralLines_plain (h : closing? '\'' (c :: cs) = none) (hplain : isPlain c = true)
    (hopen : ∀ r, c :: cs ≠ '\'' :: '\'' :: '\'' :: r) :
    readLiteralLines (fuel + 1) (c :: cs) = consChar c (readLiteralLines fuel cs) := by
  rw [readLiteralLines.eq_def]
  simp only [h, afterNewline?_of_isPlain hplain]
  split
  · next heq => cases heq
  · next heq => exact absurd heq (hopen _)
  · next heq =>
    obtain ⟨rfl, rfl⟩ := List.cons.inj heq
    rw [if_pos hplain]

end Steps

theorem readQuotedLines_writeQuoted (cs : List Char) {run : Nat} (hrun : run ≤ 2) {fuel : Nat}
    (h : cs.length < fuel) {rest : List Char} (hrest : rest.head? ≠ some '"') :
    readQuotedLines fuel (writeQuoted true run cs ++ '"' :: '"' :: '"' :: rest) =
      some (cs, rest) := by
  induction cs generalizing run fuel with
  | nil =>
    obtain ⟨fuel, rfl⟩ := Nat.exists_eq_succ_of_ne_zero (Nat.ne_of_gt h)
    obtain ⟨-, hclosing⟩ | ⟨hne, -⟩ := closing?_cases (goesOn_nil hrun) hrest
    · exact readQuotedLines_closed hclosing
    · exact absurd rfl hne
  | cons c cs ih =>
    obtain ⟨fuel, rfl⟩ := Nat.exists_eq_succ_of_ne_zero (Nat.ne_of_gt (Nat.zero_lt_of_lt h))
    have hnext : ∀ run, run ≤ 2 → readQuotedLines fuel
        (writeQuoted true run cs ++ '"' :: '"' :: '"' :: rest) = some (cs, rest) :=
      fun run hrun => ih hrun (Nat.lt_of_succ_lt_succ h)
    obtain ⟨hall, hclosing⟩ | ⟨-, hclosing, hopen⟩ :=
      closing?_cases (goesOn_writeQuoted (c :: cs) hrun) hrest
    · rw [readQuotedLines_closed hclosing, writeQuoted_eq_self hall]
    · by_cases hc : c = '"'
      · subst hc
        by_cases hlimit : 2 ≤ run
        · rw [writeQuoted_escaped hlimit, List.cons_append, List.cons_append] at hclosing ⊢
          rw [readQuotedLines_escape hclosing rfl, hnext 0 (by omega), consChar]
        · rw [writeQuoted_plain hlimit, List.cons_append] at hclosing hopen ⊢
          rw [readQuotedLines_plain hclosing rfl (by decide) hopen, hnext (run + 1) (by omega),
            consChar]
      · rw [writeQuoted_of_ne hc, List.append_assoc] at hclosing hopen ⊢
        obtain ⟨hw, hplain, hslash⟩ | ⟨-, rfl, hw⟩ | ⟨code, hw, hread⟩ := writeChar_cases true hc
        · rw [hw, List.singleton_append] at hclosing hopen ⊢
          rw [readQuotedLines_plain hclosing hplain hslash hopen, hnext 0 (by omega), consChar]
        · rw [hw, List.singleton_append] at hclosing ⊢
          rw [readQuotedLines_newline hclosing, hnext 0 (by omega), consChar]
        · rw [hw, List.cons_append] at hclosing ⊢
          rw [readQuotedLines_escape hclosing (hread _), hnext 0 (by omega), consChar]

theorem readLiteralLines_append {cs : List Char} {run : Nat}
    (hplain : ∀ c ∈ cs, isPlain c = true ∨ c = '\n') (hrun : longestRun '\'' run cs ≤ 2)
    {fuel : Nat} (h : cs.length < fuel) {rest : List Char} (hrest : rest.head? ≠ some '\'') :
    readLiteralLines fuel (cs ++ '\'' :: '\'' :: '\'' :: rest) = some (cs, rest) := by
  induction cs generalizing run fuel with
  | nil =>
    obtain ⟨fuel, rfl⟩ := Nat.exists_eq_succ_of_ne_zero (Nat.ne_of_gt h)
    obtain ⟨-, hclosing⟩ | ⟨hne, -⟩ := closing?_cases (goesOn_of_longestRun hrun) hrest
    · exact readLiteralLines_closed hclosing
    · exact absurd rfl hne
  | cons c cs ih =>
    obtain ⟨fuel, rfl⟩ := Nat.exists_eq_succ_of_ne_zero (Nat.ne_of_gt (Nat.zero_lt_of_lt h))
    have hnext : ∃ run, longestRun '\'' run cs ≤ 2 := by
      rw [longestRun] at hrun
      split at hrun
      · exact ⟨_, hrun⟩
      · exact ⟨0, by omega⟩
    obtain ⟨run', hrun'⟩ := hnext
    have hrest' := ih (fun d hd => hplain d (List.mem_cons_of_mem c hd)) hrun'
      (Nat.lt_of_succ_lt_succ h)
    obtain ⟨-, hclosing⟩ | ⟨-, hclosing, hopen⟩ :=
      closing?_cases (goesOn_of_longestRun hrun) hrest
    · exact readLiteralLines_closed hclosing
    · rw [List.cons_append] at hclosing hopen ⊢
      rcases hplain c List.mem_cons_self with hc | rfl
      · rw [readLiteralLines_plain hclosing hc hopen, hrest', consChar]
      · rw [readLiteralLines_newline hclosing, hrest', consChar]

/-! ## Strings in any style -/

theorem le_longestRun (q : Char) (run : Nat) (w : List Char) : run ≤ longestRun q run w := by
  induction w generalizing run with
  | nil => exact Nat.le_refl run
  | cons c w ih =>
    rw [longestRun]
    split
    · exact Nat.le_of_succ_le (ih (run + 1))
    · exact Nat.le_max_left _ _

theorem not_mem_of_longestRun {q : Char} {w : List Char} (h : longestRun q 0 w = 0) : q ∉ w := by
  induction w with
  | nil => exact List.not_mem_nil
  | cons c w ih =>
    rw [longestRun] at h
    split at h
    · have := le_longestRun q (0 + 1) w
      omega
    · next hc =>
      exact fun hq => (List.mem_cons.1 hq).elim (fun heq => hc heq.symm) (ih (by omega))

/-- What the two literal styles are chosen for. -/
theorem style_cases (cs : List Char) :
    StringStyle.of cs = .quoted ∨ StringStyle.of cs = .quotedLines ∨
    (StringStyle.of cs = .literal ∧ ∀ c ∈ cs, isPlain c = true ∧ c ≠ '\'') ∨
    (StringStyle.of cs = .literalLines ∧ (∀ c ∈ cs, isPlain c = true ∨ c = '\n') ∧
      longestRun '\'' 0 cs ≤ 2) := by
  have hplain : cs.any needsCode = false → ∀ c ∈ cs, isPlain c = true ∨ c = '\n' := by
    intro h c hc
    by_cases hn : c = '\n'
    · exact .inr hn
    · exact .inl (isPlain_of_not_needsCode (by simpa using List.any_eq_false.1 h c hc) hn)
  unfold StringStyle.of
  simp only
  split
  · exact .inl rfl
  split
  · next h =>
    simp only [Bool.and_eq_true, Bool.not_eq_true', decide_eq_true_eq] at h
    obtain ⟨⟨hcodes, hquotes⟩, hnewline⟩ := h
    refine .inr (.inr (.inl ⟨rfl, fun c hc => ⟨?_, ?_⟩⟩))
    · rcases hplain hcodes c hc with h | rfl
      · exact h
      · exact absurd (List.contains_iff_mem.2 hc) (by rw [hnewline]; decide)
    · rintro rfl
      exact not_mem_of_longestRun hquotes hc
  split
  · exact .inr (.inl rfl)
  split
  · next h =>
    simp only [Bool.and_eq_true, Bool.not_eq_true', decide_eq_true_eq] at h
    exact .inr (.inr (.inr ⟨rfl, hplain h.1, h.2⟩))
  split
  · exact .inr (.inl rfl)
  · exact .inl rfl

/-- A line end is read over exactly if one was written after the delimiter. -/
theorem skipFirstNewline_written {newline : Bool} {w : List Char}
    (h : newline = false → ∀ c ∈ w.head?, isPlain c = true) :
    skipFirstNewline ((if newline then ['\n'] else []) ++ w) = w := by
  cases newline with
  | true => rfl
  | false =>
    cases w with
    | nil => rfl
    | cons c w =>
      rw [if_neg (by simp), List.nil_append, skipFirstNewline,
        afterNewline?_of_isPlain (h rfl c rfl), Option.getD_none]

theorem readString_line {cs : List Char} (hquotes : ∀ r, cs ≠ '"' :: '"' :: '"' :: r)
    (hapostrophes : ∀ r, cs ≠ '\'' :: '\'' :: '\'' :: r) : readString cs = readLineString cs :=
  readString.eq_3 cs (fun r h => hquotes r h) fun r h => hapostrophes r h

theorem isPlain_head?_writeQuoted {lines : Bool} {run : Nat} {cs rest : List Char}
    (h : lines = true → '\n' ∉ cs) :
    ∀ c ∈ (writeQuoted lines run cs ++ '"' :: rest).head?, isPlain c = true := by
  cases cs with
  | nil => rintro c ⟨⟩; rfl
  | cons d cs =>
    by_cases hd : d = '"'
    · subst hd
      by_cases hrun : (if lines then 2 else 0) ≤ run
      · rw [writeQuoted_escaped hrun]
        rintro c ⟨⟩
        rfl
      · rw [writeQuoted_plain hrun]
        rintro c ⟨⟩
        rfl
    · rw [writeQuoted_of_ne hd]
      obtain ⟨hw, hplain, -⟩ | ⟨hlines, rfl, -⟩ | ⟨code, hw, -⟩ := writeChar_cases lines hd
      · rw [hw]
        rintro c ⟨⟩
        exact hplain
      · exact absurd List.mem_cons_self (h hlines)
      · rw [hw]
        rintro c ⟨⟩
        rfl

theorem length_le_writeQuoted (lines : Bool) (run : Nat) (cs : List Char) :
    cs.length ≤ (writeQuoted lines run cs).length := by
  induction cs generalizing run with
  | nil => exact Nat.zero_le _
  | cons c cs ih =>
    by_cases hc : c = '"'
    · subst hc
      by_cases hrun : (if lines then 2 else 0) ≤ run
      · have := ih 0
        rw [writeQuoted_escaped hrun]
        simp only [List.length_cons]
        omega
      · rw [writeQuoted_plain hrun]
        exact Nat.succ_le_succ (ih (run + 1))
    · have := ih 0
      rw [writeQuoted_of_ne hc, List.length_append, List.length_cons]
      obtain ⟨hw, -⟩ | ⟨-, -, hw⟩ | ⟨code, hw, -⟩ := writeChar_cases lines hc
      all_goals
        rw [hw, List.length_cons]
        omega

section Styles

variable {cs rest : List Char}

theorem readString_quoted (cs : List Char) (hrest : rest.head? ≠ some '"') :
    readString ('"' :: (writeQuoted false 0 cs ++ '"' :: rest)) =
      some (String.ofList cs, rest) := by
  have hquotes : ∀ r, '"' :: (writeQuoted false 0 cs ++ '"' :: rest) ≠ '"' :: '"' :: '"' :: r := by
    intro r h
    have h := (List.cons.inj h).2
    cases cs with
    | nil =>
      rw [writeQuoted, List.nil_append] at h
      exact hrest (by rw [(List.cons.inj h).2, List.head?_cons])
    | cons c cs =>
      by_cases hc : c = '"'
      · rw [hc, writeQuoted_escaped (Nat.zero_le 0)] at h
        exact absurd (List.cons.inj h).1 (by decide)
      · rw [writeQuoted_of_ne hc, List.append_assoc] at h
        obtain ⟨hw, -⟩ | ⟨-, -, hw⟩ | ⟨code, hw, -⟩ := writeChar_cases false hc
        · rw [hw] at h
          exact hc (List.cons.inj h).1
        · rw [hw] at h
          exact absurd (List.cons.inj h).1 (by decide)
        · rw [hw] at h
          exact absurd (List.cons.inj h).1 (by decide)
  have hfuel : cs.length < (writeQuoted false 0 cs ++ '"' :: rest).length + 1 := by
    have := length_le_writeQuoted false 0 cs
    rw [List.length_append]
    omega
  rw [readString_line hquotes (by simp), readLineString, readQuoted_writeQuoted cs 0 hfuel,
    Option.map_some]

theorem readString_literal (hplain : ∀ c ∈ cs, isPlain c = true ∧ c ≠ '\'')
    (hrest : rest.head? ≠ some '\'') :
    readString ('\'' :: (cs ++ '\'' :: rest)) = some (String.ofList cs, rest) := by
  have happos : ∀ r, '\'' :: (cs ++ '\'' :: rest) ≠ '\'' :: '\'' :: '\'' :: r := by
    intro r h
    have h := (List.cons.inj h).2
    cases cs with
    | nil => exact hrest (by rw [(List.cons.inj h).2, List.head?_cons])
    | cons c cs => exact (hplain c List.mem_cons_self).2 (List.cons.inj h).1
  rw [readString_line (by simp) happos, readLineString, readLiteral_append hplain, Option.map_some]

theorem readString_quotedLines (cs : List Char) (hrest : rest.head? ≠ some '"') :
    readString ('"' :: '"' :: '"' :: ((if cs.contains '\n' then ['\n'] else []) ++
      (writeQuoted true 0 cs ++ '"' :: '"' :: '"' :: rest))) = some (String.ofList cs, rest) := by
  have hhead : cs.contains '\n' = false →
      ∀ c ∈ (writeQuoted true 0 cs ++ '"' :: '"' :: '"' :: rest).head?, isPlain c = true := by
    refine fun h => isPlain_head?_writeQuoted fun _ hmem => ?_
    rw [List.contains_iff_mem.2 hmem] at h
    cases h
  rw [readString, skipFirstNewline_written hhead,
    readQuotedLines_writeQuoted cs (Nat.zero_le 2) _ hrest, Option.map_some]
  have := length_le_writeQuoted true 0 cs
  simp only [List.length_append]
  omega

theorem readString_literalLines (hplain : ∀ c ∈ cs, isPlain c = true ∨ c = '\n')
    (hrun : longestRun '\'' 0 cs ≤ 2) (hrest : rest.head? ≠ some '\'') :
    readString ('\'' :: '\'' :: '\'' :: ((if cs.contains '\n' then ['\n'] else []) ++
      (cs ++ '\'' :: '\'' :: '\'' :: rest))) = some (String.ofList cs, rest) := by
  have hhead : cs.contains '\n' = false →
      ∀ c ∈ (cs ++ '\'' :: '\'' :: '\'' :: rest).head?, isPlain c = true := by
    intro h
    cases cs with
    | nil => rintro c ⟨⟩; rfl
    | cons d cs =>
      rintro c ⟨⟩
      rcases hplain d List.mem_cons_self with hd | rfl
      · exact hd
      · cases h
  rw [readString, skipFirstNewline_written hhead, readLiteralLines_append hplain hrun _ hrest,
    Option.map_some]
  simp only [List.length_append]
  omega

end Styles

/-- A string is read back as a value, whatever it holds and in whatever style it
was written. -/
theorem readString_writeString (s : String) {rest : List Char} (hquote : rest.head? ≠ some '"')
    (hapostrophe : rest.head? ≠ some '\'') :
    readString (writeString s ++ rest) = some (s, rest) := by
  unfold writeString
  simp only
  obtain hstyle | hstyle | ⟨hstyle, hplain⟩ | ⟨hstyle, hplain, hrun⟩ := style_cases s.toList
  · have := readString_quoted s.toList hquote
    rw [hstyle]
    simpa [enclose] using this
  · have := readString_quotedLines s.toList hquote
    rw [hstyle]
    simpa [enclose] using this
  · have := readString_literal hplain hapostrophe
    rw [hstyle]
    simpa [enclose] using this
  · have := readString_literalLines hplain hrun hapostrophe
    rw [hstyle]
    simpa [enclose] using this

end LogPipeline.Toml
