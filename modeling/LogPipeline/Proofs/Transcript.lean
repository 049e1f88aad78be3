import LogPipeline.Dump.Writer
import LogPipeline.Proofs.Calendar

/-!
# A log read back

A line of the log shows the time, the level, the tag and the message of its entry
(`Shown`), and can be read back to them: the stamp and the label have a fixed width, and the
tag ends at the first closing bracket, whatever brackets the message holds
(`Shown.read?_line`). If no text holds a newline, the lines of a log are the pieces between
its newlines, so that the whole log is read back from its bytes (`Entry.log_reads_back`).
-/

namespace LogPipeline

/-! ## Messages of one line -/

namespace Arg

/-- Whether the text of an argument stays on its line; numbers and truth values do. -/
def OneLine : Arg → Prop
  | .text s | .block s => '\n' ∉ s.toList
  | _ => True

theorem newline_not_mem_intText (i : Int) : '\n' ∉ (Decimal.intText i).toList := by
  have hdigits : ∀ n, '\n' ∉ Decimal.digits n := fun n h =>
    absurd (Decimal.isDigit_of_mem_digits h) (by decide)
  unfold Decimal.intText
  split
  · simp [hdigits]
  · simp [Decimal.natText, hdigits]

theorem newline_not_mem_floatText (x : Float) : '\n' ∉ (floatText x).toList := by
  have hsign : ∀ negative : Bool, '\n' ∉ (if negative then "-" else "").toList := by decide
  unfold floatText
  split
  · decide
  · simp [hsign]
  · simp [hsign]
  · next reading _ =>
    have hdigits : '\n' ∉ reading.shortest.positional := fun h =>
      absurd (Decimal.Scaled.mem_positional h) (by decide)
    simp [hsign, hdigits]

theorem OneLine.newline_not_mem {a : Arg} (h : a.OneLine) : '\n' ∉ a.render.toList := by
  cases a with
  | text s => exact h
  | block s => exact h
  | int i => exact newline_not_mem_intText i.toInt
  | uint n => exact newline_not_mem_intText n.toNat
  | float x => exact newline_not_mem_floatText x
  | bool b => cases b <;> decide

theorem newline_not_mem_joinAfter (previous : Arg) {args : List Arg}
    (h : ∀ a ∈ args, a.OneLine) : '\n' ∉ (joinAfter previous args).toList := by
  induction args generalizing previous with
  | nil => simp [joinAfter]
  | cons a rest ih =>
    obtain ⟨ha, hrest⟩ := List.forall_mem_cons.1 h
    have hsep : '\n' ∉ (previous.separator a).toList := by
      unfold separator
      split <;> decide
    simp [joinAfter, hsep, ha.newline_not_mem, ih a hrest]

/-- A message of arguments that stay on their line is one line. -/
theorem newline_not_mem_join {args : List Arg} (h : ∀ a ∈ args, a.OneLine) :
    '\n' ∉ (join args).toList := by
  cases args with
  | nil => decide
  | cons a rest =>
    obtain ⟨ha, hrest⟩ := List.forall_mem_cons.1 h
    simp [join, ha.newline_not_mem, newline_not_mem_joinAfter a hrest]

end Arg

namespace Civil

/-- A stamp has the same width in every year. -/
theorem InRange.length_lineStamp {c : Civil} (h : c.InRange) : c.lineStamp.toList.length = 17 := by
  simp [toList_lineStamp, h.length_dateFields, h.length_clockFields]

theorem newline_not_mem_lineStamp (c : Civil) : '\n' ∉ c.lineStamp.toList := by
  have hpadded : ∀ n, '\n' ∉ Decimal.padded 2 n := fun n h =>
    absurd (Decimal.isDigit_of_mem_padded h) (by decide)
  simp [toList_lineStamp, dateFields, clockFields, hpadded]

end Civil

namespace Level

/-- The level of a label. -/
def ofLabel? (label : String) : Option Level := all.find? (·.label == label)

@[simp] theorem ofLabel?_label (l : Level) : ofLabel? l.label = some l := by
  cases l <;> decide

theorem newline_not_mem_label (l : Level) : '\n' ∉ l.label.toList := by
  cases l <;> decide

end Level

/-! ## What a line shows -/

/-- What the line of an entry with a tag shows of it. -/
structure Shown where
  stamp : String
  level : Level
  tag : String
  message : String
  deriving DecidableEq, Repr

namespace Shown

/-- The line in which something is shown. -/
def line (s : Shown) : List Char :=
  ['['] ++ s.stamp.toList ++ "] [".toList ++ s.level.label.toList ++ "] [".toList ++
    s.tag.toList ++ "]  ".toList ++ s.message.toList

/-- Reads a line. The stamp has seventeen columns and the label five, and the tag goes up to
the first closing bracket. -/
def read? (line : List Char) : Option Shown := do
  let rest ← Text.afterStart? ['['] line
  let stamp := rest.take 17
  let rest ← Text.afterStart? "] [".toList (rest.drop 17)
  let level ← Level.ofLabel? (String.ofList (rest.take 5))
  let rest ← Text.afterStart? "] [".toList (rest.drop 5)
  let tag := rest.takeWhile (· ≠ ']')
  let message ← Text.afterStart? "]  ".toList (rest.dropWhile (· ≠ ']'))
  some ⟨String.ofList stamp, level, String.ofList tag, String.ofList message⟩

/-- A line is read back, whatever its message is. -/
theorem read?_line {s : Shown} (hstamp : s.stamp.toList.length = 17) (htag : ']' ∉ s.tag.toList) :
    read? s.line = some s := by
  have after : ∀ start rest : List Char, Text.afterStart? start (start ++ rest) = some rest :=
    fun _ _ => Text.afterStart?_eq_some_iff.2 rfl
  have hlabel : s.level.label.toList.length = 5 := s.level.length_label
  have hinside : ∀ c ∈ s.tag.toList, decide (c ≠ ']') = true := fun c hc => by
    simpa using ne_of_mem_of_not_mem hc htag
  have hcut : ((s.tag.toList ++ ("]  ".toList ++ s.message.toList)).takeWhile (· ≠ ']') =
      s.tag.toList) ∧ (s.tag.toList ++ ("]  ".toList ++ s.message.toList)).dropWhile (· ≠ ']') =
      "]  ".toList ++ s.message.toList := Text.span_append hinside (by simp)
  simp only [read?, line, List.append_assoc, after, Option.bind_eq_bind, Option.bind_some,
    List.take_left' hstamp, List.drop_left' hstamp, List.take_left' hlabel,
    List.drop_left' hlabel, hcut, String.ofList_toList, Level.ofLabel?_label]

end Shown

/-! ## The entries of a log -/

namespace Entry

/-- What the line of an entry shows. -/
def shown (e : Entry) : Shown := ⟨stampText e.time, e.level, e.tag, e.message⟩

/-- The line of an entry, without the newline that ends it. -/
def line (e : Entry) : List Char := (e.opening ++ e.message).toList

/-- An entry whose line can be read: it shows its tag, which ends where a bracket closes, and
stays on its line. -/
structure Legible (e : Entry) : Prop where
  regular : e.verbatim = false
  uncalled : e.caller? = none
  tag_ne : e.tag ≠ ""
  bracket : ']' ∉ e.tag.toList
  newline : '\n' ∉ e.tag.toList
  args : ∀ a ∈ e.args, a.OneLine

theorem toList_render (e : Entry) : e.render.toList = e.line ++ ['\n'] := by
  simp [render, line]

namespace Legible

variable {e : Entry}

theorem line_eq (h : e.Legible) : e.line = e.shown.line := by
  obtain ⟨time, level, heading, args, verbatim⟩ := e
  obtain rfl : verbatim = false := h.regular
  cases heading with
  | site site => cases h.uncalled
  | tag name =>
    have hne : name ≠ "" := h.tag_ne
    simp [line, opening, Shown.line, shown, Heading.render, tag, message, hne]

theorem read?_line (h : e.Legible) : Shown.read? e.line = some e.shown := by
  rw [h.line_eq]
  exact Shown.read?_line e.time.inRange_civil.length_lineStamp h.bracket

theorem newline_not_mem_line (h : e.Legible) : '\n' ∉ e.line := by
  have hstamp := Civil.newline_not_mem_lineStamp e.time.civil
  have hlabel := e.level.newline_not_mem_label
  have hmessage := Arg.newline_not_mem_join h.args
  rw [h.line_eq]
  simp [Shown.line, shown, stampText, message, hstamp, hlabel, h.newline, hmessage]

end Legible

/-- The text of some entries: their lines, each ended by a newline. -/
def transcript (entries : List Entry) : List Char := entries.flatMap fun e => e.line ++ ['\n']

theorem renderAll_eq_encode (entries : List Entry) :
    renderAll entries = Text.encode (String.ofList (transcript entries)) := by
  induction entries with
  | nil => rfl
  | cons e entries ih =>
    have hcons : transcript (e :: entries) = e.render.toList ++ transcript entries := by
      rw [toList_render]
      rfl
    have hrest : renderAll (e :: entries) = Text.encode e.render ++ renderAll entries := rfl
    rw [hrest, ih, hcons, String.ofList_append, String.ofList_toList, Text.encode_append]

theorem pieces_transcript {entries : List Entry} (h : ∀ e ∈ entries, e.Legible) :
    Text.pieces '\n' (transcript entries) = entries.map line ++ [[]] := by
  induction entries with
  | nil => rfl
  | cons e entries ih =>
    obtain ⟨he, hrest⟩ := List.forall_mem_cons.1 h
    have hcons : transcript (e :: entries) = e.line ++ '\n' :: transcript entries := by
      simp [transcript]
    rw [hcons, Text.pieces_append he.newline_not_mem_line, ih hrest, List.map_cons,
      List.cons_append]

/-- A log of entries with tags, whose texts hold no newline: its bytes are a text, the pieces
between the newlines of that text are the lines of the entries in order, and each line is
read back to the time, the level, the tag and the message of its entry. So lines that are the
same show the same. -/
theorem log_reads_back {entries : List Entry} (h : ∀ e ∈ entries, e.Legible) :
    (∃ text, Text.decode? (renderAll entries) = some text ∧
      Text.pieces '\n' text.toList = entries.map line ++ [[]]) ∧
      (entries.map line).map Shown.read? = (entries.map shown).map some ∧
      ∀ a b : Entry, a.Legible → b.Legible → a.line = b.line → a.shown = b.shown := by
  refine ⟨⟨String.ofList (transcript entries), ?_, ?_⟩, ?_, fun a b ha hb hline => ?_⟩
  · rw [renderAll_eq_encode, Text.decode?_encode]
  · rw [String.toList_ofList, pieces_transcript h]
  · rw [List.map_map, List.map_map]
    exact List.map_congr_left fun e he => (h e he).read?_line
  · have hread := ha.read?_line
    rw [hline, hb.read?_line] at hread
    exact (Option.some.inj hread).symm

/-- Two entries whose messages look like more tags and lines. -/
theorem log_reads_back_of_brackets :
    let a := Entry.tagged ⟨1709798702, 3600⟩ .error "T" [.text "]  [x]  ", .int (-7), .bool true]
    let b := Entry.tagged (.utc (-62167219201)) .warn "[a b" [.block "", .uint 3]
    (∀ e ∈ [a, b], e.Legible) ∧
      Text.pieces '\n' (transcript [a, b]) =
        ["[24/03/07 09:05:02] [ERROR] [T]  ]  [x]  -7 true".toList,
          "[99/12/31 23:59:59] [WARN ] [[a b]  3".toList, []] ∧
      [a.line, b.line].map Shown.read? = [some a.shown, some b.shown] := by
  intro a b
  have ha : a.Legible :=
    ⟨rfl, rfl, by decide, by decide, by decide, by simp [a, Entry.tagged, Arg.OneLine]⟩
  have hb : b.Legible :=
    ⟨rfl, rfl, by decide, by decide, by decide, by simp [b, Entry.tagged, Arg.OneLine]⟩
  have h : ∀ e ∈ [a, b], e.Legible := by simp [ha, hb]
  exact ⟨h, by decide +kernel, (log_reads_back h).2.1⟩

end Entry

end LogPipeline
