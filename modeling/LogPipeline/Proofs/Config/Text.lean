import LogPipeline.Proofs.Config.Fields
import LogPipeline.Proofs.Json.Reading
import LogPipeline.Proofs.Toml.Reading

/-!
# Configurations read back from text

Each value that a configuration shows in a field is written and read back as
that value in either format (`readValue_toJson`, `readValue_tomlText`). An object or a
table of such values, each under a name of its field, gives the defaults overridden by
them (`parseJson_of_parse`, `parseToml_of_parse`). The text of a configuration in JSON
therefore gives the configuration (`parseJson_toJson`). In TOML there is a text if the
numbers fit TOML's integers, and it gives the configuration, but for a switch file
where there is none (`parseToml_toToml`).
-/

namespace LogPipeline

/-! ## JSON -/

namespace Plain

/-- The value that a JSON text of a value gives. -/
def json : Plain → Json
  | text s | variant s => .string (some s)
  | natural n => .natural n
  | flag b => .bool b
  | absent | other => .null

theorem readValue_toJson (depth : Nat) (v : Plain) {rest : List Char}
    (h : Json.EndsNumber rest) :
    Json.readValue (depth + 1) (v.toJson ++ rest) = some (v.json, rest) := by
  cases v with
  | text s => exact Json.readValue_writeString depth s rest
  | variant s => exact Json.readValue_writeString depth s rest
  | natural n => exact Json.readValue_digits depth n h
  | flag b => cases b <;> rfl
  | absent => rfl
  | other => rfl

end Plain

namespace Config

theorem ofJson_json_get (c : Config) (f : Field) : Plain.ofJson (c.get f).json = c.get f := by
  cases f with
  | switchFile => rw [get]; cases c.switchFile <;> rfl
  | retention => rw [get]; cases c.retention <;> rfl
  | _ => rfl

/-- A member of a JSON object, as a configuration writes it. -/
def memberLine (key : String) (v : Plain) : List Char :=
  ' ' :: ' ' :: Json.writeString key ++ ':' :: ' ' :: v.toJson

/-- A JSON object of some fields under some names, a member a line. -/
def jsonText (key : Field → String) (es : List (Field × Plain)) : String :=
  String.ofList ('\x7b' :: '\n' ::
    [',', '\n'].intercalate (es.map fun e => memberLine (key e.1) e.2) ++ ['\n', '\x7d'])

theorem readMember_memberLine (depth : Nat) (key : String) (v : Plain) {rest : List Char}
    (h : rest.head? = some ',' ∨ rest.head? = some '\n') :
    Json.readMember (Json.readValue (depth + 1)) ('\n' :: memberLine key v ++ rest) =
      some ((some key, v.json), rest) := by
  have hends : Json.EndsNumber rest := by
    intro d hd
    rcases h with h | h
    · rw [h] at hd; cases hd; decide
    · rw [h] at hd; cases hd; decide
  refine Json.readMember_line ?_
  rw [List.cons_append, Json.readValue_blank _ rfl]
  exact v.readValue_toJson depth hends

/-- The written object, from after its opening brace on. -/
theorem readList_memberLines (key : Field → String) (es : List (Field × Plain)) (depth : Nat) :
    Json.readList (Json.readMember (Json.readValue (depth + 1))) '\x7d'
      ('\n' :: [',', '\n'].intercalate (es.map fun e => memberLine (key e.1) e.2) ++
        ['\n', '\x7d']) =
      some (es.map fun e => (some (key e.1), e.2.json), []) := by
  cases es with
  | nil => rfl
  | cons e es =>
    exact Json.readList_lines rfl (by decide)
      (fun e _ _ h => readMember_memberLine depth (key e.1) e.2 h) (c := '"') rfl (by decide) []

theorem parse_jsonText (key : Field → String) (es : List (Field × Plain)) :
    Json.parse (jsonText key es) =
      some (.object (es.map fun e => (some (key e.1), e.2.json))) := by
  rw [Json.parse, jsonText, String.toList_ofList, List.cons_append, List.length_cons,
    Json.readValue, Json.skipBlank_cons_of_not_blank rfl, List.cons_append, List.length_cons]
  simp only
  rw [← List.cons_append, readList_memberLines]
  rfl

theorem namedMembers_map (key : Field → String) (l : List (Field × Json)) :
    namedMembers (l.map fun e => (some (key e.1), e.2)) =
      some (l.map fun e => (key e.1, Plain.ofJson e.2)) := by
  induction l with
  | nil => rfl
  | cons e l ih => rw [List.map_cons, namedMembers, ih, Option.map_some, List.map_cons]

/-- The members that give some fields the values of a configuration, under some names. -/
def jsonMembers (c : Config) (key : Field → String) (fs : List Field) :
    List (Option String × Json) :=
  fs.map fun f => (some (key f), (c.get f).json)

/-- An object with values of a configuration under names of some fields, none of them
twice, gives the defaults overridden by these values. -/
theorem parseJson_of_parse (c : Config) {key : Field → String}
    (hkey : ∀ f, Field.ofKey? (key f) = some f) {fs : List Field} (hnodup : fs.Nodup)
    {text : String}
    (h : Json.parse text = some (.object (c.jsonMembers key fs))) :
    parseJson text = some (c.overriding fs) := by
  have hnamed := namedMembers_map key (fs.map fun f => (f, (c.get f).json))
  have hknown := knownFields_map hkey (fs.map fun f => (f, c.get f))
  simp only [List.map_map, Function.comp_def, ofJson_json_get] at hnamed hknown
  rw [parseJson, h, Option.bind_some, ofJson, jsonMembers, hnamed, Option.bind_some, hknown,
    ofFields_get c hnodup, overriding]

theorem parseJson_toJson (c : Config) : parseJson c.toJson = some c := by
  have hparse : Json.parse c.toJson = some (.object (c.jsonMembers Field.key Field.all)) := by
    have h := parse_jsonText Field.key c.toFields
    rwa [toFields, List.map_map] at h
  rw [parseJson_of_parse c Field.ofKey?_key nodup_all hparse, overriding, foldl_adopt_all]

end Config

/-! ## TOML -/

namespace Plain

/-- Whether TOML has a value for a value, or leaves it out. -/
def FitsToml : Plain → Prop
  | natural n => n < Nat.pow 2 63
  | _ => True

instance : (v : Plain) → Decidable v.FitsToml
  | natural n => inferInstanceAs (Decidable (n < Nat.pow 2 63))
  | text _ | flag _ | absent | variant _ | other => .isTrue trivial

/-- The text of a value in TOML. -/
def tomlText : Plain → List Char
  | text s | variant s => Toml.writeString s
  | natural n => Decimal.digits n
  | flag true => "true".toList
  | flag false => "false".toList
  | absent | other => []

/-- The value that the text of a value in TOML gives. -/
def toml : Plain → Toml
  | text s | variant s => .string s
  | natural n => .integer n
  | flag b => .boolean b
  | absent | other => .moment

theorem toToml_of_fits {v : Plain} (hfits : v.FitsToml) (habsent : v ≠ .absent)
    (hother : v ≠ .other) : v.toToml = .ok (some v.tomlText) := by
  cases v with
  | text s => rfl
  | variant s => rfl
  | natural n => exact if_pos hfits
  | flag b => cases b <;> rfl
  | absent => exact absurd rfl habsent
  | other => exact absurd rfl hother

theorem readValue_tomlText {v : Plain} (hfits : v.FitsToml) (habsent : v ≠ .absent)
    (hother : v ≠ .other) (rest : List Char) :
    Toml.readValue Toml.depthLimit (Toml.skipBlank (v.tomlText ++ '\n' :: rest)) =
      some (v.toml, '\n' :: rest) := by
  cases v with
  | text s => exact Toml.readValue_writeString _ s rest
  | variant s => exact Toml.readValue_writeString _ s rest
  | natural n => exact Toml.readValue_digits _ hfits rest
  | flag b => cases b <;> rfl
  | absent => exact absurd rfl habsent
  | other => exact absurd rfl hother

end Plain

namespace Config

/-- All numbers of a configuration fit TOML's integers. -/
def FitsToml (c : Config) : Prop := ∀ f, (c.get f).FitsToml

theorem ofToml_toml_get (c : Config) {f : Field} (h : c.get f ≠ .absent) :
    Plain.ofToml (c.get f).toml = c.get f := by
  have hword : ∀ n : UInt64, Plain.ofToml (Plain.natural n.toNat).toml = .natural n.toNat := by
    intro n
    rw [Plain.toml, Plain.ofToml, if_pos (Int.natCast_nonneg _), Int.toNat_natCast]
  cases f with
  | dumpSize => exact hword c.dumpSize
  | dumpThreshold => exact hword c.dumpThreshold
  | dumpInterval => exact hword c.dumpInterval
  | switchFile =>
    rw [get] at h ⊢
    cases hfile : c.switchFile with
    | none => rw [hfile] at h; exact absurd rfl h
    | some p => rfl
  | retention =>
    rw [get] at h ⊢
    cases hdays : c.retention with
    | none => rw [hdays] at h; exact absurd rfl h
    | some n => exact hword n
  | _ => rfl

theorem get_ne_other (c : Config) (f : Field) : c.get f ≠ .other := by
  cases f with
  | switchFile => rw [get]; cases c.switchFile <;> exact Plain.noConfusion
  | retention => rw [get]; cases c.retention <;> exact Plain.noConfusion
  | _ => exact Plain.noConfusion

/-- The lines of some fields. -/
def tomlLines (c : Config) (fs : List Field) : List Char :=
  Toml.lines Field.key (fun f => (c.get f).tomlText) fs

theorem tomlLine_get {c : Config} (h : c.FitsToml) (f : Field) :
    tomlLine (f, c.get f) = .ok (c.tomlLines ([f].filter (c.get · ≠ .absent))) := by
  by_cases habsent : c.get f = .absent
  · rw [List.filter_cons_of_neg (by simp [habsent])]
    simp only [tomlLine, habsent, Plain.toToml]
    rfl
  · rw [List.filter_cons_of_pos (by simp [habsent])]
    simp only [tomlLine, Plain.toToml_of_fits (h f) habsent (c.get_ne_other f)]
    simp [tomlLines, Toml.lines]

theorem mapM_tomlLine {c : Config} (h : c.FitsToml) (fs : List Field) :
    ∃ ls, (fs.map fun f => (f, c.get f)).mapM tomlLine = .ok ls ∧
      ls.flatten = c.tomlLines (fs.filter (c.get · ≠ .absent)) := by
  induction fs with
  | nil => exact ⟨[], rfl, rfl⟩
  | cons f fs ih =>
    obtain ⟨ls, hls, hflat⟩ := ih
    refine ⟨c.tomlLines ([f].filter (c.get · ≠ .absent)) :: ls, ?_, ?_⟩
    · rw [List.map_cons, List.mapM_cons, tomlLine_get h, hls]
      rfl
    · rw [List.flatten_cons, hflat, ← List.singleton_append (l := fs), List.filter_append,
        tomlLines, tomlLines, tomlLines, Toml.lines, Toml.lines, Toml.lines, List.flatMap_append]

theorem toToml_eq {c : Config} (h : c.FitsToml) :
    c.toToml = .ok (String.ofList (c.tomlLines c.present)) := by
  obtain ⟨ls, hls, hflat⟩ := mapM_tomlLine h Field.all
  rw [toToml, toFields, hls, present, ← hflat]

theorem isBare_of_ofKey? {s : String} {f : Field} (h : Field.ofKey? s = some f) :
    Toml.IsBare s := by
  rcases Field.ofKey?_eq_some_iff.1 h with rfl | ⟨-, rfl⟩
  · cases f <;> exact ⟨by decide, List.all_eq_true.1 (by decide)⟩
  · exact ⟨by decide, List.all_eq_true.1 (by decide)⟩

/-- Different fields have different names. -/
theorem nodup_map_key {key : Field → String} (hkey : ∀ f, Field.ofKey? (key f) = some f)
    {fs : List Field} (hnodup : fs.Nodup) : (fs.map key).Nodup := by
  refine List.Pairwise.map key (fun f g hne hfg => hne ?_) hnodup
  have hsame := hkey f
  rw [hfg, hkey] at hsame
  exact (Option.some.inj hsame).symm

theorem get_of_mem_present {c : Config} {f : Field} (h : f ∈ c.present) : c.get f ≠ .absent := by
  simpa using (List.mem_filter.1 h).2

/-- The entries that give some fields the values of a configuration, under some names. -/
def tomlEntries (c : Config) (key : Field → String) (fs : List Field) : Toml.Entries :=
  fs.map fun f => (key f, (c.get f).toml)

/-- Lines of some fields, all with values that TOML has, are read as these entries. -/
theorem parse_tomlLines (c : Config) {key : Field → String}
    (hkey : ∀ f, Field.ofKey? (key f) = some f) {fs : List Field} (hnodup : fs.Nodup)
    (hfits : ∀ f ∈ fs, (c.get f).FitsToml) (hgiven : ∀ f ∈ fs, c.get f ≠ .absent) :
    Toml.parse (String.ofList (Toml.lines key (fun f => (c.get f).tomlText) fs)) =
      some (c.tomlEntries key fs) :=
  Toml.parse_lines (fun f _ => isBare_of_ofKey? (hkey f)) (nodup_map_key hkey hnodup)
    fun f hf rest => Plain.readValue_tomlText (hfits f hf) (hgiven f hf) (c.get_ne_other f) rest

/-- A table with values of a configuration under names of some fields, none of them
twice, gives the defaults overridden by these values. -/
theorem parseToml_of_parse (c : Config) {key : Field → String}
    (hkey : ∀ f, Field.ofKey? (key f) = some f) {fs : List Field} (hnodup : fs.Nodup)
    (hgiven : ∀ f ∈ fs, c.get f ≠ .absent) {text : String}
    (h : Toml.parse text = some (c.tomlEntries key fs)) :
    parseToml text = some (c.overriding fs) := by
  have hvalues : (c.tomlEntries key fs).map (fun e => (e.1, Plain.ofToml e.2)) =
      (fs.map fun f => (f, c.get f)).map fun e => (key e.1, e.2) := by
    rw [tomlEntries, List.map_map, List.map_map]
    refine List.map_congr_left fun f hf => ?_
    simp only [Function.comp, ofToml_toml_get c (hgiven f hf)]
  rw [parseToml, h, Option.bind_some, ofToml, hvalues, knownFields_map hkey, ofFields_get c hnodup,
    overriding]

theorem parseToml_toToml {c : Config} (h : c.FitsToml) :
    ∃ text, c.toToml = .ok text ∧ parseToml text = some c.withSwitchFile := by
  have hnodup : c.present.Nodup := nodup_all.filter _
  have hgiven : ∀ f ∈ c.present, c.get f ≠ .absent := fun f => get_of_mem_present
  have hparse := parse_tomlLines c Field.ofKey?_key hnodup (fun f _ => h f) hgiven
  refine ⟨_, toToml_eq h, ?_⟩
  rw [tomlLines, parseToml_of_parse c Field.ofKey?_key hnodup hgiven hparse, overriding,
    ← ofFields_get c hnodup, ofFields_present]

end Config

end LogPipeline
