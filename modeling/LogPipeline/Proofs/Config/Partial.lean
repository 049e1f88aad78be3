import LogPipeline.Proofs.Config.Saving

/-!
# Partial configurations

A file may give values to some of the fields only, in any order, and to the interval
under either of its names. Whatever the format of the file, what is loaded from it is
`Config.overriding`: the defaults with these values in place of theirs, and with the
tildes of its paths expanded (`load_given`).
-/

namespace LogPipeline

namespace Config

variable {home p : Path} {d : Disk} {text : String} {c : Config}

theorem load_of_json (hformat : p.isJson = true) (hread : d.readText p = .ok text)
    (hparse : parseJson text = some c) : load home d p = .ok (c.expandHome home) := by
  simp only [load, hread, parseFor, hformat, if_true, hparse]

theorem load_of_toml (hformat : p.isJson = false) (hread : d.readText p = .ok text)
    (hparse : parseToml text = some c) : load home d p = .ok (c.expandHome home) := by
  simp only [load, hread, parseFor, hformat, Bool.false_eq_true, if_false, hparse]

/-- A file that gives some fields the values that a configuration has there, of those
that both formats can hold, is loaded as the defaults overridden by these values, with
its tildes expanded: a JSON file and a TOML file, in any order of the fields and under
any names of theirs. There are such texts, a field a line. -/
theorem load_given (c : Config) {fs : List Field} (hnodup : fs.Nodup)
    (hheld : ∀ f ∈ fs, (c.get f).FitsToml ∧ c.get f ≠ .absent) (home : Path) :
    (∀ f, (c.overriding fs).get f = if f ∈ fs then c.get f else default.get f) ∧
      ∀ order : List Field, order.Perm fs → ∀ key : Field → String,
        (∀ f, Field.ofKey? (key f) = some f) →
        (∀ (d : Disk) p text, p.isJson = true → d.readText p = .ok text →
          Json.parse text = some (.object (c.jsonMembers key order)) →
          load home d p = .ok ((c.overriding fs).expandHome home)) ∧
        (∀ (d : Disk) p text, p.isJson = false → d.readText p = .ok text →
          Toml.parse text = some (c.tomlEntries key order) →
          load home d p = .ok ((c.overriding fs).expandHome home)) ∧
        Json.parse (jsonText key (order.map fun f => (f, c.get f))) =
          some (.object (c.jsonMembers key order)) ∧
        Toml.parse (String.ofList (Toml.lines key (fun f => (c.get f).tomlText) order)) =
          some (c.tomlEntries key order) := by
  refine ⟨c.get_overriding fs, fun order horder key hkey => ?_⟩
  have hnodup' : order.Nodup := horder.nodup_iff.2 hnodup
  have hfits : ∀ f ∈ order, (c.get f).FitsToml := fun f hf => (hheld f (horder.subset hf)).1
  have hgiven : ∀ f ∈ order, c.get f ≠ .absent := fun f hf => (hheld f (horder.subset hf)).2
  rw [← c.overriding_perm horder]
  refine ⟨fun d p text hformat hread hparse => ?_, fun d p text hformat hread hparse => ?_, ?_, ?_⟩
  · exact load_of_json hformat hread (parseJson_of_parse c hkey hnodup' hparse)
  · exact load_of_toml hformat hread (parseToml_of_parse c hkey hnodup' hgiven hparse)
  · have hparse := parse_jsonText key (order.map fun f => (f, c.get f))
    rwa [List.map_map] at hparse
  · exact parse_tomlLines c hkey hnodup' hfits hgiven

/-- Four fields in an order of their own, with the interval under its second name and
two paths that begin with a tilde. -/
theorem load_given_of_four :
    let c : Config := { default with
      level := .warn, dumpInterval := 250, dumpPath := ⟨"~/app.log"⟩, switchFile := some ⟨"~"⟩ }
    let order : List Field := [.dumpInterval, .switchFile, .level, .dumpPath]
    let key (f : Field) : String := if f = .dumpInterval then Field.intervalAlias else f.key
    let json := jsonText key (order.map fun f => (f, c.get f))
    let toml := String.ofList (Toml.lines key (fun f => (c.get f).tomlText) order)
    let d : Disk := ⟨[(["c.json"], .file (Text.encode json) 0),
      (["c.toml"], .file (Text.encode toml) 0)], []⟩
    let loaded : Config := { default with
      level := .warn, dumpInterval := 250, dumpPath := ⟨"/home/app.log"⟩
      switchFile := some ⟨"/home"⟩ }
    load ⟨"/home"⟩ d ⟨"c.json"⟩ = .ok loaded ∧ load ⟨"/home"⟩ d ⟨"c.toml"⟩ = .ok loaded := by
  intro c order key json toml d loaded
  have hheld : ∀ f ∈ order, (c.get f).FitsToml ∧ c.get f ≠ .absent := by decide
  have hkey : ∀ f, Field.ofKey? (key f) = some f := by
    intro f
    cases f <;> decide
  obtain ⟨hjson, htoml, hparseJson, hparseToml⟩ :=
    (load_given c (show order.Nodup by decide) hheld ⟨"/home"⟩).2 order (List.Perm.refl _) key hkey
  have hreadJson : d.readText ⟨"c.json"⟩ = .ok json := by
    have hread : d.read ⟨"c.json"⟩ = .ok (Text.encode json) := rfl
    rw [Disk.readText, hread]
    simp only [Text.decode?_encode]
  have hreadToml : d.readText ⟨"c.toml"⟩ = .ok toml := by
    have hread : d.read ⟨"c.toml"⟩ = .ok (Text.encode toml) := rfl
    rw [Disk.readText, hread]
    simp only [Text.decode?_encode]
  have hloaded : (c.overriding order).expandHome ⟨"/home"⟩ = loaded := by decide
  rw [hjson d _ json rfl hreadJson hparseJson, htoml d _ toml rfl hreadToml hparseToml, hloaded]
  exact ⟨rfl, rfl⟩

end Config

end LogPipeline
