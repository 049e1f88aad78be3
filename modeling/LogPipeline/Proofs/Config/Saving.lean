import LogPipeline.Config.File
import LogPipeline.Proofs.Config.Text
import LogPipeline.Proofs.Disk.Operations

/-!
# Configurations saved and loaded again

What is written to a path that leads to no device is what is read there
(`readText_write`). A saved configuration is therefore loaded as its text in the
format of the path gives it: with its tildes expanded, in JSON as it was
(`json_round_trip`), in TOML with the default switch file where it had none
(`toml_round_trip`).
-/

namespace LogPipeline

namespace Disk

variable {d d' : Disk} {p : Path}

theorem write_of_fileTarget {place : Place} (ht : d.fileTarget p = .ok place)
    (hdev : ¬d.HasDevice p) (contents : Bytes) (now : Nanos) :
    d.write p contents now = .ok (d.put place (.file contents now)) := by
  unfold write
  rw [ht]
  obtain hnode | ⟨c, m, hnode⟩ := file_or_none ht hdev <;> simp only [hnode]

theorem write_ok_iff (hdev : ¬d.HasDevice p) (contents : Bytes) (now : Nanos) :
    (∃ d', d.write p contents now = .ok d') ↔ ∃ place, d.fileTarget p = .ok place := by
  cases ht : d.fileTarget p with
  | error e => simp [write, ht]
  | ok place => simp [write_of_fileTarget ht hdev]

theorem read_write (hdev : ¬d.HasDevice p) {contents : Bytes} {now : Nanos}
    (h : d.write p contents now = .ok d') : d'.read p = .ok contents := by
  obtain ⟨place, ht⟩ := (write_ok_iff hdev contents now).1 ⟨d', h⟩
  rw [write_of_fileTarget ht hdev] at h
  obtain rfl := Except.ok.inj h
  have hdir := (fileTarget_eq_ok_iff.1 ht).2
  have hne : place ≠ [] := fun heq => hdir (heq ▸ d.node?_nil)
  have htree : SameTree d (d.put place (.file contents now)) :=
    (alters_put hne hdir Node.noConfusion).sameTree
  rw [read, htree.fileTarget ht]
  simp only [node?_put d hne, if_pos]

theorem readText_write (hdev : ¬d.HasDevice p) {text : String} {now : Nanos}
    (h : d.write p (Text.encode text) now = .ok d') : d'.readText p = .ok text := by
  rw [readText, read_write hdev h]
  simp only [Text.decode?_encode]

end Disk
namespace Path

/-- A path that begins with a tilde, alone or before a slash. -/
def StartsAtHome (p : Path) : Prop := p.text.toList = ['~'] ∨ ['~', '/'] <+: p.text.toList

instance (p : Path) : Decidable p.StartsAtHome :=
  inferInstanceAs (Decidable (p.text.toList = ['~'] ∨ ['~', '/'] <+: p.text.toList))

theorem expandHome_of_not {p : Path} (h : ¬p.StartsAtHome) (home : Path) : p.expandHome home = p := by
  unfold expandHome
  split
  · next heq => exact absurd (.inl heq) h
  · next rest heq => exact absurd (.inr ⟨rest, heq.symm⟩) h
  · rfl

theorem not_startsAtHome {p : Path} (h : p.text.toList.head? ≠ some '~') : ¬p.StartsAtHome := by
  rintro (heq | ⟨rest, heq⟩)
  · exact h (by rw [heq]; rfl)
  · exact h (by rw [← heq]; rfl)

end Path

namespace Config

variable {c : Config} {d d' : Disk} {p : Path} {now : Nanos}

/-- The paths of a configuration. -/
def paths (c : Config) : List Path := c.dumpPath :: c.fallback :: c.switchFile.toList

theorem expandHome_of_not (h : ∀ q ∈ c.paths, ¬q.StartsAtHome) (home : Path) :
    c.expandHome home = c := by
  have hdump := Path.expandHome_of_not (h c.dumpPath (by simp [paths])) home
  have hfallback := Path.expandHome_of_not (h c.fallback (by simp [paths])) home
  have hswitch : c.switchFile.map (·.expandHome home) = c.switchFile := by
    cases hfile : c.switchFile with
    | none => rfl
    | some q =>
      exact congrArg some (Path.expandHome_of_not (h q (by simp [paths, hfile])) home)
  rw [expandHome, hdump, hfallback, hswitch]

theorem save_eq_ok_iff {text : String} (htext : textFor p c = .ok text) :
    c.save p d now = .ok d' ↔ d.write p (Text.encode text) now = .ok d' := by
  simp only [save, htext]
  cases d.write p (Text.encode text) now <;> simp

/-- A configuration with a text is saved if its path leads to the place of a
file, and is then loaded as its text gives it. -/
theorem load_of_save {text : String} (htext : textFor p c = .ok text) {c' : Config}
    (hparse : parseFor p text = .ok c') (hdev : ¬d.HasDevice p) (now : Nanos)
    (home : Path) :
    ((∃ d', c.save p d now = .ok d') ↔ ∃ place, d.fileTarget p = .ok place) ∧
      ∀ d', c.save p d now = .ok d' → load home d' p = .ok (c'.expandHome home) := by
  simp only [save_eq_ok_iff htext]
  refine ⟨Disk.write_ok_iff hdev _ now, fun d' hwrite => ?_⟩
  simp only [load, Disk.readText_write hdev hwrite, hparse]

theorem isJson_iff {p : Path} :
    p.isJson = true ↔ ∃ ext, p.extension? = some ext ∧ ext.map Char.toLower = ['j', 's', 'o', 'n'] := by
  unfold Path.isJson
  cases p.extension? with
  | none => simp
  | some ext => simp

/-- A configuration that is saved to a file with the extension `json`, in any case
of letters, is loaded from it with its tildes expanded, and as it was if no path
begins with one. It is saved whenever the path leads to the place of a file. -/
theorem json_round_trip (c : Config) {p : Path} {ext : List Char} (hext : p.extension? = some ext)
    (hjson : ext.map Char.toLower = ['j', 's', 'o', 'n']) {d : Disk} (hdev : ¬d.HasDevice p)
    (now : Nanos) (home : Path) :
    ((∃ d', c.save p d now = .ok d') ↔ ∃ place, d.fileTarget p = .ok place) ∧
      ∀ d', c.save p d now = .ok d' →
        load home d' p = .ok (c.expandHome home) ∧
        ((∀ q ∈ c.paths, ¬q.StartsAtHome) → load home d' p = .ok c) := by
  have hformat : p.isJson = true := isJson_iff.2 ⟨ext, hext, hjson⟩
  have htext : textFor p c = .ok c.toJson := by rw [textFor, if_pos hformat]
  have hparse : parseFor p c.toJson = .ok c := by simp only [parseFor, hformat, parseJson_toJson, if_true]
  obtain ⟨hsaves, hloads⟩ := load_of_save htext hparse hdev now home
  refine ⟨hsaves, fun d' hsave => ⟨hloads d' hsave, fun hpaths => ?_⟩⟩
  rw [hloads d' hsave, expandHome_of_not hpaths]

/-- A configuration whose paths hold text that JSON escapes. -/
def quoted : Config :=
  { default with
    dumpPath := ⟨"a \"b\"\\c\u0007\n\u00e9"⟩
    dumpSize := 18446744073709551615
    switchFile := none
    retention := some 5 }

theorem json_round_trip_of_quoted :
    ∃ d', quoted.save ⟨"C.Json"⟩ ⟨[], []⟩ 0 = .ok d' ∧ load ⟨"/home"⟩ d' ⟨"C.Json"⟩ = .ok quoted := by
  obtain ⟨hsaves, hloads⟩ := json_round_trip quoted (p := ⟨"C.Json"⟩) rfl (by decide)
    (Disk.not_hasDevice_empty _) 0 ⟨"/home"⟩
  obtain ⟨d', hsave⟩ := hsaves.2 ⟨["C.Json"], rfl⟩
  exact ⟨d', hsave, (hloads d' hsave).2 (by decide)⟩

theorem withSwitchFile_sameAs_iff {c : Config} :
    c.withSwitchFile.sameAs c = true ↔ c.switchFile.isSome := by
  rw [sameAs, decide_eq_true_iff]
  constructor
  · intro h
    have hswitch := congrArg Config.switchFile h
    cases hfile : c.switchFile with
    | none => simp [plainPaths, withSwitchFile, default, hfile] at hswitch
    | some q => rfl
  · exact fun h => congrArg plainPaths (withSwitchFile_eq_iff.2 h)

/-- The default switch file does not begin with a tilde. -/
theorem paths_withSwitchFile {c : Config} (h : ∀ q ∈ c.paths, ¬q.StartsAtHome) :
    ∀ q ∈ c.withSwitchFile.paths, ¬q.StartsAtHome := by
  by_cases hfile : c.switchFile.isSome
  · rwa [withSwitchFile_eq_iff.2 hfile]
  · intro q hq
    have hdefault : c.withSwitchFile.switchFile = some Default.switchFile := by
      rw [withSwitchFile, Option.not_isSome_iff_eq_none.1 hfile]
      rfl
    rw [paths, hdefault] at hq
    rcases List.mem_cons.1 hq with rfl | hq
    · exact h _ List.mem_cons_self
    · rcases List.mem_cons.1 hq with rfl | hq
      · exact h _ (List.mem_cons_of_mem _ List.mem_cons_self)
      · rw [List.mem_singleton.1 hq]
        decide

/-- A configuration that is saved to any other file is loaded from it with the
default switch file where it has none; it is loaded as it was exactly if it has
one. Its numbers must fit TOML's integers, and no path begin with a tilde. -/
theorem toml_round_trip {c : Config} (hfits : c.FitsToml)
    (htilde : ∀ q ∈ c.paths, q.text.toList.head? ≠ some '~') {p : Path}
    (hext : ∀ ext, p.extension? = some ext → ext.map Char.toLower ≠ ['j', 's', 'o', 'n'])
    {d : Disk} (hdev : ¬d.HasDevice p) (now : Nanos) (home : Path) :
    ((∃ d', c.save p d now = .ok d') ↔ ∃ place, d.fileTarget p = .ok place) ∧
      ∀ d', c.save p d now = .ok d' →
        load home d' p = .ok c.withSwitchFile ∧
        (load home d' p = .ok c ↔ c.switchFile.isSome) ∧
        (c.withSwitchFile.sameAs c = true ↔ c.switchFile.isSome) := by
  have hformat : ¬p.isJson = true := fun h =>
    have ⟨ext, heq, hjson⟩ := isJson_iff.1 h
    hext ext heq hjson
  obtain ⟨text, htoml, hread⟩ := parseToml_toToml hfits
  have htext : textFor p c = .ok text := by simp only [textFor, if_neg hformat, htoml]
  have hparse : parseFor p text = .ok c.withSwitchFile := by
    simp only [parseFor, if_neg hformat, hread]
  have hpaths := paths_withSwitchFile fun q hq => Path.not_startsAtHome (htilde q hq)
  obtain ⟨hsaves, hloads⟩ := load_of_save htext hparse hdev now home
  refine ⟨hsaves, fun d' hsave => ?_⟩
  have hload : load home d' p = .ok c.withSwitchFile := by
    rw [hloads d' hsave, expandHome_of_not hpaths]
  refine ⟨hload, ?_, withSwitchFile_sameAs_iff⟩
  rw [hload, Except.ok.injEq, withSwitchFile_eq_iff]

/-- A configuration whose paths need each style of TOML strings. -/
def styled : Config :=
  { default with
    dumpPath := ⟨"C:\\logs \"a\""⟩
    fallback := ⟨"it's\n\"\"\"\"\u0007"⟩
    switchFile := some ⟨"'''"⟩
    retention := some 9223372036854775807 }

theorem toml_round_trip_of_styled :
    ∃ d', styled.save ⟨"c.toml"⟩ ⟨[], []⟩ 0 = .ok d' ∧ load ⟨"/home"⟩ d' ⟨"c.toml"⟩ = .ok styled := by
  have hfits : styled.FitsToml := by intro f; cases f <;> decide
  have hext : ∀ ext, (⟨"c.toml"⟩ : Path).extension? = some ext →
      ext.map Char.toLower ≠ ['j', 's', 'o', 'n'] := by rintro ext ⟨⟩; decide
  obtain ⟨hsaves, hloads⟩ := toml_round_trip hfits (by decide) hext (Disk.not_hasDevice_empty _) 0
    ⟨"/home"⟩
  obtain ⟨d', hsave⟩ := hsaves.2 ⟨["c.toml"], rfl⟩
  exact ⟨d', hsave, (hloads d' hsave).2.1.2 rfl⟩

/-- A configuration without a switch file, saved as TOML, is loaded with one. -/
theorem switch_file_comes_back :
    ∃ d', ({ default with switchFile := none } : Config).save ⟨"c.toml"⟩ ⟨[], []⟩ 0 = .ok d' ∧
      load ⟨"/home"⟩ d' ⟨"c.toml"⟩ = .ok default ∧
      (default : Config).sameAs { default with switchFile := none } = false := by
  have hfits : ({ default with switchFile := none } : Config).FitsToml := by
    intro f
    cases f <;> decide
  obtain ⟨text, htoml, hread⟩ := parseToml_toToml hfits
  have htext : textFor ⟨"c.toml"⟩ { default with switchFile := none } = .ok text := by
    rw [textFor, if_neg (by decide), htoml]
  have hparse : parseFor ⟨"c.toml"⟩ text = .ok default := by
    rw [parseFor, if_neg (by decide), hread]
    rfl
  obtain ⟨hsaves, hloads⟩ :=
    load_of_save htext hparse (Disk.not_hasDevice_empty _) 0 ⟨"/home"⟩
  obtain ⟨d', hsave⟩ := hsaves.2 ⟨["c.toml"], rfl⟩
  refine ⟨d', hsave, ?_, by decide⟩
  rw [hloads d' hsave]
  rfl

end Config

end LogPipeline
