import LogPipeline.Config.Format

/-!
# Configurations rebuilt from their fields

A configuration takes the value that another one shows in a field, and is then
like it in that field (`set_get`). A list of another one's fields, no matter which
and how often, therefore makes a configuration agree with it on these fields and
leaves the others as they were (`setAll_get`): all fields together rebuild it
(`ofFields_toFields`), and without the absent ones the switch file alone can come
out different, since an absent one is not what a missing one stands for
(`ofFields_present`). Some of the fields override the defaults, in whatever order
(`get_overriding`, `overriding_perm`).
-/

namespace LogPipeline

namespace Plain

@[simp] theorem word?_natural (n : UInt64) : word? (.natural n.toNat) = some n := by
  rw [word?, if_pos n.toNat_lt, UInt64.ofNat_toNat]

end Plain

/-- The names of a field: the interval has two. -/
theorem Field.ofKey?_eq_some_iff {s : String} {f : Field} :
    ofKey? s = some f ↔ s = f.key ∨ f = .dumpInterval ∧ s = intervalAlias := by
  constructor
  · intro h
    unfold ofKey? at h
    split at h
    · next halias => exact .inr ⟨(Option.some.inj h).symm, halias⟩
    · have hfound : (f.key == s) = true := List.find?_some (p := fun g : Field => g.key == s) h
      exact .inl (beq_iff_eq.1 hfound).symm
  · rintro (rfl | ⟨rfl, rfl⟩)
    · exact ofKey?_key f
    · rfl

namespace Config

/-- A configuration with the value of one field taken from another. -/
def adopt (b c : Config) : Field → Config
  | .level => { b with level := c.level }
  | .showCaller => { b with showCaller := c.showCaller }
  | .isDump => { b with isDump := c.isDump }
  | .dumpPath => { b with dumpPath := c.dumpPath }
  | .dumpSize => { b with dumpSize := c.dumpSize }
  | .dumpThreshold => { b with dumpThreshold := c.dumpThreshold }
  | .dumpInterval => { b with dumpInterval := c.dumpInterval }
  | .emitMode => { b with emitMode := c.emitMode }
  | .switchFile => { b with switchFile := c.switchFile }
  | .fallback => { b with fallback := c.fallback }
  | .retention => { b with retention := c.retention }

theorem set_get (b c : Config) (f : Field) : b.set f (c.get f) = some (b.adopt c f) := by
  cases f with
  | level => simp [set, get, adopt, Plain.name?]
  | emitMode => simp [set, get, adopt, Plain.name?]
  | showCaller => rfl
  | isDump => rfl
  | dumpPath => rfl
  | fallback => rfl
  | dumpSize => simp [set, get, adopt]
  | dumpThreshold => simp [set, get, adopt]
  | dumpInterval => simp [set, get, adopt]
  | switchFile => cases h : c.switchFile <;> simp [set, get, adopt, h, Plain.optional?, Plain.path?]
  | retention => cases h : c.retention <;> simp [set, get, adopt, h, Plain.optional?]

theorem setAll_get (b c : Config) (fs : List Field) :
    b.setAll (fs.map fun f => (f, c.get f)) = some (fs.foldl (fun b f => b.adopt c f) b) := by
  induction fs generalizing b with
  | nil => rfl
  | cons f fs ih => rw [List.map_cons, setAll, set_get, Option.bind_some, ih, List.foldl_cons]

theorem ofFields_get (c : Config) {fs : List Field} (h : fs.Nodup) :
    ofFields (fs.map fun f => (f, c.get f)) = some (fs.foldl (fun b f => b.adopt c f) default) := by
  rw [ofFields, if_pos, setAll_get]
  simpa [List.map_map, Function.comp_def] using h

theorem nodup_all : Field.all.Nodup := by decide

theorem foldl_adopt_all (b c : Config) : Field.all.foldl (fun b f => b.adopt c f) b = c := by
  simp only [Field.all, List.foldl_cons, List.foldl_nil, adopt]

/-- All fields of a configuration give it back. -/
theorem ofFields_toFields (c : Config) : ofFields c.toFields = some c := by
  rw [toFields, ofFields_get c nodup_all, foldl_adopt_all]

/-- The fields of a configuration that are not absent. -/
def present (c : Config) : List Field := Field.all.filter fun f => c.get f ≠ .absent

theorem foldl_adopt_present (b c : Config) :
    c.present.foldl (fun b f => b.adopt c f) b =
      { c with switchFile := c.switchFile.or b.switchFile
               retention := c.retention.or b.retention } := by
  obtain ⟨_, _, _, _, _, _, _, _, switchFile, _, retention⟩ := c
  cases switchFile <;> cases retention <;>
    simp [present, Field.all, get, adopt]

/-- A configuration with the default switch file where it has none. -/
def withSwitchFile (c : Config) : Config :=
  { c with switchFile := c.switchFile.or default.switchFile }

/-- Without its absent fields a configuration comes back, but for the switch
file. -/
theorem ofFields_present (c : Config) :
    ofFields (c.present.map fun f => (f, c.get f)) = some c.withSwitchFile := by
  have hnodup : c.present.Nodup := nodup_all.filter _
  rw [ofFields_get c hnodup, foldl_adopt_present, withSwitchFile]
  simp [default]

theorem withSwitchFile_eq_iff {c : Config} : c.withSwitchFile = c ↔ c.switchFile.isSome := by
  obtain ⟨_, _, _, _, _, _, _, _, switchFile, _, _⟩ := c
  cases switchFile <;> simp [withSwitchFile, default]

/-- Entries under names of the fields give the fields. -/
theorem knownFields_map {key : Field → String} (hkey : ∀ f, Field.ofKey? (key f) = some f)
    (l : List (Field × Plain)) : knownFields (l.map fun e => (key e.1, e.2)) = l := by
  induction l with
  | nil => rfl
  | cons e l ih =>
    rw [knownFields] at ih ⊢
    simp only [List.map_cons, List.filterMap_cons, hkey, Option.map_some, ih]

/-! ## Some of the fields -/

theorem get_adopt (b c : Config) (f g : Field) :
    (b.adopt c f).get g = if g = f then c.get g else b.get g := by
  cases f <;> cases g <;> rfl

/-- Configurations that show the same values are the same. -/
theorem eq_of_get {b c : Config} (h : ∀ f, b.get f = c.get f) : b = c := by
  have hfields : b.toFields = c.toFields := List.map_congr_left fun f _ => by rw [h f]
  have hsame := b.ofFields_toFields
  rw [hfields, ofFields_toFields] at hsame
  exact (Option.some.inj hsame).symm

/-- The defaults overridden by the values that a configuration has in some fields. -/
def overriding (c : Config) (fs : List Field) : Config :=
  fs.foldl (fun b f => b.adopt c f) default

theorem get_overriding (c : Config) (fs : List Field) (g : Field) :
    (c.overriding fs).get g = if g ∈ fs then c.get g else default.get g := by
  have hfrom : ∀ b : Config, (fs.foldl (fun b f => b.adopt c f) b).get g =
      if g ∈ fs then c.get g else b.get g := by
    induction fs with
    | nil => exact fun b => (if_neg List.not_mem_nil).symm
    | cons f fs ih =>
      intro b
      rw [List.foldl_cons, ih, get_adopt]
      by_cases hg : g = f
      · simp [hg]
      · simp [hg]
  exact hfrom default

/-- The order in which fields override the defaults does not matter. -/
theorem overriding_perm (c : Config) {fs fs' : List Field} (h : fs.Perm fs') :
    c.overriding fs = c.overriding fs' := by
  refine eq_of_get fun g => ?_
  rw [get_overriding, get_overriding]
  simp only [h.mem_iff]

end Config

end LogPipeline
