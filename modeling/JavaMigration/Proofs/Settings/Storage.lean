import JavaMigration.Proofs.Toml.Field
import JavaMigration.Settings.Encoding

/-!
# Stored settings read back

Settings that are valid, with numbers that fit, can be written, and the text holds exactly them: an
empty list stays empty and an absent option absent, whatever stands in their place by default.
-/

namespace JavaMigration

open Toml

theorem Mapping.isStored (depth : Nat) (m : Mapping) : IsStored (depth + 1) m.encode decode? m :=
  ⟨rfl, isStorable_table (.refl ["from", "to"]) (by decide) (by simp [isEntry_string]), rfl⟩

theorem DeprecatedApi.isStored (depth : Nat) (d : DeprecatedApi) :
    IsStored (depth + 1) d.encode decode? d :=
  ⟨rfl, isStorable_table (.refl ["api", "prefix"]) (by decide) (by simp [isEntry_string]), rfl⟩

theorem Coordinate.isStored (depth : Nat) (c : Coordinate) :
    IsStored (depth + 1) c.encode decode? c :=
  ⟨rfl, isStorable_table (.refl ["group_id", "artifact_id", "version"]) (by decide)
    (by simp [isEntry_string]), rfl⟩

theorem PropertyOverride.isStored (depth : Nat) (p : PropertyOverride) :
    IsStored (depth + 1) p.encode decode? p :=
  ⟨rfl, isStorable_table (.refl ["key", "value"]) (by decide) (by simp [isEntry_string]), rfl⟩

theorem AnnotationProcessor.isStored (depth : Nat) (p : AnnotationProcessor) :
    IsStored (depth + 1) p.encode decode? p :=
  ⟨rfl, isStorable_table (.refl ["group_id", "artifact_id", "version_from"]) (by decide)
    (by simp [isEntry_string]), rfl⟩

theorem toUnsigned?_of_small {n : Nat} (small : n < Number.twoTo 63) :
    (Value.integer n).toUnsigned? = some n := by
  have limit : Number.twoTo 64 = 2 * Number.twoTo 63 := rfl
  have fits : n < Number.twoTo 64 := by omega
  have whole : (n : Int).toNat? = some n := rfl
  simp [Value.toUnsigned?, whole, fits]

theorem CompilerPlugin.isStored (depth : Nat) (p : CompilerPlugin) :
    IsStored (depth + 2) p.encode decode? p where
  table := rfl
  storable := by
    refine isStorable_table (.refl ["group_id", "artifact_id", "version", "fork",
      "annotation_processors", "compiler_args"]) (by decide) ?_
    simp [isEntry_string, isEntry_boolean, isEntry_strings,
      isEntry_list (AnnotationProcessor.isStored depth)]
  decoded := by
    simp [decode?, encode, Value.orElse?, field?_arranged, lookup_cons,
      Value.toString?, Value.toBool?, toListOf?_strings,
      toListOf?_list (AnnotationProcessor.isStored depth)]

theorem DetectionSettings.isStored (depth : Nat) (d : DetectionSettings) :
    IsStored (depth + 2) d.encode decode? d where
  table := rfl
  storable := by
    refine isStorable_table (.refl ["framework_marker", "platform_version_property",
      "extension_version_property", "namespaces", "deprecated_apis"]) (by decide) ?_
    simp [isEntry_string, isEntry_strings, isEntry_list (DeprecatedApi.isStored depth)]
  decoded := by
    simp [decode?, encode, Value.orElse?, field?_arranged, lookup_cons,
      Value.toString?, toListOf?_strings, toListOf?_list (DeprecatedApi.isStored depth)]

theorem RiskSettings.isStored (depth : Nat) (r : RiskSettings) :
    IsStored (depth + 1) r.encode decode? r where
  table := rfl
  storable := by
    refine isStorable_table (.refl ["ancient_java_versions", "assumed_java_version",
      "obsolete_framework_prefix"]) (by decide) ?_
    simp [isEntry_string, isEntry_strings]
  decoded := by
    simp [decode?, encode, Value.orElse?, field?_arranged, lookup_cons,
      Value.toString?, toListOf?_strings]

theorem UpgradeSettings.isStored (depth : Nat) (s : UpgradeSettings) :
    IsStored (depth + 3) s.encode decode? s where
  table := rfl
  storable := by
    refine isStorable_table (.refl ["target_java_version", "java_properties", "parent", "bom",
      "framework_properties", "dependency_upgrades", "compiler_plugin"]) (by decide) ?_
    simp [isEntry_string, isEntry_strings, isEntry_list (PropertyOverride.isStored (depth + 1)),
      isEntry_list (Coordinate.isStored (depth + 1)), (Coordinate.isStored (depth + 1) _).entry,
      (CompilerPlugin.isStored depth _).entry]
  decoded := by
    simp [decode?, encode, Value.orElse?, field?_arranged, lookup_cons,
      Value.toString?, toListOf?_strings, toListOf?_list (PropertyOverride.isStored depth),
      toListOf?_list (Coordinate.isStored depth), (Coordinate.isStored depth _).decoded,
      (CompilerPlugin.isStored depth _).decoded]

/-- The numbers that fit into a TOML integer. -/
def ScanSettings.Fits (s : ScanSettings) : Prop :=
  (∀ n ∈ s.maxFileSize, n < Number.twoTo 63) ∧ ∀ n ∈ s.threads, n < Number.twoTo 63

def ofNat (n : Nat) : Value :=
  .integer n

def ScanSettings.fields (s : ScanSettings) : List (String × Option Value) :=
  [("max_file_size", s.maxFileSize.map ofNat), ("threads", s.threads.map ofNat),
    ("extra_ignore", some (.strings s.extraIgnore)),
    ("follow_symlinks", s.followSymlinks.map .boolean),
    ("respect_gitignore", s.respectGitignore.map .boolean)]

theorem ScanSettings.encode_eq (s : ScanSettings) : s.encode = .table (present s.fields) := by
  obtain ⟨maxFileSize, threads, extraIgnore, followSymlinks, respectGitignore⟩ := s
  cases maxFileSize <;> cases threads <;> rfl

theorem ScanSettings.isStored (depth : Nat) {s : ScanSettings} (fits : s.Fits) :
    IsStored (depth + 1) s.encode decode? s where
  table := rfl
  storable := by
    have keys : AreKeys ["max_file_size", "threads", "extra_ignore", "follow_symlinks",
      "respect_gitignore"] := by decide
    rw [encode_eq]
    refine isStorable_table (present_keys s.fields) keys (forall_present ?_)
    simp only [fields, List.forall_mem_cons]
    exact ⟨isEntry_optional fun n some => isEntry_natural (fits.1 n some),
      isEntry_optional fun n some => isEntry_natural (fits.2 n some), by simp [isEntry_strings],
      isEntry_optional fun b _ => isEntry_boolean b, isEntry_optional fun b _ => isEntry_boolean b,
      nofun⟩
  decoded := by
    have distinct : (s.fields.map Prod.fst).Nodup := by simp [fields]
    let v := arranged (.table (present s.fields))
    have size : v.orElse? 0 "max_file_size" none (fun v => v.toUnsigned?.map some) =
        some s.maxFileSize :=
      orElse?_present distinct 0 rfl fun n some => toUnsigned?_of_small (fits.1 n some)
    have threads : v.orElse? 1 "threads" none (fun v => v.toUnsigned?.map some) =
        some s.threads :=
      orElse?_present distinct 1 rfl fun n some => toUnsigned?_of_small (fits.2 n some)
    have ignored : v.orElse? 2 "extra_ignore" [] (Value.toListOf? Value.toString?) =
        some s.extraIgnore := by
      rw [Value.orElse?, field?_arranged (distinct.sublist (present_keys _)),
        lookup_present distinct]
      exact toListOf?_strings s.extraIgnore
    have links : v.orElse? 3 "follow_symlinks" none (fun v => v.toBool?.map some) =
        some s.followSymlinks :=
      orElse?_present distinct 3 rfl fun _ _ => rfl
    have honours : v.orElse? 4 "respect_gitignore" none (fun v => v.toBool?.map some) =
        some s.respectGitignore :=
      orElse?_present distinct 4 rfl fun _ _ => rfl
    rw [encode_eq, decode?, size, threads, ignored, links, honours]
    rfl

theorem Mapping.isStored_section (depth : Nat) (mappings : List Mapping) :
    IsStored (depth + 2) (.table [("mappings", .array (mappings.map encode))]) decodeSection?
      mappings where
  table := rfl
  storable := by
    refine isStorable_table (.refl ["mappings"]) (by decide) ?_
    simp [isEntry_list (Mapping.isStored depth)]
  decoded := by
    simp [decodeSection?, Value.orElse?, field?_arranged, toListOf?_list (Mapping.isStored depth)]

namespace Settings

theorem isStored (depth : Nat) {s : Settings} (fits : s.scan.Fits) :
    IsStored (depth + 4) s.encode decode? s where
  table := rfl
  storable := by
    refine isStorable_table (.refl ["scan", "imports", "detection", "risk", "descriptor"])
      (by decide) ?_
    simp [(ScanSettings.isStored (depth + 2) fits).entry,
      (Mapping.isStored_section (depth + 1) s.mappings).entry,
      (DetectionSettings.isStored (depth + 1) s.detection).entry,
      (RiskSettings.isStored (depth + 2) s.risk).entry,
      (UpgradeSettings.isStored depth s.upgrade).entry]
  decoded := by
    simp [decode?, encode, Value.orElse?, field?_arranged, lookup_cons,
      (ScanSettings.isStored depth fits).decoded,
      (Mapping.isStored_section depth s.mappings).decoded,
      (DetectionSettings.isStored depth s.detection).decoded,
      (RiskSettings.isStored depth s.risk).decoded,
      (UpgradeSettings.isStored depth s.upgrade).decoded]

theorem toToml_of_fits {s : Settings} (fits : s.scan.Fits) :
    s.toToml = .ok (render s.encode) := by
  have size : s.scan.maxFileSize.all (· < Number.twoTo 63) = true := by
    simpa [Option.all_eq_true] using fits.1
  have threads : s.scan.threads.all (· < Number.twoTo 63) = true := by
    simpa [Option.all_eq_true] using fits.2
  simp [toToml, size, threads]

/-- Valid settings with numbers of 63 bits can be written, and their text holds exactly them. -/
theorem toml_round_trip (s : Settings) (valid : s.fault? = none)
    (size : ∀ n ∈ s.scan.maxFileSize, n < Number.twoTo 63)
    (threads : ∀ n ∈ s.scan.threads, n < Number.twoTo 63) :
    ∃ text, s.toToml = .ok text ∧ ofToml text = .ok s := by
  have stored : IsStored (nestingLimit + 1) s.encode decode? s := isStored 76 ⟨size, threads⟩
  have read : read? (render s.encode) = some (arranged s.encode) :=
    read?_render stored.storable stored.table
  refine ⟨render s.encode, toToml_of_fits ⟨size, threads⟩, ?_⟩
  rw [ofToml, read, Option.bind_some, stored.decoded]
  simp only [valid]

/-- Tables that are left empty, an option without a value, and a pattern that has to be escaped. -/
theorem toml_round_trip_empty :
    let s : Settings :=
      { scan := { threads := some 4, extraIgnore := ["", "'''\n\"\"\"\\", "[a]\t#"] },
        mappings := [],
        detection := { DetectionSettings.builtIn with namespaces := [], deprecatedApis := [] },
        upgrade := { UpgradeSettings.builtIn with
          dependencyUpgrades := [],
          compilerPlugin := { CompilerPlugin.builtIn with annotationProcessors := [] } } }
    s.fault? = none ∧ (∀ n ∈ s.scan.maxFileSize, n < Number.twoTo 63) ∧
      (∀ n ∈ s.scan.threads, n < Number.twoTo 63) ∧
        ∃ text, s.toToml = .ok text ∧ ofToml text = .ok s := by
  intro s
  have valid : s.fault? = none := by decide +kernel
  have size : ∀ n ∈ s.scan.maxFileSize, n < Number.twoTo 63 := nofun
  have threads : ∀ n ∈ s.scan.threads, n < Number.twoTo 63 := by
    rintro n ⟨⟩
    decide
  exact ⟨valid, size, threads, toml_round_trip s valid size threads⟩

end Settings

end JavaMigration
