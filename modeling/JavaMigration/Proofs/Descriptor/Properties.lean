import JavaMigration.Proofs.Descriptor.Pinning

/-!
# Upgraded properties

The texts of the properties depend on the settings only, the later one where a key is set twice. So
a second upgrade sets the same ones.
-/

namespace JavaMigration.Descriptor

open Markup

variable {s : UpgradeSettings} {e e' : Element}

theorem name_setJavaProperties (target : String) (keys : List String) (e : Element) :
    (setJavaProperties target keys e).1.name = e.name := by
  induction keys generalizing e with
  | nil => rfl
  | cons key keys ih =>
    rw [setJavaProperties, ih, name_setChildText]

theorem name_setFrameworkProperties (overrides : List PropertyOverride) (e : Element) :
    (setFrameworkProperties overrides e).1.name = e.name := by
  induction overrides generalizing e with
  | nil => rfl
  | cons o overrides ih =>
    simp only [setFrameworkProperties]
    split
    · exact ih e
    · rw [ih]
      rfl

theorem localName_setProperties (s : UpgradeSettings) (e : Element) :
    (setProperties s e).1.localName = e.localName := by
  apply localName_of_name
  rw [setProperties, name_setFrameworkProperties, name_setJavaProperties]

def javaTexts (target : String) (keys : List String) (texts : String → Option String) :
    String → Option String :=
  keys.foldl (fun texts key => Function.update texts key (some target)) texts

/-- `texts` after each override, be its key declared or not. -/
def frameworkTexts (overrides : List PropertyOverride) (texts : String → Option String) :
    String → Option String :=
  overrides.foldl (fun texts o => Function.update texts o.key (some o.value)) texts

def propertyTexts (s : UpgradeSettings) : String → Option String :=
  frameworkTexts s.frameworkProperties
    (javaTexts s.targetJavaVersion s.javaProperties fun _ => none)

namespace IsPass

variable {names : List String} {texts : String → Option String}

theorem setJavaProperties (target : String) {keys : List String}
    (pass : IsPass e names (writing id texts) id e')
    (covered : ∀ name, texts name = none ∨ name ∈ names)
    (plain : ∀ name ∈ names ++ keys, ':' ∉ name.toList) :
    IsPass e (names ++ keys) (writing id (javaTexts target keys texts)) id
      (setJavaProperties target keys e').1 := by
  induction keys generalizing names texts e' with
  | nil => rwa [List.append_nil]
  | cons key keys ih =>
    have fresh : texts key = none ∨ (key ∈ names ∧ ∀ name ∈ names, ':' ∉ name.toList) :=
      (covered key).imp_right fun mem => ⟨mem, fun name mem => plain name (by simp [mem])⟩
    have step := pass.setChildText key (plain key (by simp)) fresh target
    have covered' : ∀ name, Function.update texts key (some target) name = none ∨
        name ∈ names ++ [key] := by
      intro name
      by_cases same : name = key
      · exact .inr (by simp [same])
      · rw [Function.update_of_ne same]
        exact (covered name).imp_right fun mem => by simp [mem]
    have rest := ih step covered' (by simpa using plain)
    rw [List.append_assoc] at rest
    exact rest

theorem setFrameworkProperties (overrides : List PropertyOverride)
    (pass : IsPass e names (writing id texts) id e') :
    IsPass e names (writing id (frameworkTexts overrides texts)) id
      (setFrameworkProperties overrides e').1 := by
  induction overrides generalizing texts e' with
  | nil => exact pass
  | cons o overrides ih =>
    have rest := ih (pass.modifyChild_withText o.key o.value)
    cases found : e'.child? o.key with
    | some old =>
      have next : (Descriptor.setFrameworkProperties (o :: overrides) e').1 =
          (Descriptor.setFrameworkProperties overrides
            (e'.modifyChild o.key (Element.withText o.value))).1 := by
        simp only [Descriptor.setFrameworkProperties, found]
      rw [next]
      exact rest
    | none =>
      have next : (Descriptor.setFrameworkProperties (o :: overrides) e').1 =
          (Descriptor.setFrameworkProperties overrides e').1 := by
        simp only [Descriptor.setFrameworkProperties, found]
      rw [modifyChild_of_none found] at rest
      rw [next]
      exact rest

end IsPass

theorem isPass_setProperties (plain : ∀ key ∈ s.javaProperties, ':' ∉ key.toList) (e : Element) :
    IsPass e s.javaProperties (writing id (propertyTexts s)) id (setProperties s e).1 := by
  have java := (IsPass.start_writing e).setJavaProperties s.targetJavaVersion (fun _ => .inl rfl)
    plain
  exact java.setFrameworkProperties s.frameworkProperties

theorem setProperties_again (plain : ∀ key ∈ s.javaProperties, ':' ∉ key.toList)
    (noList : e.isNamed "dependencies" = false) :
    (pinWithin s (setProperties s (pinWithin s (setProperties s e).1).normal).1).normal =
      (pinWithin s (setProperties s e).1).normal := by
  have pass := (isPass_setProperties plain e).writing_pinWithin (s := s) noList
  have noList' := (pass.isNamed_normal "dependencies").trans noList
  have again := (isPass_setProperties plain (pinWithin s (setProperties s e).1).normal
    ).writing_pinWithin (s := s) noList'
  exact pass.normal_of_writing again plain (fun _ mem => mem) (fun _ => .inl rfl)
    fun c _ => .pinWithin s c

end JavaMigration.Descriptor
