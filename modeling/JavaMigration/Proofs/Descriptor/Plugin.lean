import JavaMigration.Proofs.Descriptor.BomImport

/-!
# The installed compiler plugin

The compiler plugin of one upgrade is known by its artifact to the next one, which puts the same
plugin in its place.
-/

namespace JavaMigration.Descriptor

open Markup

variable {s : UpgradeSettings} {processors : List Coordinate} {e e' : Element}

theorem isCompilerPlugin_of_sameCoordinates (h : SameCoordinates e e') :
    isCompilerPlugin s e' = isCompilerPlugin s e := by
  simp only [isCompilerPlugin, isNamed_of_localName h.localName, h.artifactId]

theorem isCompilerPlugin_normal (artifact : IsSolid s.compilerPlugin.artifactId) (e : Element) :
    isCompilerPlugin s e.normal = isCompilerPlugin s e := by
  simp only [isCompilerPlugin, isNamed_of_localName (localName_normal e),
    childText?_normal_eq_some artifact]

theorem isCompilerPlugin_pinWithin (s : UpgradeSettings) (e : Element) :
    isCompilerPlugin s (pinWithin s e) = isCompilerPlugin s e :=
  isCompilerPlugin_of_sameCoordinates (sameCoordinates_pinWithin s e)

theorem name_configure (s : UpgradeSettings) (processors : List Coordinate) (e : Element) :
    (configure s processors e).name = e.name := by
  simp only [configure, name_updateChild, name_setChildText]

theorem name_pluginFor (s : UpgradeSettings) (processors : List Coordinate) (e : Element) :
    (pluginFor s processors e).name = (e.newChild "plugin").name := by
  simp only [pluginFor, withCoordinate, name_updateChild, name_setChildText]

theorem pluginFor_of_name (h : e'.name = e.name) :
    pluginFor s processors e' = pluginFor s processors e := by
  simp only [pluginFor, newChild_of_name h]

theorem isCompilerPlugin_pluginFor
    (artifact : Text.trim s.compilerPlugin.artifactId = s.compilerPlugin.artifactId) (e : Element) :
    isCompilerPlugin s (pluginFor s processors e) = true := by
  have named : (pluginFor s processors e).localName = "plugin" :=
    (localName_of_name (name_pluginFor s processors e)).trans (localName_newChild (by decide) e)
  have kept : ∀ c : Element, (configure s processors c).localName = c.localName := fun c =>
    localName_of_name (name_configure s processors c)
  have text : (pluginFor s processors e).childText? "artifactId" =
      some s.compilerPlugin.artifactId := by
    rw [pluginFor, childText?_updateChild (by decide) (by decide) kept, withCoordinate,
      childText?_setChildText (by decide) (by decide), childText?_setChildText_self (by decide),
      artifact]
  simp [isCompilerPlugin, Element.isNamed, named, text]

def replacePlugin (s : UpgradeSettings) (processors : List Coordinate) (plugins : Element) :
    Element :=
  plugins.replaceChildren (isCompilerPlugin s) (pluginFor s processors plugins)

theorem localName_replacePlugin (s : UpgradeSettings) (processors : List Coordinate) (e : Element) :
    (replacePlugin s processors e).localName = e.localName :=
  rfl

def otherPlugins (s : UpgradeSettings) (plugins : Element) : List Element :=
  plugins.children.filter fun c => !isCompilerPlugin s c

theorem replacePlugin_pinWithin (noList : e.isNamed "dependencies" = false) :
    replacePlugin s processors (pinWithin s e) =
      { e with
        children := (otherPlugins s e).map (pinWithin s) ++ [pluginFor s processors e] } := by
  have plugin : pluginFor s processors (pinWithin s e) = pluginFor s processors e := by
    apply pluginFor_of_name
    rw [pinWithin_eq]
  have others : (e.children.map (pinWithin s)).filter (fun c => !isCompilerPlugin s c) =
      (otherPlugins s e).map (pinWithin s) := by
    rw [otherPlugins, List.filter_map]
    simp only [Function.comp_def, isCompilerPlugin_pinWithin]
  rw [replacePlugin, plugin, pinWithin_eq, noList, Element.replaceChildren, Element.removeChildren,
    Element.push]
  exact congrArg (fun cs => { e with children := cs ++ [pluginFor s processors e] }) others

theorem replacePlugin_again (artifact : IsSolid s.compilerPlugin.artifactId)
    (noList : e.isNamed "dependencies" = false) :
    (replacePlugin s processors
        (pinWithin s (replacePlugin s processors (pinWithin s e)).normal)).normal =
      (replacePlugin s processors (pinWithin s e)).normal := by
  have name : (replacePlugin s processors (pinWithin s e)).normal.name = e.name := by
    rw [replacePlugin_pinWithin noList, Element.name_normal]
  have noList' :
      (replacePlugin s processors (pinWithin s e)).normal.isNamed "dependencies" = false := by
    rw [← noList]
    exact isNamed_of_localName (localName_of_name name) _
  have children : (replacePlugin s processors (pinWithin s e)).normal.children =
      ((otherPlugins s e).map (pinWithin s)).map Element.normal ++
        [(pluginFor s processors e).normal] := by
    rw [replacePlugin_pinWithin noList, Element.children_normal, List.map_append]
    rfl
  have others : otherPlugins s (replacePlugin s processors (pinWithin s e)).normal =
      ((otherPlugins s e).map (pinWithin s)).map Element.normal := by
    have gone : isCompilerPlugin s (pluginFor s processors e).normal = true := by
      rw [isCompilerPlugin_normal artifact, isCompilerPlugin_pluginFor artifact.trimmed]
    rw [otherPlugins, children, List.filter_append, List.map_map, List.filter_map, otherPlugins]
    simp only [Function.comp_def, isCompilerPlugin_normal artifact, isCompilerPlugin_pinWithin,
      List.filter_filter, Bool.and_self]
    simp [gone]
  rw [replacePlugin_pinWithin noList']
  apply normal_with_children
  rw [others, children, pluginFor_of_name name, List.map_append]
  refine congrArg (· ++ [(pluginFor s processors e).normal]) ?_
  simp only [List.map_map]
  apply List.map_congr_left
  intro c _
  exact IsPinned.pinWithin s c

def configureBuild (s : UpgradeSettings) (processors : List Coordinate) (build : Element) :
    Element :=
  build.updateChild "plugins" (replacePlugin s processors)

theorem isPass_configureBuild (s : UpgradeSettings) (processors : List Coordinate)
    (noList : e.isNamed "dependencies" = false) :
    IsPass e ["plugins"] (Choice.plain.set "plugins" (replacePlugin s processors ∘ pinWithin s))
      (pinWithin s) (configureBuild s processors (pinWithin s e)) :=
  ((IsPass.start e).pinWithin noList).updateChild "plugins" (by decide) (.inl rfl)
    (localName_replacePlugin s processors)

theorem configureBuild_again (artifact : IsSolid s.compilerPlugin.artifactId)
    (noList : e.isNamed "dependencies" = false) :
    (configureBuild s processors
        (pinWithin s (configureBuild s processors (pinWithin s e)).normal)).normal =
      (configureBuild s processors (pinWithin s e)).normal := by
  have pass := isPass_configureBuild s processors noList
  have noList' := (pass.isNamed_normal "dependencies").trans noList
  refine pass.normal_again (isPass_configureBuild s processors noList') (by decide) ?_
    (IsPinned.pinWithin s)
  intro d f chosen
  rcases Choice.of_set chosen with ⟨named, rfl⟩ | chosen
  · have named : d.isNamed "plugins" = true := decide_eq_true named
    exact replacePlugin_again artifact (noList_of_isNamed named (by decide))
  · cases chosen

end JavaMigration.Descriptor
