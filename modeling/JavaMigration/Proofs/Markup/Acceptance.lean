import JavaMigration.Proofs.Markup.Reading
import JavaMigration.Proofs.Markup.RoundTrip
import JavaMigration.Proofs.Markup.Rule

/-!
# Accepted documents

A document that was read can be written, where its names are proper and no header value holds a
quotation mark. All else that writing asks for is ensured by reading.
-/

namespace JavaMigration.Markup

open Text

def soundRule : Rule where
  header h := ∀ v ∈ h.values, ¬['?', '>'] <:+: v.toList
  tag _ attributes := (attributes.map Prod.fst).Nodup
  comment := IsCommentText

theorem Event.IsSound.follows {e : Event} (h : e.IsSound) : e.Follows soundRule := by
  cases e <;> exact h

namespace Document

/-- What is asked of a document that was read, for it to be written. -/
structure IsProper (d : Document) : Prop where
  names : d.root.All fun e => IsName e.name ∧ ∀ a ∈ e.attributes, IsName a.1
  header : ∀ h ∈ d.declaration, ∀ v ∈ h.values, '"' ∉ v.toList

theorem isProper_iff (d : Document) : d.IsProper ↔
    (d.root.All fun e => IsName e.name ∧ ∀ a ∈ e.attributes, IsName a.1) ∧
      ∀ h ∈ d.declaration.toList, ∀ v ∈ h.values, '"' ∉ v.toList :=
  ⟨fun ⟨names, header⟩ => ⟨names, by simpa using header⟩,
    fun ⟨names, header⟩ => ⟨names, by simpa using header⟩⟩

instance : DecidablePred IsProper := fun d => decidable_of_iff _ (isProper_iff d).symm

theorem isReadable_of_parse {s : String} {d : Document} (read : Document.parse s = .ok d)
    (names : d.root.All fun e => IsName e.name ∧ ∀ a ∈ e.attributes, IsName a.1) :
    d.IsReadable := by
  have sound : d.Follows soundRule :=
    follows_of_parse (fun e mem => (isSound_of_mem_events e mem).follows) read
  refine ⟨?_, sound.outside, sound.header⟩
  intro e mem
  obtain ⟨name, keys⟩ := names e mem
  exact ⟨⟨name, keys, (sound.root e mem).tag⟩, (sound.root e mem).comments⟩

theorem isWritable_of_parse {s : String} {d : Document} (read : Document.parse s = .ok d)
    (proper : d.IsProper) : d.IsWritable := by
  have readable := isReadable_of_parse read proper.names
  refine ⟨readable.root, readable.comments, ?_⟩
  intro header declared v mem
  exact ⟨proper.header header declared v mem, readable.header header declared v mem⟩

end Document

end JavaMigration.Markup
