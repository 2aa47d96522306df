import JavaMigration.Proofs.Markup.Acceptance
import JavaMigration.Proofs.Markup.Stretch

/-!
# Character data

What an element stores of its character data. White space is cut off at both ends of every run of
data, not only at the ends of all that the element encloses, so what comments, sections and children
cut apart is joined without the white space around the cuts.
-/

namespace JavaMigration.Markup

open Text

/-- A part of the character data of an element, which is stored or lost. -/
inductive Chunk
  | kept (s : List Char)
  | lost (s : List Char)
deriving DecidableEq, Repr

namespace Chunk

def written : Chunk → List Char
  | kept s => s
  | lost s => s

def stored : Chunk → List Char
  | kept s => s
  | lost _ => []

end Chunk

/-- Between two words something is lost. The first one may be in `before`. -/
def LosesAfter (before : List Char) (cs : List Chunk) : Prop :=
  ∃ former s later, cs = former ++ .lost s :: later ∧ s ≠ [] ∧
    HasWord isBlank (before ++ former.flatMap Chunk.written) ∧
    HasWord isBlank (later.flatMap Chunk.written)

section LosesAfter

variable {before before' : List Char} {cs : List Chunk}

theorem not_losesAfter_nil : ¬ LosesAfter before [] := by
  rintro ⟨former, s, later, whole, -⟩
  simp at whole

theorem losesAfter_congr (same : HasWord isBlank before ↔ HasWord isBlank before') :
    LosesAfter before cs ↔ LosesAfter before' cs := by
  simp only [LosesAfter, hasWord_append, same]

theorem losesAfter_cons {chunk : Chunk} : LosesAfter before (chunk :: cs) ↔
    (∃ s, chunk = .lost s ∧ s ≠ [] ∧ HasWord isBlank before ∧
      HasWord isBlank (cs.flatMap Chunk.written)) ∨
      LosesAfter (before ++ chunk.written) cs := by
  constructor
  · rintro ⟨former, s, later, whole, nonempty, first, last⟩
    cases former with
    | nil =>
      cases whole
      exact .inl ⟨s, rfl, nonempty, by simpa [HasWord] using first, last⟩
    | cons c former =>
      cases whole
      exact .inr ⟨former, s, later, rfl, nonempty, by simpa [or_assoc] using first, last⟩
  · rintro (⟨s, rfl, nonempty, first, last⟩ | ⟨former, s, later, rfl, nonempty, first, last⟩)
    · exact ⟨[], s, cs, rfl, nonempty, by simpa [HasWord] using first, last⟩
    · exact ⟨chunk :: former, s, later, rfl, nonempty, by simpa [or_assoc] using first, last⟩

end LosesAfter

/-- What is stored agrees with what is written, up to its ends, where nothing between is lost. -/
theorem trimList_stored {cs : List Chunk}
    (white : ∀ s, .lost s ∈ cs → ∀ c ∈ s, isBlank c = true) (before : List Char) :
    (trimList isBlank (before ++ cs.flatMap Chunk.stored)).Sublist
        (trimList isBlank (before ++ cs.flatMap Chunk.written)) ∧
      (trimList isBlank (before ++ cs.flatMap Chunk.stored) =
        trimList isBlank (before ++ cs.flatMap Chunk.written) ↔ ¬ LosesAfter before cs) := by
  induction cs generalizing before with
  | nil => simp [not_losesAfter_nil]
  | cons chunk cs ih =>
    have later := ih fun s mem => white s (by simp [mem])
    cases chunk with
    | kept s =>
      simpa [losesAfter_cons, Chunk.stored, Chunk.written] using later (before ++ s)
    | lost s =>
      have blank := white s (by simp)
      obtain ⟨sub, same⟩ := later before
      obtain ⟨sub', same'⟩ := trimList_insert blank before (cs.flatMap Chunk.written)
      have word : HasWord isBlank (before ++ s) ↔ HasWord isBlank before := by
        simp [not_hasWord_iff.2 blank]
      have first : LosesAfter before (.lost s :: cs) ↔
          (s ≠ [] ∧ HasWord isBlank before ∧ HasWord isBlank (cs.flatMap Chunk.written)) ∨
            LosesAfter before cs := by
        rw [losesAfter_cons, Chunk.written, losesAfter_congr word]
        simp
      rw [first, not_or, ← same, ← same']
      simp only [List.flatMap_cons, Chunk.stored, Chunk.written, List.nil_append]
      -- Each step only takes characters out, so the two ends are equal only where both steps are.
      refine ⟨sub.trans sub', fun whole => ?_, fun ⟨second, first⟩ => first.trans second⟩
      have first := sub.antisymm (whole ▸ sub')
      exact ⟨first ▸ whole, first⟩

namespace Stretch

def ownData : Stretch → List Char
  | data raw => resolved raw
  | mark (.text s) => s.toList
  | mark (.cdata s) => s.toList
  | mark _ => []

/-- The same data, parted into what is stored and the white space that is cut off. -/
def chunks : Stretch → List Chunk
  | data raw =>
    [.lost (raw.takeWhile isSpace), .kept (resolved (trimList isSpace raw)),
      .lost ((raw.dropWhile isSpace).rtakeWhile isSpace)]
  | mark (.text s) => [.kept s.toList]
  | mark (.cdata s) => [.kept s.toList]
  | mark _ => []

theorem blank_of_lost {a : Stretch} {s : List Char} (mem : .lost s ∈ a.chunks) :
    ∀ c ∈ s, isBlank c = true := by
  intro c inside
  apply isBlank_of_isSpace
  cases a with
  | data raw =>
    simp only [chunks, List.mem_cons, Chunk.lost.injEq, reduceCtorEq, List.not_mem_nil, or_false,
      false_or] at mem
    rcases mem with rfl | rfl
    · exact List.mem_takeWhile_imp inside
    · exact List.mem_rtakeWhile_imp inside
  | mark event => cases event <;> simp [chunks] at mem

/-- White space at the ends of character data is not part of a reference. -/
theorem unescapeList_eq {raw t : List Char} (sound : unescapeList (trimList isSpace raw) = .ok t) :
    unescapeList raw =
      .ok (raw.takeWhile isSpace ++ (t ++ (raw.dropWhile isSpace).rtakeWhile isSpace)) := by
  have front : '&' ∉ raw.takeWhile isSpace :=
    amp_notMem_of_isSpace fun c => List.mem_takeWhile_imp
  have back : '&' ∉ (raw.dropWhile isSpace).rtakeWhile isSpace :=
    amp_notMem_of_isSpace fun c => List.mem_rtakeWhile_imp
  have whole := unescapeFrom_append_of_plain front (width raw)
    (unescapeFrom_append sound back (width raw)) 0
  rwa [append_trimList_append] at whole

theorem ownData_eq {a : Stretch} (sound : a.IsSound) :
    a.ownData = a.chunks.flatMap Chunk.written := by
  cases a with
  | data raw =>
    obtain ⟨t, read⟩ := sound
    simp [ownData, chunks, Chunk.written, resolved, unescapeList_eq read, read]
  | mark event => cases event <;> simp [ownData, chunks, Chunk.written]

end Stretch

namespace Nested

def ownData (content : List (Nested Stretch)) : List Char :=
  (direct content).flatMap Stretch.ownData

def chunks (content : List (Nested Stretch)) : List Chunk :=
  (direct content).flatMap Stretch.chunks

theorem ownData_eq {content : List (Nested Stretch)} (sound : ∀ a ∈ direct content, a.IsSound) :
    ownData content = (chunks content).flatMap Chunk.written := by
  rw [ownData, chunks, List.flatMap_assoc]
  exact List.flatMap_congr fun a mem => Stretch.ownData_eq (sound a mem)

theorem text_fill (c : Contents) (n : Nested Stretch) :
    ((fill Stretch.read c n).text.getD "").toList =
      (c.text.getD "").toList ++ (chunks [n]).flatMap Chunk.stored := by
  cases n with
  | element opening content closing =>
    have none : (chunks [.element opening content closing]).flatMap Chunk.stored = [] := rfl
    rw [none, List.append_nil, fill]
    split <;> rfl
  | leaf a =>
    have alone : chunks [.leaf a] = a.chunks := by simp [chunks, direct, leaf?]
    rw [alone, fill]
    cases a with
    | mark event => cases event <;> simp [Stretch.read, Stretch.chunks, Contents.event,
        Contents.child, Chunk.stored]
    | data raw =>
      by_cases white : raw.all isSpace
      · have nothing := trimList_eq_nil_iff.2 (List.all_eq_true.1 white)
        simp [Stretch.read, Stretch.chunks, white, nothing, Chunk.stored, resolved, unescapeList,
          unescapeFrom]
      · simp [Stretch.read, Stretch.chunks, white, Contents.event, Chunk.stored]

theorem text_fillAll (c : Contents) (content : List (Nested Stretch)) :
    ((fillAll Stretch.read c content).text.getD "").toList =
      (c.text.getD "").toList ++ (chunks content).flatMap Chunk.stored := by
  induction content generalizing c with
  | nil => simp [fillAll, chunks, direct]
  | cons n ns ih =>
    have parts : chunks (n :: ns) = chunks [n] ++ chunks ns := by
      rw [chunks, chunks, chunks, ← List.flatMap_append, direct, direct, direct,
        ← List.filterMap_append, List.singleton_append]
    rw [fillAll, ih, text_fill, parts, List.flatMap_append, List.append_assoc]

end Nested

/--
The element is the one with this first tag and this content. It has all of its own character data
but for white space, and has it all up to the two ends where no white space between words is lost.
-/
structure Keeps (p : Stretch × List (Nested Stretch)) (e : Element) : Prop where
  tag : Nested.IsTagOf Stretch.read p.1 e
  words : (e.text.getD "").toList.filter (!isBlank ·) = (Nested.ownData p.2).filter (!isBlank ·)
  inside : trim (e.text.getD "") = trim (String.ofList (Nested.ownData p.2)) ↔
    ¬ LosesAfter [] (Nested.chunks p.2)

theorem keeps_of_describes {p : Stretch × List (Nested Stretch)} {e : Element}
    (described : Nested.Describes Stretch.read p e)
    (sound : ∀ a ∈ Nested.direct p.2, a.IsSound) : Keeps p e := by
  have white : ∀ s, .lost s ∈ Nested.chunks p.2 → ∀ c ∈ s, isBlank c = true := by
    intro s mem
    obtain ⟨a, -, mem⟩ := List.mem_flatMap.1 mem
    exact Stretch.blank_of_lost mem
  have stored : (e.text.getD "").toList = (Nested.chunks p.2).flatMap Chunk.stored := by
    rw [described.2, Nested.text_fillAll]
    rfl
  have written := Nested.ownData_eq sound
  refine ⟨described.1, ?_, ?_⟩
  · rw [stored, written, List.filter_flatMap, List.filter_flatMap]
    refine List.flatMap_congr fun chunk mem => ?_
    cases chunk with
    | kept s => rfl
    | lost s => simpa [Chunk.stored, Chunk.written] using white s mem
  · rw [trim, trim, String.ofList_inj, String.toList_ofList, stored, written]
    exact (trimList_stored white []).2

theorem Keeps.of_text {p : Stretch × List (Nested Stretch)} {e e' : Element} (keeps : Keeps p e)
    (name : e'.name = e.name) (attributes : e'.attributes = e.attributes)
    (text : e'.text = solidText? e.text) : Keeps p e' := by
  obtain ⟨tag, words, inside⟩ := keeps
  refine ⟨?_, ?_, ?_⟩
  · rwa [Nested.IsTagOf, name, attributes]
  · rw [text, solidText?_getD, trim, String.toList_ofList, filter_trimList, words]
  · rw [text, solidText?_getD, trim_trim, inside]

namespace Document

/-- What is kept by the elements of a document is kept by those that are read back from its text. -/
theorem keeps_normal {ps : List (Stretch × List (Nested Stretch))} {d : Document}
    (keeps : List.Forall₂ Keeps ps (d.root :: d.root.descendants)) :
    List.Forall₂ Keeps ps (d.normal.root :: d.normal.root.descendants) := by
  have below : d.normal.root.descendants = d.root.descendants.map Element.normal := by
    rw [← Element.descendants_normal, Element.descendants_eq, Element.descendants_eq]
    rfl
  rw [below]
  cases keeps with
  | cons top keeps =>
    refine .cons (top.of_text (by simp [normal]) (by simp [normal]) (by simp [normal])) ?_
    rw [List.forall₂_map_right_iff]
    exact keeps.imp fun _ _ keeps => keeps.of_text (by simp) (by simp) (by simp)

/--
The elements of a document are those between the tags of its text, and have the words of their own
character data. These are joined where the white space between them stands at an end of a run of
data, and nowhere else. It is the same with the elements of the text that is written for it.
-/
theorem keeps_of_parse {x : String} {d : Document} (parsed : parse x = .ok d) :
    (∀ raw, .data raw ∈ stretches x → ∃ t, unescapeList raw = .ok t) ∧
      ∃ before node after, stretches x = before ++ (Nested.flatten node ++ after) ∧
        Nested.IsProper Stretch.read node ∧
        (∀ a ∈ before ++ after, ∀ e, a.read = some e → Nested.IsOutside e) ∧
        List.Forall₂ Keeps (node.elements Stretch.read) (d.root :: d.root.descendants) ∧
        (d.IsProper → ∃ d', parse d.render = .ok d' ∧
          List.Forall₂ Keeps (node.elements Stretch.read) (d'.root :: d'.root.descendants)) := by
  obtain ⟨draft, runs, finished, found, sound⟩ := runs_of_parse parsed
  obtain ⟨before, node, after, whole, proper, filled, outside⟩ :=
    Nested.exists_root (d := {}) rfl rfl rfl runs finished found
  have described := List.forall₂_iff_zip.1 (Nested.describes_elements proper filled)
  have keeps : List.Forall₂ Keeps (node.elements Stretch.read) (d.root :: d.root.descendants) := by
    refine List.forall₂_iff_zip.2 ⟨described.1, fun {p e} mem => ?_⟩
    refine keeps_of_describes (described.2 mem) fun a inside => sound a ?_
    rw [whole, List.mem_append, List.mem_append]
    exact .inr (.inl (Nested.mem_flatten_of_mem_direct proper (List.of_mem_zip mem).1 inside))
  refine ⟨fun raw mem => ?_, before, node, after, whole, proper, outside, keeps, fun names => ?_⟩
  · obtain ⟨t, read⟩ := sound _ mem
    exact ⟨_, Stretch.unescapeList_eq read⟩
  · exact ⟨d.normal, parse_render (isWritable_of_parse parsed names), keeps_normal keeps⟩

theorem keeps_of_parse_nested :
    let x := "<a>1 &lt;&#32;<b k=\"v\"><![CDATA[2 ]]>&amp; 3</b>4</a>"
    let b : Element := { name := "b", attributes := [("k", "v")], text := some "2 & 3" }
    let d : Document := { root := { name := "a", text := some "1 < 4", children := [b] } }
    parse x = .ok d ∧ d.IsProper ∧
      ∃ before node after, stretches x = before ++ (Nested.flatten node ++ after) ∧
        List.Forall₂ Keeps (node.elements Stretch.read) [d.root, b] ∧
        ∃ d', parse d.render = .ok d' ∧
          List.Forall₂ Keeps (node.elements Stretch.read) (d'.root :: d'.root.descendants) := by
  intro x b d
  have parsed : parse x = .ok d := by decide +kernel
  have names : d.IsProper := by decide +kernel
  obtain ⟨-, before, node, after, whole, -, -, keeps, written⟩ := keeps_of_parse parsed
  exact ⟨parsed, names, before, node, after, whole, keeps, written names⟩

/-- White space is cut off on both sides of a comment, and the words around it become one. -/
theorem words_joined_at_comment :
    let x := "<a>one <!-- c --> two</a>"
    let content : List (Nested Stretch) :=
      [.leaf (.data "one ".toList), .leaf (.mark (.comment " c ")), .leaf (.data " two".toList)]
    let d : Document := { root := { name := "a", text := some "onetwo", trailing := [" c "] } }
    parse x = .ok d ∧
      stretches x =
        Nested.flatten (.element (.mark (.start "a" [])) content (.mark (.stop "a"))) ∧
      String.ofList (Nested.ownData content) = "one  two" ∧ trim "onetwo" ≠ trim "one  two" ∧
      d.render = "<?xml version=\"1.0\" encoding=\"UTF-8\"?>\n<a>onetwo<!-- c -->\n</a>\n" := by
  intro x content d
  have parsed : parse x = .ok d := by decide +kernel
  exact ⟨parsed, by decide +kernel, by decide +kernel, by decide, by decide +kernel⟩

end Document

end JavaMigration.Markup
