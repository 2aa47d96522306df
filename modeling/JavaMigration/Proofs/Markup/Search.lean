import JavaMigration.Proofs.Markup.Normal

/-!
# Searches in document order

A search goes through the elements below an element in document order, and stops where its path
leads to something.
-/

namespace JavaMigration.Markup.Element

variable {step : String} {path : List String} {cs : List Element}

/-- What the path `step :: path` leads to with `e` as its first step. -/
def hit? (step : String) (path : List String) (e : Element) : Option Element :=
  if e.isNamed step then findPath? path e else none

theorem findAmong?_of_below
    (below : ∀ c ∈ cs, findBelow? step path c = c.descendants.findSome? (hit? step path)) :
    findAmong? step path cs = (descendantsAll cs).findSome? (hit? step path) := by
  induction cs with
  | nil => rfl
  | cons c cs ih =>
    have rest := ih fun d mem => below d (by simp [mem])
    rw [findAmong?, below c (by simp), rest, descendantsAll, List.findSome?_cons,
      List.findSome?_append, ← hit?]
    simp only [Option.orElse_eq_orElse, Option.orElse_eq_or]
    cases hit? step path c <;> rfl

theorem findBelow?_eq (e : Element) :
    findBelow? step path e = e.descendants.findSome? (hit? step path) := by
  induction e using inductionOnChildren with
  | step e ih =>
    cases e
    exact findAmong?_of_below ih

theorem findAmong?_eq (cs : List Element) :
    findAmong? step path cs = (descendantsAll cs).findSome? (hit? step path) :=
  findAmong?_of_below fun c _ => findBelow?_eq c

theorem findAmong?_append (cs cs' : List Element) :
    findAmong? step path (cs ++ cs') =
      (findAmong? step path cs <|> findAmong? step path cs') := by
  simp only [findAmong?_eq, descendantsAll_eq, List.flatMap_append, List.findSome?_append,
    Option.orElse_eq_orElse, Option.orElse_eq_or]

theorem findAmong?_eq_none :
    findAmong? step path cs = none ↔ ∀ c ∈ cs, c.All fun e => hit? step path e = none := by
  rw [findAmong?_eq, List.findSome?_eq_none_iff, descendantsAll_eq, List.forall_mem_flatMap]
  rfl

theorem isNamed_normal (name : String) (e : Element) : e.normal.isNamed name = e.isNamed name := by
  simp only [isNamed, localName, name_normal]
  rfl

theorem findPath?_normal (path : List String) (e : Element) :
    findPath? path e.normal = (findPath? path e).map normal := by
  induction path generalizing e with
  | nil => rfl
  | cons step path ih =>
    have named : e.normal.childrenNamed step = (e.childrenNamed step).map normal := by
      have same : isNamed step ∘ normal = isNamed step := funext (isNamed_normal step)
      rw [childrenNamed, children_normal, List.filter_map, same, childrenNamed]
    rw [findPath?, named, List.findSome?_map, findPath?, List.map_findSome?]
    congr 1
    exact funext ih

theorem hit?_normal (e : Element) : hit? step path e.normal = (hit? step path e).map normal := by
  rw [hit?, isNamed_normal, hit?, findPath?_normal]
  split <;> rfl

/-- A search in a normal form finds the normal form of what is found. -/
theorem findDescendant?_normal (path : List String) (e : Element) :
    e.normal.findDescendant? path = (e.findDescendant? path).map normal := by
  cases path with
  | nil => rfl
  | cons step path =>
    rw [findDescendant?, findBelow?_eq, descendants_normal, List.findSome?_map, findDescendant?,
      findBelow?_eq, List.map_findSome?]
    congr 1
    exact funext hit?_normal

end JavaMigration.Markup.Element
