import JavaMigration.Descriptor.Upgrade
import Mathlib.Data.List.TakeWhile

/-!
# Changes by kind

The steps of an upgrade look for the first child of a kind, append one where there is none, and
change it. A sequence of such steps comes to one pass over the children, which does something
special to the first child of some kinds and the same to all others. Such a pass changes nothing
more when each child is left as it is by what is done to it.
-/

namespace JavaMigration.Descriptor

open Markup

/-- What is done to the first element of a kind, where that is special. -/
abbrev Choice (κ : Type) := κ → Option (Element → Element)

namespace Choice

variable {κ : Type}

def plain : Choice κ :=
  fun _ => none

def andThen (h : Element → Element) (special : Choice κ) : Choice κ :=
  fun k => (special k).map (h ∘ ·)

@[simp]
theorem andThen_plain (h : Element → Element) : andThen h (plain : Choice κ) = plain :=
  rfl

variable [DecidableEq κ] {k kind kind' : κ} {special : Choice κ}

def set (kind : κ) (f : Element → Element) (special : Choice κ) : Choice κ :=
  fun k => if k = kind then some f else special k

def forget (kind : κ) (special : Choice κ) : Choice κ :=
  fun k => if k = kind then none else special k

@[simp]
theorem set_self (kind : κ) (f : Element → Element) (special : Choice κ) :
    special.set kind f kind = some f := by
  simp [set]

theorem set_of_ne (other : k ≠ kind) (f : Element → Element) (special : Choice κ) :
    special.set kind f k = special k := by
  simp [set, other]

@[simp]
theorem forget_self (kind : κ) (special : Choice κ) : special.forget kind kind = none := by
  simp [forget]

theorem forget_of_ne (other : k ≠ kind) (special : Choice κ) :
    special.forget kind k = special k := by
  simp [forget, other]

@[simp]
theorem andThen_set (h f : Element → Element) (kind : κ) (special : Choice κ) :
    (special.set kind f).andThen h = (special.andThen h).set kind (h ∘ f) := by
  funext k
  by_cases same : k = kind
  · simp [andThen, same]
  · simp [andThen, set_of_ne same]

theorem andThen_forget (h : Element → Element) (kind : κ) (special : Choice κ) :
    (special.forget kind).andThen h = (special.andThen h).forget kind := by
  funext k
  by_cases same : k = kind
  · simp [andThen, same]
  · simp [andThen, forget_of_ne same]

theorem forget_set (kind : κ) (f : Element → Element) (special : Choice κ) :
    (special.set kind f).forget kind = special.forget kind := by
  funext k
  by_cases same : k = kind
  · simp [same]
  · simp [forget_of_ne same, set_of_ne same]

theorem forget_set_of_ne (other : kind ≠ kind') (f : Element → Element) (special : Choice κ) :
    (special.set kind f).forget kind' = (special.forget kind').set kind f := by
  funext k
  by_cases same : k = kind
  · subst same
    simp [forget_of_ne other]
  · by_cases same' : k = kind'
    · simp [same', set_of_ne (Ne.symm other)]
    · simp [forget_of_ne same', set_of_ne same]

theorem forget_of_none (h : special kind = none) : special.forget kind = special := by
  funext k
  by_cases same : k = kind
  · simp [same, h]
  · simp [forget_of_ne same]

theorem of_set {f f' : Element → Element} (h : special.set kind f k = some f') :
    (k = kind ∧ f' = f) ∨ special k = some f' := by
  by_cases same : k = kind
  · rw [same, set_self, Option.some.injEq] at h
    exact .inl ⟨same, h.symm⟩
  · rw [set_of_ne same] at h
    exact .inr h

theorem of_forget {f : Element → Element} (h : special.forget kind k = some f) :
    k ≠ kind ∧ special k = some f := by
  by_cases same : k = kind
  · simp [same] at h
  · exact ⟨same, by rwa [forget_of_ne same] at h⟩

end Choice

section Pass

variable {κ : Type} [DecidableEq κ] (kind : Element → κ)

/-- Changes the first element of each kind by its special function, and all others by `g`. -/
def changeFirsts (special : Choice κ) (g : Element → Element) : List Element → List Element
  | [] => []
  | c :: cs =>
    match special (kind c) with
    | some f => f c :: changeFirsts (special.forget (kind c)) g cs
    | none => g c :: changeFirsts special g cs

variable {kind} {special : Choice κ} {f g : Element → Element} {c : Element} {cs : List Element}

theorem changeFirsts_cons_of_some (h : special (kind c) = some f) :
    changeFirsts kind special g (c :: cs) =
      f c :: changeFirsts kind (special.forget (kind c)) g cs := by
  rw [changeFirsts, h]

theorem changeFirsts_cons_of_none (h : special (kind c) = none) :
    changeFirsts kind special g (c :: cs) = g c :: changeFirsts kind special g cs := by
  rw [changeFirsts, h]

@[simp]
theorem changeFirsts_plain (g : Element → Element) (cs : List Element) :
    changeFirsts kind Choice.plain g cs = cs.map g := by
  induction cs with
  | nil => rfl
  | cons c cs ih => rw [changeFirsts_cons_of_none rfl, ih, List.map_cons]

theorem map_changeFirsts (h : Element → Element) (special : Choice κ) (g : Element → Element)
    (cs : List Element) :
    (changeFirsts kind special g cs).map h =
      changeFirsts kind (special.andThen h) (h ∘ g) cs := by
  induction cs generalizing special with
  | nil => rfl
  | cons c cs ih =>
    cases found : special (kind c) with
    | none =>
      have found' : special.andThen h (kind c) = none := by simp [Choice.andThen, found]
      rw [changeFirsts_cons_of_none found, changeFirsts_cons_of_none found', List.map_cons, ih]
      rfl
    | some f =>
      have found' : special.andThen h (kind c) = some (h ∘ f) := by simp [Choice.andThen, found]
      rw [changeFirsts_cons_of_some found, changeFirsts_cons_of_some found', List.map_cons, ih,
        Choice.andThen_forget]
      rfl

structure KeepsKind (kind : Element → κ) (special : Choice κ) (g : Element → Element) : Prop where
  special : ∀ c f, special (kind c) = some f → kind (f c) = kind c
  others : ∀ c, kind (g c) = kind c

namespace KeepsKind

omit [DecidableEq κ] in
theorem plain (kept : ∀ c, kind (g c) = kind c) : KeepsKind kind Choice.plain g where
  special := by
    intro c f found
    cases found
  others := kept

theorem forget (h : KeepsKind kind special g) (a : κ) :
    KeepsKind kind (special.forget a) g where
  special := fun c f found => h.special c f (Choice.of_forget found).2
  others := h.others

theorem set (h : KeepsKind kind special g) {a : κ} (kept : ∀ c, kind c = a → kind (f c) = a) :
    KeepsKind kind (special.set a f) g where
  special := by
    intro c f' found
    by_cases same : kind c = a
    · rw [same, Choice.set_self, Option.some.injEq] at found
      rw [← found, same]
      exact kept c same
    · rw [Choice.set_of_ne same] at found
      exact h.special c f' found
  others := h.others

omit [DecidableEq κ] in
theorem andThen (h : KeepsKind kind special g) (kept : ∀ c, kind (f c) = kind c) :
    KeepsKind kind (special.andThen f) (f ∘ g) where
  special := by
    intro c f' found
    obtain ⟨f'', chosen, rfl⟩ := Option.map_eq_some_iff.1 found
    exact (kept _).trans (h.special c f'' chosen)
  others := fun c => (kept _).trans (h.others c)

end KeepsKind

theorem any_kind_changeFirsts (keeps : KeepsKind kind special g) (a : κ) (cs : List Element) :
    (changeFirsts kind special g cs).any (fun c => decide (kind c = a)) =
      cs.any fun c => decide (kind c = a) := by
  induction cs generalizing special with
  | nil => rfl
  | cons c cs ih =>
    cases found : special (kind c) with
    | none =>
      rw [changeFirsts_cons_of_none found, List.any_cons, List.any_cons, keeps.others c, ih keeps]
    | some f =>
      rw [changeFirsts_cons_of_some found, List.any_cons, List.any_cons, keeps.special c f found,
        ih (keeps.forget (kind c))]

theorem find?_kind_changeFirsts (keeps : KeepsKind kind special g) (a : κ) (cs : List Element) :
    (changeFirsts kind special g cs).find? (fun c => decide (kind c = a)) =
      (cs.find? fun c => decide (kind c = a)).map ((special a).getD g) := by
  induction cs generalizing special with
  | nil => rfl
  | cons c cs ih =>
    by_cases same : kind c = a
    · subst same
      cases found : special (kind c) with
      | none => simp [changeFirsts_cons_of_none found, keeps.others c]
      | some f => simp [changeFirsts_cons_of_some found, keeps.special c f found]
    · cases found : special (kind c) with
      | none => simp [changeFirsts_cons_of_none found, keeps.others c, same, ih keeps]
      | some f =>
        simp [changeFirsts_cons_of_some found, keeps.special c f found, same,
          ih (keeps.forget (kind c)), Choice.forget_of_ne (Ne.symm same)]

/-- What a pass leaves in front of the first element of a kind was there, and has been changed. -/
theorem mem_takeWhile_changeFirsts (keeps : KeepsKind kind special g) {a : κ} {y : Element}
    (h : y ∈ (changeFirsts kind special g cs).takeWhile fun c => !decide (kind c = a)) :
    ∃ c ∈ cs.takeWhile fun c => !decide (kind c = a),
      y = g c ∨ ∃ f, special (kind c) = some f ∧ y = f c := by
  induction cs generalizing special with
  | nil => cases h
  | cons c cs ih =>
    have inside (new : Element) (special' : Choice κ) (kept : kind new = kind c)
        (h : y ∈ (new :: changeFirsts kind special' g cs).takeWhile fun c => !decide (kind c = a)) :
        kind c ≠ a ∧ (y = new ∨
          y ∈ (changeFirsts kind special' g cs).takeWhile fun c => !decide (kind c = a)) := by
      by_cases same : kind c = a
      · simp [kept, same] at h
      · exact ⟨same, by simpa [kept, same] using h⟩
    cases found : special (kind c) with
    | none =>
      rw [changeFirsts_cons_of_none found] at h
      obtain ⟨other, rfl | mem⟩ := inside _ _ (keeps.others c) h
      · exact ⟨c, by simp [other], .inl rfl⟩
      · obtain ⟨d, mem, origin⟩ := ih keeps mem
        exact ⟨d, by simp [other, mem], origin⟩
    | some f =>
      rw [changeFirsts_cons_of_some found] at h
      obtain ⟨other, rfl | mem⟩ := inside _ _ (keeps.special c f found) h
      · exact ⟨c, by simp [other], .inr ⟨f, found, rfl⟩⟩
      · obtain ⟨d, mem, origin⟩ := ih (keeps.forget (kind c)) mem
        refine ⟨d, by simp [other, mem], ?_⟩
        exact origin.imp_right fun ⟨f', chosen, made⟩ => ⟨f', (Choice.of_forget chosen).2, made⟩

theorem modifyFirstWhere_cons_of_pos {p : Element → Bool} (h : p c = true) :
    modifyFirstWhere p f (c :: cs) = f c :: cs := by
  rw [modifyFirstWhere, if_pos h]

theorem modifyFirstWhere_cons_of_neg {p : Element → Bool} (h : ¬ p c = true) :
    modifyFirstWhere p f (c :: cs) = c :: modifyFirstWhere p f cs := by
  rw [modifyFirstWhere, if_neg h]

/-- Changing the first element of a kind once more makes what is special to it longer. -/
theorem modifyFirstWhere_changeFirsts (keeps : KeepsKind kind special g) (a : κ)
    (f : Element → Element) (cs : List Element) :
    modifyFirstWhere (fun c => decide (kind c = a)) f (changeFirsts kind special g cs) =
      changeFirsts kind (special.set a (f ∘ (special a).getD g)) g cs := by
  induction cs generalizing special with
  | nil => rfl
  | cons c cs ih =>
    by_cases same : kind c = a
    · subst same
      rw [changeFirsts_cons_of_some (Choice.set_self _ _ _), Choice.forget_set]
      cases found : special (kind c) with
      | none =>
        rw [changeFirsts_cons_of_none found,
          modifyFirstWhere_cons_of_pos (by simpa using keeps.others c), Choice.forget_of_none found]
        rfl
      | some f' =>
        rw [changeFirsts_cons_of_some found,
          modifyFirstWhere_cons_of_pos (by simpa using keeps.special c f' found)]
        rfl
    · cases found : special (kind c) with
      | none =>
        rw [changeFirsts_cons_of_none found, changeFirsts_cons_of_none
          (by rw [Choice.set_of_ne same, found]), modifyFirstWhere_cons_of_neg, ih keeps]
        simpa [keeps.others c] using same
      | some f' =>
        rw [changeFirsts_cons_of_some found, changeFirsts_cons_of_some
          (by rw [Choice.set_of_ne same, found]), modifyFirstWhere_cons_of_neg,
          ih (keeps.forget (kind c)), Choice.forget_of_ne (Ne.symm same),
          Choice.forget_set_of_ne (Ne.symm same)]
        simpa [keeps.special c f' found] using same

/--
A second pass leaves the elements as the first one has changed them, if each one is left so by what
is done to it. What is special to the second pass has to be special to the first.
-/
theorem changeFirsts_of_fixed {special' : Choice κ} {g' : Element → Element}
    (keeps : KeepsKind kind special g)
    (sub : ∀ k, special k = none → special' k = none)
    (fixed : ∀ c ∈ cs, ∀ f, special (kind c) = some f → (special' (kind c)).getD g' (f c) = f c)
    (others : ∀ c ∈ cs, g' (g c) = g c) :
    changeFirsts kind special' g' (changeFirsts kind special g cs) =
      changeFirsts kind special g cs := by
  induction cs generalizing special special' with
  | nil => rfl
  | cons c cs ih =>
    have others' : ∀ d ∈ cs, g' (g d) = g d := fun d mem => others d (by simp [mem])
    cases found : special (kind c) with
    | none =>
      have unchosen : special' (kind (g c)) = none := by rw [keeps.others c, sub _ found]
      rw [changeFirsts_cons_of_none found, changeFirsts_cons_of_none unchosen,
        others c (by simp), ih keeps sub (fun d mem => fixed d (by simp [mem])) others']
    | some f =>
      have same := fixed c (by simp) f found
      have kept := keeps.special c f found
      have sub' : ∀ k, special.forget (kind c) k = none → special'.forget (kind c) k = none := by
        intro k missing
        by_cases first : k = kind c
        · simp [first]
        · rw [Choice.forget_of_ne first] at missing ⊢
          exact sub k missing
      have fixed' : ∀ d ∈ cs, ∀ f, special.forget (kind c) (kind d) = some f →
          (special'.forget (kind c) (kind d)).getD g' (f d) = f d := by
        intro d mem f found
        obtain ⟨later, found⟩ := Choice.of_forget found
        rw [Choice.forget_of_ne later]
        exact fixed d (by simp [mem]) f found
      have rest := ih (keeps.forget (kind c)) sub' fixed' others'
      rw [changeFirsts_cons_of_some found]
      cases chosen : special' (kind c) with
      | some f' =>
        rw [changeFirsts_cons_of_some (by rw [kept, chosen]), kept, rest]
        rw [chosen, Option.getD_some] at same
        rw [same]
      | none =>
        rw [Choice.forget_of_none chosen] at rest
        rw [changeFirsts_cons_of_none (by rw [kept, chosen]), rest]
        rw [chosen, Option.getD_none] at same
        rw [same]

def complete (kind : Element → κ) (a : κ) (new : Element) (cs : List Element) : List Element :=
  if cs.any fun c => decide (kind c = a) then cs else cs ++ [new]

variable {a b : κ} {new : Element}

theorem complete_of_any (h : (cs.any fun c => decide (kind c = a)) = true) :
    complete kind a new cs = cs := by
  rw [complete, if_pos h]

theorem any_complete_self (h : kind new = a) (cs : List Element) :
    ((complete kind a new cs).any fun c => decide (kind c = a)) = true := by
  unfold complete
  split
  · assumption
  · simp [h]

theorem any_complete (new : Element) (h : (cs.any fun c => decide (kind c = b)) = true) :
    ((complete kind a new cs).any fun c => decide (kind c = b)) = true := by
  unfold complete
  split
  · exact h
  · rw [List.any_append, h, Bool.true_or]

theorem mem_complete (h : c ∈ complete kind a new cs) : c ∈ cs ∨ c = new := by
  unfold complete at h
  split at h
  · exact .inl h
  · simpa using h

theorem mem_takeWhile_complete {p : Element → Bool}
    (h : c ∈ (complete kind a new cs).takeWhile p) : c ∈ cs.takeWhile p ∨ c = new := by
  unfold complete at h
  split at h
  · exact .inl h
  · rw [List.takeWhile_append] at h
    split at h
    · rename_i whole
      rcases List.mem_append.1 h with mem | mem
      · have all : cs.takeWhile p = cs :=
          (List.takeWhile_prefix p).eq_of_length whole
        exact .inl (all.symm ▸ mem)
      · have mem := (List.takeWhile_sublist p).subset mem
        exact .inr (List.mem_singleton.1 mem)
    · exact .inl h

theorem modifyFirstWhere_complete (h : kind new = a) (f : Element → Element) (cs : List Element) :
    modifyFirstWhere (fun c => decide (kind c = a)) f (complete kind a new cs) =
      if cs.any fun c => decide (kind c = a) then
        modifyFirstWhere (fun c => decide (kind c = a)) f cs
      else cs ++ [f new] := by
  unfold complete
  split
  · rfl
  · rename_i missing
    induction cs with
    | nil => simp [modifyFirstWhere, h]
    | cons c cs ih =>
      simp only [List.any_cons, Bool.or_eq_true, not_or] at missing
      rw [List.cons_append, modifyFirstWhere_cons_of_neg missing.1, ih missing.2,
        List.cons_append]

theorem changeFirsts_concat (unchosen : special (kind new) = none) (same : g new = new)
    (cs : List Element) :
    changeFirsts kind special g (cs ++ [new]) = changeFirsts kind special g cs ++ [new] := by
  induction cs generalizing special with
  | nil => rw [List.nil_append, changeFirsts_cons_of_none unchosen, same]; rfl
  | cons c cs ih =>
    rw [List.cons_append]
    cases found : special (kind c) with
    | none =>
      rw [changeFirsts_cons_of_none found, changeFirsts_cons_of_none found, ih unchosen]
      rfl
    | some f =>
      have still : special.forget (kind c) (kind new) = none := by
        by_cases first : kind new = kind c
        · simp [first]
        · rw [Choice.forget_of_ne first, unchosen]
      rw [changeFirsts_cons_of_some found, changeFirsts_cons_of_some found, ih still]
      rfl

/-- A step after a pass is part of the pass: what it appends is there from the beginning. -/
theorem update_changeFirsts (keeps : KeepsKind kind special g) (h : kind new = a)
    (fresh : (cs.any fun c => decide (kind c = a)) = false → special a = none ∧ g new = new)
    (f : Element → Element) :
    modifyFirstWhere (fun c => decide (kind c = a)) f
        (complete kind a new (changeFirsts kind special g cs)) =
      changeFirsts kind (special.set a (f ∘ (special a).getD g)) g (complete kind a new cs) := by
  rw [← modifyFirstWhere_changeFirsts keeps]
  unfold complete
  rw [any_kind_changeFirsts keeps]
  split
  · rfl
  · rename_i missing
    obtain ⟨unchosen, same⟩ := fresh (by simpa using missing)
    rw [changeFirsts_concat (by rw [h, unchosen]) same]

end Pass

theorem localName_of_plain {e : Element} (plain : ':' ∉ e.name.toList) : e.localName = e.name := by
  have whole : e.name.toList.dropWhile (· ≠ ':') = [] := by
    rw [List.dropWhile_eq_nil_iff]
    intro c mem
    simpa using fun same : c = ':' => plain (same ▸ mem)
  rw [Element.localName, whole]

theorem localName_of_qualified {e : Element} {q name : List Char} (plain : ':' ∉ q)
    (h : e.name.toList = q ++ ':' :: name) : e.localName = String.ofList name := by
  have rest : e.name.toList.dropWhile (· ≠ ':') = ':' :: name := by
    rw [h, List.dropWhile_append_of_pos]
    · simp
    · intro c mem
      simpa using fun same : c = ':' => plain (same ▸ mem)
  rw [Element.localName, rest]

theorem localName_of_name {e e' : Element} (h : e'.name = e.name) : e'.localName = e.localName := by
  simp only [Element.localName, h]

theorem localName_newChild {name : String} (plain : ':' ∉ name.toList) (e : Element) :
    (e.newChild name).localName = name := by
  have spelled : (e.newChild name).name = e.qualify name := rfl
  unfold Element.qualify Element.qualifier? at spelled
  cases qualified : e.name.toList.dropWhile (· ≠ ':') with
  | nil =>
    rw [qualified] at spelled
    rw [localName_of_plain (by rwa [spelled]), spelled]
  | cons c rest =>
    rw [qualified] at spelled
    have absent : ':' ∉ e.name.toList.takeWhile (· ≠ ':') := by
      intro mem
      simpa using List.mem_takeWhile_imp mem
    have written : (e.newChild name).name.toList =
        e.name.toList.takeWhile (· ≠ ':') ++ ':' :: name.toList := by
      simp [spelled]
    rw [localName_of_qualified absent written, String.ofList_toList]

theorem modifyFirst_eq (name : String) (f : Element → Element) (cs : List Element) :
    Element.modifyFirst name f cs =
      modifyFirstWhere (fun c => decide (c.localName = name)) f cs := by
  induction cs with
  | nil => rfl
  | cons c cs ih => rw [Element.modifyFirst, modifyFirstWhere, ih]; rfl

/-- A step of an upgrade in its two parts: the child is there, and is changed. -/
theorem updateChild_eq {name : String} (plain : ':' ∉ name.toList) (f : Element → Element)
    (e : Element) :
    e.updateChild name f =
      { e with
        children := modifyFirstWhere (fun c => decide (c.localName = name)) f
          (complete Element.localName name (e.newChild name) e.children) } := by
  rw [modifyFirstWhere_complete (localName_newChild plain e)]
  unfold Element.updateChild Element.child?
  split
  · rename_i c found
    have present : (e.children.any fun c => decide (c.localName = name)) = true := by
      rw [List.any_eq_true]
      have named : c.isNamed name = true := List.find?_some found
      exact ⟨c, List.mem_of_find?_eq_some found, named⟩
    rw [if_pos present, Element.modifyChild, modifyFirst_eq]
  · rename_i missing
    have absent : ¬ (e.children.any fun c => decide (c.localName = name)) = true := by
      rw [List.any_eq_true]
      rintro ⟨c, mem, named⟩
      exact List.find?_eq_none.1 missing c mem named
    rw [if_neg absent, Element.push]

theorem modifyFirstWhere_of_none {p : Element → Bool} {f : Element → Element} {cs : List Element}
    (h : ∀ c ∈ cs, ¬ p c = true) : modifyFirstWhere p f cs = cs := by
  induction cs with
  | nil => rfl
  | cons c cs ih =>
    rw [modifyFirstWhere_cons_of_neg (h c (by simp)), ih fun x mem => h x (by simp [mem])]

theorem modifyChild_of_none {name : String} {f : Element → Element} {e : Element}
    (h : e.child? name = none) : e.modifyChild name f = e := by
  have absent : ∀ c ∈ e.children, ¬ decide (c.localName = name) = true := List.find?_eq_none.1 h
  rw [Element.modifyChild, modifyFirst_eq, modifyFirstWhere_of_none absent]
  cases e
  rfl

theorem name_updateChild (name : String) (f : Element → Element) (e : Element) :
    (e.updateChild name f).name = e.name := by
  unfold Element.updateChild
  split <;> rfl

theorem name_setChildText (name text : String) (e : Element) :
    (e.setChildText name text).name = e.name :=
  name_updateChild name _ e

section LookingUp

variable {p p' : Element → Bool} {f : Element → Element} {name name' : String}

theorem find?_modifyFirstWhere (apart : ∀ c, p' c = true → p c = false ∧ p (f c) = false)
    (cs : List Element) : (modifyFirstWhere p' f cs).find? p = cs.find? p := by
  induction cs with
  | nil => rfl
  | cons c cs ih =>
    by_cases here : p' c = true
    · obtain ⟨before, after⟩ := apart c here
      rw [modifyFirstWhere_cons_of_pos here, List.find?_cons, List.find?_cons, before, after]
    · rw [modifyFirstWhere_cons_of_neg here, List.find?_cons, List.find?_cons, ih]

theorem find?_modifyFirstWhere_self (kept : ∀ c, p c = true → p (f c) = true) (cs : List Element) :
    (modifyFirstWhere p f cs).find? p = (cs.find? p).map f := by
  induction cs with
  | nil => rfl
  | cons c cs ih =>
    by_cases here : p c = true
    · rw [modifyFirstWhere_cons_of_pos here, List.find?_cons, List.find?_cons, here, kept c here]
      rfl
    · rw [modifyFirstWhere_cons_of_neg here, List.find?_cons, List.find?_cons, ih]
      simp only [here]

theorem child?_updateChild (other : name' ≠ name) (plain : ':' ∉ name'.toList)
    (kept : ∀ c : Element, (f c).localName = c.localName) (e : Element) :
    (e.updateChild name' f).child? name = e.child? name := by
  have apart : ∀ c : Element, decide (c.localName = name') = true →
      c.isNamed name = false ∧ (f c).isNamed name = false := by
    intro c named
    simp only [decide_eq_true_eq] at named
    simp only [Element.isNamed, kept, named, other, decide_false, and_self]
  rw [updateChild_eq plain, Element.child?, find?_modifyFirstWhere apart, complete]
  split
  · rfl
  · have new : (e.newChild name').isNamed name = false := by
      simp only [Element.isNamed, localName_newChild plain, other, decide_false]
    simp [List.find?_append, new, Element.child?]

theorem childText?_updateChild (other : name' ≠ name) (plain : ':' ∉ name'.toList)
    (kept : ∀ c : Element, (f c).localName = c.localName) (e : Element) :
    (e.updateChild name' f).childText? name = e.childText? name := by
  rw [Element.childText?, child?_updateChild other plain kept, Element.childText?]

theorem childText?_setChildText (other : name' ≠ name) (plain : ':' ∉ name'.toList)
    (text : String) (e : Element) :
    (e.setChildText name' text).childText? name = e.childText? name := by
  have kept : ∀ c : Element, (Element.withText text c).localName = c.localName := fun _ => rfl
  rw [Element.setChildText, childText?_updateChild other plain kept]

theorem childText?_setChildText_self (plain : ':' ∉ name.toList) (text : String) (e : Element) :
    (e.setChildText name text).childText? name = some (Text.trim text) := by
  have there : ((complete Element.localName name (e.newChild name) e.children).find?
      fun c => decide (c.localName = name)).isSome = true := by
    rw [List.find?_isSome]
    exact List.any_eq_true.1 (any_complete_self (localName_newChild plain e) e.children)
  obtain ⟨c, found⟩ := Option.isSome_iff_exists.1 there
  have kept : ∀ c : Element, decide (c.localName = name) = true →
      decide ((Element.withText text c).localName = name) = true := fun _ named => named
  have whole : (e.setChildText name text).child? name = some (Element.withText text c) := by
    rw [Element.setChildText, updateChild_eq plain]
    have found' := find?_modifyFirstWhere_self kept
      (complete Element.localName name (e.newChild name) e.children)
    rw [found] at found'
    exact found'
  rw [Element.childText?, whole]
  rfl

end LookingUp

end JavaMigration.Descriptor
