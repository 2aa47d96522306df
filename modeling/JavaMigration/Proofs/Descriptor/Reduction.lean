import JavaMigration.Proofs.Descriptor.Pass

/-!
# Reductions

What is left of the children of an element where the first ones of some names are taken away, whole
or in part. A reduction does not see a step of an upgrade if it takes away all that the step does.
-/

namespace JavaMigration.Descriptor

open Markup

/-- What is left of the first element of a local name, if anything. -/
structure Reduction where
  name : String
  rest : Element → Option Element

def isBare (e : Element) : Bool :=
  e = { name := e.name }

theorem isBare_newChild (name : String) (e : Element) : isBare (e.newChild name) = true :=
  decide_eq_true rfl

namespace Reduction

def away (name : String) : Reduction :=
  ⟨name, fun _ => none⟩

def inside (name : String) (f : Element → Element) : Reduction :=
  ⟨name, fun c => if isBare (f c) then none else some (f c)⟩

def run (r : Reduction) : List Element → List Element
  | [] => []
  | c :: cs => if c.localName = r.name then (r.rest c).toList ++ cs else c :: r.run cs

def runAll (rs : List Reduction) (cs : List Element) : List Element :=
  rs.foldl (fun cs r => r.run cs) cs

variable {r r' : Reduction} {rs : List Reduction} {c new : Element} {cs cs' : List Element}
  {f g : Element → Element}

theorem run_cons_of_named (h : c.localName = r.name) (cs : List Element) :
    r.run (c :: cs) = (r.rest c).toList ++ cs := by
  rw [run, if_pos h]

theorem run_cons_of_other (h : c.localName ≠ r.name) (cs : List Element) :
    r.run (c :: cs) = c :: r.run cs := by
  rw [run, if_neg h]

theorem run_append_of_absent (absent : ∀ c ∈ cs, c.localName ≠ r.name) (cs' : List Element) :
    r.run (cs ++ cs') = cs ++ r.run cs' := by
  induction cs with
  | nil => rfl
  | cons c cs ih =>
    rw [List.cons_append, run_cons_of_other (absent c (by simp)),
      ih fun d mem => absent d (by simp [mem]), List.cons_append]

theorem run_map_modifyFirstWhere (kept : ∀ c, (f c).localName = c.localName)
    (kept' : ∀ c, (g c).localName = c.localName)
    (absorbed : ∀ c, c.localName = r.name → r.rest (f (g c)) = r.rest (f c)) (cs : List Element) :
    r.run ((modifyFirstWhere (fun c => decide (c.localName = r.name)) g cs).map f) =
      r.run (cs.map f) := by
  induction cs with
  | nil => rfl
  | cons c cs ih =>
    by_cases named : c.localName = r.name
    · rw [modifyFirstWhere_cons_of_pos (decide_eq_true named), List.map_cons, List.map_cons,
        run_cons_of_named (by rw [kept, kept', named]), run_cons_of_named (by rw [kept, named]),
        absorbed c named]
    · rw [modifyFirstWhere_cons_of_neg (by simpa using named), List.map_cons, List.map_cons,
        run_cons_of_other (by rwa [kept]), run_cons_of_other (by rwa [kept]), ih]

theorem run_map_complete (kept : ∀ c, (f c).localName = c.localName)
    (named : new.localName = r.name) (gone : r.rest (f new) = none) (cs : List Element) :
    r.run ((complete Element.localName r.name new cs).map f) = r.run (cs.map f) := by
  unfold complete
  split
  · rfl
  · rename_i missing
    have absent : ∀ c ∈ cs.map f, c.localName ≠ r.name := by
      intro c mem
      obtain ⟨d, present, rfl⟩ := List.mem_map.1 mem
      rw [kept]
      exact fun same => missing (List.any_eq_true.2 ⟨d, present, decide_eq_true same⟩)
    have alone := run_append_of_absent absent []
    rw [List.append_nil] at alone
    rw [List.map_append, run_append_of_absent absent, alone, List.map_singleton,
      run_cons_of_named (by rw [kept, named]), gone]
    rfl

/-- The reductions do not get in each other's way. -/
structure Independent (rs : List Reduction) : Prop where
  distinct : (rs.map (·.name)).Nodup
  keepsName : ∀ r ∈ rs, ∀ c d, r.rest c = some d → d.localName = c.localName

theorem Independent.tail (independent : Independent (r :: rs)) : Independent rs :=
  ⟨(List.nodup_cons.1 independent.distinct).2,
    fun r later => independent.keepsName r (by simp [later])⟩

theorem independent_away {names : List String} (distinct : names.Nodup) :
    Independent (names.map away) where
  distinct := by
    have same : (·.name) ∘ away = id := rfl
    rwa [List.map_map, same, List.map_id]
  keepsName := by
    intro r mem c d left
    obtain ⟨name, -, rfl⟩ := List.mem_map.1 mem
    cases left

theorem keepsName_inside {name : String} (kept : ∀ c, (f c).localName = c.localName)
    (c d : Element) (left : (inside name f).rest c = some d) : d.localName = c.localName := by
  simp only [inside, Option.ite_none_left_eq_some, Option.some.injEq] at left
  rw [← left.2, kept]

theorem independent_inside {name : String} (kept : ∀ c, (f c).localName = c.localName) :
    Independent [inside name f] where
  distinct := by simp
  keepsName := by
    intro r mem
    obtain rfl := List.mem_singleton.1 mem
    exact keepsName_inside kept

theorem run_comm (other : r.name ≠ r'.name)
    (keeps : ∀ c d, r.rest c = some d → d.localName = c.localName)
    (keeps' : ∀ c d, r'.rest c = some d → d.localName = c.localName) (cs : List Element) :
    r.run (r'.run cs) = r'.run (r.run cs) := by
  -- An element that one reduction changes is passed over by the other one.
  have passed {r r' : Reduction} (other : r.name ≠ r'.name)
      (keeps : ∀ c d, r.rest c = some d → d.localName = c.localName) {c : Element}
      (named : c.localName = r.name) (cs : List Element) :
      r'.run ((r.rest c).toList ++ cs) = r.run (c :: r'.run cs) := by
    rw [run_cons_of_named named]
    refine run_append_of_absent ?_ cs
    intro d mem
    rwa [keeps c d (Option.mem_toList.1 mem), named]
  induction cs with
  | nil => rfl
  | cons c cs ih =>
    by_cases named : c.localName = r.name
    · rw [run_cons_of_other (r := r') (by rwa [named]), run_cons_of_named named cs,
        passed other keeps named]
    · by_cases named' : c.localName = r'.name
      · rw [run_cons_of_other named cs, run_cons_of_named named' cs,
          passed other.symm keeps' named']
      · rw [run_cons_of_other named', run_cons_of_other named, run_cons_of_other named,
          run_cons_of_other named', ih]

theorem find?_run {name : String} (other : r.name ≠ name)
    (keeps : ∀ c d, r.rest c = some d → d.localName = c.localName) (cs : List Element) :
    (r.run cs).find? (Element.isNamed name) = cs.find? (Element.isNamed name) := by
  induction cs with
  | nil => rfl
  | cons c cs ih =>
    by_cases named : c.localName = r.name
    · have skipped : c.isNamed name = false := by
        simpa only [Element.isNamed, named, decide_eq_false_iff_not] using other
      have left : (r.rest c).toList.find? (Element.isNamed name) = none := by
        refine List.find?_eq_none.2 fun d mem => ?_
        rw [isNamed_of_localName (keeps c d (Option.mem_toList.1 mem)), skipped]
        exact Bool.false_ne_true
      rw [run_cons_of_named named, List.find?_append, left,
        List.find?_cons_of_neg (by simp [skipped])]
      rfl
    · rw [run_cons_of_other named, List.find?_cons, List.find?_cons, ih]

/-- What one of the reductions does not see, they do not see together. -/
theorem runAll_eq_of_run_eq (independent : Independent rs) (mem : r ∈ rs)
    (unseen : r.run cs = r.run cs') : runAll rs cs = runAll rs cs' := by
  induction rs generalizing cs cs' with
  | nil => simp at mem
  | cons first rs ih =>
    rcases List.mem_cons.1 mem with rfl | later
    · exact congrArg (runAll rs) unseen
    · have other : r.name ≠ first.name := by
        intro same
        exact (List.nodup_cons.1 independent.distinct).1 (List.mem_map.2 ⟨r, later, same⟩)
      have comm := run_comm other (independent.keepsName r mem)
        (independent.keepsName first (by simp))
      exact ih independent.tail later (by rw [comm, comm, unseen])

theorem filter_runAll {p : Element → Bool} (independent : Independent rs)
    (byName : ∀ c d : Element, c.localName = d.localName → p c = p d)
    (spared : ∀ r ∈ rs, ∀ c : Element, c.localName = r.name → p c = true) (cs : List Element) :
    (runAll rs cs).filter p = runAll rs (cs.filter p) := by
  have single : ∀ r ∈ rs, ∀ cs, (r.run cs).filter p = r.run (cs.filter p) := by
    intro r mem cs
    induction cs with
    | nil => rfl
    | cons c cs ih =>
      by_cases named : c.localName = r.name
      · have left : (r.rest c).toList.filter p = (r.rest c).toList := by
          refine List.filter_eq_self.2 fun d mem' => ?_
          rw [byName d c (independent.keepsName r mem c d (Option.mem_toList.1 mem')),
            spared r mem c named]
        rw [run_cons_of_named named, List.filter_append, left,
          List.filter_cons_of_pos (spared r mem c named), run_cons_of_named named]
      · rw [run_cons_of_other named, List.filter_cons, List.filter_cons, ih]
        split
        · rw [run_cons_of_other named]
        · rfl
  induction rs generalizing cs with
  | nil => rfl
  | cons first rs ih =>
    have step := ih independent.tail (fun r mem => spared r (by simp [mem])) (first.run cs)
      fun r mem => single r (by simp [mem])
    rw [single first (by simp)] at step
    exact step

end Reduction

open Reduction

def reduce (rs : List Reduction) (e : Element) : Element :=
  { e with children := runAll rs e.children }

def mapChildren (f : Element → Element) (e : Element) : Element :=
  { e with children := e.children.map f }

variable {r : Reduction} {rs : List Reduction} {f g : Element → Element} {e : Element}

theorem runAll_nil (rs : List Reduction) : runAll rs [] = [] := by
  induction rs with
  | nil => rfl
  | cons r rs ih => exact ih

theorem reduce_newChild (rs : List Reduction) (name : String) (e : Element) :
    reduce rs (e.newChild name) = e.newChild name := by
  have childless : (e.newChild name).children = [] := rfl
  rw [reduce, childless, runAll_nil]
  rfl

/-- A step is not seen where nothing more is left of the child that it changes or adds. -/
theorem reduce_updateChild (independent : Independent rs) (mem : r ∈ rs)
    (plain : ':' ∉ r.name.toList) (kept : ∀ c, (f c).localName = c.localName)
    (kept' : ∀ c, (g c).localName = c.localName)
    (absorbed : ∀ c, c.localName = r.name → r.rest (f (g c)) = r.rest (f c))
    (gone : r.rest (f (e.newChild r.name)) = none) :
    reduce rs (mapChildren f (e.updateChild r.name g)) = reduce rs (mapChildren f e) := by
  have unseen := (run_map_modifyFirstWhere kept kept' absorbed _).trans
    (run_map_complete kept (localName_newChild plain e) gone e.children)
  rw [updateChild_eq plain]
  exact congrArg (fun cs => { e with children := cs })
    (runAll_eq_of_run_eq independent mem unseen)

/-- What is put into a child is not seen where all of it is taken away again. -/
theorem reduce_updateInside {name : String} {h : Element → Element} (independent : Independent rs)
    (mem : .inside name h ∈ rs) (plain : ':' ∉ name.toList)
    (kept : ∀ c, (f c).localName = c.localName) (kept' : ∀ c, (g c).localName = c.localName)
    (absorbed : ∀ c, c.localName = name → h (f (g c)) = h (f c))
    (bare : isBare (h (f (e.newChild name))) = true) :
    reduce rs (mapChildren f (e.updateChild name g)) = reduce rs (mapChildren f e) := by
  refine reduce_updateChild (r := .inside name h) independent mem plain kept kept' ?_ (if_pos bare)
  intro c named
  simp only [inside, absorbed c named]

theorem reduce_modifyChild (independent : Independent rs) (mem : r ∈ rs)
    (kept : ∀ c, (f c).localName = c.localName) (kept' : ∀ c, (g c).localName = c.localName)
    (absorbed : ∀ c, c.localName = r.name → r.rest (f (g c)) = r.rest (f c)) :
    reduce rs (mapChildren f (e.modifyChild r.name g)) = reduce rs (mapChildren f e) := by
  have unseen := run_map_modifyFirstWhere kept kept' absorbed e.children
  rw [Element.modifyChild, modifyFirst_eq]
  exact congrArg (fun cs => { e with children := cs })
    (runAll_eq_of_run_eq independent mem unseen)

end JavaMigration.Descriptor
