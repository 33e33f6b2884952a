import Conch.Files.Path

/-!
# Paths without dots

A normal path is absolute, and every component of it names something in the directory
before it.  `Path.normalize` gives a normal path (`isNormal_normalize`) and leaves one as it
is (`normalize_of_isNormal`).  To go to a path and from there to another is to go to both in
one (`normalize_normalize_append`), so dots may be followed early or late.
-/

namespace Conch.Path

/-- A component that is not empty and has no slash in it. -/
structure IsComponent (component : String) : Prop where
  nonempty : component ≠ ""
  whole : '/' ∉ component.toList

/-- A component that is not made of dots that stand for a directory. -/
structure IsName (name : String) : Prop extends IsComponent name where
  notSelf : name ≠ "."
  notParent : name ≠ ".."

instance : DecidablePred IsName := fun name =>
  decidable_of_iff ((name ≠ "" ∧ '/' ∉ name.toList) ∧ name ≠ "." ∧ name ≠ "..")
    ⟨fun ⟨⟨hnonempty, hwhole⟩, hself, hparent⟩ => ⟨⟨hnonempty, hwhole⟩, hself, hparent⟩,
      fun h => ⟨⟨h.nonempty, h.whole⟩, h.notSelf, h.notParent⟩⟩

/-- An absolute path whose components are all names. -/
def IsNormal (path : String) : Prop :=
  ∃ names, (∀ name ∈ names, IsName name) ∧ path = "/" ++ "/".intercalate names

theorem IsNormal.isAbsolute {path : String} (h : IsNormal path) : isAbsolute path = true := by
  obtain ⟨names, _, rfl⟩ := h
  simp [Path.isAbsolute]

/-! ## Components -/

theorem components_append (first rest : String) :
    components (first ++ "/" ++ rest) = components first ++ components rest := by
  have htext : (first ++ "/" ++ rest).toList = first.toList ++ '/' :: rest.toList := by simp
  rw [components, htext, List.splitOn_append_cons_self, List.filter_append, List.map_append]
  rfl

theorem IsComponent.components_eq {component : String} (h : IsComponent component) :
    components component = [component] := by
  have hsome : component.toList ≠ [] := by simpa using h.nonempty
  simp [components, List.splitOn_eq_singleton h.whole, hsome]

theorem components_intercalate {parts : List String} (h : ∀ part ∈ parts, IsComponent part) :
    components ("/".intercalate parts) = parts := by
  induction parts with
  | nil => rfl
  | cons first rest ih =>
      have hfirst := (h first (by simp)).components_eq
      have hrest := ih fun part hpart => h part (by simp [hpart])
      cases rest with
      | nil => rw [String.intercalate_singleton, hfirst]
      | cons second rest =>
          rw [String.intercalate_cons_cons, components_append, hfirst, hrest]
          rfl

theorem components_absolute {parts : List String} (h : ∀ part ∈ parts, IsComponent part) :
    components ("/" ++ "/".intercalate parts) = parts := by
  have hroot := components_append "" ("/".intercalate parts)
  rwa [components_intercalate h, String.empty_append] at hroot

/-- No part between separators has a separator in it. -/
theorem notMem_of_mem_splitOn {text part : List Char} (h : part ∈ text.splitOn '/') :
    '/' ∉ part := by
  induction text generalizing part with
  | nil =>
      obtain rfl := List.mem_singleton.mp h
      exact List.not_mem_nil
  | cons c text ih =>
      rw [List.splitOn_cons_eq_if_modifyHead] at h
      split at h
      · rcases List.mem_cons.mp h with rfl | h
        · exact List.not_mem_nil
        · exact ih h
      · rename_i hc
        cases hparts : text.splitOn '/' with
        | nil => exact (List.splitOn_ne_nil _ _ hparts).elim
        | cons first rest =>
            rw [hparts] at h ih
            rcases List.mem_cons.mp h with rfl | h
            · have hfirst : '/' ∉ first := ih (by simp)
              have hc : '/' ≠ c := fun hsame => hc (by rw [hsame, beq_self_eq_true])
              exact List.not_mem_cons_of_ne_of_not_mem hc hfirst
            · exact ih (by simp [h])

theorem isComponent_of_mem {path component : String} (h : component ∈ components path) :
    IsComponent component := by
  obtain ⟨part, hpart, rfl⟩ := List.mem_map.mp h
  obtain ⟨hpart, hsome⟩ := List.mem_filter.mp hpart
  refine ⟨?_, ?_⟩
  · simpa using hsome
  · rw [String.toList_ofList]
    exact notMem_of_mem_splitOn hpart

/-! ## Following them -/

variable {reached names : List String}

theorem isName_step {component : String} (hcomponent : IsComponent component)
    (h : ∀ name ∈ reached, IsName name) : ∀ name ∈ step reached component, IsName name := by
  unfold step
  split
  · exact h
  · rename_i hself
    split
    · exact fun name hname => h name (List.mem_of_mem_tail hname)
    · rename_i hparent
      rintro name (_ | ⟨_, hname⟩)
      · exact ⟨hcomponent, hself, hparent⟩
      · exact h name hname

theorem isName_foldl_step {components : List String}
    (hcomponents : ∀ component ∈ components, IsComponent component)
    (h : ∀ name ∈ reached, IsName name) :
    ∀ name ∈ components.foldl step reached, IsName name := by
  induction components generalizing reached with
  | nil => exact h
  | cons component components ih =>
      exact ih (fun other hother => hcomponents other (by simp [hother]))
        (isName_step (hcomponents component (by simp)) h)

/-- A name leads one level down. -/
theorem foldl_step_names (h : ∀ name ∈ names, IsName name) (reached : List String) :
    names.foldl step reached = names.reverse ++ reached := by
  induction names generalizing reached with
  | nil => rfl
  | cons name names ih =>
      have hname := h name (by simp)
      have hstep : step reached name = name :: reached := by
        rw [step, if_neg hname.notSelf, if_neg hname.notParent]
      rw [List.foldl_cons, hstep, ih (fun other hother => h other (by simp [hother]))]
      simp

theorem isName_reached (path : String) :
    ∀ name ∈ ((components path).foldl step []).reverse, IsName name := fun name hname =>
  isName_foldl_step (fun _ => isComponent_of_mem) (by simp) name (List.mem_reverse.mp hname)

theorem isNormal_normalize (path : String) : IsNormal (normalize path) :=
  ⟨_, isName_reached path, rfl⟩

theorem components_normalize (path : String) :
    components (normalize path) = ((components path).foldl step []).reverse :=
  components_absolute fun name hname => (isName_reached path name hname).toIsComponent

theorem normalize_of_isNormal {path : String} (h : IsNormal path) : normalize path = path := by
  obtain ⟨names, hnames, rfl⟩ := h
  rw [normalize, components_absolute fun name hname => (hnames name hname).toIsComponent,
    foldl_step_names hnames, List.append_nil, ofReversed, List.reverse_reverse]

/-- Dots at the end of the first path may lead up before the second one is followed or after. -/
theorem normalize_normalize_append (first rest : String) :
    normalize (normalize first ++ "/" ++ rest) = normalize (first ++ "/" ++ rest) := by
  have hreached : (components (normalize first)).foldl step [] =
      (components first).foldl step [] := by
    rw [components_normalize, foldl_step_names (isName_reached first), List.reverse_reverse,
      List.append_nil]
  have hboth : ∀ path : String, normalize (path ++ "/" ++ rest) =
      ofReversed ((components rest).foldl step ((components path).foldl step [])) := fun path => by
    rw [normalize, components_append, List.foldl_append]
  rw [hboth, hboth, hreached]

example : normalize "//home/./ann/../../../usr//lib/" = "/usr/lib" := by decide +kernel

end Conch.Path
