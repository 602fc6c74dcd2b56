import JavaRecipes.Command.Path
import JavaRecipes.Proofs.Text.Parts
import Mathlib.Data.List.Basic

/-!
The steps of paths that are put together. A path under another one has the steps of both
(`steps_join`), and names with slashes between them are the steps of the path that they make up
(`steps_joinWith`).
-/

namespace JavaRecipes

namespace Path

/-- A name in a directory: it leads to what is there, and nowhere else. -/
structure IsName (name : String) : Prop where
  whole : '/' ∉ name.toList
  busy : isIdle name = false
  inside : name ≠ ".."

instance : DecidablePred IsName := fun name =>
  decidable_of_iff ('/' ∉ name.toList ∧ isIdle name = false ∧ name ≠ "..")
    ⟨fun ⟨hwhole, hbusy, hinside⟩ => ⟨hwhole, hbusy, hinside⟩, fun h => ⟨h.whole, h.busy, h.inside⟩⟩

theorem steps_append (p q : String) : steps (p ++ "/" ++ q) = steps p ++ steps q := by
  have hchars : (p ++ "/" ++ q).toList = p.toList ++ '/' :: q.toList := by simp
  rw [steps, segments, hchars, Text.splitAt_append, List.map_append, List.filter_append]
  rfl

@[simp]
theorem steps_empty : steps "" = [] := rfl

theorem steps_of_not_mem {name : String} (hwhole : '/' ∉ name.toList)
    (hbusy : isIdle name = false) :
    steps name = [name] := by
  simp [steps, segments, Text.splitAt_of_not_mem hwhole, hbusy]

theorem mem_steps {p name : String} (h : name ∈ steps p) :
    '/' ∉ name.toList ∧ isIdle name = false := by
  obtain ⟨hmem, hbusy⟩ := List.mem_filter.1 h
  obtain ⟨part, hpart, rfl⟩ := List.mem_map.1 hmem
  exact ⟨by simpa using Text.not_mem_of_mem_splitAt hpart, by simpa using hbusy⟩

theorem steps_joinWith {names : List String} (h : ∀ name ∈ names, IsName name) :
    steps (Text.joinWith "/" names) = names := by
  induction names with
  | nil => rfl
  | cons name names ih =>
    have hname := h name List.mem_cons_self
    have hsteps := steps_of_not_mem hname.whole hname.busy
    cases names with
    | nil => exact hsteps
    | cons next names =>
      rw [Text.joinWith, steps_append, hsteps,
        ih fun name hmem => h name (List.mem_cons_of_mem _ hmem)]
      · rfl
      · simp

theorem isAbsolute_joinWith {names : List String} (h : ∀ name ∈ names, IsName name) :
    isAbsolute (Text.joinWith "/" names) = false := by
  cases names with
  | nil => rfl
  | cons name names =>
    have hname := h name List.mem_cons_self
    have hhead : ∀ rest : List Char, (name.toList ++ rest).head? ≠ some '/' := by
      intro rest
      cases hcs : name.toList with
      | nil =>
        obtain rfl : name = "" := String.toList_injective (hcs.trans rfl)
        exact absurd hname.busy (by decide)
      | cons c cs =>
        have hslash := hname.whole
        rw [hcs] at hslash
        simpa using fun hc : c = '/' => hslash (hc ▸ List.mem_cons_self)
    cases names with
    | nil => exact decide_eq_false (by simpa [Text.joinWith] using hhead [])
    | cons next names =>
      have hjoin := hhead ('/' :: (Text.joinWith "/" (next :: names)).toList)
      exact decide_eq_false (by simpa [Text.joinWith] using hjoin)

/-- A path is put under another one with one slash between them. -/
theorem join_eq (p : String) : p = "" ∧ (∀ q, join p q = q) ∨
    p ≠ "" ∧ ∃ p', (p = p' ∨ p = p' ++ "/") ∧ ∀ q, join p q = p' ++ "/" ++ q := by
  by_cases hempty : p = ""
  · subst hempty
    exact .inl ⟨rfl, fun q => by simp [join]⟩
  · refine .inr ⟨hempty, ?_⟩
    by_cases hslash : p.toList.getLast? = some '/'
    · obtain ⟨cs, hcs⟩ := List.getLast?_eq_some_iff.1 hslash
      have hp : p = String.ofList cs ++ "/" := String.toList_injective (by simp [hcs])
      refine ⟨String.ofList cs, .inr hp, fun q => ?_⟩
      rw [join, if_pos (by simp [hslash]), ← hp]
    · refine ⟨p, .inl rfl, fun q => ?_⟩
      rw [join, if_neg (by simp [hslash, hempty])]

theorem steps_join (p q : String) : steps (join p q) = steps p ++ steps q := by
  obtain ⟨rfl, hjoin⟩ | ⟨-, p', hp, hjoin⟩ := join_eq p
  · rw [hjoin, steps_empty, List.nil_append]
  · have hslash : steps (p' ++ "/") = steps p' := by simpa using steps_append p' ""
    rw [hjoin, steps_append]
    rcases hp with rfl | rfl
    · rfl
    · rw [hslash]

theorem isAbsolute_join (p : String) {q : String} (hq : isAbsolute q = false) :
    isAbsolute (join p q) = isAbsolute p := by
  obtain ⟨rfl, hjoin⟩ | ⟨hne, p', hp, hjoin⟩ := join_eq p
  · rw [hjoin, hq]
    rfl
  · have hhead : p.toList.head? = (p' ++ "/" ++ q).toList.head? := by
      rcases hp with rfl | rfl
      · cases hcs : p.toList with
        | nil => exact absurd (String.toList_injective (hcs.trans rfl)) hne
        | cons c cs => simp [hcs]
      · cases hcs : p'.toList <;> simp [hcs]
    rw [hjoin, isAbsolute, isAbsolute, hhead]

theorem join_right_injective (p : String) {q q' : String} (h : join p q = join p q') : q = q' := by
  obtain ⟨-, hjoin⟩ | ⟨-, p', -, hjoin⟩ := join_eq p
  · rwa [hjoin, hjoin] at h
  · rw [hjoin, hjoin] at h
    exact (String.append_right_inj _).1 h

theorem fileName?_eq_some {p name : String} (h : fileName? p = some name) : IsName name := by
  unfold fileName? at h
  split at h
  · cases h
  · rename_i hne
    obtain ⟨hwhole, hbusy⟩ := mem_steps (List.mem_of_getLast? h)
    exact ⟨hwhole, hbusy, fun hdots => hne (hdots ▸ h)⟩

end Path

end JavaRecipes
