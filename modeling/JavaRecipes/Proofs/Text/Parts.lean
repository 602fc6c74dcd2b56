import JavaRecipes.Text.Blank
import Mathlib.Data.List.DropRight
import Mathlib.Data.List.TakeWhile

/-!
Cutting a text into parts and putting them together again. Trimming finds the one trimmed text that
stands in blanks there (`trim_eq_iff`), and a split gives the part up to the first separator and
those of the rest (`first_splitAt`).
-/

namespace JavaRecipes.Text

/-- Nothing but blanks. -/
def Blanks (cs : List Char) : Prop := ∀ c ∈ cs, isBlank c = true

/-- No blank at either end. -/
def Trimmed (cs : List Char) : Prop := trim cs = cs

/-- A text with blanks around it. -/
def Padded (word cs : List Char) : Prop :=
  ∃ before after, Blanks before ∧ Blanks after ∧ cs = before ++ word ++ after

/-! ## Blanks at the ends -/

section

variable {cs a b word : List Char} {c : Char}

theorem Blanks.nil : Blanks [] := by simp [Blanks]

theorem blanks_append : Blanks (a ++ b) ↔ Blanks a ∧ Blanks b := List.forall_mem_append

theorem Blanks.not_mem (h : Blanks cs) (hc : isBlank c = false) : c ∉ cs := by
  intro hmem
  simp [h c hmem] at hc

theorem trimEnd_eq_rdropWhile (cs : List Char) : trimEnd cs = cs.rdropWhile isBlank := rfl

theorem trim_eq_nil_iff : trim cs = [] ↔ Blanks cs := by
  rw [trim, trimEnd_eq_rdropWhile, List.rdropWhile_eq_nil_iff]
  constructor
  · intro h
    rw [← List.takeWhile_append_dropWhile (p := isBlank) (l := cs)]
    exact blanks_append.2 ⟨fun c hc => List.mem_takeWhile_imp hc, h⟩
  · intro h c hc
    exact h c ((List.dropWhile_suffix _).subset hc)

theorem Padded.refl (cs : List Char) : Padded cs cs := ⟨[], [], .nil, .nil, by simp⟩

theorem Padded.blanks_append (ha : Blanks a) (h : Padded word cs) : Padded word (a ++ cs) := by
  obtain ⟨before, after, hbefore, hafter, rfl⟩ := h
  exact ⟨a ++ before, after, Text.blanks_append.2 ⟨ha, hbefore⟩, hafter, by simp⟩

theorem padded_trim (cs : List Char) : Padded (trim cs) cs := by
  refine ⟨cs.takeWhile isBlank, (cs.dropWhile isBlank).rtakeWhile isBlank,
    fun c hc => List.mem_takeWhile_imp hc,
    fun c hc => List.mem_rtakeWhile_imp hc, ?_⟩
  rw [trim, trimEnd_eq_rdropWhile, List.append_assoc, List.rdropWhile_append_rtakeWhile,
    List.takeWhile_append_dropWhile]

theorem last_trimEnd (cs : List Char) : ∀ c ∈ (trimEnd cs).getLast?, isBlank c = false := by
  intro c hc
  have hne : trimEnd cs ≠ [] := by
    intro hnil
    simp [hnil] at hc
  have hlast : ¬ isBlank ((trimEnd cs).getLast hne) := List.rdropWhile_last_not isBlank cs hne
  rw [Option.mem_def, List.getLast?_eq_some_getLast hne] at hc
  obtain rfl := Option.some.inj hc
  simpa using hlast

theorem first_trim (cs : List Char) : ∀ c ∈ (trim cs).head?, isBlank c = false := by
  intro c hc
  obtain ⟨rest, hrest⟩ := List.rdropWhile_prefix isBlank (cs.dropWhile isBlank)
  have hhead := List.head?_dropWhile_not isBlank cs
  rw [← trimEnd_eq_rdropWhile, ← trim] at hrest
  rw [← hrest, List.head?_append, Option.mem_def.1 hc] at hhead
  simpa using hhead

theorem dropWhile_blanks (ha : Blanks a) (hfirst : isBlank c = false) (rest : List Char) :
    (a ++ c :: rest).dropWhile isBlank = c :: rest := by
  rw [List.dropWhile_append_of_pos ha, List.dropWhile_cons_of_neg (by simp [hfirst])]

theorem trim_of_ends (hfirst : ∀ c ∈ word.head?, isBlank c = false)
    (hlast : ∀ c ∈ word.getLast?, isBlank c = false) (ha : Blanks a) (hb : Blanks b) :
    trim (a ++ word ++ b) = word := by
  cases word with
  | nil => exact trim_eq_nil_iff.2 (by simpa using blanks_append.2 ⟨ha, hb⟩)
  | cons c rest =>
    obtain ⟨start, d, hd⟩ : ∃ start d, c :: rest = start ++ [d] :=
      ⟨_, _, (List.dropLast_append_getLast (by simp)).symm⟩
    have hreverse : (c :: rest ++ b).reverse = b.reverse ++ d :: start.reverse := by simp [hd]
    have hbreverse : Blanks b.reverse := fun x hx => hb x (List.mem_reverse.1 hx)
    rw [trim, List.append_assoc, List.cons_append, dropWhile_blanks ha (hfirst c rfl),
      ← List.cons_append, trimEnd, hreverse,
      dropWhile_blanks hbreverse (hlast d (by simp [hd])), hd]
    simp

/-- A text is trimmed when neither its first nor its last character is a blank. -/
theorem trimmed_iff :
    Trimmed cs ↔ (∀ c ∈ cs.head?, isBlank c = false) ∧ ∀ c ∈ cs.getLast?, isBlank c = false := by
  constructor
  · intro h
    exact ⟨h ▸ first_trim cs, fun c hc => last_trimEnd _ c (h.symm ▸ hc)⟩
  · rintro ⟨hfirst, hlast⟩
    have htrim := trim_of_ends hfirst hlast .nil .nil
    rwa [List.append_nil] at htrim

/-- Blanks around a trimmed text are what trimming takes away. -/
theorem trim_eq_iff : trim cs = word ↔ Trimmed word ∧ Padded word cs := by
  constructor
  · rintro rfl
    exact ⟨trimmed_iff.2 ⟨first_trim cs, last_trimEnd _⟩, padded_trim cs⟩
  · rintro ⟨hword, before, after, hbefore, hafter, rfl⟩
    obtain ⟨hfirst, hlast⟩ := trimmed_iff.1 hword
    exact trim_of_ends hfirst hlast hbefore hafter

theorem Trimmed.eq_nil_of_blanks (h : Trimmed (a ++ b)) (hb : Blanks b) : b = [] := by
  by_contra hne
  have hlast : (a ++ b).getLast? = some (b.getLast hne) := by
    rw [List.getLast?_append_of_ne_nil a hne, List.getLast?_eq_some_getLast hne]
  have hsolid := (trimmed_iff.1 h).2 _ hlast
  simp [hb _ (List.getLast_mem hne)] at hsolid

theorem trimmed_trim (cs : List Char) : Trimmed (trim cs) := (trim_eq_iff.1 rfl).1

theorem trim_subset (cs : List Char) : trim cs ⊆ cs := by
  obtain ⟨before, after, -, -, hcs⟩ := padded_trim cs
  intro c hc
  rw [hcs]
  simp [hc]

end

/-! ## Cutting and splitting -/

section

variable {p : Char → Bool} {sep c : Char} {cs a b part : List Char} {parts : List (List Char)}

theorem cutAt_append (ha : ∀ x ∈ a, p x = false) (hc : p c = true) :
    cutAt p (a ++ c :: b) = some (a, b) := by
  induction a with
  | nil => simp [cutAt, hc]
  | cons x a ih =>
    have hx := ha x List.mem_cons_self
    simp [cutAt, hx, ih fun y hy => ha y (List.mem_cons_of_mem _ hy)]

theorem splitAt_append (sep : Char) (xs ys : List Char) :
    splitAt sep (xs ++ sep :: ys) = splitAt sep xs ++ splitAt sep ys := by
  induction xs with
  | nil => simp [splitAt]
  | cons c xs ih =>
    by_cases hc : c = sep
    · simp [splitAt, hc, ih]
    · cases hxs : splitAt sep xs with
      | nil => exact absurd hxs (splitAt_ne_nil sep xs)
      | cons part parts => simp [splitAt, hc, ih, hxs]

theorem splitAt_of_not_mem {sep : Char} {cs : List Char} (h : sep ∉ cs) :
    splitAt sep cs = [cs] := by
  induction cs with
  | nil => rfl
  | cons c cs ih =>
    have hc : c ≠ sep := fun heq => h (heq ▸ List.mem_cons_self)
    simp [splitAt, hc, ih fun hmem => h (List.mem_cons_of_mem _ hmem)]

theorem not_mem_of_mem_splitAt {sep : Char} {cs part : List Char} (h : part ∈ splitAt sep cs) :
    sep ∉ part := by
  induction cs generalizing part with
  | nil => simp_all [splitAt]
  | cons c cs ih =>
    by_cases hc : c = sep
    · simp only [splitAt, if_pos hc, List.mem_cons] at h
      rcases h with rfl | h
      · simp
      · exact ih h
    · cases hcs : splitAt sep cs with
      | nil => exact absurd hcs (splitAt_ne_nil sep cs)
      | cons first parts =>
        simp only [splitAt, if_neg hc, hcs, List.mem_cons] at h
        rcases h with rfl | h
        · have hfirst : sep ∉ first := ih (hcs ▸ List.mem_cons_self)
          simp [Ne.symm hc, hfirst]
        · exact ih (hcs ▸ List.mem_cons_of_mem _ h)

/-- The first part goes up to the first separator, or to the end if there is none. -/
theorem first_splitAt (h : splitAt sep cs = part :: parts) :
    sep ∉ part ∧
    (cs = part ∧ parts = [] ∨ ∃ rest, cs = part ++ sep :: rest ∧ splitAt sep rest = parts) := by
  by_cases hmem : sep ∈ cs
  · obtain ⟨first, rest, rfl, hfirst⟩ := List.eq_append_cons_of_mem hmem
    rw [splitAt_append, splitAt_of_not_mem hfirst] at h
    obtain ⟨rfl, hrest⟩ := List.cons.inj h
    exact ⟨hfirst, .inr ⟨rest, rfl, hrest⟩⟩
  · rw [splitAt_of_not_mem hmem] at h
    obtain ⟨rfl, hrest⟩ := List.cons.inj h
    exact ⟨hmem, .inl ⟨rfl, hrest.symm⟩⟩

end

end JavaRecipes.Text
