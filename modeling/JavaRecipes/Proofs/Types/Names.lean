import JavaRecipes.Text.Case
import JavaRecipes.Types.Basic
import Mathlib.Data.List.TakeWhile

/-!
Qualified class names, their simple names and the spelling of bean names. The simple name is what
stands after the last separator, so it does not change with what is put before a separator.
-/

namespace JavaRecipes

theorem Text.cutAt_eq_takeWhile (p : Char → Bool) (cs : List Char) :
    ((Text.cutAt p cs).map (·.1)).getD cs = cs.takeWhile fun c => !p c := by
  induction cs with
  | nil => rfl
  | cons c cs ih =>
    by_cases hc : p c
    · simp [Text.cutAt, hc]
    · cases hcut : Text.cutAt p cs with
      | none => simpa [Text.cutAt, hc, hcut] using ih
      | some parts => simpa [Text.cutAt, hc, hcut] using ih

namespace ClassName

def isSeparator (c : Char) : Bool := c = '.' || c = '$'

/-- The characters of the simple name are those at the end that are no separators. -/
theorem toList_simple (name : String) :
    (simple name).toList = (name.toList.reverse.takeWhile fun c => !isSeparator c).reverse := by
  have h := Text.cutAt_eq_takeWhile isSeparator name.toList.reverse
  rw [← h]
  unfold simple Text.cutAtLast
  have hsep : (fun c : Char => decide (c = '.') || decide (c = '$')) = isSeparator := rfl
  rw [hsep]
  cases Text.cutAt isSeparator name.toList.reverse with
  | none => simp
  | some parts => simp

/-- The qualifier is what is left of the name. -/
theorem toList_qualifier (name : String) :
    (qualifier name).toList = (name.toList.reverse.dropWhile fun c => !isSeparator c).reverse := by
  have hsplit : name.toList = (name.toList.reverse.dropWhile fun c => !isSeparator c).reverse ++
      (simple name).toList := by
    rw [toList_simple, ← List.reverse_append, List.takeWhile_append_dropWhile, List.reverse_reverse]
  have hlength : name.length - (simple name).length =
      (name.toList.reverse.dropWhile fun c => !isSeparator c).reverse.length := by
    have h := congrArg List.length hsplit
    rw [List.length_append, String.length_toList, String.length_toList] at h
    omega
  have htake : ∀ front rest cs : List Char, cs = front ++ rest → cs.take front.length = front := by
    rintro front rest cs rfl
    exact List.take_left
  rw [qualifier, hlength, String.toList_ofList]
  exact htake _ _ _ hsplit

/-- The two parts of a name make it up. -/
theorem qualifier_append_simple (name : String) : qualifier name ++ simple name = name := by
  apply String.toList_injective
  rw [String.toList_append, toList_qualifier, toList_simple, ← List.reverse_append,
    List.takeWhile_append_dropWhile, List.reverse_reverse]

/-- Another simple name can be put after the qualifier. -/
theorem simple_qualifier_append (name s : String) : simple (qualifier name ++ s) = simple s := by
  apply String.toList_injective
  rw [toList_simple, toList_simple, String.toList_append, toList_qualifier, List.reverse_append,
    List.reverse_reverse, List.takeWhile_append]
  split
  · rename_i hall
    -- what stands before is empty or ends with a separator
    have hnil : (name.toList.reverse.dropWhile fun c => !isSeparator c).takeWhile
        (fun c => !isSeparator c) = [] := by
      rw [List.takeWhile_eq_nil_iff]
      intro hpos
      simpa using List.dropWhile_get_zero_not (fun c => !isSeparator c) name.toList.reverse hpos
    rw [hnil, List.append_nil, (List.takeWhile_prefix _).eq_of_length hall]
  · rfl

/-- An end without separators belongs to the simple name. -/
theorem simple_append {name s : String} (h : ∀ c ∈ s.toList, isSeparator c = false) :
    simple (name ++ s) = simple name ++ s := by
  apply String.toList_injective
  rw [String.toList_append, toList_simple, toList_simple, String.toList_append, List.reverse_append,
    List.takeWhile_append_of_pos, List.reverse_append, List.reverse_reverse]
  intro c hc
  simp [h c (List.mem_reverse.1 hc)]

end ClassName

/-- Only the first character counts. -/
theorem Text.decapitalize_append {s : String} (hs : s ≠ "") (t : String) :
    decapitalize (s ++ t) = decapitalize s ++ t := by
  unfold decapitalize
  rw [String.toList_append]
  cases hcs : s.toList with
  | nil => exact absurd (String.toList_eq_nil_iff.1 hcs) hs
  | cons c cs =>
    apply String.toList_injective
    simp

end JavaRecipes
