/-!
Blank characters, those with the Unicode property White_Space, and cutting them off a text.
-/

namespace JavaRecipes.Text

/-- Code points with the property White_Space, as inclusive ranges. -/
def blankRanges : List (Nat × Nat) :=
  [(0x9, 0xD), (0x20, 0x20), (0x85, 0x85), (0xA0, 0xA0), (0x1680, 0x1680), (0x2000, 0x200A),
    (0x2028, 0x2029), (0x202F, 0x202F), (0x205F, 0x205F), (0x3000, 0x3000)]

def isBlank (c : Char) : Bool :=
  blankRanges.any fun r => r.1 ≤ c.toNat && c.toNat ≤ r.2

/-- Drop the blanks at the end. -/
def trimEnd (cs : List Char) : List Char :=
  (cs.reverse.dropWhile isBlank).reverse

/-- Drop the blanks at both ends. -/
def trim (cs : List Char) : List Char :=
  trimEnd (cs.dropWhile isBlank)

/-- Cut at the first character that satisfies `p`; that character is in neither part. -/
def cutAt (p : Char → Bool) : List Char → Option (List Char × List Char)
  | [] => none
  | c :: cs => if p c then some ([], cs) else (cutAt p cs).map fun (a, b) => (c :: a, b)

/-- Cut at the last character that satisfies `p`; that character is in neither part. -/
def cutAtLast (p : Char → Bool) (cs : List Char) : Option (List Char × List Char) :=
  (cutAt p cs.reverse).map fun (a, b) => (b.reverse, a.reverse)

/-- The parts between the occurrences of `sep`; there is always at least one. -/
def splitAt (sep : Char) : List Char → List (List Char)
  | [] => [[]]
  | c :: cs =>
    if c = sep then [] :: splitAt sep cs
    else match splitAt sep cs with
      | [] => [[c]]
      | part :: parts => (c :: part) :: parts

/-- Put `sep` between the texts. -/
def joinWith (sep : String) : List String → String
  | [] => ""
  | [s] => s
  | s :: rest => s ++ sep ++ joinWith sep rest

theorem cutAt_eq_some {p : Char → Bool} {cs a b : List Char} (h : cutAt p cs = some (a, b)) :
    ∃ c, p c = true ∧ cs = a ++ c :: b ∧ ∀ x ∈ a, p x = false := by
  induction cs generalizing a b with
  | nil => simp [cutAt] at h
  | cons c cs ih =>
    by_cases hc : p c
    · simp only [cutAt, hc, if_true, Option.some.injEq, Prod.mk.injEq] at h
      obtain ⟨rfl, rfl⟩ := h
      exact ⟨c, hc, rfl, by simp⟩
    · simp only [cutAt, hc, Bool.false_eq_true, if_false, Option.map_eq_some_iff] at h
      obtain ⟨⟨a', b'⟩, h', heq⟩ := h
      simp only [Prod.mk.injEq] at heq
      obtain ⟨rfl, rfl⟩ := heq
      obtain ⟨d, hd, rfl, ha⟩ := ih h'
      exact ⟨d, hd, rfl, by simpa [hc] using ha⟩

theorem splitAt_ne_nil (sep : Char) (cs : List Char) : splitAt sep cs ≠ [] := by
  cases cs with
  | nil => simp [splitAt]
  | cons c cs => simp only [splitAt]; split <;> (try split) <;> simp

end JavaRecipes.Text
