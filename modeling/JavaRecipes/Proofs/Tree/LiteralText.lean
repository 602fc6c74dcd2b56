import JavaRecipes.Json.Reader
import JavaRecipes.Proofs.Tree.Reach
import JavaRecipes.Proofs.Tree.Rendering

/-!
String literals in the text of a tree. A reader of escapes that starts after the opening quote gets
the value back and stops at the closing quote, whatever stands behind it (`readLiteral_escaped`).
-/

namespace JavaRecipes

/-! ## The reader -/

/-- What a letter after a backslash stands for. -/
def escapedLetter? : Char → Option Char
  | 'n' => some '\n'
  | 'r' => some '\r'
  | 't' => some '\t'
  | '\\' => some '\\'
  | '"' => some '"'
  | _ => none

/-- The character that four hexadecimal digits stand for; none for a surrogate. -/
def escapedCode? (a b c d : Char) : Option Char := do
  let n ← Json.hex4? a b c d
  if n.isValidChar then some (Char.ofNat n) else none

/-- Read a literal after its opening quote: the characters up to the closing quote, and what stands
behind it. -/
def readLiteral : List Char → Option (List Char × List Char)
  | [] => none
  | '"' :: rest => some ([], rest)
  | '\\' :: 'u' :: a :: b :: c :: d :: rest => do
    let read ← escapedCode? a b c d
    (readLiteral rest).map fun (value, rest) => (read :: value, rest)
  | '\\' :: letter :: rest => do
    let read ← escapedLetter? letter
    (readLiteral rest).map fun (value, rest) => (read :: value, rest)
  | c :: rest =>
    if c = '\\' then none else (readLiteral rest).map fun (value, rest) => (c :: value, rest)

/-! ## Reading what is printed -/

theorem readLiteral_letter {letter c : Char} (h : escapedLetter? letter = some c)
    (hne : letter ≠ 'u') (rest : List Char) :
    readLiteral ('\\' :: letter :: rest) = (readLiteral rest).map fun (value, rest) =>
      (c :: value, rest) := by
  simp [readLiteral, hne, h]

theorem readLiteral_code {a b c d read : Char} (h : escapedCode? a b c d = some read)
    (rest : List Char) :
    readLiteral ('\\' :: 'u' :: a :: b :: c :: d :: rest) =
      (readLiteral rest).map fun (value, rest) => (read :: value, rest) := by
  simp [readLiteral, h]

theorem readLiteral_plain {c : Char} (hquote : c ≠ '"') (hslash : c ≠ '\\') (rest : List Char) :
    readLiteral (c :: rest) = (readLiteral rest).map fun (value, rest) => (c :: value, rest) := by
  simp [readLiteral, hslash]

private theorem escapedCode?_control : ∀ n < 0x20,
    escapedCode? (Nat.digitChar (n / 4096 % 16)) (Nat.digitChar (n / 256 % 16))
      (Nat.digitChar (n / 16 % 16)) (Nat.digitChar (n % 16)) = some (Char.ofNat n) := by
  decide

/-- A character is printed as a backslash and a letter, as a code, or as it is. -/
theorem escapeInLiteral_cases (c : Char) :
    (∃ letter, escapedLetter? letter = some c ∧ letter ≠ 'u' ∧ 0x20 ≤ letter.toNat ∧
      escapeInLiteral c = ['\\', letter]) ∨
    (c.toNat < 0x20 ∧ escapeInLiteral c = '\\' :: 'u' :: hexDigits4 c.toNat) ∨
    (c ≠ '"' ∧ c ≠ '\\' ∧ 0x20 ≤ c.toNat ∧ escapeInLiteral c = [c]) := by
  by_cases hshort : c ∈ ['\n', '\r', '\t', '\\', '"']
  · simp only [List.mem_cons, List.not_mem_nil, or_false] at hshort
    rcases hshort with rfl | rfl | rfl | rfl | rfl <;>
      exact .inl ⟨_, rfl, by decide, by decide, rfl⟩
  · simp only [List.mem_cons, List.not_mem_nil, or_false, not_or] at hshort
    obtain ⟨hn, hr, ht, hslash, hquote⟩ := hshort
    by_cases hcontrol : c.toNat < 0x20
    · exact .inr (.inl ⟨hcontrol, by simp [escapeInLiteral, hn, hr, ht, hslash, hquote, hcontrol]⟩)
    · exact .inr (.inr ⟨hquote, hslash, Nat.not_lt.1 hcontrol,
        by simp [escapeInLiteral, hn, hr, ht, hslash, hquote, hcontrol]⟩)

/-- A printed character is read as that character, whatever it is and whatever follows. -/
theorem readLiteral_escape (c : Char) (rest : List Char) :
    readLiteral (escapeInLiteral c ++ rest) =
      (readLiteral rest).map fun (value, rest) => (c :: value, rest) := by
  rcases escapeInLiteral_cases c with ⟨letter, hletter, hne, -, hescape⟩ | ⟨hcontrol, hescape⟩ |
    ⟨hquote, hslash, -, hescape⟩
  · rw [hescape]
    exact readLiteral_letter hletter hne rest
  · have hcode := escapedCode?_control c.toNat hcontrol
    rw [Char.ofNat_toNat] at hcode
    rw [hescape]
    exact readLiteral_code hcode rest
  · rw [hescape]
    exact readLiteral_plain hquote hslash rest

theorem readLiteral_escaped (value rest : List Char) :
    readLiteral (value.flatMap escapeInLiteral ++ '"' :: rest) = some (value, rest) := by
  induction value with
  | nil => rfl
  | cons c value ih =>
    rw [List.flatMap_cons, List.append_assoc, readLiteral_escape, ih, Option.map_some]

private theorem le_hexDigits4 {n : Nat} {c : Char} (h : c ∈ hexDigits4 n) : 0x20 ≤ c.toNat := by
  have hdigit : ∀ d < 16, 0x20 ≤ (Nat.digitChar d).toNat := by decide
  obtain ⟨d, hd, rfl⟩ := List.mem_map.1 h
  simp only [List.mem_cons, List.not_mem_nil, or_false] at hd
  exact hdigit d (by omega)

theorem le_of_mem_escapeInLiteral {c d : Char} (h : d ∈ escapeInLiteral c) : 0x20 ≤ d.toNat := by
  rcases escapeInLiteral_cases c with
    ⟨letter, -, -, hle, hescape⟩ | ⟨-, hescape⟩ | ⟨-, -, hle, hescape⟩
  · rw [hescape, List.mem_cons, List.mem_singleton] at h
    rcases h with rfl | rfl
    · decide
    · exact hle
  · rw [hescape, List.mem_cons, List.mem_cons] at h
    rcases h with rfl | rfl | h
    · decide
    · decide
    · exact le_hexDigits4 h
  · rw [hescape, List.mem_singleton] at h
    exact h ▸ hle

theorem le_of_mem_quoteLiteral {value : String} {c : Char} (h : c ∈ (quoteLiteral value).toList) :
    0x20 ≤ c.toNat := by
  simp only [quoteLiteral, String.toList_ofList, List.cons_append, List.mem_cons, List.mem_append,
    List.not_mem_nil, or_false, List.mem_flatMap] at h
  rcases h with rfl | ⟨d, -, hd⟩ | rfl
  · decide
  · exact le_of_mem_escapeInLiteral hd
  · decide

/-- The text starts with a literal that is read as the value, and `rest` is left. -/
def StartsWithLiteral (value : String) (rest text : List Char) : Prop :=
  ∃ body, text = '"' :: body ∧ readLiteral body = some (value.toList, rest)

theorem startsWithLiteral_quoteLiteral (value : String) (rest : List Char) :
    StartsWithLiteral value rest ((quoteLiteral value).toList ++ rest) :=
  ⟨value.toList.flatMap escapeInLiteral ++ '"' :: rest,
    by simp [quoteLiteral], readLiteral_escaped _ _⟩

namespace Store

theorem layout_stringLiteral {s : Store} {r : Ref} {value : String}
    (h : s.stringLiteral? r = some value) :
    s.layout .expression r = [.text (quoteLiteral value)] := by
  obtain ⟨type, hdata⟩ := stringLiteral?_eq_some.1 h
  simp [layout, layoutDepth, hdata, layoutAt, layoutExpression, LiteralValue.source]

/-- A printed string literal ends where a reader of its escapes finds the closing quote, and gives
the value back. So it does in front of anything in a layout, at any indentation. No character of it
is a control character. -/
theorem stringLiteral_reads (s : Store) (r : Ref) (value : String)
    (h : s.stringLiteral? r = some value) :
    (∀ rest, StartsWithLiteral value rest ((s.printExpression r).toList ++ rest)) ∧
      (∀ level lineStart (after : Layout), ∃ text,
        (Layout.renderFrom level lineStart (s.layout .expression r ++ after)).toList =
          (if lineStart then Layout.margin level else "").toList ++ text ∧
        StartsWithLiteral value (Layout.renderFrom level false after).toList text) ∧
      ∀ c ∈ (s.printExpression r).toList, 0x20 ≤ c.toNat := by
  have hprint : s.printExpression r = quoteLiteral value := by
    rw [printExpression, layout_stringLiteral h, Layout.render_text]
  rw [hprint, layout_stringLiteral h]
  refine ⟨startsWithLiteral_quoteLiteral value, fun level lineStart after => ?_,
    fun c => le_of_mem_quoteLiteral⟩
  have hne : (quoteLiteral value).isEmpty = false := by simp [quoteLiteral]
  exact ⟨_, by simp [Layout.renderFrom, hne], startsWithLiteral_quoteLiteral value _⟩

/-- A backslash in front of what looks like the code of a quote, then a quote and a control
character. -/
theorem stringLiteral_reads_backslash :
    let s : Store := ⟨#[⟨none, .literal ⟨.string "\\u0022\"\x07", none⟩⟩]⟩
    s.stringLiteral? (some 0) = some "\\u0022\"\x07" ∧
      StartsWithLiteral "\\u0022\"\x07" ['"'] ((s.printExpression (some 0)).toList ++ ['"']) :=
  ⟨rfl, (stringLiteral_reads _ (some 0) _ rfl).1 ['"']⟩

end Store

end JavaRecipes
