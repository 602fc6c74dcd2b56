import JavaRecipes.Json.Printer
import JavaRecipes.Json.Reader
import Mathlib.Data.List.DropRight
import Mathlib.Data.List.TakeWhile

/-!
Reading undoes writing: the indented text of a JSON value is read back as that value
(`parse_pretty`). Each kind of text is read with anything behind it that cannot be part of it, and
the reader's bound is never felt, since a text is at least as long as the calls are deep.
-/

namespace JavaRecipes

/-- Written without fraction and exponent, a number has no exponent. -/
def Number.Canonical (n : Number) : Prop := n.whole = true → n.exponent = 0

theorem Number.canonical_ofInt (i : Int) : (Number.ofInt i).Canonical := fun _ => rfl

namespace Json

/-! ## Strings -/

/-- What the reader makes of a character that was escaped. -/
def markOf (c : Char) : Mark :=
  if c.toNat < 0x20 ∧ c ∉ ['\x08', '\x0c', '\n', '\r', '\t'] then .unit c.toNat else .char c

private theorem hex4?_control :
    ∀ n < 0x20, hex4? '0' '0' (hexChar (n / 16)) (hexChar (n % 16)) = some n := by
  decide

private theorem readMarks_letter {letter c : Char} (hne : letter ≠ 'u')
    (h : readMarks.escaped? letter = some c) (rest : List Char) :
    readMarks ('\\' :: letter :: rest) =
      (readMarks rest).map fun (marks, rest) => (.char c :: marks, rest) := by
  cases hr : readMarks rest <;> simp [readMarks, hne, h, hr]

private theorem readMarks_unit {a b c d : Char} {n : Nat} (h : hex4? a b c d = some n)
    (rest : List Char) :
    readMarks ('\\' :: 'u' :: a :: b :: c :: d :: rest) =
      (readMarks rest).map fun (marks, rest) => (.unit n :: marks, rest) := by
  cases hr : readMarks rest <;> simp [readMarks, h, hr]

/-- An escaped character is read as one mark. -/
private theorem readMarks_escapeChar (c : Char) (rest : List Char) :
    readMarks (escapeChar c ++ rest) =
      (readMarks rest).map fun (marks, rest) => (markOf c :: marks, rest) := by
  by_cases hshort : c ∈ ['"', '\\', '\x08', '\x0c', '\n', '\r', '\t']
  · simp only [List.mem_cons, List.not_mem_nil, or_false] at hshort
    rcases hshort with rfl | rfl | rfl | rfl | rfl | rfl | rfl <;>
      exact readMarks_letter (by decide) rfl rest
  · simp only [List.mem_cons, List.not_mem_nil, or_false, not_or] at hshort
    obtain ⟨hquote, hslash, hb, hf, hn, hr, ht⟩ := hshort
    by_cases hcontrol : c.toNat < 0x20
    · have hmark : markOf c = .unit c.toNat := by simp [markOf, hcontrol, hb, hf, hn, hr, ht]
      have hescape : escapeChar c =
          ['\\', 'u', '0', '0', hexChar (c.toNat / 16), hexChar (c.toNat % 16)] := by
        simp [escapeChar, hquote, hslash, hb, hf, hn, hr, ht, hcontrol]
      rw [hmark, hescape]
      exact readMarks_unit (hex4?_control _ hcontrol) rest
    · have hmark : markOf c = .char c := by simp [markOf, hcontrol]
      have hescape : escapeChar c = [c] := by
        simp [escapeChar, hquote, hslash, hb, hf, hn, hr, ht, hcontrol]
      rw [hmark, hescape, List.singleton_append]
      simp [readMarks, hslash, hcontrol]

/-- A unit that is no surrogate stands for itself. -/
private theorem joinMarks_unit {n : Nat} (h : n < 0xD800) (marks : List Mark) :
    joinMarks (.unit n :: marks) = (joinMarks marks).map (Char.ofNat n :: ·) := by
  have hhigh : isHighSurrogate n = false := by simp [isHighSurrogate]; omega
  have hlow : isLowSurrogate n = false := by simp [isLowSurrogate]; omega
  cases marks with
  | nil => simp [joinMarks, hhigh, hlow]
  | cons mark marks => cases mark <;> simp [joinMarks, hhigh, hlow]

private theorem joinMarks_markOf (cs : List Char) : joinMarks (cs.map markOf) = some cs := by
  induction cs with
  | nil => rfl
  | cons c cs ih =>
    rw [List.map_cons, markOf]
    split
    · rename_i hc
      rw [joinMarks_unit (by omega), ih, Char.ofNat_toNat]
      rfl
    · simp [joinMarks, ih]

private theorem readMarks_escaped (cs rest : List Char) :
    readMarks (cs.flatMap escapeChar ++ '"' :: rest) = some (cs.map markOf, rest) := by
  induction cs with
  | nil => simp [readMarks]
  | cons c cs ih =>
    rw [List.flatMap_cons, List.append_assoc, readMarks_escapeChar, ih]
    rfl

/-- A quoted string is read up to its closing quote. -/
theorem readText_quote (s : Option String) (rest : List Char) :
    ∃ cs, quote s ++ rest = '"' :: cs ∧ readText cs = some (s, rest) := by
  cases s with
  | none => exact ⟨_, rfl, rfl⟩
  | some s =>
    refine ⟨s.toList.flatMap escapeChar ++ '"' :: rest, by simp [quote], ?_⟩
    simp [readText, readMarks_escaped, joinMarks_markOf]

/-! ## Numbers -/

/-- The text does not start with a digit. -/
def NoDigit (cs : List Char) : Prop := ∀ c, cs.head? = some c → c.isDigit = false

/-- Nor with anything else that a number goes on with. -/
def EndsNumber (cs : List Char) : Prop :=
  ∀ c, cs.head? = some c → c.isDigit = false ∧ c ≠ '.' ∧ c ≠ 'e' ∧ c ≠ 'E'

private theorem readDigits_toDigits (n : Nat) {rest : List Char} (h : NoDigit rest) :
    readDigits (Nat.toDigits 10 n ++ rest) = some (Nat.toDigits 10 n, rest) := by
  have hall : ∀ c ∈ Nat.toDigits 10 n, c.isDigit = true :=
    fun c hc => Nat.isDigit_of_mem_toDigits (by decide) (by decide) hc
  have htake : rest.takeWhile Char.isDigit = [] ∧ rest.dropWhile Char.isDigit = rest := by
    cases rest with
    | nil => simp
    | cons c cs => simp [h c rfl]
  unfold readDigits
  rw [List.takeWhile_append_of_pos hall, List.dropWhile_append_of_pos hall, htake.1, htake.2,
    List.append_nil]
  cases hds : Nat.toDigits 10 n with
  | nil => exact absurd hds Nat.toDigits_ne_nil
  | cons d ds => rfl

/-- Only zero starts with a zero. -/
private theorem toDigits_eq_cons_zero {n : Nat} {ds : List Char}
    (h : Nat.toDigits 10 n = '0' :: ds) :
    ds = [] := by
  induction n using Nat.strongRecOn generalizing ds with
  | _ n ih =>
    by_cases hn : n < 10
    · rw [Nat.toDigits_of_lt_base hn] at h
      simpa using (List.cons.inj h).2.symm
    · exfalso
      rw [Nat.toDigits_of_base_le (by decide) (Nat.le_of_not_lt hn)] at h
      cases hfront : Nat.toDigits 10 (n / 10) with
      | nil => exact Nat.toDigits_ne_nil hfront
      | cons c cs =>
        rw [hfront, List.cons_append] at h
        obtain ⟨rfl, -⟩ := List.cons.inj h
        obtain rfl := ih (n / 10) (by omega) hfront
        have hzero := congrArg (Nat.ofDigitChars 10 · 0) hfront
        simp [Nat.ofDigitChars_cons] at hzero
        omega

private theorem readWhole_toDigits (n : Nat) {rest : List Char} (h : NoDigit rest) :
    readWhole (Nat.toDigits 10 n ++ rest) = some (Nat.toDigits 10 n, rest) := by
  cases hds : Nat.toDigits 10 n with
  | nil => exact absurd hds Nat.toDigits_ne_nil
  | cons d ds =>
    by_cases hd : d = '0'
    · subst hd
      obtain rfl := toDigits_eq_cons_zero hds
      rfl
    · have hread := readDigits_toDigits n h
      rw [hds] at hread
      simp only [List.cons_append] at hread ⊢
      simp [readWhole, hd, hread]

private theorem readExponent_e (e : Int) {rest : List Char} (h : NoDigit rest) :
    readExponent ('e' :: (if e < 0 then ['-'] else []) ++ Nat.toDigits 10 e.natAbs ++ rest) =
      some (some e, rest) := by
  generalize hk : e.natAbs = k
  have hread := readDigits_toDigits k h
  by_cases he : e < 0
  · have hneg : -(k : Int) = e := by omega
    simp [readExponent, he, hread, hneg]
  · have hpos : (k : Int) = e := by omega
    cases hds : Nat.toDigits 10 k with
    | nil => exact absurd hds Nat.toDigits_ne_nil
    | cons d ds =>
      have hd : d.isDigit :=
        Nat.isDigit_of_mem_toDigits (by decide) (by decide) (hds ▸ List.mem_cons_self)
      have hminus : d ≠ '-' := by rintro rfl; simp at hd
      have hplus : d ≠ '+' := by rintro rfl; simp at hd
      have hvalue : Nat.ofDigitChars 10 (d :: ds) 0 = k := by
        rw [← hds, Nat.ofDigitChars_ten_toDigits]
      rw [hds, List.cons_append] at hread
      simp [readExponent, he, hminus, hplus, hread, hvalue, hpos]

/-- What follows the digits of a number. -/
private def afterDigits (n : Number) : List Char :=
  if n.whole then []
  else 'e' :: (if n.exponent < 0 then ['-'] else []) ++ Nat.toDigits 10 n.exponent.natAbs

private theorem EndsNumber.noDigit {rest : List Char} (h : EndsNumber rest) : NoDigit rest :=
  fun c hc => (h c hc).1

private theorem readFraction_of_ne {rest : List Char} (h : ∀ c, rest.head? = some c → c ≠ '.') :
    readFraction rest = some (none, rest) := by
  cases rest with
  | nil => rfl
  | cons c cs => simp [readFraction, h c rfl]

private theorem readExponent_of_endsNumber {rest : List Char} (h : EndsNumber rest) :
    readExponent rest = some (none, rest) := by
  cases rest with
  | nil => rfl
  | cons c cs =>
    obtain ⟨-, -, he, hE⟩ := h c rfl
    simp [readExponent, he, hE]

/-- The end of a number is no digit and no fraction, and its exponent is read. -/
private theorem read_afterDigits (n : Number) {rest : List Char} (h : EndsNumber rest) :
    NoDigit (afterDigits n ++ rest) ∧
      readFraction (afterDigits n ++ rest) = some (none, afterDigits n ++ rest) ∧
      readExponent (afterDigits n ++ rest) =
        some (if n.whole then none else some n.exponent, rest) := by
  cases hwhole : n.whole with
  | true =>
    simp only [afterDigits, hwhole, if_true, List.nil_append]
    exact ⟨h.noDigit, readFraction_of_ne fun c hc => (h c hc).2.1, readExponent_of_endsNumber h⟩
  | false =>
    have hread := readExponent_e n.exponent h.noDigit
    simp only [afterDigits, hwhole, Bool.false_eq_true, if_false]
    refine ⟨?_, readFraction_of_ne ?_, hread⟩
    · rintro c ⟨⟩
      decide
    · rintro c ⟨⟩
      decide

/-- A number is read with its sign and its exponent. -/
theorem readNumber_writeNumber {n : Number} (hn : n.Canonical) {rest : List Char}
    (h : EndsNumber rest) : readNumber (writeNumber n ++ rest) = some (n, rest) := by
  have htext : writeNumber n ++ rest =
      (if n.negative then ['-'] else []) ++
        (Nat.toDigits 10 n.significand ++ (afterDigits n ++ rest)) := by
    simp only [writeNumber, afterDigits, List.append_assoc]
  obtain ⟨hdigit, hfraction, hexponent⟩ := read_afterDigits n h
  have hread := readWhole_toDigits n.significand hdigit
  have hexp : (if n.whole then none else some n.exponent).getD 0 = n.exponent := by
    cases hwhole : n.whole with
    | false => rfl
    | true => exact (hn hwhole).symm
  have hnone : (if n.whole then none else some n.exponent).isNone = n.whole := by
    cases n.whole <;> rfl
  rw [htext]
  obtain ⟨negative, significand, exponent, whole⟩ := n
  cases negative with
  | true => simp [readNumber, hread, hfraction, hexponent, hexp, hnone]
  | false =>
    cases hds : Nat.toDigits 10 significand with
    | nil => exact absurd hds Nat.toDigits_ne_nil
    | cons d ds =>
      have hd : d.isDigit :=
        Nat.isDigit_of_mem_toDigits (by decide) (by decide) (hds ▸ List.mem_cons_self)
      have hminus : d ≠ '-' := by rintro rfl; simp at hd
      have hvalue : Nat.ofDigitChars 10 (d :: ds) 0 = significand := by
        rw [← hds, Nat.ofDigitChars_ten_toDigits]
      rw [hds] at hread
      simp only [List.cons_append] at hread
      simp [readNumber, hminus, hread, hfraction, hexponent, hexp, hnone, hvalue]

/-! ## Values -/

mutual

/-- Every number in the value has one spelling. -/
def Canonical : Json → Prop
  | .null => True
  | .bool _ => True
  | .number n => n.Canonical
  | .string _ => True
  | .array items => AllCanonical items
  | .object fields => FieldsCanonical fields

def AllCanonical : List Json → Prop
  | [] => True
  | item :: items => item.Canonical ∧ AllCanonical items

def FieldsCanonical : List (Option String × Json) → Prop
  | [] => True
  | (_, value) :: fields => value.Canonical ∧ FieldsCanonical fields

end

@[simp]
theorem skipSpaces_breakLine (level : Nat) (cs : List Char) :
    skipSpaces (breakLine level ++ cs) = skipSpaces cs := by
  have hall : ∀ c ∈ breakLine level, isSpace c = true := by
    intro c hc
    rcases List.mem_cons.1 hc with rfl | hc
    · decide
    · rw [(List.mem_replicate.1 hc).2]
      decide
  exact List.dropWhile_append_of_pos hall

theorem skipSpaces_cons {c : Char} (hc : isSpace c = false) (cs : List Char) :
    skipSpaces (c :: cs) = c :: cs := by
  simp [skipSpaces, hc]

@[simp]
theorem skipSpaces_skipSpaces (cs : List Char) : skipSpaces (skipSpaces cs) = skipSpaces cs :=
  List.dropWhile_idempotent isSpace cs

theorem readValue_congr (fuel : Nat) {cs cs' : List Char} (h : skipSpaces cs = skipSpaces cs') :
    readValue fuel cs = readValue fuel cs' := by
  cases fuel <;> simp [readValue, h]

theorem readItems_congr (fuel : Nat) {cs cs' : List Char} (h : skipSpaces cs = skipSpaces cs') :
    readItems fuel cs = readItems fuel cs' := by
  cases fuel with
  | zero => rfl
  | succ fuel => rw [readItems, readItems, readValue_congr fuel h]

theorem readFields_congr (fuel : Nat) {cs cs' : List Char} (h : skipSpaces cs = skipSpaces cs') :
    readFields fuel cs = readFields fuel cs' := by
  cases fuel <;> simp [readFields, h]

/-- The first character of a number is a sign or a digit. -/
private theorem writeNumber_eq_cons (n : Number) :
    ∃ c cs, writeNumber n = c :: cs ∧ (c = '-' ∨ c.isDigit) := by
  cases hneg : n.negative with
  | true =>
    exact ⟨'-', Nat.toDigits 10 n.significand ++ _, by simp only [writeNumber, hneg]; rfl, .inl rfl⟩
  | false =>
    cases hds : Nat.toDigits 10 n.significand with
    | nil => exact absurd hds Nat.toDigits_ne_nil
    | cons d ds =>
      have hd : d.isDigit :=
        Nat.isDigit_of_mem_toDigits (by decide) (by decide) (hds ▸ List.mem_cons_self)
      exact ⟨d, ds ++ _, by simp only [writeNumber, hneg, hds]; rfl, .inr hd⟩

/-- The first character of a value is no space and closes nothing. -/
private theorem pretty_eq_cons (level : Nat) (v : Json) :
    ∃ c cs, pretty level v = c :: cs ∧ isSpace c = false ∧ c ≠ ']' := by
  cases v with
  | null => exact ⟨_, _, rfl, by decide, by decide⟩
  | bool b => cases b <;> exact ⟨_, _, rfl, by decide, by decide⟩
  | number n =>
    obtain ⟨c, cs, hcs, hc⟩ := writeNumber_eq_cons n
    refine ⟨c, cs, by rw [pretty, hcs], ?_⟩
    rcases hc with rfl | hc
    · decide
    · constructor
      · cases hspace : isSpace c with
        | false => rfl
        | true =>
          simp only [isSpace, Bool.or_eq_true, decide_eq_true_eq] at hspace
          rcases hspace with ((rfl | rfl) | rfl) | rfl <;> simp at hc
      · rintro rfl
        simp at hc
  | string s => cases s <;> exact ⟨'"', _, rfl, by decide, by decide⟩
  | array items => cases items <;> exact ⟨'[', _, rfl, by decide, by decide⟩
  | object fields => cases fields <;> exact ⟨'{', _, rfl, by decide, by decide⟩

theorem skipSpaces_pretty (level : Nat) (v : Json) (rest : List Char) :
    skipSpaces (pretty level v ++ rest) = pretty level v ++ rest := by
  obtain ⟨c, cs, hcs, hspace, -⟩ := pretty_eq_cons level v
  rw [hcs, List.cons_append, skipSpaces_cons hspace]

theorem skipSpaces_quote (s : Option String) (rest : List Char) :
    skipSpaces (quote s ++ rest) = quote s ++ rest := by
  cases s <;> rfl

private theorem skipSpaces_blank (cs : List Char) : skipSpaces (' ' :: cs) = skipSpaces cs := rfl

private theorem skipSpaces_key (level : Nat) (key : Option String) (cs : List Char) :
    skipSpaces (breakLine level ++ (quote key ++ cs)) = quote key ++ cs := by
  rw [skipSpaces_breakLine, skipSpaces_quote]

/-- The items of an array begin like the first of them. -/
private theorem skipSpaces_prettyItems (level : Nat) (item : Json) (items : List Json)
    (rest : List Char) :
    ∃ c cs, skipSpaces (prettyItems level (item :: items) ++ rest) = c :: cs ∧ c ≠ ']' := by
  obtain ⟨c, cs, hcs, -, hclose⟩ := pretty_eq_cons level item
  cases items with
  | nil =>
    refine ⟨c, cs ++ rest, ?_, hclose⟩
    rw [prettyItems, List.append_assoc, skipSpaces_breakLine, skipSpaces_pretty, hcs,
      List.cons_append]
  | cons next items =>
    refine ⟨c, cs ++ (',' :: prettyItems level (next :: items) ++ rest), ?_, hclose⟩
    rw [prettyItems, List.append_assoc, List.append_assoc, skipSpaces_breakLine,
      skipSpaces_pretty, hcs]
    · rfl
    · simp

/-- The fields of an object begin with a quote. -/
private theorem skipSpaces_prettyFields (level : Nat) (field : Option String × Json)
    (fields : List (Option String × Json)) (rest : List Char) :
    ∃ cs, skipSpaces (prettyFields level (field :: fields) ++ rest) = '"' :: cs := by
  obtain ⟨key, value⟩ := field
  have hquote : ∀ cs, ∃ cs', skipSpaces (breakLine level ++ (quote key ++ cs)) = '"' :: cs' := by
    intro cs
    obtain ⟨cs', hcs', -⟩ := readText_quote key cs
    exact ⟨cs', by rw [skipSpaces_breakLine, skipSpaces_quote, hcs']⟩
  cases fields with
  | nil =>
    simp only [prettyFields, List.append_assoc]
    exact hquote _
  | cons next fields =>
    simp only [prettyFields, List.append_assoc]
    exact hquote _

private theorem endsNumber_cons {c : Char} (h : c.isDigit = false ∧ c ≠ '.' ∧ c ≠ 'e' ∧ c ≠ 'E')
    (cs : List Char) : EndsNumber (c :: cs) := by
  rintro d ⟨⟩
  exact h

private theorem endsNumber_breakLine (level : Nat) (cs : List Char) :
    EndsNumber (breakLine level ++ cs) :=
  endsNumber_cons (by decide) _

/-- What starts like a number is read as one. -/
private theorem readValue_of_sign {c : Char} (hc : c = '-' ∨ c.isDigit) (fuel : Nat)
    (cs : List Char) :
    readValue (fuel + 1) (c :: cs) =
      (readNumber (c :: cs)).map fun (n, rest) => (.number n, rest) := by
  have hne : ∀ d : Char, d ≠ '-' → d.isDigit = false → c ≠ d := by
    rintro d hminus hd rfl
    rcases hc with rfl | hc
    · exact hminus rfl
    · simp [hd] at hc
  have hspace : isSpace c = false := by
    simp [isSpace, hne ' ' (by decide) (by decide), hne '\n' (by decide) (by decide),
      hne '\t' (by decide) (by decide), hne '\r' (by decide) (by decide)]
  rw [readValue, skipSpaces_cons hspace]
  simp [hne 'n' (by decide) (by decide), hne 't' (by decide) (by decide),
    hne 'f' (by decide) (by decide), hne '"' (by decide) (by decide),
    hne '[' (by decide) (by decide), hne '{' (by decide) (by decide)]

private theorem readValue_array {c : Char} (hc : c ≠ ']') {fuel : Nat} {cs rest : List Char}
    (hcs : skipSpaces cs = c :: rest) :
    readValue (fuel + 1) ('[' :: cs) =
      (readItems fuel cs).map fun (items, rest) => (.array items, rest) := by
  rw [readItems_congr fuel (skipSpaces_skipSpaces cs).symm, readValue, skipSpaces_cons (by decide)]
  simp [hcs, hc]

private theorem readValue_object {c : Char} (hc : c ≠ '}') {fuel : Nat} {cs rest : List Char}
    (hcs : skipSpaces cs = c :: rest) :
    readValue (fuel + 1) ('{' :: cs) =
      (readFields fuel cs).map fun (fields, rest) => (.object fields, rest) := by
  rw [readFields_congr fuel (skipSpaces_skipSpaces cs).symm, readValue, skipSpaces_cons (by decide)]
  simp [hcs, hc]

private theorem readItems_last {fuel : Nat} {cs rest rest' : List Char} {item : Json}
    (hitem : readValue fuel cs = some (item, rest)) (hrest : skipSpaces rest = ']' :: rest') :
    readItems (fuel + 1) cs = some ([item], rest') := by
  simp [readItems, hitem, hrest]

private theorem readItems_more {fuel : Nat} {cs rest rest' : List Char} {item : Json}
    (hitem : readValue fuel cs = some (item, rest)) (hrest : skipSpaces rest = ',' :: rest') :
    readItems (fuel + 1) cs =
      (readItems fuel rest').map fun (items, rest) => (item :: items, rest) := by
  simp [readItems, hitem, hrest]

private theorem readFields_last {fuel : Nat} {cs text rest rest' : List Char} {key : Option String}
    {value : Json} (hkey : skipSpaces cs = quote key ++ ':' :: text)
    (hvalue : readValue fuel text = some (value, rest)) (hrest : skipSpaces rest = '}' :: rest') :
    readFields (fuel + 1) cs = some ([(key, value)], rest') := by
  obtain ⟨cs', hcs', hread⟩ := readText_quote key (':' :: text)
  rw [hcs'] at hkey
  simp [readFields, hkey, hread, skipSpaces_cons, isSpace, hvalue, hrest]

private theorem readFields_more {fuel : Nat} {cs text rest rest' : List Char} {key : Option String}
    {value : Json} (hkey : skipSpaces cs = quote key ++ ':' :: text)
    (hvalue : readValue fuel text = some (value, rest)) (hrest : skipSpaces rest = ',' :: rest') :
    readFields (fuel + 1) cs =
      (readFields fuel rest').map fun (fields, rest) => ((key, value) :: fields, rest) := by
  obtain ⟨cs', hcs', hread⟩ := readText_quote key (':' :: text)
  rw [hcs'] at hkey
  simp [readFields, hkey, hread, skipSpaces_cons, isSpace, hvalue, hrest]

private theorem breakLine_length_pos (level : Nat) : 0 < (breakLine level).length := by
  simp [breakLine]

mutual

/-- A value is read with any text behind it. A text that is no longer than the bound is read within
it, as every call has a character of its own. -/
theorem readValue_pretty : ∀ (v : Json) (level fuel : Nat) (rest : List Char), v.Canonical →
    (pretty level v).length ≤ fuel → EndsNumber rest →
    readValue fuel (pretty level v ++ rest) = some (v, rest)
  | v, level, 0, rest, _, hfuel, _ => by
    obtain ⟨c, cs, hcs, -⟩ := pretty_eq_cons level v
    simp [hcs] at hfuel
  | .null, level, fuel + 1, rest, _, _, _ => rfl
  | .bool true, level, fuel + 1, rest, _, _, _ => rfl
  | .bool false, level, fuel + 1, rest, _, _, _ => rfl
  | .number n, level, fuel + 1, rest, hv, _, hrest => by
    obtain ⟨c, cs, hcs, hc⟩ := writeNumber_eq_cons n
    have hread := readNumber_writeNumber hv hrest
    rw [pretty, hcs, List.cons_append, readValue_of_sign hc, ← List.cons_append, ← hcs, hread]
    rfl
  | .string s, level, fuel + 1, rest, _, _, _ => by
    obtain ⟨cs, hcs, hread⟩ := readText_quote s rest
    rw [readValue, skipSpaces_pretty, pretty, hcs]
    simp [hread]
  | .array [], level, fuel + 1, rest, _, _, _ => rfl
  | .array (item :: items), level, fuel + 1, rest, hv, hfuel, _ => by
    have hread := readItems_pretty (item :: items) (level + 1) level fuel rest (by simp) hv
      (by simp [pretty] at hfuel; omega)
    obtain ⟨c, cs, hcs, hclose⟩ := skipSpaces_prettyItems (level + 1) item items
      (breakLine level ++ ']' :: rest)
    simp only [pretty, List.cons_append, List.append_assoc, List.nil_append] at hread ⊢
    rw [readValue_array hclose hcs, hread]
    rfl
  | .object [], level, fuel + 1, rest, _, _, _ => rfl
  | .object (field :: fields), level, fuel + 1, rest, hv, hfuel, _ => by
    have hread := readFields_pretty (field :: fields) (level + 1) level fuel rest (by simp) hv
      (by simp [pretty] at hfuel; omega)
    obtain ⟨cs, hcs⟩ := skipSpaces_prettyFields (level + 1) field fields
      (breakLine level ++ '}' :: rest)
    simp only [pretty, List.cons_append, List.append_assoc, List.nil_append] at hread ⊢
    rw [readValue_object (by decide) hcs, hread]
    rfl

theorem readItems_pretty :
    ∀ (items : List Json) (level outer fuel : Nat) (rest : List Char), items ≠ [] →
    AllCanonical items → (prettyItems level items).length ≤ fuel →
    readItems fuel (prettyItems level items ++ breakLine outer ++ ']' :: rest) = some (items, rest)
  | [], _, _, _, _, h, _, _ => absurd rfl h
  | item :: items, level, _, 0, _, _, _, hfuel => by
    cases items <;> simp [prettyItems, breakLine] at hfuel
  | [item], level, outer, fuel + 1, rest, _, hitems, hfuel => by
    have hbreak := breakLine_length_pos level
    have hitem := readValue_pretty item level fuel (breakLine outer ++ ']' :: rest) hitems.1
      (by simp [prettyItems] at hfuel; omega) (endsNumber_breakLine _ _)
    rw [← readValue_congr fuel (skipSpaces_breakLine level _)] at hitem
    simp only [prettyItems, List.append_assoc]
    exact readItems_last hitem (by simp [skipSpaces_cons, isSpace])
  | item :: next :: items, level, outer, fuel + 1, rest, _, hitems, hfuel => by
    have hbreak := breakLine_length_pos level
    have hitem := readValue_pretty item level fuel
      (',' :: (prettyItems level (next :: items) ++ breakLine outer ++ ']' :: rest)) hitems.1
      (by simp [prettyItems] at hfuel; omega) (endsNumber_cons (by decide) _)
    have hmore := readItems_pretty (next :: items) level outer fuel rest (by simp) hitems.2
      (by simp [prettyItems] at hfuel ⊢; omega)
    rw [← readValue_congr fuel (skipSpaces_breakLine level _)] at hitem
    have hstep := readItems_more hitem (skipSpaces_cons (by decide) _)
    rw [hmore] at hstep
    simpa [prettyItems] using hstep

theorem readFields_pretty : ∀ (fields : List (Option String × Json)) (level outer fuel : Nat)
    (rest : List Char), fields ≠ [] → FieldsCanonical fields →
    (prettyFields level fields).length ≤ fuel →
    readFields fuel (prettyFields level fields ++ breakLine outer ++ '}' :: rest) =
      some (fields, rest)
  | [], _, _, _, _, h, _, _ => absurd rfl h
  | (key, value) :: fields, level, _, 0, _, _, _, hfuel => by
    cases fields <;> simp [prettyFields] at hfuel
  | [(key, value)], level, outer, fuel + 1, rest, _, hfields, hfuel => by
    have hbreak := breakLine_length_pos level
    have hvalue := readValue_pretty value level fuel (breakLine outer ++ '}' :: rest) hfields.1
      (by simp [prettyFields] at hfuel; omega) (endsNumber_breakLine _ _)
    rw [← readValue_congr fuel (skipSpaces_blank _)] at hvalue
    have hclose : skipSpaces (breakLine outer ++ '}' :: rest) = '}' :: rest := by
      rw [skipSpaces_breakLine, skipSpaces_cons (by decide)]
    have hstep := readFields_last (skipSpaces_key level key _) hvalue hclose
    simpa [prettyFields] using hstep
  | (key, value) :: next :: fields, level, outer, fuel + 1, rest, _, hfields, hfuel => by
    have hbreak := breakLine_length_pos level
    have hvalue := readValue_pretty value level fuel
      (',' :: (prettyFields level (next :: fields) ++ breakLine outer ++ '}' :: rest)) hfields.1
      (by simp [prettyFields] at hfuel; omega) (endsNumber_cons (by decide) _)
    have hmore := readFields_pretty (next :: fields) level outer fuel rest (by simp) hfields.2
      (by simp [prettyFields] at hfuel ⊢; omega)
    rw [← readValue_congr fuel (skipSpaces_blank _)] at hvalue
    have hstep :=
      readFields_more (skipSpaces_key level key _) hvalue (skipSpaces_cons (by decide) _)
    rw [hmore] at hstep
    simpa [prettyFields] using hstep

end

/-- The text of a value is read back as the value. -/
theorem parse_pretty {v : Json} (hv : v.Canonical) :
    parse (String.ofList (pretty 0 v)) = some v := by
  have hread :=
    readValue_pretty v 0 (2 * (pretty 0 v).length + 2) [] hv (by omega) (by simp [EndsNumber])
  rw [List.append_nil] at hread
  rw [parse, String.toList_ofList, hread]
  rfl

end Json
end JavaRecipes
