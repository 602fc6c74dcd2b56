import JavaRecipes.Recipe.Pattern
import JavaRecipes.Proofs.Text.Parts

/-!
The grammar of method patterns. A trimmed text is read as a pattern when it spells one whose parts
are well formed, and no text spells two of them: every part of the grammar ends where the reader
cuts (`parse_iff_spelled`).
-/

namespace JavaRecipes.MethodPattern

open Text

/-! ## The grammar -/

/-- Parameters with commas between them and blanks around each; without parameters there are only
blanks. -/
inductive Listed : List (List Char) → List Char → Prop
  | none {cs : List Char} (h : Blanks cs) : Listed [] cs
  | one {param cs : List Char} (h : Padded param cs) : Listed [param] cs
  | cons {param next cs rest : List Char} {params : List (List Char)} (h : Padded param cs)
      (hrest : Listed (next :: params) rest) : Listed (param :: next :: params) (cs ++ ',' :: rest)

/-- A text that can stand between two commas. -/
def IsParam (param : List Char) : Prop := param ≠ [] ∧ Trimmed param ∧ ',' ∉ param

/-- The parts of a pattern, each one such that its end can be seen. -/
structure Parts (declaring name : List Char) (params : List (List Char)) : Prop where
  declaring_ne : declaring ≠ []
  declaring_solid : ∀ c ∈ declaring, isBlank c = false
  name_ne : name ≠ []
  name_trimmed : Trimmed name
  name_closed : '(' ∉ name
  params_ok : ∀ param ∈ params, IsParam param

/-- A blank and more of them, the name, blanks, and the parameters in parentheses follow the
class. -/
def Spells (declaring name : List Char) (params : List (List Char)) (cs : List Char) : Prop :=
  ∃ c before after args, isBlank c = true ∧ Blanks before ∧ Blanks after ∧ Listed params args ∧
    cs = declaring ++ c :: (before ++ name ++ after ++ '(' :: args ++ [')'])

def WellFormed (p : MethodPattern) : Prop :=
  Parts p.declaring.toList p.name.toList (p.params.map String.toList)

def Spelled (p : MethodPattern) (cs : List Char) : Prop :=
  Spells p.declaring.toList p.name.toList (p.params.map String.toList) cs

/-- The pattern with one blank after the class and after each comma. -/
def render (p : MethodPattern) : String :=
  p.declaring ++ " " ++ p.name ++ "(" ++ joinWith ", " p.params ++ ")"

section

variable {cs args rest declaring name param : List Char} {params : List (List Char)}

theorem Listed.blanks_append {before : List Char} (hbefore : Blanks before) (h : Listed params cs) :
    Listed params (before ++ cs) := by
  cases h with
  | none h => exact .none (Text.blanks_append.2 ⟨hbefore, h⟩)
  | one h => exact .one (h.blanks_append hbefore)
  | cons h hrest => exact List.append_assoc before _ _ ▸ .cons (h.blanks_append hbefore) hrest

/-! ## Parameters -/

theorem IsParam.first (h : IsParam param) : ∃ c tail, param = c :: tail ∧ isBlank c = false := by
  obtain ⟨hne, htrimmed, -⟩ := h
  obtain ⟨c, tail, rfl⟩ := List.exists_cons_of_ne_nil hne
  exact ⟨c, tail, rfl, (trimmed_iff.1 htrimmed).1 c rfl⟩

theorem IsParam.not_blanks (hparam : IsParam param) (h : Padded param cs) : ¬ Blanks cs := by
  obtain ⟨c, tail, rfl, hc⟩ := hparam.first
  obtain ⟨before, after, -, -, rfl⟩ := h
  intro hblanks
  simp [hblanks c (by simp)] at hc

theorem Listed.not_blanks (hparam : IsParam param) (h : Listed (param :: params) cs) :
    ¬ Blanks cs := by
  cases h with
  | one h => exact hparam.not_blanks h
  | cons h hrest => exact fun hblanks => hparam.not_blanks h (Text.blanks_append.1 hblanks).1

theorem listed_splitAt (cs : List Char) : Listed ((Text.splitAt ',' cs).map trim) cs := by
  generalize hparts : Text.splitAt ',' cs = parts
  induction parts generalizing cs with
  | nil => exact absurd hparts (splitAt_ne_nil ',' cs)
  | cons part parts ih =>
    obtain ⟨-, ⟨rfl, rfl⟩ | ⟨rest, rfl, hrest⟩⟩ := first_splitAt hparts
    · exact .one (padded_trim cs)
    · have hlisted := ih rest hrest
      cases parts with
      | nil => exact absurd hrest (splitAt_ne_nil ',' rest)
      | cons next parts => exact .cons (padded_trim part) hlisted

theorem IsParam.comma_not_mem (hparam : IsParam param) (h : Padded param cs) : ',' ∉ cs := by
  obtain ⟨before, after, hbefore, hafter, rfl⟩ := h
  have hcomma : isBlank ',' = false := by decide
  simp [hbefore.not_mem hcomma, hafter.not_mem hcomma, hparam.2.2]

theorem IsParam.trim_eq (hparam : IsParam param) (h : Padded param cs) : trim cs = param :=
  trim_eq_iff.2 ⟨hparam.2.1, h⟩

theorem splitAt_of_listed (h : Listed (param :: params) cs)
    (hparams : ∀ q ∈ param :: params, IsParam q) :
    (Text.splitAt ',' cs).map trim = param :: params := by
  generalize hall : param :: params = all at h hparams
  induction h generalizing param params with
  | none h => cases hall
  | one h =>
    have hparam := hparams _ List.mem_cons_self
    rw [splitAt_of_not_mem (hparam.comma_not_mem h), List.map_singleton, hparam.trim_eq h]
  | cons h hrest ih =>
    obtain ⟨hparam, hparams⟩ := List.forall_mem_cons.1 hparams
    rw [splitAt_append, splitAt_of_not_mem (hparam.comma_not_mem h), List.map_append,
      List.map_singleton, hparam.trim_eq h, ih rfl hparams, List.singleton_append]

theorem parseParams_eq_some_iff :
    parseParams args = some params ↔ Listed params args ∧ ∀ param ∈ params, IsParam param := by
  by_cases hblanks : Blanks args
  · have hread : parseParams args = some [] := by simp [parseParams, trim_eq_nil_iff.2 hblanks]
    rw [hread]
    constructor
    · rintro ⟨⟩
      exact ⟨.none hblanks, by simp⟩
    · rintro ⟨hlisted, hparams⟩
      cases params with
      | nil => rfl
      | cons param params =>
        exact absurd hblanks (hlisted.not_blanks (hparams param List.mem_cons_self))
  · have hne : (trim args).isEmpty = false := by simpa using mt trim_eq_nil_iff.1 hblanks
    simp only [parseParams, hne, Bool.false_eq_true, if_false]
    constructor
    · intro h
      split at h
      · cases h
      · rename_i hfull
        obtain rfl := Option.some.inj h
        refine ⟨listed_splitAt args, fun param hparam => ⟨?_, ?_, ?_⟩⟩
        · rintro rfl
          exact hfull (List.any_eq_true.2 ⟨[], hparam, rfl⟩)
        · obtain ⟨part, -, rfl⟩ := List.mem_map.1 hparam
          exact trimmed_trim part
        · obtain ⟨part, hpart, rfl⟩ := List.mem_map.1 hparam
          exact fun hcomma => not_mem_of_mem_splitAt hpart (trim_subset part hcomma)
    · rintro ⟨hlisted, hparams⟩
      cases params with
      | nil =>
        cases hlisted with
        | none h => exact absurd h hblanks
      | cons param params =>
        rw [splitAt_of_listed hlisted hparams, if_neg]
        intro hempty
        obtain ⟨q, hq, hnil⟩ := List.any_eq_true.1 hempty
        exact (hparams q hq).1 (List.isEmpty_iff.1 hnil)

/-! ## The whole text -/

theorem dropClosing?_eq_some_iff : dropClosing? rest = some args ↔ rest = args ++ [')'] := by
  rw [dropClosing?]
  constructor
  · intro h
    split at h
    · rename_i hlast
      obtain rfl := Option.some.inj h
      exact (List.dropLast_append_getLast? ')' hlast).symm
    · cases h
  · rintro rfl
    simp

/-- What a reader finds in a text without blanks at its ends is spelled there. -/
theorem spells_of_parseParts (hcs : Trimmed cs)
    (h : parseParts cs = some (declaring, name, params)) :
    Parts declaring name params ∧ Spells declaring name params cs := by
  simp only [parseParts, Option.bind_eq_bind, Option.bind_eq_some_iff, Prod.exists] at h
  obtain ⟨declaring', signature, hcut, name', rest, hopen, args, hclose, h⟩ := h
  split at h
  · simp at h
  · rename_i hfull
    obtain ⟨params', hparams, h⟩ := Option.bind_eq_some_iff.1 h
    obtain ⟨rfl, rfl, rfl⟩ : declaring' = declaring ∧ trim name' = name ∧
        params' = params := by simpa using h
    obtain ⟨c, hc, rfl, hsolid⟩ := cutAt_eq_some hcut
    obtain ⟨paren, hparen, hsignature, hclosed⟩ := cutAt_eq_some hopen
    obtain rfl : paren = '(' := by simpa using hparen
    obtain rfl := dropClosing?_eq_some_iff.1 hclose
    obtain ⟨hlisted, hparams⟩ := parseParams_eq_some_iff.1 hparams
    obtain ⟨before, last, hbefore, hlast, hpadded⟩ := padded_trim signature
    obtain ⟨start, after, hstart, hafter, hname⟩ := padded_trim name'
    -- Nothing is left of the blanks at the end: the whole text has none there.
    obtain rfl : last = [] := by
      refine Trimmed.eq_nil_of_blanks ?_ hlast (a := declaring' ++ c :: (before ++ trim signature))
      rwa [List.append_assoc, List.cons_append, ← hpadded]
    refine ⟨⟨?_, hsolid, ?_, trimmed_trim name', ?_, hparams⟩, c, before ++ start, after, args, hc,
      Text.blanks_append.2 ⟨hbefore, hstart⟩, hafter, hlisted, ?_⟩
    · rintro rfl
      simp at hfull
    · intro hnil
      simp [hnil] at hfull
    · intro hmem
      simpa using hclosed _ (trim_subset name' hmem)
    · have hinner :
          signature = before ++ (start ++ trim name' ++ after) ++ '(' :: (args ++ [')']) := by
        rw [← hname, List.append_assoc, ← hsignature]
        simpa using hpadded
      rw [hinner]
      simp

/-- A well formed pattern is found in any text that spells it. -/
theorem parseParts_of_spells (hparts : Parts declaring name params)
    (hspells : Spells declaring name params cs) :
    parseParts cs = some (declaring, name, params) := by
  obtain ⟨c, before, after, args, hc, hbefore, hafter, hlisted, rfl⟩ := hspells
  obtain ⟨first, tail, hname⟩ := List.exists_cons_of_ne_nil hparts.name_ne
  have hfirst : isBlank first = false :=
    (trimmed_iff.1 hparts.name_trimmed).1 first (by simp [hname])
  have hsignature : trim (before ++ name ++ after ++ '(' :: args ++ [')']) =
      name ++ after ++ '(' :: args ++ [')'] := by
    refine trim_eq_iff.2 ⟨trimmed_iff.2 ⟨?_, ?_⟩, before, [], hbefore, .nil, by simp⟩
    · simp [hname, hfirst]
    · rintro last hlast
      rw [List.getLast?_concat, Option.mem_some_iff] at hlast
      subst hlast
      decide
  have hopen : cutAt (· = '(') (name ++ after ++ '(' :: args ++ [')']) =
      some (name ++ after, args ++ [')']) := by
    rw [List.append_assoc, List.cons_append]
    refine cutAt_append (fun x hx => ?_) (by simp)
    have hx : x ≠ '(' := by
      rintro rfl
      rcases List.mem_append.1 hx with hx | hx
      · exact hparts.name_closed hx
      · exact hafter.not_mem (by decide) hx
    simpa using hx
  have hname : trim (name ++ after) = name :=
    trim_eq_iff.2 ⟨hparts.name_trimmed, [], after, .nil, hafter, by simp⟩
  have hfull : (name.isEmpty || declaring.isEmpty) = false := by
    simp [hparts.name_ne, hparts.declaring_ne]
  simp only [parseParts, cutAt_append hparts.declaring_solid hc, Option.bind_eq_bind,
    Option.bind_some, hsignature, hopen, dropClosing?_eq_some_iff.2 rfl, hname, hfull,
    Bool.false_eq_true, if_false,
    parseParams_eq_some_iff.2 ⟨hlisted, hparts.params_ok⟩]

theorem parseParts_eq_some_iff (hcs : Trimmed cs) :
    parseParts cs = some (declaring, name, params) ↔
      Parts declaring name params ∧ Spells declaring name params cs :=
  ⟨spells_of_parseParts hcs, fun ⟨hparts, hspells⟩ => parseParts_of_spells hparts hspells⟩

end

section

variable {p : MethodPattern} {pattern : String}

theorem parse_eq_empty_iff : parse pattern = .error .empty ↔ Blanks pattern.toList := by
  rw [← trim_eq_nil_iff, parse]
  split
  · simp_all
  · split <;> simp_all

theorem parse_of_not_blanks (h : ¬ Blanks pattern.toList) :
    parse pattern = match parseParts (trim pattern.toList) with
      | some (declaring, name, params) =>
        .ok ⟨String.ofList declaring, String.ofList name, params.map String.ofList⟩
      | none => .error (.malformedMethod (String.ofList (trim pattern.toList))) := by
  have hne := mt trim_eq_nil_iff.1 h
  rw [parse]
  split
  · contradiction
  · rfl

theorem Spelled.not_nil (h : p.Spelled []) : False := by
  obtain ⟨c, before, after, args, -, -, -, -, hcs⟩ := h
  simp at hcs

theorem parse_eq_ok_iff :
    parse pattern = .ok p ↔ p.WellFormed ∧ p.Spelled (trim pattern.toList) := by
  by_cases hblanks : Blanks pattern.toList
  · have hread := parse_eq_empty_iff.2 hblanks
    constructor
    · intro h
      rw [hread] at h
      cases h
    · rintro ⟨-, hspelled⟩
      rw [trim_eq_nil_iff.2 hblanks] at hspelled
      exact hspelled.not_nil.elim
  · rw [parse_of_not_blanks hblanks, WellFormed, Spelled, ← parseParts_eq_some_iff (trimmed_trim _)]
    cases parseParts (trim pattern.toList) with
    | none => simp
    | some parts =>
      obtain ⟨declaring, name, params⟩ := parts
      constructor
      · intro h
        obtain rfl := Except.ok.inj h
        simp
      · intro h
        obtain ⟨rfl, rfl, rfl⟩ : declaring = p.declaring.toList ∧ name = p.name.toList ∧
            params = p.params.map String.toList := by
          simpa using h
        simp

/-! ## Rendering -/

theorem listed_joinWith : ∀ params : List String, Listed (params.map String.toList)
    (joinWith ", " params).toList
  | [] => .none .nil
  | [param] => .one (.refl param.toList)
  | param :: next :: params => by
    have hblank : Blanks [' '] := by
      intro c hc
      obtain rfl := List.mem_singleton.1 hc
      decide
    have hjoin : (joinWith ", " (param :: next :: params)).toList =
        param.toList ++ ',' :: ([' '] ++ (joinWith ", " (next :: params)).toList) := by
      simp [joinWith]
    rw [hjoin]
    exact .cons (.refl param.toList) ((listed_joinWith (next :: params)).blanks_append hblank)

theorem spelled_render (p : MethodPattern) : p.Spelled p.render.toList :=
  ⟨' ', [], [], (joinWith ", " p.params).toList,
    by decide, .nil, .nil, listed_joinWith p.params, by simp [render]⟩

theorem WellFormed.trimmed_render (h : p.WellFormed) : Trimmed p.render.toList := by
  obtain ⟨c, tail, hdeclaring⟩ := List.exists_cons_of_ne_nil h.declaring_ne
  refine trimmed_iff.2 ⟨?_, ?_⟩
  · simp [render, hdeclaring, h.declaring_solid c]
  · intro last hlast
    have hclose : p.render.toList =
        (p.declaring ++ " " ++ p.name ++ "(" ++ joinWith ", " p.params).toList ++ [')'] := by
      simp [render]
    rw [hclose, List.getLast?_concat, Option.mem_some_iff] at hlast
    subst hlast
    decide

theorem WellFormed.parse_render (h : p.WellFormed) : parse p.render = .ok p := by
  refine parse_eq_ok_iff.2 ⟨h, ?_⟩
  rw [show trim p.render.toList = p.render.toList from h.trimmed_render]
  exact spelled_render p

end

/-- A text is read as the pattern it spells after trimming, which reads back from its rendering. Any
other text is malformed, except that one with nothing but blanks is empty. -/
theorem parse_iff_spelled (pattern : String) :
    (∀ p, parse pattern = .ok p ↔ p.WellFormed ∧ p.Spelled (trim pattern.toList)) ∧
      (∀ p, parse pattern = .ok p → parse p.render = .ok p) ∧
      (parse pattern = .error .empty ↔ Blanks pattern.toList) ∧
      (¬ Blanks pattern.toList →
        (∀ p : MethodPattern, ¬ (p.WellFormed ∧ p.Spelled (trim pattern.toList))) →
        parse pattern = .error (.malformedMethod (String.ofList (trim pattern.toList)))) := by
  refine ⟨fun p => parse_eq_ok_iff, fun p h => (parse_eq_ok_iff.1 h).1.parse_render,
    parse_eq_empty_iff, ?_⟩
  intro hblanks hnone
  cases hread : parse pattern with
  | ok p => exact absurd (parse_eq_ok_iff.1 hread) (hnone p)
  | error e =>
    rw [parse_of_not_blanks hblanks] at hread
    split at hread
    · cases hread
    · exact hread.symm

/-- A name may hold blanks, and a parameter parentheses. -/
theorem parse_parenthesized :
    parse " org.T  f g ( a(b , (c)) " = .ok ⟨"org.T", "f g", ["a(b", "(c)"]⟩ ∧
      parse "org.T f g(a(b, (c))" = .ok ⟨"org.T", "f g", ["a(b", "(c)"]⟩ := by
  have hread : parse " org.T  f g ( a(b , (c)) " = .ok ⟨"org.T", "f g", ["a(b", "(c)"]⟩ := by
    decide +kernel
  exact ⟨hread, (parse_iff_spelled _).2.1 _ hread⟩

end JavaRecipes.MethodPattern
