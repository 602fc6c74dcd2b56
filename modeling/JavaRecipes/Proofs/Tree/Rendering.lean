import JavaRecipes.Tree.Layout

/-!
Rendering part by part. In the layout of a node, indentation is opened only at the end of a line and
closed again, and then what comes after it starts at the level that it would start at without it. So
the text of two such layouts in a row is that of the one and that of the other
(`Layout.render_append`), as long as neither stands inside an indented block.
-/

namespace JavaRecipes

namespace Layout

/-- Each level of indentation is opened after a line break, and closed. -/
inductive Balanced : Layout → Prop
  | nil : Balanced []
  | text {l : Layout} (s : String) : Balanced l → Balanced (.text s :: l)
  | newline {l : Layout} : Balanced l → Balanced (.newline :: l)
  | indented {body l : Layout} : Balanced body → Balanced l →
    Balanced (.newline :: .indent :: (body ++ .dedent :: l))

attribute [grind ←] Balanced.nil Balanced.text Balanced.newline Balanced.indented

namespace Balanced

variable {a b l : Layout}

@[grind ←]
theorem append (ha : Balanced a) (hb : Balanced b) : Balanced (a ++ b) := by
  induction ha with
  | nil => exact hb
  | text s _ ih => exact .text s ih
  | newline _ ih => exact .newline ih
  | indented hbody _ _ ih => simpa using Balanced.indented hbody ih

/-- After a balanced layout, a text goes on at the level that it was on before. -/
theorem exists_renderFrom_append (h : Balanced l) (level : Nat) (lineStart : Bool) :
    ∃ text lineStart', ∀ rest, renderFrom level lineStart (l ++ rest) =
      text ++ renderFrom level lineStart' rest := by
  induction h generalizing level lineStart with
  | nil => exact ⟨"", lineStart, by simp⟩
  | text s _ ih =>
    by_cases hs : s.isEmpty
    · obtain ⟨text, lineStart', htext⟩ := ih level lineStart
      exact ⟨text, lineStart', fun rest => by simp [renderFrom, hs, htext]⟩
    · obtain ⟨text, lineStart', htext⟩ := ih level false
      exact ⟨(if lineStart then margin level else "") ++ s ++ text, lineStart', fun rest => by
        simp [renderFrom, hs, htext, String.append_assoc]⟩
  | newline _ ih =>
    obtain ⟨text, lineStart', htext⟩ := ih level true
    exact ⟨"\n" ++ text, lineStart', fun rest => by simp [renderFrom, htext, String.append_assoc]⟩
  | indented _ _ ihbody ih =>
    obtain ⟨body, lineStart', hbody⟩ := ihbody (level + 1) true
    obtain ⟨text, lineStart'', htext⟩ := ih level lineStart'
    exact ⟨"\n" ++ body ++ text, lineStart'', fun rest => by
      simp [renderFrom, hbody, htext, String.append_assoc]⟩

/-- On the outermost level it does not show whether a line has just begun. -/
theorem renderFrom_zero (h : Balanced l) (lineStart : Bool) :
    renderFrom 0 lineStart l = l.render := by
  induction h generalizing lineStart with
  | nil => rfl
  | text s h ih =>
    have hmargin : (if lineStart then margin 0 else "") = "" := by cases lineStart <;> rfl
    rw [render, renderFrom, renderFrom, hmargin, ih lineStart, ih true]
    rfl
  | newline _ _ => rfl
  | indented _ _ _ _ => rfl

theorem render_append (ha : Balanced a) (hb : Balanced b) :
    (a ++ b).render = a.render ++ b.render := by
  obtain ⟨text, lineStart, htext⟩ := ha.exists_renderFrom_append 0 true
  have hatext : a.render = text := by simpa [render, renderFrom] using htext []
  rw [hatext, render, htext b, hb.renderFrom_zero]

@[grind ←]
theorem flatMap {α : Type} {as : List α} {part : α → Layout} (h : ∀ a, Balanced (part a)) :
    Balanced (as.flatMap part) := by
  induction as with
  | nil => exact .nil
  | cons a as ih => exact (h a).append ih

theorem separated (sep : String) {ls : List Layout} (h : ∀ l ∈ ls, Balanced l) :
    Balanced (separated sep ls) := by
  induction ls with
  | nil => exact .nil
  | cons l ls ih =>
    cases ls with
    | nil => exact h l List.mem_cons_self
    | cons l' ls =>
      exact (h l List.mem_cons_self).append
        (.text sep (ih fun l hl => h l (List.mem_cons_of_mem _ hl)))

@[grind ←]
theorem separated_map {α : Type} (sep : String) {as : List α} {part : α → Layout}
    (h : ∀ a, Balanced (part a)) :
    Balanced (Layout.separated sep (as.map part)) :=
  separated sep (by simpa using fun a _ => h a)

@[grind ←]
theorem paragraphs_map {α : Type} {as : List α} {part : α → Layout} (h : ∀ a, Balanced (part a)) :
    Balanced (paragraphs (as.map part)) := by
  induction as with
  | nil => exact .nil
  | cons a as ih =>
    cases as with
    | nil => exact h a
    | cons a' as => exact (h a).append (.newline ih)

end Balanced

@[simp]
theorem render_text (s : String) : render [.text s] = s := by
  by_cases hs : s.isEmpty
  · simp [render, renderFrom, String.isEmpty_iff.1 hs]
  · simp [render, renderFrom, hs, margin]

theorem render_text_cons (s : String) {l : Layout} (h : Balanced l) :
    render (.text s :: l) = s ++ l.render := by
  have happend := Balanced.render_append (.text s .nil) h
  rwa [render_text] at happend

theorem render_separated (sep : String) {ls : List Layout} (h : ∀ l ∈ ls, Balanced l) :
    (separated sep ls).render = sep.intercalate (ls.map render) := by
  induction ls with
  | nil => rfl
  | cons l ls ih =>
    cases ls with
    | nil => simp [separated]
    | cons l' ls =>
      have hrest := fun l hl => h l (List.mem_cons_of_mem _ hl)
      have hbalanced := Balanced.separated sep hrest
      change (l ++ .text sep :: separated sep (l' :: ls)).render = _
      rw [Balanced.render_append (h l List.mem_cons_self) (.text sep hbalanced),
        render_text_cons sep hbalanced, ih hrest]
      simp only [List.map_cons, String.intercalate_cons_cons, String.append_assoc]

end Layout

namespace Store

open Layout (Balanced)

@[grind ←]
theorem balanced_layoutModifiers (modifiers : List Modifier) :
    Balanced (layoutModifiers modifiers) := by
  induction modifiers with
  | nil => exact .nil
  | cons m modifiers ih => exact .text _ ih

section

variable (s : Store) {sub : Place → Ref → Layout} (hsub : ∀ place r, Balanced (sub place r))
include hsub

@[grind ←]
theorem balanced_layoutDeclaration (d : VariableDeclarations) :
    Balanced (s.layoutDeclaration sub d) := by
  have hvariable : ∀ r, Balanced (s.layoutVariable sub r) := by grind [layoutVariable]
  grind [layoutDeclaration]

@[grind ←]
theorem balanced_layoutParameter (r : Ref) : Balanced (s.layoutParameter sub r) := by
  grind [layoutParameter, layoutInlineAnnotations]

@[grind ←]
theorem balanced_layoutLambdaParameter (r : Ref) : Balanced (s.layoutLambdaParameter sub r) := by
  grind [layoutLambdaParameter]

@[grind ←]
theorem balanced_layoutInitial (r : Ref) : Balanced (s.layoutInitial sub r) := by
  grind [layoutInitial]

@[grind ←]
theorem balanced_layoutBlock (r : Ref) : Balanced (s.layoutBlock sub r) := by
  simp only [layoutBlock, List.cons_append, List.nil_append]
  grind

@[grind ←]
theorem balanced_layoutExpression (x : NodeData) : Balanced (s.layoutExpression sub x) := by
  cases x <;> simp only [layoutExpression, layoutClass, layoutMethod, layoutTry, layoutArguments,
    layoutAnnotationLines, List.append_assoc, List.cons_append, List.nil_append] <;> grind

@[grind ←]
theorem balanced_layoutStatement (x : NodeData) : Balanced (s.layoutStatement sub x) := by
  unfold layoutStatement
  split <;> grind [layoutInlineAnnotations]

/-- A payload is laid out in a balanced way when the nodes in it are. -/
theorem balanced_layoutAt (place : Place) (x : NodeData) : Balanced (s.layoutAt sub place x) := by
  cases place with
  | expression => exact s.balanced_layoutExpression hsub x
  | statement => exact s.balanced_layoutStatement hsub x
  | member =>
    change Balanced (s.layoutMember sub x)
    unfold layoutMember
    split <;> grind [layoutAnnotationLines]

end

/-- The layout of a node is balanced. -/
theorem balanced_layout (s : Store) (place : Place) (r : Ref) : Balanced (s.layout place r) := by
  unfold layout
  generalize s.size + 1 = depth
  induction depth generalizing place r with
  | zero => exact .nil
  | succ depth ih =>
    unfold layoutDepth
    split
    · exact .nil
    · exact s.balanced_layoutAt ih place _

end Store

end JavaRecipes
