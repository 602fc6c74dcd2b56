import JavaRecipes.Proofs.Text.Parts
import JavaRecipes.Proofs.Tree.Printing
import JavaRecipes.Proofs.Tree.Rendering

/-!
Operations in text. A tree of operators over names and numbers prints as its leaves and operators
from left to right with blanks between them, and the text has them all (`splitAt_text`). It has
nothing else: no parentheses stand around an operation inside another one, so trees that group the
same leaves and operators in different ways print alike (`printExpression_eq_iff`).
-/

namespace JavaRecipes

/-! ## Numbers and words -/

theorem toList_decimal {n : Int32} (h : 0 ≤ n) :
    (decimal n.toInt).toList = Nat.toDigits 10 n.toInt.natAbs := by
  have hn : ¬ n.toInt < 0 := by simpa using Int32.le_iff_toInt_le.1 h
  simp [decimal, hn]

theorem decimal_inj {n m : Int32} (hn : 0 ≤ n) (hm : 0 ≤ m)
    (h : decimal n.toInt = decimal m.toInt) : n = m := by
  have hdigits := congrArg String.toList h
  rw [toList_decimal hn, toList_decimal hm] at hdigits
  have habs : n.toInt.natAbs = m.toInt.natAbs := by
    rw [← Nat.ofDigitChars_toDigits (b := 10) (n := n.toInt.natAbs) (by decide) (by decide),
      hdigits, Nat.ofDigitChars_toDigits (by decide) (by decide)]
  have hn : 0 ≤ n.toInt := by simpa using Int32.le_iff_toInt_le.1 hn
  have hm : 0 ≤ m.toInt := by simpa using Int32.le_iff_toInt_le.1 hm
  exact Int32.toInt_inj.1 (by omega)

inductive CharKind where
  | blank | digit | mark | letter
  deriving DecidableEq, Repr

/-- What a character can be part of. All that is no blank, no digit and in no operator counts as a
letter. -/
def charKind (c : Char) : CharKind :=
  if c = ' ' then .blank
  else if c.isDigit then .digit
  else if c ∈ ['+', '-', '*', '/', '<', '>', '=', '!'] then .mark
  else .letter

structure IsWord (name : String) : Prop where
  nonempty : name ≠ ""
  letters : ∀ c ∈ name.toList, charKind c = .letter

instance (name : String) : Decidable (IsWord name) :=
  decidable_of_iff (name ≠ "" ∧ name.toList.all fun c => charKind c = .letter) <| by
    simp only [List.all_eq_true, decide_eq_true_eq]
    exact ⟨fun h => ⟨h.1, h.2⟩, fun h => ⟨h.nonempty, h.letters⟩⟩

/-! ## Operations -/

/-- A tree of operators over names and whole numbers. -/
inductive Operation where
  | name (word : String)
  | number (i : Int32)
  | binary (left : Operation) (operator : BinaryOperator) (right : Operation)
  deriving DecidableEq, Repr

namespace Operation

/-- What stands between two blanks. -/
inductive Item where
  | name (word : String)
  | number (i : Int32)
  | operator (o : BinaryOperator)
  deriving DecidableEq, Repr

def Item.spelling : Item → String
  | .name word => word
  | .number i => decimal i.toInt
  | .operator o => o.symbol

/-- The names are words, and no number has a sign. -/
def Item.Plain : Item → Prop
  | .name word => IsWord word
  | .number i => 0 ≤ i
  | .operator _ => True

/-- Leaves and operators from left to right. -/
def items : Operation → List Item
  | .name word => [.name word]
  | .number i => [.number i]
  | .binary left operator right => left.items ++ .operator operator :: right.items

def operators : Operation → List BinaryOperator
  | .name _ => []
  | .number _ => []
  | .binary left operator right => left.operators ++ operator :: right.operators

/-- The two trees branch at the same places. -/
def SameShape : Operation → Operation → Prop
  | .binary left _ right, .binary left' _ right' => left.SameShape left' ∧ right.SameShape right'
  | .binary .., _ => False
  | _, .binary .. => False
  | _, _ => True

def text : Operation → String
  | .name word => word
  | .number i => decimal i.toInt
  | .binary left operator right => left.text ++ " " ++ operator.symbol ++ " " ++ right.text

/-! ## Items and their spelling -/

namespace Item

variable {i j : Item}

def kind : Item → CharKind
  | .name _ => .letter
  | .number _ => .digit
  | .operator _ => .mark

theorem charKind_spelling (h : i.Plain) : ∀ c ∈ i.spelling.toList, charKind c = i.kind := by
  intro c hc
  cases i with
  | name word => exact h.letters c hc
  | number n =>
    rw [spelling, toList_decimal h] at hc
    have hdigit : c.isDigit = true := Nat.isDigit_of_mem_toDigits (by decide) (by decide) hc
    have hblank : c ≠ ' ' := by
      rintro rfl
      cases hdigit
    simp [charKind, hblank, hdigit, kind]
  | operator o =>
    have hmarks : (o.symbol.toList.all fun c => charKind c = .mark) = true := by cases o <;> decide
    exact of_decide_eq_true (List.all_eq_true.1 hmarks c hc)

theorem spelling_ne_empty (h : i.Plain) : i.spelling.toList ≠ [] := by
  cases i with
  | name word => simpa [spelling] using h.nonempty
  | number n => rw [spelling, toList_decimal h]; exact Nat.toDigits_ne_nil
  | operator o => cases o <;> decide

theorem blank_not_mem (h : i.Plain) : ' ' ∉ i.spelling.toList := by
  intro hmem
  have hkind := charKind_spelling h ' ' hmem
  cases i <;> cases hkind

theorem splitAt_spelling (h : i.Plain) : Text.splitAt ' ' i.spelling.toList = [i.spelling.toList] :=
  Text.splitAt_of_not_mem (blank_not_mem h)

theorem symbol_inj : ∀ {o o' : BinaryOperator}, o.symbol = o'.symbol → o = o' := by
  intro o o'
  cases o <;> cases o' <;> decide

/-- Different items are spelled differently: the first character tells which kind of item it is. -/
theorem spelling_inj (hi : i.Plain) (hj : j.Plain) (h : i.spelling = j.spelling) : i = j := by
  obtain ⟨c, rest, hc⟩ := List.exists_cons_of_ne_nil (spelling_ne_empty hi)
  have hkind : i.kind = j.kind := by
    rw [← charKind_spelling hi c (by simp [hc]), ← charKind_spelling hj c (by simp [← h, hc])]
  cases i <;> cases j <;> cases hkind
  · exact congrArg Item.name h
  · exact congrArg Item.number (decimal_inj hi hj h)
  · exact congrArg Item.operator (symbol_inj h)

theorem spellings_inj {is js : List Item} (his : ∀ i ∈ is, i.Plain) (hjs : ∀ j ∈ js, j.Plain)
    (h : is.map (·.spelling.toList) = js.map (·.spelling.toList)) : is = js := by
  induction is generalizing js with
  | nil => simpa using h.symm
  | cons i is ih =>
    cases js with
    | nil => simp at h
    | cons j js =>
      obtain ⟨hi, his⟩ := List.forall_mem_cons.1 his
      obtain ⟨hj, hjs⟩ := List.forall_mem_cons.1 hjs
      obtain ⟨hfirst, hrest⟩ := List.cons.inj h
      rw [spelling_inj hi hj (String.toList_inj.1 hfirst), ih his hjs hrest]

end Item

/-- The leaves are such that the text of one cannot be part of another. -/
def Plain (e : Operation) : Prop := ∀ i ∈ e.items, i.Plain

/-! ## The text -/

section

variable {e e' : Operation}

theorem Plain.binary {left right : Operation} {o : BinaryOperator} :
    (Operation.binary left o right).Plain ↔ left.Plain ∧ right.Plain := by
  simp [Plain, items, or_imp, forall_and, Item.Plain]

/-- The text is cut at its blanks into the items. -/
theorem splitAt_text (h : e.Plain) :
    Text.splitAt ' ' e.text.toList = e.items.map (·.spelling.toList) := by
  induction e with
  | name word =>
    simpa only [text, items, List.map_cons, List.map_nil, Item.spelling] using
      Item.splitAt_spelling (h (.name word) (by simp [items]))
  | number i =>
    simpa only [text, items, List.map_cons, List.map_nil, Item.spelling] using
      Item.splitAt_spelling (h (.number i) (by simp [items]))
  | binary left o right ihl ihr =>
    obtain ⟨hl, hr⟩ := Plain.binary.1 h
    have ho : Text.splitAt ' ' o.symbol.toList = [o.symbol.toList] :=
      Item.splitAt_spelling (i := .operator o) trivial
    have htext : (Operation.binary left o right).text.toList =
        left.text.toList ++ ' ' :: (o.symbol.toList ++ ' ' :: right.text.toList) := by simp [text]
    rw [htext, Text.splitAt_append, Text.splitAt_append, ho, ihl hl, ihr hr]
    simp [items, Item.spelling]

theorem items_ne_nil (e : Operation) : e.items ≠ [] := by
  cases e <;> simp [items]

theorem text_eq_intercalate (e : Operation) :
    e.text = " ".intercalate (e.items.map Item.spelling) := by
  induction e with
  | name word => simp [text, items, Item.spelling]
  | number i => simp [text, items, Item.spelling]
  | binary left o right ihl ihr =>
    have hleft : left.items.map Item.spelling ≠ [] := by simpa using left.items_ne_nil
    have hright : right.items.map Item.spelling ≠ [] := by simpa using right.items_ne_nil
    rw [text, items, List.map_append, List.map_cons,
      String.intercalate_append_of_ne_nil hleft (by simp),
      String.intercalate_cons_of_ne_nil hright, ← ihl, ← ihr]
    simp [Item.spelling, String.append_assoc]

/-- The text tells the leaves and operators from left to right, and nothing else. -/
theorem text_eq_iff (h : e.Plain) (h' : e'.Plain) : e.text = e'.text ↔ e.items = e'.items := by
  constructor
  · intro htext
    refine Item.spellings_inj h h' ?_
    rw [← splitAt_text h, ← splitAt_text h', htext]
  · intro hitems
    rw [text_eq_intercalate, text_eq_intercalate, hitems]

/-! ## Grouping -/

theorem length_items (e : Operation) : e.items.length = 2 * e.operators.length + 1 := by
  induction e with
  | name _ => rfl
  | number _ => rfl
  | binary left o right ihl ihr => simp [items, operators, ihl, ihr]; omega

theorem SameShape.length_items :
    ∀ {e e' : Operation}, e.SameShape e' → e.items.length = e'.items.length
  | .binary left _ right, .binary left' _ right', h => by
    simp [items, SameShape.length_items h.1, SameShape.length_items h.2]
  | .name _, .name _, _ => rfl
  | .name _, .number _, _ => rfl
  | .number _, .name _, _ => rfl
  | .number _, .number _, _ => rfl

/-- The leaves and operators in one shape make one tree. -/
theorem SameShape.eq_of_items : ∀ {e e' : Operation}, e.SameShape e' → e.items = e'.items → e = e'
  | .binary left o right, .binary left' o' right', h, hitems => by
    obtain ⟨hl, hr⟩ := List.append_inj hitems h.1.length_items
    obtain ⟨ho, hr⟩ := List.cons.inj hr
    rw [h.1.eq_of_items hl, h.2.eq_of_items hr, Item.operator.inj ho]
  | .name _, .name _, _, hitems => by simpa [items] using hitems
  | .name _, .number _, _, hitems => by simp [items] at hitems
  | .number _, .name _, _, hitems => by simp [items] at hitems
  | .number _, .number _, _, hitems => by simpa [items] using hitems

theorem sameShape_of_leaves (h : e.operators = []) (h' : e'.operators = []) : e.SameShape e' := by
  cases e <;> cases e' <;> simp [operators, SameShape] at h h' ⊢

/-- With at most one operator there is one shape. -/
theorem sameShape_of_operators (h : e.operators.length ≤ 1)
    (h' : e'.operators.length = e.operators.length) :
    e.SameShape e' := by
  cases e with
  | name _ => exact sameShape_of_leaves rfl (List.eq_nil_of_length_eq_zero h')
  | number _ => exact sameShape_of_leaves rfl (List.eq_nil_of_length_eq_zero h')
  | binary left o right =>
    simp only [operators, List.length_append, List.length_cons] at h h'
    cases e' with
    | name _ => simp [operators] at h'
    | number _ => simp [operators] at h'
    | binary left' o' right' =>
      simp only [operators, List.length_append, List.length_cons] at h'
      exact ⟨sameShape_of_leaves (List.eq_nil_of_length_eq_zero (by omega))
        (List.eq_nil_of_length_eq_zero (by omega)),
        sameShape_of_leaves (List.eq_nil_of_length_eq_zero (by omega))
          (List.eq_nil_of_length_eq_zero (by omega))⟩

/-- Another grouping of the leaves and operators, if there is one. -/
def regroup : Operation → Operation
  | .binary (.binary a p b) o right => .binary a p (.binary b o right)
  | .binary left o (.binary a p b) => .binary (.binary left o a) p b
  | e => e

theorem items_regroup (e : Operation) : e.regroup.items = e.items := by
  unfold regroup
  split <;> simp [items]

theorem regroup_ne : ∀ {e : Operation}, 2 ≤ e.operators.length → e.regroup ≠ e
  | .binary (.binary a p b) o right, _ => by
    intro heq
    have hsize := congrArg sizeOf (Operation.binary.inj heq).1
    simp at hsize
    omega
  | .binary (.name _) _ (.binary ..), _ => by simp [regroup]
  | .binary (.number _) _ (.binary ..), _ => by simp [regroup]
  | .binary (.name _) _ (.name _), h => by simp [operators] at h
  | .binary (.name _) _ (.number _), h => by simp [operators] at h
  | .binary (.number _) _ (.name _), h => by simp [operators] at h
  | .binary (.number _) _ (.number _), h => by simp [operators] at h
  | .name _, h => by simp [operators] at h
  | .number _, h => by simp [operators] at h

/-- Leaves and operators have one tree exactly when there is at most one operator. -/
theorem eq_of_items_iff (e : Operation) :
    (∀ e', e'.items = e.items → e' = e) ↔ e.operators.length ≤ 1 := by
  constructor
  · intro h
    by_contra htwo
    exact regroup_ne (by omega) (h e.regroup (items_regroup e))
  · intro h e' hitems
    have hlength := congrArg List.length hitems
    rw [length_items, length_items] at hlength
    exact ((sameShape_of_operators h (by omega)).eq_of_items hitems.symm).symm

end

end Operation

/-! ## In a store -/

theorem NodeData.mem_children_binary {d : Binary} {c : Ref} :
    c ∈ (NodeData.binary d).children ↔ (c = d.left ∧ c ≠ none) ∨ c = d.right ∧ c ≠ none := by
  simp only [children, childFields, List.flatMap_cons, List.flatMap_nil, List.append_nil,
    List.mem_append, ChildField.mem_children_one]

namespace Store

open Operation (Item)

/-- The nodes at `r` and below are those of an operation with plain leaves. -/
inductive Forms (s : Store) : Ref → Operation → Prop
  | name {r : Ref} {d : Identifier} (hdata : s.data? r = some (.identifier d))
    (hword : IsWord d.name) :
    Forms s r (.name d.name)
  | number {r : Ref} {i : Int32} {type : Option TypeId}
    (hdata : s.data? r = some (.literal ⟨.int i, type⟩))
    (hi : 0 ≤ i) : Forms s r (.number i)
  | binary {r : Ref} {d : Binary} {left right : Operation} (hdata : s.data? r = some (.binary d))
    (hleft : Forms s d.left left) (hright : Forms s d.right right) :
      Forms s r (.binary left d.operator right)

/-- A name that is a word, a number without a sign, or an operator between two nodes. -/
def OperationNode (s : Store) : NodeData → Prop
  | .identifier d => IsWord d.name
  | .literal ⟨.int i, _⟩ => 0 ≤ i
  | .binary d => (s.data? d.left).isSome ∧ (s.data? d.right).isSome
  | _ => False

/-- There is a node, and all below it are operators, names and numbers. -/
def IsOperation (s : Store) (r : Ref) : Prop :=
  (s.data? r).isSome ∧ ∀ n x, s.Reaches r n → s.data? (some n) = some x → s.OperationNode x

section

variable {s t : Store} {r : Ref} {e : Operation}

theorem Forms.plain (h : s.Forms r e) : e.Plain := by
  induction h with
  | name _ hword => simpa [Operation.Plain, Operation.items, Item.Plain] using hword
  | number _ hi => simpa [Operation.Plain, Operation.items, Item.Plain] using hi
  | binary _ _ _ ihl ihr => exact Operation.Plain.binary.2 ⟨ihl, ihr⟩

theorem Forms.isSome (h : s.Forms r e) : (s.data? r).isSome := by
  cases h with
  | name hdata => simp [hdata]
  | number hdata => simp [hdata]
  | binary hdata => simp [hdata]

theorem Forms.operationNode (h : s.Forms r e) : ∀ x, s.data? r = some x → s.OperationNode x := by
  intro x hx
  cases h with
  | name hdata hword =>
    obtain rfl := Option.some.inj (hdata.symm.trans hx)
    exact hword
  | number hdata hi =>
    obtain rfl := Option.some.inj (hdata.symm.trans hx)
    exact hi
  | binary hdata hleft hright =>
    obtain rfl := Option.some.inj (hdata.symm.trans hx)
    exact ⟨hleft.isSome, hright.isSome⟩

/-- What passes from the operands of an operation to the operation holds of all of them. -/
theorem Forms.of_children {P : Ref → Prop} (h : s.Forms r e)
    (hstep : ∀ {r e}, s.Forms r e → (∀ c ∈ s.children r, P c) → P r) : P r := by
  induction h with
  | name hdata hword =>
    exact hstep (.name hdata hword)
      (by simp [children_eq_of_data? hdata, NodeData.children, NodeData.childFields])
  | number hdata hi =>
    exact hstep (.number hdata hi)
      (by simp [children_eq_of_data? hdata, NodeData.children, NodeData.childFields])
  | binary hdata hleft hright ihl ihr =>
    refine hstep (.binary hdata hleft hright) fun c hc => ?_
    rw [children_eq_of_data? hdata] at hc
    rcases NodeData.mem_children_binary.1 hc with ⟨rfl, -⟩ | ⟨rfl, -⟩
    · exact ihl
    · exact ihr

theorem Forms.acyclic (h : s.Forms r e) : s.Acyclic r := h.of_children fun _ => acyclic_of_children

theorem Forms.isOperation (h : s.Forms r e) : s.IsOperation r := by
  refine h.of_children fun {r e} h hbelow => ⟨h.isSome, fun n x hn hx => ?_⟩
  rcases hn.eq_or_child with rfl | ⟨c, hc, hn⟩
  · exact h.operationNode x hx
  · exact (hbelow c hc).2 n x hn hx

/-- A tree without cycles whose nodes are operators, names and numbers is an operation. -/
theorem exists_forms_of_shallow {depth : Nat} (hr : s.IsOperation r)
    (hshallow : s.Shallow depth r) :
    ∃ e, s.Forms r e := by
  induction depth generalizing r with
  | zero => simp [show s.data? r = none from hshallow, IsOperation] at hr
  | succ depth ih =>
    obtain ⟨hsome, hbelow⟩ := hr
    obtain ⟨x, hx⟩ := Option.isSome_iff_exists.1 hsome
    obtain ⟨n, rfl⟩ := exists_of_data? hx
    have hnode := hbelow n x (.start rfl (lt_size_of_data? hx)) hx
    have hslot : ∀ c ∈ s.children (some n), (s.data? c).isSome →
        ∃ e, s.Forms c e := fun c hc hsome =>
      ih ⟨hsome, fun m y hm hy => hbelow m y (.of_child hc hm) hy⟩ (hshallow c hc)
    rw [children_eq_of_data? hx] at hslot
    match x, hnode with
    | .identifier d, hword => exact ⟨_, .name hx hword⟩
    | .literal ⟨.int i, _⟩, hi => exact ⟨_, .number hx hi⟩
    | .binary d, ⟨hleft, hright⟩ =>
      have hne : ∀ c, (s.data? c).isSome → c ≠ none := by
        rintro _ hc rfl
        simp [data?, get?] at hc
      obtain ⟨left, hl⟩ :=
        hslot d.left (NodeData.mem_children_binary.2 (.inl ⟨rfl, hne _ hleft⟩)) hleft
      obtain ⟨right, hr⟩ :=
        hslot d.right (NodeData.mem_children_binary.2 (.inr ⟨rfl, hne _ hright⟩)) hright
      exact ⟨_, .binary hx hl hr⟩

theorem exists_forms_iff : (∃ e, s.Forms r e) ↔ s.Acyclic r ∧ s.IsOperation r :=
  ⟨fun ⟨_, h⟩ => ⟨h.acyclic, h.isOperation⟩,
    fun ⟨hacyclic, hr⟩ => exists_forms_of_shallow hr (shallow_of_acyclic hacyclic)⟩

theorem Forms.printExpression_eq (h : s.Forms r e) : s.printExpression r = e.text := by
  induction h with
  | name hdata hword =>
    rw [printExpression, layout_eq_layoutAt (Forms.name hdata hword).acyclic hdata, layoutAt,
      layoutExpression, Layout.render_text, Operation.text]
  | number hdata hi =>
    rw [printExpression, layout_eq_layoutAt (Forms.number hdata hi).acyclic hdata, layoutAt,
      layoutExpression, Layout.render_text, LiteralValue.source, Operation.text]
  | @binary _ d left right hdata hleft hright ihl ihr =>
    have hbalanced := balanced_layout s .expression
    rw [printExpression] at ihl ihr ⊢
    rw [layout_eq_layoutAt (Forms.binary hdata hleft hright).acyclic hdata, layoutAt,
      layoutExpression,
      Layout.Balanced.render_append (hbalanced d.left) (.text _ (hbalanced d.right)),
      Layout.render_text_cons _ (hbalanced d.right), ihl, ihr, Operation.text]
    simp only [String.append_assoc]

/-- What is added to a store changes no operation in it. -/
theorem Forms.add (h : s.Forms r e) (data : NodeData) : (s.add data).2.Forms r e := by
  have hkept : ∀ {r : Ref} {x : NodeData}, s.data? r = some x →
      (s.add data).2.data? r = some x := by
    intro r x hx
    obtain ⟨n, rfl⟩ := exists_of_data? hx
    have hn : (some n : Ref) ≠ some s.size :=
      fun heq => (lt_size_of_data? hx).ne (Option.some.inj heq)
    rw [data?_add, if_neg hn, hx]
  induction h with
  | name hdata hword => exact .name (hkept hdata) hword
  | number hdata hi => exact .number (hkept hdata) hi
  | binary hdata _ _ ihl ihr => exact .binary (hkept hdata) ihl ihr

/-- Every operation with plain leaves is in some store, along with those that are there already. -/
theorem exists_forms (s : Store) (h : e.Plain) :
    ∃ t : Store, (∃ r, t.Forms r e) ∧ ∀ {r' e'}, s.Forms r' e' → t.Forms r' e' := by
  induction e generalizing s with
  | name word =>
    have hword : IsWord word := h (.name word) (by simp [Operation.items])
    let data : NodeData := .identifier ⟨word, none, none⟩
    exact ⟨(s.add data).2,
      ⟨some s.size, .name (d := ⟨word, none, none⟩) (by simp [data?_add, data]) hword⟩,
      fun h => h.add data⟩
  | number i =>
    have hi : 0 ≤ i := h (.number i) (by simp [Operation.items])
    let data : NodeData := .literal ⟨.int i, none⟩
    have hdata : (s.add data).2.data? (some s.size) = some data := by simp [data?_add]
    exact ⟨(s.add data).2, ⟨some s.size, .number hdata hi⟩, fun h => h.add data⟩
  | binary left o right ihl ihr =>
    obtain ⟨hleft, hright⟩ := Operation.Plain.binary.1 h
    obtain ⟨t, ⟨l, hl⟩, ht⟩ := ihl s hleft
    obtain ⟨u, ⟨r, hr⟩, hu⟩ := ihr t hright
    let data : NodeData := .binary ⟨l, o, r, none⟩
    exact ⟨(u.add data).2,
      ⟨some u.size, .binary (d := ⟨l, o, r, none⟩) (by simp [data?_add, data])
        ((hu hl).add data) (hr.add data)⟩,
      fun h => (hu (ht h)).add data⟩

end

/-- Two operations print alike exactly when they have the same leaves and operators from left to
right. So the text tells them apart when they are of one shape, and it tells an operation from all
others only if that has at most one operator. -/
theorem printExpression_eq_iff {s t : Store} {a b : Ref} (ha : s.Acyclic a) (ha' : s.IsOperation a)
    (hb : t.Acyclic b) (hb' : t.IsOperation b) :
    ∃ x y, s.Forms a x ∧ t.Forms b y ∧
      (s.printExpression a = t.printExpression b ↔ x.items = y.items) ∧
      (x.SameShape y → s.printExpression a = t.printExpression b → x = y) ∧
      ((∀ u c z, Forms u c z → u.printExpression c = s.printExpression a → z = x) ↔
        x.operators.length ≤ 1) := by
  obtain ⟨x, hx⟩ := exists_forms_iff.2 ⟨ha, ha'⟩
  obtain ⟨y, hy⟩ := exists_forms_iff.2 ⟨hb, hb'⟩
  have hprint : ∀ {u c z}, Forms u c z →
      (u.printExpression c = s.printExpression a ↔ z.items = x.items) := by
    intro u c z hz
    rw [hz.printExpression_eq, hx.printExpression_eq, Operation.text_eq_iff hz.plain hx.plain]
  have heq : s.printExpression a = t.printExpression b ↔ x.items = y.items := by
    rw [eq_comm, hprint hy, eq_comm]
  refine ⟨x, y, hx, hy, heq, fun hshape h => hshape.eq_of_items (heq.1 h), ?_⟩
  rw [← Operation.eq_of_items_iff]
  constructor
  · intro h z hitems
    have hz : z.Plain := by
      rw [Operation.Plain, hitems]
      exact hx.plain
    obtain ⟨u, ⟨c, hc⟩, -⟩ := exists_forms Store.empty hz
    exact h u c z hc ((hprint hc).2 hitems)
  · intro h u c z hz htext
    exact h z ((hprint hz).1 htext)

/-- Two groupings of `a - b - c`. -/
def subtractions : Store :=
  let leaf (holder : NodeId) (name : String) : Node := ⟨some holder, .identifier ⟨name, none, none⟩⟩
  ⟨#[leaf 2 "a", leaf 2 "b", ⟨some 4, .binary ⟨some 0, .subtract, some 1, none⟩⟩, leaf 4 "c",
    ⟨none, .binary ⟨some 2, .subtract, some 3, none⟩⟩, leaf 9 "a", leaf 8 "b", leaf 8 "c",
    ⟨some 9, .binary ⟨some 6, .subtract, some 7, none⟩⟩,
      ⟨none, .binary ⟨some 5, .subtract, some 8, none⟩⟩]⟩

private theorem forms_subtractions :
    subtractions.Forms (some 4)
        (.binary (.binary (.name "a") .subtract (.name "b")) .subtract (.name "c")) ∧
      subtractions.Forms (some 9)
        (.binary (.name "a") .subtract (.binary (.name "b") .subtract (.name "c"))) := by
  have hword : IsWord "a" ∧ IsWord "b" ∧ IsWord "c" := by decide
  have hleaf : ∀ n name,
      subtractions.data? (some n) = some (.identifier ⟨name, none, none⟩) → IsWord name →
      subtractions.Forms (some n) (.name name) := fun _ _ h hword => .name h hword
  have hinner : subtractions.Forms (some 2) (.binary (.name "a") .subtract (.name "b")) :=
    .binary (d := ⟨some 0, .subtract, some 1, none⟩) rfl (hleaf 0 "a" rfl hword.1)
      (hleaf 1 "b" rfl hword.2.1)
  have hinner' : subtractions.Forms (some 8) (.binary (.name "b") .subtract (.name "c")) :=
    .binary (d := ⟨some 6, .subtract, some 7, none⟩) rfl (hleaf 6 "b" rfl hword.2.1)
      (hleaf 7 "c" rfl hword.2.2)
  exact ⟨.binary (d := ⟨some 2, .subtract, some 3, none⟩) rfl hinner (hleaf 3 "c" rfl hword.2.2),
    .binary (d := ⟨some 5, .subtract, some 8, none⟩) rfl (hleaf 5 "a" rfl hword.1) hinner'⟩

/-- The two groupings are different operations, and their text is the same. -/
theorem printExpression_subtractions :
    ∃ x y, subtractions.Forms (some 4) x ∧ subtractions.Forms (some 9) y ∧ x ≠ y ∧
      subtractions.printExpression (some 4) = "a - b - c" ∧
      subtractions.printExpression (some 9) = "a - b - c" := by
  obtain ⟨hleft, hright⟩ := forms_subtractions
  refine ⟨_, _, hleft, hright, by decide, ?_, ?_⟩
  · rw [hleft.printExpression_eq]
    rfl
  · rw [hright.printExpression_eq]
    rfl

theorem printExpression_eq_iff_subtractions :
    ∃ x y, subtractions.Forms (some 4) x ∧ subtractions.Forms (some 9) y ∧
      (subtractions.printExpression (some 4) = subtractions.printExpression (some 9) ↔
        x.items = y.items) := by
  obtain ⟨hleft, hright⟩ := forms_subtractions
  obtain ⟨x, y, hx, hy, hprint, -⟩ :=
    printExpression_eq_iff hleft.acyclic hleft.isOperation hright.acyclic hright.isOperation
  exact ⟨x, y, hx, hy, hprint⟩

end Store

end JavaRecipes
