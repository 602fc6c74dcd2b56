import JavaRecipes.Proofs.Edit.Templates
import JavaRecipes.Proofs.Tree.Copies
import JavaRecipes.Proofs.Tree.Preorder
import JavaRecipes.Proofs.Tree.Rendering
import JavaRecipes.Proofs.Types.Exact

/-!
A node is replaced by a snippet over what is below it. Then the slot that held it has what the
snippet describes: it reads as the snippet does, has the type that the snippet gives, and the nodes
that the snippet uses link to the new nodes that hold them (`SourceFile.exists_instantiated`).
-/

namespace JavaRecipes

/-! ## What a snippet reads as -/

namespace Snippet

mutual

/-- The text of a snippet, given those of the nodes it uses. -/
def text (existing : Ref → String) : Snippet → String
  | .existing r => existing r
  | .stringLiteral value => quoteLiteral value
  | .typeName name => ClassName.simple name
  | .staticField target _ name _ => text existing target ++ "." ++ name
  | .invocation select signature arguments =>
    ((textOption existing select).map (· ++ ".")).getD "" ++ signature.name ++ "(" ++
      ", ".intercalate (textList existing arguments) ++ ")"

def textOption (existing : Ref → String) : Option Snippet → Option String
  | none => none
  | some s => some (text existing s)

def textList (existing : Ref → String) : List Snippet → List String
  | [] => []
  | s :: ss => text existing s :: textList existing ss

end

/-- The name of the type of a snippet, given those of the types of the nodes it uses. -/
def typeName? (existing : Ref → Option String) : Snippet → Option String
  | .existing r => existing r
  | .stringLiteral _ => some stringClass
  | .typeName name => some name
  | .staticField _ _ _ fieldType => fieldType
  | .invocation _ signature _ => signature.returns

open Layout (Balanced)

section

variable {layout : Ref → Layout} {existing : Ref → String}

mutual

/-- A snippet over nodes with these layouts has the text over their texts. -/
theorem render_template (hbalanced : ∀ r, Balanced (layout r)) : ∀ snippet : Snippet,
    (∀ r ∈ snippet.existingNodes, (layout r).render = existing r) →
      Balanced (snippet.template layout) ∧ (snippet.template layout).render = snippet.text existing
  | .existing r, hexisting => ⟨hbalanced r, hexisting r (List.mem_singleton_self r)⟩
  | .stringLiteral value, _ => ⟨.text _ .nil, Layout.render_text _⟩
  | .typeName name, _ => ⟨.text _ .nil, Layout.render_text _⟩
  | .staticField target _ name _, hexisting => by
    obtain ⟨htarget, hrender⟩ := render_template hbalanced target hexisting
    refine ⟨htarget.append (.text _ (.text _ .nil)), ?_⟩
    rw [template, htarget.render_append (.text _ (.text _ .nil)),
      Layout.render_text_cons _ (.text _ .nil), Layout.render_text, hrender, text,
      String.append_assoc]
  | .invocation select signature arguments, hexisting => by
    obtain ⟨hselect, hselectText⟩ := render_templateOption hbalanced select
      fun r hr => hexisting r (List.mem_append_left _ hr)
    obtain ⟨harguments, hargumentsText⟩ := render_templateList hbalanced arguments
      fun r hr => hexisting r (List.mem_append_right _ hr)
    have hclosed :
        Balanced (Layout.separated ", " (templateList layout arguments) ++ [.text ")"]) :=
      (Balanced.separated ", " harguments).append (.text _ .nil)
    have hcall : template layout (.invocation select signature arguments) =
        ((templateOption layout select).map (· ++ [.text "."])).getD [] ++
          .text signature.name :: .text "(" ::
            (Layout.separated ", " (templateList layout arguments) ++ [.text ")"]) := by
      simp [template, Layout.call]
    refine ⟨hcall ▸ hselect.append (.text _ (.text _ hclosed)), ?_⟩
    rw [hcall, hselect.render_append (.text _ (.text _ hclosed)),
      Layout.render_text_cons _ (.text _ hclosed), Layout.render_text_cons _ hclosed,
      (Balanced.separated ", " harguments).render_append (.text _ .nil),
      Layout.render_text, Layout.render_separated ", " harguments, hselectText,
        hargumentsText, text]
    simp only [String.append_assoc]

theorem render_templateOption (hbalanced : ∀ r, Balanced (layout r)) : ∀ snippet : Option Snippet,
    (∀ r ∈ existingNodesOption snippet, (layout r).render = existing r) →
      Balanced (((templateOption layout snippet).map (· ++ [Piece.text "."])).getD []) ∧
        Layout.render (((templateOption layout snippet).map (· ++ [Piece.text "."])).getD []) =
          ((textOption existing snippet).map (· ++ ".")).getD ""
  | none, _ => ⟨.nil, rfl⟩
  | some snippet, hexisting => by
    obtain ⟨hsnippet, hrender⟩ := render_template hbalanced snippet hexisting
    refine ⟨hsnippet.append (.text _ .nil), ?_⟩
    change Layout.render (snippet.template layout ++ [Piece.text "."]) =
      snippet.text existing ++ "."
    rw [hsnippet.render_append (.text _ .nil), Layout.render_text, hrender]

theorem render_templateList (hbalanced : ∀ r, Balanced (layout r)) : ∀ snippets : List Snippet,
    (∀ r ∈ existingNodesList snippets, (layout r).render = existing r) →
      (∀ l ∈ templateList layout snippets, Balanced l) ∧
        (templateList layout snippets).map Layout.render = textList existing snippets
  | [], _ => ⟨by simp [templateList], rfl⟩
  | snippet :: snippets, hexisting => by
    obtain ⟨hsnippet, hrender⟩ :=
      render_template hbalanced snippet fun r hr => hexisting r (List.mem_append_left _ hr)
    obtain ⟨hsnippets, hrenders⟩ := render_templateList hbalanced snippets
      fun r hr => hexisting r (List.mem_append_right _ hr)
    exact ⟨by simpa [templateList] using ⟨hsnippet, hsnippets⟩,
      by simp [templateList, textList, hrender, hrenders]⟩

end

end

end Snippet

/-! ## The type of what is built -/

/-- The name of the type of an expression. -/
def SourceFile.typeName? (f : SourceFile) (r : Ref) : Option String :=
  (f.store.expressionType f.types r).bind f.types.name?

theorem TypeTable.name?_push {t : TypeTable} {id : TypeId} {name : String}
    (h : t.name? id = some name) (e : TypeEntry) : (t.push e).name? id = some name := by
  rw [name?, get?_push, if_neg (lt_size_of_name? h).ne]
  exact h

theorem Store.expressionType_congr {s t : Store} {r : Ref} (h : t.data? r = s.data? r)
    (types : TypeTable) :
    t.expressionType types r = s.expressionType types r := by
  rw [expressionType, expressionType, h]

namespace Draft

theorem name?_typeNamed? {d : Draft} (h : d.types.IndexSound) (name : Option String) :
    (d.typeNamed? name).1.bind (d.typeNamed? name).2.types.name? = name := by
  cases name with
  | none => rfl
  | some name => exact (TypeTable.internName_spec h name).2

/-- What is built has the type that the snippet says. -/
theorem typeName?_materialize {d : Draft} (h : d.types.IndexSound) {snippet : Snippet}
    (hnew : ∀ r, snippet ≠ .existing r) (existing : Ref → Option String) :
    ((d.materialize snippet).2.store.expressionType (d.materialize snippet).2.types
      (d.materialize snippet).1).bind (d.materialize snippet).2.types.name? =
        snippet.typeName? existing := by
  cases snippet with
  | existing r => exact absurd rfl (hnew r)
  | stringLiteral value =>
    have hdata :=
      (d.classType stringClass).2.data?_add_self
        (.literal ⟨.string value, (d.classType stringClass).1⟩)
    simp only [materialize, stringLiteral, literal, literalType, fst_add,
      Store.expressionType, hdata]
    exact (classType_spec h stringClass).2
  | typeName name =>
    simp only [materialize, typeRef, identifier, fst_add, Store.expressionType, data?_add_self]
    exact (classType_spec h name).2
  | staticField target owner name fieldType =>
    have howner := (classType_spec (builds_materialize target d h).types.sound owner).1.types.sound
    have hname := name?_typeNamed? howner fieldType
    simp only [materialize, fst_add, Store.expressionType, data?_add_self]
    cases fieldType with
    | none => rfl
    | some fieldType => exact TypeTable.name?_push hname _
  | invocation select signature arguments =>
    have hsound :=
      (builds_materializeList arguments _
        (builds_materializeOption select d h).types.sound).types.sound
    obtain ⟨-, m, hm, hspells⟩ := TypeTable.internSignature_spec hsound signature
    have hreturns := hspells.bind_returns
    simp only [materialize, fst_add, Store.expressionType, data?_add_self]
    change (((TypeTable.internSignature _ signature).2.methodAt? _).bind (·.returns)).bind _ = _
    rw [hm]
    exact hreturns

end Draft

/-! ## Links to what is built -/

namespace Store

/-- The node links to a node from `limit` on that holds it. -/
def Adopted (s : Store) (limit m : NodeId) : Prop :=
  ∃ q, s.parent (some m) = some q ∧ limit ≤ q ∧ s.Holds q m

/-- `t` is `s` with nodes on top. What was adopted stays so, and what is used is loose or
adopted. -/
structure Takes (s : Store) (limit : NodeId) (used : List Ref) (t : Store)
    (loose : List Ref) : Prop where
  limit_le : limit ≤ s.size
  size_le : s.size ≤ t.size
  adopted : ∀ {m}, s.Adopted limit m → t.Adopted limit m
  used : ∀ {m}, some m ∈ used → m < s.size → some m ∈ loose ∨ t.Adopted limit m

namespace Takes

variable {s t u : Store} {limit : NodeId} {used used' loose loose' : List Ref}

theorem refl (h : limit ≤ s.size) (used : List Ref) : s.Takes limit used s used :=
  ⟨h, Nat.le_refl _, id, fun hm _ => .inl hm⟩

theorem append (h : s.Takes limit used t loose) (h' : t.Takes limit used' u loose') :
    s.Takes limit (used ++ used') u (loose ++ loose') where
  limit_le := h.limit_le
  size_le := h.size_le.trans h'.size_le
  adopted hm := h'.adopted (h.adopted hm)
  used := by
    intro m hm hlt
    rcases List.mem_append.1 hm with hm | hm
    · exact (h.used hm hlt).imp (List.mem_append_left _) h'.adopted
    · exact (h'.used hm (hlt.trans_le h.size_le)).imp_left (List.mem_append_right _)

/-- One more node, which may hold what was loose. -/
theorem add (h : s.Takes limit used t loose) {data : NodeData}
    (hdata : ∀ m, some m ∈ loose → some m ∈ data.children ∨ some m ∈ loose') :
    s.Takes limit used (t.add data).2 loose' := by
  have hnew : ∀ {m}, m < t.size → some m ∈ data.children →
      (t.add data).2.Adopted limit m := fun hm hmem =>
    ⟨t.size, (parent_add t data hm).trans (if_pos hmem), h.limit_le.trans h.size_le,
      holds_add.2 (.inl ⟨rfl, hmem⟩)⟩
  have hold : ∀ {m}, t.Adopted limit m → (t.add data).2.Adopted limit m := by
    rintro m ⟨q, hq, hle, hh⟩
    have hm := lt_size_of_parent hq
    by_cases hmem : some m ∈ data.children
    · exact hnew hm hmem
    · exact ⟨q, (parent_add t data hm).trans ((if_neg hmem).trans hq), hle,
        holds_add.2 (.inr ⟨(holds_lt_size hh).ne, hh⟩)⟩
  refine ⟨h.limit_le, ?_, fun hm => hold (h.adopted hm), fun {m} hm hlt => ?_⟩
  · rw [size_add]
    exact h.size_le.trans (Nat.le_succ _)
  · rcases h.used hm hlt with hloose | hadopted
    · exact (hdata m hloose).symm.imp_right (hnew (hlt.trans_le h.size_le))
    · exact .inr (hold hadopted)

end Takes

end Store

namespace Draft

theorem buildClosed_takes (limit : NodeId) :
    BuildClosed fun s used t loose => limit ≤ s.size → s.Takes limit used t loose where
  existing _ r h := .refl h [r]
  absent _ h := ⟨h, Nat.le_refl _, id, by simp⟩
  nil _ h := .refl h []
  leaf _ _ _ h := (Store.Takes.refl h []).add (by simp)
  append h h' hle := by
    have htakes := h hle
    exact htakes.append (h' (hle.trans htakes.size_le))
  addNamed _ _ h hcount hle := by
    refine ((h hle).add fun m hm => .inr hm).add fun m hm => .inl ?_
    exact (some_mem_iff_of_count hcount m).2 (List.mem_append_left _ hm)

/-- What a snippet uses is held by what is built, or is what is built. -/
theorem takes_materialize (snippet : Snippet) {d : Draft} {limit : NodeId}
    (h : limit ≤ d.store.size) :
    d.store.Takes limit snippet.existingNodes
      (d.materialize snippet).2.store [(d.materialize snippet).1] :=
  (buildClosed_takes limit).materialize snippet d h

end Draft

/-! ## In the place of a node -/

namespace Store

/-- What holds a node is not below it. -/
theorem Acyclic.not_reaches_holder {s : Store} {n p : NodeId} (h : s.Acyclic (some n))
    (hn : n < s.size) (hheld : s.Holds p n) : ¬ s.Reaches (some n) p :=
  fun hp => h n (.start rfl hn) (.tail' hp.reflTransGen hheld)

theorem Written.limit_le {s : Store} {limit k : NodeId} {snippet : Snippet}
    (h : s.Written limit snippet (some k)) (hnew : ∀ r, snippet ≠ .existing r) : limit ≤ k := by
  cases snippet with
  | existing r => exact absurd rfl (hnew r)
  | typeName name =>
    obtain ⟨n, hn, hle⟩ := Reads.fresh h
    exact Option.some.inj hn ▸ hle
  | _ =>
    obtain ⟨n, -, hn, hle, -⟩ := h
    exact Option.some.inj hn ▸ hle

/-- A splice elsewhere leaves what was adopted. -/
theorem Adopted.replaceChild {s u : Store} {limit m p n k : NodeId} (h : s.Adopted limit m)
    (hu : s.replaceChild (some p) (some n) (some k) = some u) (hp : p < limit) (hk : k ≠ m) :
    u.Adopted limit m := by
  obtain ⟨q, hq, hle, hheld⟩ := h
  have hqp : (some q : Ref) ≠ some p := by simpa using (hp.trans_le hle).ne'
  refine ⟨q, ?_, hle, ?_⟩
  · by_cases hm : m = n
    · subst hm
      rw [parent_replaceChild_old hu hk (hq ▸ hqp), hq]
    · rw [parent_replaceChild hu (by simpa using hm) (by simpa using hk.symm), hq]
  · rwa [Holds, (children_replaceChild hu).2 _ hqp]

/-- A tree that stays as it is, with no slot that the new nodes fill, is a copy of itself. -/
theorem copiedTo_id {s t : Store} {root : Ref}
    (hdata : ∀ m, s.Reaches root m → t.data? (some m) = s.data? (some m))
    (hfree : ∀ m c, s.Reaches root m → s.Holds m c → c < s.size ∨ t.size ≤ c) :
    s.CopiedTo root id t := by
  intro m x hm hx
  refine ⟨x, (hdata m hm).trans hx, .diag fun c hc => ?_⟩
  cases c with
  | none => exact .vacant
  | some c =>
    rw [NodeData.children_untyped] at hc
    by_cases hlt : c < s.size
    · exact .node hlt
    · have hheld := (holds_iff hx).2 (hc.resolve_left (by simp))
      exact .dangling (Nat.not_lt.1 hlt) ((hfree m c hm hheld).resolve_left hlt)

end Store

/-- A new node stands for a snippet that is more than a node of the file. -/
theorem Draft.size_le_of_materialize {d : Draft} {snippet : Snippet} {k : NodeId}
    (hsound : d.types.IndexSound) (hk : (d.materialize snippet).1 = some k)
    (hnew : ∀ r, snippet ≠ .existing r) : d.store.size ≤ k := by
  have hwritten := written_materialize snippet hsound (Nat.le_refl d.store.size)
  rw [hk] at hwritten
  exact hwritten.limit_le hnew

namespace SourceFile

/-- No slot at the nodes that a snippet uses, or below, is at the position of a node that `g` has on
top. -/
def Spared (f g : SourceFile) (snippet : Snippet) : Prop :=
  ∀ r ∈ snippet.existingNodes, ∀ m c, f.store.Reaches r m → f.store.Holds m c →
    c < f.store.size ∨ g.store.size ≤ c

/-- In `g`, the node `k` has come into the slot of `p` that had `n`, and is what the snippet
describes. -/
structure Instantiated (f g : SourceFile) (n p k : NodeId) (snippet : Snippet) : Prop where
  slot : ∃ before after, f.store.children (some p) = before ++ some n :: after ∧
    g.store.children (some p) = before ++ some k :: after
  type : g.typeName? (some k) = snippet.typeName? f.typeName?
  link : ∀ {e}, (∀ r, snippet ≠ .existing r) → some e ∈ snippet.existingNodes →
    g.store.Adopted f.store.size e
  text : f.Spared g snippet →
    g.store.printExpression (some k) = snippet.text f.store.printExpression

variable {f : SourceFile} {n p k : NodeId} {snippet : Snippet} {u : Store}

/-- The nodes that a snippet uses are at a node or below it. -/
def Below (f : SourceFile) (n : NodeId) (snippet : Snippet) : Prop :=
  ∀ r ∈ snippet.existingNodes, ∃ e, r = some e ∧ f.store.Reaches (some n) e

theorem apply_replaceExpression {d : Draft} (hparent : f.store.parent (some n) = some p)
    (hbelow : f.Below n snippet)
    (hd : Draft.applyEdit ⟨f.store, f.types⟩ (.replaceExpression (some n) snippet) = .ok d) :
    EditSet.apply ⟨[.replaceExpression (some n) snippet]⟩ f =
      .ok { f with store := d.store, types := d.types } := by
  have hn : (f.store.get? (some n)).isSome :=
    (f.store.get?_isSome_iff n).2 (Store.lt_size_of_parent hparent)
  have hmissing : missingFault? f snippet.existingNodes = none := by
    rw [missingFault?, Option.map_eq_none_iff, List.find?_eq_none]
    intro r hr
    obtain ⟨e, rfl, he⟩ := hbelow r hr
    simpa [Option.isNone_iff_eq_none, Option.isSome_iff_ne_none] using
      (f.store.get?_isSome_iff e).2 he.lt_size
  have hfault : Edit.fault? f (.replaceExpression (some n) snippet) = none := by
    rw [Edit.fault?, if_neg (by simpa [Option.isSome_iff_ne_none] using hn),
      if_neg (by simp [hparent]), hmissing]
  have hset : EditSet.fault? ⟨[.replaceExpression (some n) snippet]⟩ f = none := by
    simp [EditSet.fault?, EditSet.faultAfter?, hfault, Edit.conflict?, Edit.target?]
  simp [EditSet.apply, hset, Draft.applyEdits, hd]

section

/-! What is built over a node and put into its place, when the tree at the node has no cycle. -/

variable (hn : n < f.store.size) (hheld : f.store.Holds p n) (hacyclic : f.store.Acyclic (some n))
  (hu : ((Draft.mk f.store f.types).materialize snippet).2.store.replaceChild
    (some p) (some n) (some k) = some u)
include hn hheld hacyclic hu

/-- The tree stays as it is. -/
theorem data?_of_reaches {m : NodeId} (hm : f.store.Reaches (some n) m) :
    u.data? (some m) = f.store.data? (some m) := by
  obtain ⟨_, _, -, -, hdata⟩ := Store.data?_replaceChild hu
  have hne : (some m : Ref) ≠ some p := by
    rintro heq
    obtain rfl := Option.some.inj heq
    exact hacyclic.not_reaches_holder hn hheld hm
  rw [hdata, if_neg hne, (Draft.extends_materialize snippet _).data?_old hm.lt_size]

/-- What is built prints as the snippet reads. -/
theorem print_of_materialize (hsound : f.types.IndexSound) (hbelow : f.Below n snippet)
    (hk : ((Draft.mk f.store f.types).materialize snippet).1 = some k)
    (hfree : ∀ r ∈ snippet.existingNodes, ∀ m c, f.store.Reaches r m → f.store.Holds m c →
      c < f.store.size ∨ u.size ≤ c) :
    u.printExpression (some k) = snippet.text f.store.printExpression := by
  have hbuilt : ((Draft.mk f.store f.types).materialize snippet).2.store.Written
      f.store.size snippet (some k) :=
    hk ▸ Draft.written_materialize snippet hsound (Nat.le_refl _)
  have hwritten :=
    hbuilt.retained (.replaceChild hu (.inl (Store.holds_lt_size hheld))) (List.Subset.refl _)
  have hcopied : ∀ r ∈ snippet.existingNodes, r ≠ none ∧ f.store.Acyclic r ∧
      f.store.CopiedTo r id u ∧
      f.store.Matched r id u r r := by
    intro r hr
    obtain ⟨e, rfl, he⟩ := hbelow r hr
    refine ⟨by simp, fun m hm => hacyclic m (he.trans hm),
      Store.copiedTo_id
        (fun m hm => data?_of_reaches hn hheld hacyclic hu (he.trans hm)) (hfree _ hr),
      .node he.lt_size, fun m hm hlt => .start hm hlt⟩
  have hprintable : u.Printable snippet.existingNodes := by
    intro r hr
    obtain ⟨hsome, hr, hcopy, hmatched⟩ := hcopied r hr
    exact ⟨hsome, hcopy.acyclic hmatched hr⟩
  have hexisting : ∀ r ∈ snippet.existingNodes,
      (u.layout .expression r).render = f.store.printExpression r := by
    intro r hr
    obtain ⟨-, hr, hcopy, hmatched⟩ := hcopied r hr
    rw [← hcopy.layout_eq hmatched hr, Store.printExpression]
  rw [Store.printExpression, (hwritten.layout_eq hprintable).2]
  exact (Snippet.render_template (u.balanced_layout .expression) snippet hexisting).2

end

/-- A node that its parent holds can be replaced by a snippet over nodes at and below it, if its
tree has no cycle and the class index is sound. -/
theorem exists_instantiated (hparent : f.store.parent (some n) = some p) (hheld : f.store.Holds p n)
    (hacyclic : f.store.Acyclic (some n)) (hsound : f.types.IndexSound)
    (hbelow : f.Below n snippet) :
    ∃ g k, EditSet.apply ⟨[.replaceExpression (some n) snippet]⟩ f = .ok g ∧
      f.Instantiated g n p k snippet := by
  have hn := Store.lt_size_of_parent hparent
  have hp := Store.holds_lt_size hheld
  have hexisting : ∀ r ∈ snippet.existingNodes, (f.store.get? r).isSome := by
    intro r hr
    obtain ⟨e, rfl, he⟩ := hbelow r hr
    exact (f.store.get?_isSome_iff e).2 he.lt_size
  obtain ⟨k, u, hk, hu, hd⟩ := Draft.exists_splice (d := ⟨f.store, f.types⟩) hparent hheld hexisting
  have hextends := Draft.extends_materialize snippet ⟨f.store, f.types⟩
  have hdata := fun {m} => data?_of_reaches hn hheld hacyclic hu (m := m)
  refine ⟨_, k, apply_replaceExpression hparent hbelow hd, ?_, ?_, fun {e} hnew he => ?_,
    fun hspared => print_of_materialize hn hheld hacyclic hu hsound hbelow hk hspared⟩
  · obtain ⟨⟨before, after, hbefore, hafter⟩, -⟩ := Store.children_replaceChild hu
    rw [Store.children_congr (hextends.data?_old hp)] at hbefore
    exact ⟨before, after, hbefore, hafter⟩
  · by_cases hnew : ∀ r, snippet ≠ .existing r
    · have hne : (some k : Ref) ≠ some p := by
        have hle := Draft.size_le_of_materialize (d := ⟨f.store, f.types⟩) hsound hk hnew
        simpa using (hp.trans_le hle).ne'
      obtain ⟨_, _, -, -, hother⟩ := Store.data?_replaceChild hu
      have htype := Draft.typeName?_materialize (d := ⟨f.store, f.types⟩) hsound hnew f.typeName?
      rw [hk] at htype
      rw [typeName?, Store.expressionType_congr ((hother (some k)).trans (if_neg hne)), htype]
    · obtain ⟨r, rfl⟩ : ∃ r, snippet = .existing r := by simpa using hnew
      obtain ⟨e, rfl, he⟩ := hbelow r (List.mem_singleton_self r)
      obtain rfl : e = k := Option.some.inj hk
      rw [typeName?, Store.expressionType_congr (hdata he)]
      rfl
  · obtain ⟨e', he', hreach⟩ := hbelow _ he
    obtain rfl := Option.some.inj he'
    have hle := Draft.size_le_of_materialize (d := ⟨f.store, f.types⟩) hsound hk hnew
    have hne : k ≠ e := (hreach.lt_size.trans_le hle).ne'
    have htakes :=
      Draft.takes_materialize snippet (d := ⟨f.store, f.types⟩) (Nat.le_refl f.store.size)
    refine ((htakes.used he hreach.lt_size).resolve_left fun hloose => ?_).replaceChild hu hp hne
    rw [hk, List.mem_singleton] at hloose
    exact hne (Option.some.inj hloose).symm

/-- A block with one call, `log.info("x")`. -/
def loggingFile : SourceFile :=
  let d : Draft := {}
  let (log, d) := d.identifier "log" none
  let (message, d) := d.stringLiteral "x"
  let (name, d) := d.identifier "info" none
  let (call, d) := d.add (.methodInvocation ⟨some log, some name, [some message], none⟩)
  let (body, d) := d.block [some call]
  d.finish "Log.java" none [] [some body]

/-- A call over the call and over the string in it. -/
def describeSnippet : Snippet :=
  .invocation (some (.typeName "java.util.Objects"))
    ⟨"java.util.Objects", "toString", some stringClass,
      ["java.lang.Object", "sample.Level", stringClass]⟩
    [.existing (some 3),
      .staticField (.typeName "sample.Level") "sample.Level" "INFO" (some "sample.Level"),
      .existing (some 1)]

theorem exists_instantiated_loggingFile :
    ∃ g k, EditSet.apply ⟨[.replaceExpression (some 3) describeSnippet]⟩ loggingFile = .ok g ∧
      g.store.printExpression (some k) = "Objects.toString(log.info(\"x\"), Level.INFO, \"x\")" ∧
      g.typeName? (some k) = some stringClass ∧ g.store.Adopted 6 3 ∧ g.store.Adopted 6 1 := by
  have hbelow : loggingFile.Below 3 describeSnippet := by
    have hcall : loggingFile.store.Reaches (some 3) 3 := .start rfl (by decide +kernel)
    have hmessage : loggingFile.store.Reaches (some 3) 1 :=
      .step hcall (show some 1 ∈ _ by decide +kernel) (by decide +kernel)
    intro r hr
    have hcases : r = some 3 ∨ r = some 1 := by
      simpa [describeSnippet, Snippet.existingNodes, Snippet.existingNodesOption,
        Snippet.existingNodesList] using hr
    rcases hcases with rfl | rfl
    · exact ⟨3, rfl, hcall⟩
    · exact ⟨1, rfl, hmessage⟩
  obtain ⟨g, k, happly, hinst⟩ := exists_instantiated (p := 4) (by decide +kernel)
    (show some 3 ∈ _ by decide +kernel) (Store.acyclic_of_rank id (by decide +kernel) (some 3))
    (TypeTable.indexed_reindex _).sound hbelow
  have hfilled : ∀ m < 6, ∀ r ∈ loggingFile.store.children (some m), ∀ c ∈ r, c < 6 := by
    decide +kernel
  have hspared : loggingFile.Spared g describeSnippet := fun r _ m c _ hh =>
    .inl (hfilled m (Store.holds_lt_size hh) _ hh c rfl)
  have hnew : ∀ r, describeSnippet ≠ .existing r := by simp [describeSnippet]
  exact ⟨g, k, happly, (hinst.text hspared).trans (by decide +kernel),
    hinst.type.trans (by decide +kernel),
    hinst.link hnew (by decide +kernel), hinst.link hnew (by decide +kernel)⟩

/-! Without the last condition on the text, a slot of the file whose node is missing may show a new
one. -/

/-- What is returned is a field access that has no name: its slot is at the position after the last
node. -/
def danglingFile : SourceFile where
  path := "A.java"
  types := .empty
  root := some 3
  store := ⟨#[
    ⟨some 1, .identifier ⟨"a", none, none⟩⟩,
    ⟨some 2, .fieldAccess ⟨some 0, some 4, none⟩⟩,
    ⟨some 3, .returnStatement ⟨some 1⟩⟩,
    ⟨none, .compilationUnit ⟨none, [], [some 2]⟩⟩]⟩

/-- A call over the field access, with a string before it. -/
def wrapSnippet : Snippet :=
  .invocation none ⟨"sample.Log", "f", none, []⟩ [.stringLiteral "x", .existing (some 1)]

theorem not_text_danglingFile :
    (∀ n, ¬ Relation.TransGen danglingFile.store.Holds n n) ∧
    danglingFile.store.data? danglingFile.root = some (.compilationUnit ⟨none, [], [some 2]⟩) ∧
    (∀ n unit, danglingFile.store.data? (some n) = some (.compilationUnit unit) →
      danglingFile.root = some n) ∧
    (∀ name id, danglingFile.types.lookupClass name = some id ↔
      danglingFile.types.className? id = some name) ∧
    danglingFile.store.parent (some 1) = some 2 ∧ danglingFile.store.Holds 2 1 ∧
    danglingFile.Below 1 wrapSnippet ∧
    ∃ g, EditSet.apply ⟨[.replaceExpression (some 1) wrapSnippet]⟩ danglingFile = .ok g ∧
      g.store.children (some 2) = [some 6] ∧
      wrapSnippet.text danglingFile.store.printExpression = "f(\"x\", a.)" ∧
      g.store.printExpression (some 6) = "f(\"x\", a.\"x\")" := by
  have hbelow : danglingFile.Below 1 wrapSnippet := by
    intro r hr
    obtain rfl : r = some 1 := by
      simpa [wrapSnippet, Snippet.existingNodes, Snippet.existingNodesOption,
        Snippet.existingNodesList] using hr
    exact ⟨1, rfl, .start rfl (by decide)⟩
  have hacyclic : ∀ n, ¬ Relation.TransGen danglingFile.store.Holds n n := by
    intro n hcycle
    obtain ⟨_, hheld, -⟩ := Relation.TransGen.head'_iff.1 hcycle
    exact Store.acyclic_of_rank id (by decide) (some n) n
      (.start rfl (Store.holds_lt_size hheld)) hcycle
  have hunit : ∀ n < 4, (danglingFile.store.data? (some n)).map NodeData.kind =
      some .compilationUnit →
      danglingFile.root = some n := by decide
  refine ⟨hacyclic, rfl, fun n unit hx => hunit n (Store.lt_size_of_data? hx) (by rw [hx]; rfl),
    fun _ _ => TypeTable.exact_empty.lookupClass_eq_some_iff, rfl,
    show some 1 ∈ _ by decide, hbelow,
    (EditSet.apply ⟨[.replaceExpression (some 1) wrapSnippet]⟩ danglingFile).toOption.getD
      danglingFile,
    by decide +kernel, by decide +kernel, by decide +kernel, by decide +kernel⟩

end SourceFile

end JavaRecipes
