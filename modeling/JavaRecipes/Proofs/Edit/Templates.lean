import JavaRecipes.Proofs.Edit.Applicable
import JavaRecipes.Proofs.Edit.Snippets
import JavaRecipes.Proofs.Tree.Printing

/-!
What a snippet prints as. Building a snippet leaves new nodes that spell it, around the nodes of the
file that it uses (`written_materialize`). They stay as long as no edit gets at the slots of these
nodes, and print as the snippet reads (`Written.layout_eq`).
-/

namespace JavaRecipes

namespace Snippet

mutual

/-- The layout of a snippet, given those of the nodes it uses. -/
def template (existing : Ref → Layout) : Snippet → Layout
  | .existing r => existing r
  | .stringLiteral value => [.text (LiteralValue.string value).source]
  | .typeName name => [.text (ClassName.simple name)]
  | .staticField target _ name _ => template existing target ++ [.text ".", .text name]
  | .invocation select signature arguments =>
    Layout.call (templateOption existing select) [.text signature.name]
      (templateList existing arguments)

def templateOption (existing : Ref → Layout) : Option Snippet → Option Layout
  | none => none
  | some s => some (template existing s)

def templateList (existing : Ref → Layout) : List Snippet → List Layout
  | [] => []
  | s :: ss => template existing s :: templateList existing ss

end

end Snippet

namespace NodeData

theorem mem_children_fieldAccess {d : FieldAccess} {c : Ref} :
    c ∈ (fieldAccess d).children ↔ (c = d.target ∧ c ≠ none) ∨ c = d.name ∧ c ≠ none := by
  simp only [children, childFields, List.flatMap_cons, List.flatMap_nil, List.append_nil,
    List.mem_append, ChildField.mem_children_one]

theorem mem_children_methodInvocation {d : MethodInvocation} {c : Ref} :
    c ∈ (methodInvocation d).children ↔ (c = d.select ∧ c ≠ none) ∨ (c = d.name ∧ c ≠ none) ∨
      c ∈ d.arguments := by
  simp only [children, childFields, List.flatMap_cons, List.flatMap_nil, List.append_nil,
    List.mem_append, ChildField.mem_children_one, ChildField.mem_children_many]

/-- The slots of a call. -/
theorem among_methodInvocation (d : MethodInvocation) :
    ChildField.Among d.select (methodInvocation d).children ∧
      ChildField.Among d.name (methodInvocation d).children ∧
      ∀ a ∈ d.arguments, ChildField.Among a (methodInvocation d).children := by
  refine ⟨?_, ?_, fun a ha => .inr (mem_children_methodInvocation.2 (.inr (.inr ha)))⟩
  · by_cases h : d.select = none
    · exact .inl h
    · exact .inr (mem_children_methodInvocation.2 (.inl ⟨rfl, h⟩))
  · by_cases h : d.name = none
    · exact .inl h
    · exact .inr (mem_children_methodInvocation.2 (.inr (.inl ⟨rfl, h⟩)))

end NodeData

namespace Store

/-- A node from `limit` on is an identifier of the text. -/
def Reads (s : Store) (limit : NodeId) (text : String) (r : Ref) : Prop :=
  ∃ n d, r = some n ∧ limit ≤ n ∧ s.data? (some n) = some (.identifier d) ∧ d.name = text

mutual

/-- `r` is what the snippet describes, made of nodes from `limit` on and the nodes that the snippet
uses. -/
def Written (s : Store) (limit : NodeId) : Snippet → Ref → Prop
  | .existing r', r => r = r'
  | .stringLiteral value, r =>
    ∃ n d, r = some n ∧ limit ≤ n ∧ s.data? (some n) = some (.literal d) ∧ d.value = .string value
  | .typeName name, r => s.Reads limit (ClassName.simple name) r
  | .staticField target _ name _, r =>
    ∃ n d, r = some n ∧ limit ≤ n ∧ s.data? (some n) = some (.fieldAccess d) ∧
      Written s limit target d.target ∧
      s.Reads limit name d.name
  | .invocation select signature arguments, r =>
    ∃ n d, r = some n ∧ limit ≤ n ∧ s.data? (some n) = some (.methodInvocation d) ∧
      WrittenOption s limit select d.select ∧ s.Reads limit signature.name d.name ∧
      WrittenList s limit arguments d.arguments

def WrittenOption (s : Store) (limit : NodeId) : Option Snippet → Ref → Prop
  | none, r => r = none
  | some snippet, r => Written s limit snippet r

def WrittenList (s : Store) (limit : NodeId) : List Snippet → List Ref → Prop
  | [], rs => rs = []
  | snippet :: snippets, rs =>
    ∃ r rest, rs = r :: rest ∧ Written s limit snippet r ∧ WrittenList s limit snippets rest

end

variable {s t : Store} {limit : NodeId}

/-! ## What stays -/

theorem Reads.fresh {text : String} {r : Ref} (h : s.Reads limit text r) :
    ∃ n, r = some n ∧ limit ≤ n := by
  obtain ⟨n, -, rfl, hn, -⟩ := h
  exact ⟨n, rfl, hn⟩

/-- What is written is a new node, or one that the snippet uses. -/
theorem Written.fresh {snippet : Snippet} {r : Ref} (h : s.Written limit snippet r) :
    r ∈ snippet.existingNodes ∨ ∃ n, r = some n ∧ limit ≤ n := by
  cases snippet with
  | existing r' => exact .inl (by simpa [Written, Snippet.existingNodes] using h)
  | typeName name => exact .inr (Reads.fresh h)
  | _ =>
    obtain ⟨n, -, rfl, hn, -⟩ := h
    exact .inr ⟨n, rfl, hn⟩

theorem WrittenOption.fresh {snippet : Option Snippet} {r : Ref}
    (h : s.WrittenOption limit snippet r) :
    r = none ∨ r ∈ Snippet.existingNodesOption snippet ∨ ∃ n, r = some n ∧ limit ≤ n := by
  cases snippet with
  | none => exact .inl h
  | some snippet => exact .inr (Written.fresh h)

theorem WrittenList.fresh {snippets : List Snippet} {rs : List Ref}
    (h : s.WrittenList limit snippets rs) :
    ∀ r ∈ rs, r ∈ Snippet.existingNodesList snippets ∨ ∃ n, r = some n ∧ limit ≤ n := by
  induction snippets generalizing rs with
  | nil =>
    obtain rfl : rs = [] := h
    simp
  | cons snippet snippets ih =>
    obtain ⟨r, rest, rfl, hr, hrest⟩ := h
    intro c hc
    simp only [Snippet.existingNodesList, List.mem_append]
    rcases List.mem_cons.1 hc with rfl | hc
    · exact hr.fresh.imp_left .inl
    · exact (ih hrest c hc).imp_left .inr

/-- `t` has the new nodes of `s` whose slots lead to new nodes or to some of the given ones. -/
def Retains (s t : Store) (limit : NodeId) (used : List Ref) : Prop :=
  ∀ n x, limit ≤ n → s.data? (some n) = some x →
    (∀ c ∈ x.children, c ∈ used ∨ ∃ k, c = some k ∧ limit ≤ k) → t.data? (some n) = some x

section

variable {used : List Ref}

theorem Retains.trans {u : Store} (hst : s.Retains t limit used) (htu : t.Retains u limit used) :
    s.Retains u limit used :=
  fun n x hn hx hchildren => htu n x hn (hst n x hn hx hchildren) hchildren

/-- A splice changes nothing that is written, unless it is in a new node, for a node that is used
there. -/
theorem Retains.replaceChild {holder old new : NodeId}
    (h : s.replaceChild (some holder) (some old) (some new) = some t)
    (hapart : holder < limit ∨ old < limit ∧ some old ∉ used) : s.Retains t limit used := by
  obtain ⟨x, y, hx, -, hdata⟩ := data?_replaceChild h
  intro n z hn hz hchildren
  have hne : n ≠ holder := by
    rintro rfl
    obtain ⟨hold, hused⟩ := hapart.resolve_left (Nat.not_lt.2 hn)
    have hmem := mem_children_of_replaceChild h
    rw [children_eq_of_data? hz] at hmem
    obtain ⟨k, hk, hle⟩ := (hchildren _ hmem).resolve_left hused
    exact absurd hold (Option.some.inj hk ▸ Nat.not_lt.2 hle)
  rw [hdata, if_neg (by simpa using hne), hz]

theorem retains_updateData {n : NodeId} (hn : n < limit) (change : NodeData → NodeData) :
    s.Retains (s.updateData (some n) change) limit used := by
  intro m x hm hx _
  have hne : (some m : Ref) ≠ some n := by simpa using (hn.trans_le hm).ne'
  rw [data?_updateData, if_neg hne, hx]

theorem Reads.retained {text : String} {r : Ref} (hst : s.Retains t limit used)
    (h : s.Reads limit text r) :
    t.Reads limit text r := by
  obtain ⟨n, d, rfl, hn, hd, htext⟩ := h
  exact ⟨n, d, rfl, hn, hst n _ hn hd (by simp [NodeData.children, NodeData.childFields]), htext⟩

mutual

theorem Written.retained (hst : s.Retains t limit used) : ∀ {snippet : Snippet} {r : Ref},
    snippet.existingNodes ⊆ used → s.Written limit snippet r → t.Written limit snippet r
  | .existing _, _, _, h => h
  | .stringLiteral _, _, _, h => by
    obtain ⟨n, d, rfl, hn, hd, hvalue⟩ := h
    exact ⟨n, d, rfl, hn, hst n _ hn hd (by simp [NodeData.children, NodeData.childFields]), hvalue⟩
  | .typeName _, _, _, h => Reads.retained hst h
  | .staticField target _ name _, _, hused, h => by
    obtain ⟨n, d, rfl, hn, hd, htarget, hname⟩ := h
    refine ⟨n, d, rfl, hn, hst n _ hn hd fun c hc => ?_, Written.retained hst hused htarget,
      hname.retained hst⟩
    rcases NodeData.mem_children_fieldAccess.1 hc with ⟨rfl, -⟩ | ⟨rfl, -⟩
    · exact htarget.fresh.imp_left fun h => hused h
    · exact .inr hname.fresh
  | .invocation select signature arguments, _, hused, h => by
    obtain ⟨n, d, rfl, hn, hd, hselect, hname, harguments⟩ := h
    have hused' := List.append_subset.1 hused
    refine ⟨n, d, rfl, hn, hst n _ hn hd fun c hc => ?_,
      WrittenOption.retained hst hused'.1 hselect,
      hname.retained hst, WrittenList.retained hst hused'.2 harguments⟩
    rcases NodeData.mem_children_methodInvocation.1 hc with ⟨rfl, hsome⟩ | ⟨rfl, -⟩ | hc
    · exact (hselect.fresh.resolve_left hsome).imp_left fun h => hused'.1 h
    · exact .inr hname.fresh
    · exact (harguments.fresh c hc).imp_left fun h => hused'.2 h

theorem WrittenOption.retained (hst : s.Retains t limit used) :
    ∀ {snippet : Option Snippet} {r : Ref},
    Snippet.existingNodesOption snippet ⊆ used → s.WrittenOption limit snippet r →
    t.WrittenOption limit snippet r
  | none, _, _, h => h
  | some _, _, hused, h => Written.retained hst hused h

theorem WrittenList.retained (hst : s.Retains t limit used) :
    ∀ {snippets : List Snippet} {rs : List Ref},
    Snippet.existingNodesList snippets ⊆ used → s.WrittenList limit snippets rs →
    t.WrittenList limit snippets rs
  | [], _, _, h => h
  | _ :: _, _, hused, h => by
    obtain ⟨r, rest, rfl, hr, hrest⟩ := h
    have hused' := List.append_subset.1 hused
    exact ⟨r, rest, rfl, Written.retained hst hused'.1 hr, WrittenList.retained hst hused'.2 hrest⟩

end

end

/-! ## What is below -/

theorem Reads.le_of_reaches {text : String} {r : Ref} {k : NodeId} (h : s.Reads limit text r)
    (hk : s.Reaches r k) : limit ≤ k := by
  obtain ⟨n, d, rfl, hn, hd, -⟩ := h
  rcases hk.eq_or_child with heq | ⟨c, hc, -⟩
  · exact Option.some.inj heq ▸ hn
  · simp [children_eq_of_data? hd, NodeData.children, NodeData.childFields] at hc

mutual

/-- What is reached from a written snippet is new, or is reached from a node that it uses. -/
theorem Written.exists_reaches : ∀ {snippet : Snippet} {r : Ref} {k : NodeId},
    s.Written limit snippet r → s.Reaches r k → k < limit →
      ∃ a ∈ snippet.existingNodes, s.Reaches a k
  | .existing r', _, _, h, hk, _ => by
    obtain rfl : _ = r' := h
    exact ⟨_, List.mem_singleton_self _, hk⟩
  | .stringLiteral _, _, _, h, hk, hlt => by
    obtain ⟨n, d, rfl, hn, hd, -⟩ := h
    rcases hk.eq_or_child with heq | ⟨c, hc, -⟩
    · exact absurd hlt (Nat.not_lt.2 (Option.some.inj heq ▸ hn))
    · simp [children_eq_of_data? hd, NodeData.children, NodeData.childFields] at hc
  | .typeName _, _, _, h, hk, hlt => absurd hlt (Nat.not_lt.2 (Reads.le_of_reaches h hk))
  | .staticField target _ _ _, _, _, h, hk, hlt => by
    obtain ⟨n, d, rfl, hn, hd, htarget, hname⟩ := h
    rcases hk.eq_or_child with heq | ⟨c, hc, hk⟩
    · exact absurd hlt (Nat.not_lt.2 (Option.some.inj heq ▸ hn))
    · rw [children_eq_of_data? hd] at hc
      rcases NodeData.mem_children_fieldAccess.1 hc with ⟨rfl, -⟩ | ⟨rfl, -⟩
      · obtain ⟨a, ha, hak⟩ := Written.exists_reaches htarget hk hlt
        exact ⟨a, ha, hak⟩
      · exact absurd hlt (Nat.not_lt.2 (hname.le_of_reaches hk))
  | .invocation select _ arguments, _, _, h, hk, hlt => by
    obtain ⟨n, d, rfl, hn, hd, hselect, hname, harguments⟩ := h
    rcases hk.eq_or_child with heq | ⟨c, hc, hk⟩
    · exact absurd hlt (Nat.not_lt.2 (Option.some.inj heq ▸ hn))
    · rw [children_eq_of_data? hd] at hc
      rcases NodeData.mem_children_methodInvocation.1 hc with ⟨rfl, -⟩ | ⟨rfl, -⟩ | hc
      · obtain ⟨a, ha, hak⟩ := WrittenOption.exists_reaches hselect hk hlt
        exact ⟨a, List.mem_append_left _ ha, hak⟩
      · exact absurd hlt (Nat.not_lt.2 (hname.le_of_reaches hk))
      · obtain ⟨a, ha, hak⟩ := WrittenList.exists_reaches harguments hc hk hlt
        exact ⟨a, List.mem_append_right _ ha, hak⟩

theorem WrittenOption.exists_reaches : ∀ {snippet : Option Snippet} {r : Ref} {k : NodeId},
    s.WrittenOption limit snippet r → s.Reaches r k → k < limit →
      ∃ a ∈ Snippet.existingNodesOption snippet, s.Reaches a k
  | none, _, _, h, hk, _ => by
    obtain rfl : _ = none := h
    obtain ⟨n, hn, -⟩ := hk.exists_root
    cases hn
  | some _, _, _, h, hk, hlt => Written.exists_reaches h hk hlt

theorem WrittenList.exists_reaches : ∀ {snippets : List Snippet} {rs : List Ref} {r : Ref}
    {k : NodeId}, s.WrittenList limit snippets rs → r ∈ rs → s.Reaches r k → k < limit →
      ∃ a ∈ Snippet.existingNodesList snippets, s.Reaches a k
  | [], _, _, _, h, hr, _, _ => by
    obtain rfl : _ = [] := h
    cases hr
  | _ :: _, _, _, _, h, hr, hk, hlt => by
    obtain ⟨first, rest, rfl, hfirst, hrest⟩ := h
    rcases List.mem_cons.1 hr with rfl | hr
    · obtain ⟨a, ha, hak⟩ := Written.exists_reaches hfirst hk hlt
      exact ⟨a, List.mem_append_left _ ha, hak⟩
    · obtain ⟨a, ha, hak⟩ := WrittenList.exists_reaches hrest hr hk hlt
      exact ⟨a, List.mem_append_right _ ha, hak⟩

end

/-! ## What is printed -/

section

/-- The nodes that a snippet uses are nodes, and nothing below them is above them. -/
def Printable (s : Store) (used : List Ref) : Prop := ∀ r ∈ used, r ≠ none ∧ s.Acyclic r

theorem acyclic_of_leaf {r : Ref} {x : NodeData} (hx : s.data? r = some x)
    (hleaf : x.children = []) :
    s.Acyclic r :=
  acyclic_of_children (by simp [children_eq_of_data? hx, hleaf])

theorem Reads.layout_eq {text : String} {r : Ref} (h : s.Reads limit text r) :
    s.Acyclic r ∧ s.layout .expression r = [.text text] := by
  obtain ⟨n, d, rfl, -, hd, rfl⟩ := h
  have hacyclic := acyclic_of_leaf hd rfl
  exact ⟨hacyclic, by rw [layout_eq_layoutAt hacyclic hd]; rfl⟩

mutual

/-- What is written prints as the snippet reads. -/
theorem Written.layout_eq : ∀ {snippet : Snippet} {r : Ref}, s.Printable snippet.existingNodes →
    s.Written limit snippet r →
      s.Acyclic r ∧ s.layout .expression r = snippet.template (s.layout .expression)
  | .existing r', _, hused, h => by
    obtain rfl : _ = r' := h
    exact ⟨(hused _ (List.mem_singleton_self _)).2, rfl⟩
  | .stringLiteral _, _, _, h => by
    obtain ⟨n, d, rfl, hn, hd, hvalue⟩ := h
    have hacyclic := acyclic_of_leaf hd rfl
    refine ⟨hacyclic, ?_⟩
    rw [layout_eq_layoutAt hacyclic hd, Snippet.template, ← hvalue]
    rfl
  | .typeName _, _, _, h => Reads.layout_eq h
  | .staticField target _ name _, _, hused, h => by
    obtain ⟨n, d, rfl, hn, hd, htarget, hname⟩ := h
    have hused : s.Printable target.existingNodes := hused
    obtain ⟨htacyclic, htlayout⟩ := Written.layout_eq hused htarget
    obtain ⟨hnacyclic, hnlayout⟩ := hname.layout_eq
    have hacyclic : s.Acyclic (some n) := by
      refine acyclic_of_children fun c hc => ?_
      rw [children_eq_of_data? hd] at hc
      rcases NodeData.mem_children_fieldAccess.1 hc with ⟨rfl, -⟩ | ⟨rfl, -⟩
      · exact htacyclic
      · exact hnacyclic
    refine ⟨hacyclic, ?_⟩
    rw [layout_eq_layoutAt hacyclic hd]
    simp only [layoutAt, layoutExpression, htlayout, hnlayout, Snippet.template]
  | .invocation select signature arguments, _, hused, h => by
    obtain ⟨n, d, rfl, hn, hd, hselect, hname, harguments⟩ := h
    obtain ⟨hsacyclic, hslayout⟩ :=
      WrittenOption.layout_eq (fun r hr => hused r (List.mem_append_left _ hr)) hselect
    obtain ⟨haacyclic, halayout⟩ :=
      WrittenList.layout_eq (fun r hr => hused r (List.mem_append_right _ hr)) harguments
    obtain ⟨hnacyclic, hnlayout⟩ := hname.layout_eq
    have hacyclic : s.Acyclic (some n) := by
      refine acyclic_of_children fun c hc => ?_
      rw [children_eq_of_data? hd] at hc
      rcases NodeData.mem_children_methodInvocation.1 hc with ⟨rfl, hsome⟩ | ⟨rfl, -⟩ | hc
      · exact hsacyclic
      · exact hnacyclic
      · exact haacyclic c hc
    refine ⟨hacyclic, ?_⟩
    rw [layout_eq_layoutAt hacyclic hd, layoutAt, layoutExpression_methodInvocation, hslayout,
      hnlayout, halayout, Snippet.template]

theorem WrittenOption.layout_eq : ∀ {snippet : Option Snippet} {r : Ref},
    s.Printable (Snippet.existingNodesOption snippet) → s.WrittenOption limit snippet r →
      s.Acyclic r ∧ (r.map fun n => s.layout .expression (some n)) =
        Snippet.templateOption (s.layout .expression) snippet
  | none, _, _, h => by
    obtain rfl : _ = none := h
    refine ⟨acyclic_of_children fun c hc => ?_, rfl⟩
    simp [children, data?, get?] at hc
  | some snippet, r, hused, h => by
    obtain ⟨hacyclic, hlayout⟩ := Written.layout_eq hused h
    have hsome : r ≠ none := by
      rcases Written.fresh h with hr | ⟨n, rfl, -⟩
      · exact (hused r hr).1
      · simp
    obtain ⟨n, rfl⟩ := Option.ne_none_iff_exists'.1 hsome
    exact ⟨hacyclic, congrArg some hlayout⟩

theorem WrittenList.layout_eq : ∀ {snippets : List Snippet} {rs : List Ref},
    s.Printable (Snippet.existingNodesList snippets) → s.WrittenList limit snippets rs →
      (∀ r ∈ rs, s.Acyclic r) ∧ rs.map (s.layout .expression) =
        Snippet.templateList (s.layout .expression) snippets
  | [], _, _, h => by
    obtain rfl : _ = [] := h
    exact ⟨by simp, rfl⟩
  | _ :: _, _, hused, h => by
    obtain ⟨r, rest, rfl, hr, hrest⟩ := h
    obtain ⟨hacyclic, hlayout⟩ :=
      Written.layout_eq (fun r hr => hused r (List.mem_append_left _ hr)) hr
    obtain ⟨hacyclics, hlayouts⟩ :=
      WrittenList.layout_eq (fun r hr => hused r (List.mem_append_right _ hr)) hrest
    exact ⟨by simpa using ⟨hacyclic, hacyclics⟩, by simp [hlayout, hlayouts, Snippet.templateList]⟩

end

end

end Store

/-! ## Building -/

namespace Draft

theorem typeSpelling_of_className? {types : TypeTable} {id : TypeId} {name : String}
    (h : types.className? id = some name) : typeSpelling types id = ClassName.simple name := by
  obtain ⟨c, hc, rfl⟩ := Option.map_eq_some_iff.1 h
  obtain ⟨e, he, hec⟩ := Option.bind_eq_some_iff.1 hc
  cases e with
  | classType c' =>
    obtain rfl := Option.some.inj hec
    rw [typeSpelling, he]
  | _ => cases hec

theorem className?_classType {d : Draft} (h : d.types.IndexSound) (name : String) :
    (d.classType name).2.types.className? (d.classType name).1 = some name :=
  h.internClass name none name _ ((TypeTable.lookupClass_internClass ..).trans (if_pos rfl))

theorem data?_add_self (d : Draft) (data : NodeData) :
    (d.add data).2.store.data? (some d.store.size) = some data :=
  (Store.data?_add _ _ _).trans (if_pos rfl)

/-- The nodes that are there do not change when others are added. -/
theorem Builds.retains {signatures : List MethodSignature} {d d' : Draft}
    (h : Builds signatures d d') (limit : NodeId) (used : List Ref) :
    d.store.Retains d'.store limit used :=
  fun _ _ _ hx _ => (h.data?_old (Store.lt_size_of_data? hx)).trans hx

theorem retains_add (d : Draft) (data : NodeData) (limit : NodeId) (used : List Ref) :
    d.store.Retains (d.add data).2.store limit used := by
  intro n x _ hx _
  have hne : (some n : Ref) ≠ some d.store.size := by simpa using (Store.lt_size_of_data? hx).ne
  exact (Store.data?_add _ _ _).trans ((if_neg hne).trans hx)

theorem retains_addNamed (d : Draft) (name : Identifier) (data : NodeData) (limit : NodeId)
    (used : List Ref) :
    d.store.Retains ((d.add (.identifier name)).2.add data).2.store limit used :=
  (retains_add d _ limit used).trans (retains_add _ data limit used)

theorem reads_addNamed {d : Draft} {limit : NodeId} (hlimit : limit ≤ d.store.size)
    (name : Identifier) (data : NodeData) :
    ((d.add (.identifier name)).2.add data).2.store.Reads limit name.name
      (some (d.add (.identifier name)).1) :=
  .retained (retains_add _ data limit []) ⟨_, name, rfl, hlimit, d.data?_add_self _, rfl⟩

mutual

/-- Building a snippet writes it. -/
theorem written_materialize :
    ∀ (snippet : Snippet) {d : Draft} {limit : NodeId}, d.types.IndexSound →
    limit ≤ d.store.size →
    (d.materialize snippet).2.store.Written limit snippet (d.materialize snippet).1
  | .existing _, _, _, _, _ => rfl
  | .stringLiteral value, d, limit, h, hlimit => ⟨_, _, rfl, hlimit, data?_add_self _ _, rfl⟩
  | .typeName name, d, limit, h, hlimit =>
    ⟨_, _, rfl, hlimit, data?_add_self _ _,
      typeSpelling_of_className? (className?_classType h name)⟩
  | .staticField target owner name fieldType, d, limit, h, hlimit => by
    have htarget := written_materialize target h hlimit
    have hsize := hlimit.trans (builds_materialize target d h).size_le
    have hstore : (((d.materialize target).2.classType owner).2.typeNamed? fieldType).2.store =
      (d.materialize target).2.store := store_typeNamed? _ _
    rw [← hstore] at htarget hsize
    exact ⟨_, _, rfl, hsize.trans (size_le_add _ _), data?_add_self _ _,
      htarget.retained (retains_addNamed _ _ _ limit _) (List.Subset.refl _),
      reads_addNamed hsize _ _⟩
  | .invocation select signature arguments, d, limit, h, hlimit => by
    have hselect := written_materializeOption select h hlimit
    have hbuilds := builds_materializeOption select d h
    have hsize := hlimit.trans hbuilds.size_le
    have harguments := written_materializeList arguments hbuilds.types.sound hsize
    have hbuilds' := builds_materializeList arguments _ hbuilds.types.sound
    have hsize' := hsize.trans hbuilds'.size_le
    exact ⟨_, _, rfl, hsize'.trans (size_le_add _ _), data?_add_self _ _,
      (hselect.retained (hbuilds'.retains limit _) (List.Subset.refl _)).retained
        (retains_addNamed _ _ _ limit _) (List.Subset.refl _),
      reads_addNamed hsize' _ _,
      harguments.retained (retains_addNamed _ _ _ limit _) (List.Subset.refl _)⟩

theorem written_materializeOption :
    ∀ (snippet : Option Snippet) {d : Draft} {limit : NodeId}, d.types.IndexSound →
    limit ≤ d.store.size →
      (d.materializeOption snippet).2.store.WrittenOption limit snippet
        (d.materializeOption snippet).1
  | none, _, _, _, _ => rfl
  | some snippet, _, _, h, hlimit => written_materialize snippet h hlimit

theorem written_materializeList :
    ∀ (snippets : List Snippet) {d : Draft} {limit : NodeId}, d.types.IndexSound →
    limit ≤ d.store.size →
      (d.materializeList snippets).2.store.WrittenList limit snippets (d.materializeList snippets).1
  | [], _, _, _, _ => rfl
  | snippet :: snippets, d, limit, h, hlimit => by
    have hbuilds := builds_materialize snippet d h
    have hbrest := builds_materializeList snippets _ hbuilds.types.sound
    refine ⟨_, _, rfl, ?_,
      written_materializeList snippets hbuilds.types.sound (hlimit.trans hbuilds.size_le)⟩
    exact (written_materialize snippet h hlimit).retained (hbrest.retains limit _)
      (List.Subset.refl _)

end

end Draft

/-! ## Replacing -/

namespace Store.Grafted

variable {s t u : Store} {used used' : List Ref} {holder old new n limit : NodeId}

/-- Only the payload of the holder changes. -/
theorem data?_old (h : s.Grafted t u used holder old new) (hn : n < s.size) (hne : n ≠ holder) :
    u.data? (some n) = s.data? (some n) := by
  obtain ⟨x, y, -, -, hdata⟩ := data?_replaceChild h.splice
  rw [hdata, if_neg (by simpa using hne), h.grows.data?_old hn]

/-- And there one slot. -/
theorem data?_holder (h : s.Grafted t u used holder old new) {x : NodeData}
    (hx : s.data? (some holder) = some x) :
    ∃ y, x.replaceChild (some old) (some new) = some y ∧ u.data? (some holder) = some y := by
  obtain ⟨x', y, hx', hxy, hdata⟩ := data?_replaceChild h.splice
  rw [h.grows.data?_old (lt_size_of_data? hx), hx] at hx'
  obtain rfl := Option.some.inj hx'
  exact ⟨y, hxy, by rw [hdata, if_pos rfl]⟩

/-- What is written stays, unless it is in a new node, for a node that is used there. -/
theorem retains (h : s.Grafted t u used holder old new)
    (hapart : holder < limit ∨ old < limit ∧ some old ∉ used') : s.Retains u limit used' := by
  intro n x hn hx hchildren
  have hxt := (h.grows.data?_old (lt_size_of_data? hx)).trans hx
  exact Retains.replaceChild h.splice hapart n x hn hxt hchildren

end Store.Grafted

/-- A node that its parent holds can be replaced, and the snippet is written there. -/
theorem Draft.exists_replacement {d : Draft} {m p limit : NodeId} {snippet : Snippet}
    (hsound : d.types.IndexSound) (hlimit : limit ≤ d.store.size)
    (hp : d.store.parent (some m) = some p) (hheld : d.store.Holds p m)
    (hnew : ∀ r, snippet ≠ .existing r) (hused : Snippet.Usable d.store.size snippet.existingNodes)
    (hsome : none ∉ snippet.existingNodes)
    (hapart : p < limit ∨ m < limit ∧ some m ∉ snippet.existingNodes) :
    ∃ d' t k, d.applyEdit (.replaceExpression (some m) snippet) = .ok d' ∧ d.types.Grows d'.types ∧
      d.store.Grafted t d'.store snippet.existingNodes p m k ∧
      d'.store.Written limit snippet (some k) := by
  have hexisting : ∀ a ∈ snippet.existingNodes, (d.store.get? a).isSome := by
    intro a ha
    obtain ⟨k, rfl⟩ := Option.ne_none_iff_exists'.1 fun h => hsome (h ▸ ha)
    exact (d.store.get?_isSome_iff k).2 (hused.lt_size ha)
  obtain ⟨_, u, -, -, hd⟩ := exists_splice hp hheld hexisting
  obtain ⟨holder, k, hk, hgraft⟩ := exists_grafted hnew hused hd
  obtain rfl : p = holder := Option.some.inj (hp.symm.trans hgraft.parent_eq)
  have hwritten := written_materialize snippet hsound hlimit
  rw [hk] at hwritten
  exact ⟨_, _, k, hd, (builds_materialize snippet d hsound).types, hgraft,
    hwritten.retained (.replaceChild hgraft.splice hapart) (List.Subset.refl _)⟩

end JavaRecipes
