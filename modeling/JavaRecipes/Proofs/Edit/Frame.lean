import JavaRecipes.Proofs.Edit.Applicable
import JavaRecipes.Proofs.Edit.Indexes
import JavaRecipes.Proofs.Edit.Landing

/-!
What an edit set leaves alone. Nodes and types keep their positions; an entry changes only in the
name that an edit gives it, a payload only where an edit touches it or in a slot whose node is
replaced, and a link only where the node is replaced or used in a replacement
(`EditSet.apply_frame`).

A replacement goes to the holder that its node has by then. That is a new node, or one that held a
replaced node in the file: links are set only by new nodes and by earlier replacements
(`Draft.Framed.moved`).
-/

namespace JavaRecipes

namespace Edit

/-- An edit replaces the node. -/
def Replaced (es : List Edit) (r : Ref) : Prop := ∃ snippet, .replaceExpression r snippet ∈ es

/-- A replacement uses the node. -/
def Reused (es : List Edit) (r : Ref) : Prop :=
  ∃ target snippet, .replaceExpression target snippet ∈ es ∧ r ∈ snippet.existingNodes

/-- The file links a node that is replaced to the node. -/
def HoldsReplaced (f : SourceFile) (es : List Edit) (n : NodeId) : Prop :=
  ∃ r, Replaced es r ∧ f.store.parent r = some n

/-- What edits may do to a slot of a node: leave it or, if the node held something that is replaced,
fill it anew where they replace what it had. -/
def Refitted (f : SourceFile) (es : List Edit) (n : NodeId) (a b : Ref) : Prop :=
  b = a ∨ Replaced es a ∧ HoldsReplaced f es n

end Edit

/-- What edits may make of an entry: a class that they rename and a method get other names. -/
inductive TypeEntry.Renamed (es : List Edit) (id : TypeId) : TypeEntry → TypeEntry → Prop
  | same (e : TypeEntry) : Renamed es id e e
  | classType {c : ClassType} {first last name : String} : .renameClassType c.name first ∈ es →
    .renameClassType last name ∈ es → Renamed es id (.classType c) (.classType { c with name })
  | method {m : MethodType} {name : String} : .renameMethodType id name ∈ es →
    Renamed es id (.method m) (.method { m with name })

/-- What edits may make of a payload, slots apart: one kind of edit for each kind of payload, and
one field, with the comments of a method. -/
inductive NodeData.Touched (es : List Edit) (n : NodeId) : NodeData → NodeData → Prop
  | same (x : NodeData) : Touched es n x x
  | value {d : Literal} {value : LiteralValue} : .setLiteral (some n) value ∈ es →
    Touched es n (.literal d) (.literal { d with value })
  | name {d : Identifier} {name : String} : .renameIdentifier (some n) name ∈ es →
    Touched es n (.identifier d) (.identifier { d with name })
  | classModifiers {d : ClassDeclaration} {kind : ModifierKind} {modifiers : List Modifier} :
    .removeModifier (some n) kind ∈ es →
    Touched es n (.classDeclaration d) (.classDeclaration { d with modifiers })
  | methodModifiers {d : MethodDeclaration} {kind : ModifierKind} {modifiers : List Modifier}
      {comments : List String} : .removeModifier (some n) kind ∈ es →
    Touched es n (.methodDeclaration d) (.methodDeclaration { d with modifiers, comments })
  | variableModifiers {d : VariableDeclarations} {kind : ModifierKind} {modifiers : List Modifier} :
    .removeModifier (some n) kind ∈ es →
    Touched es n (.variableDeclarations d) (.variableDeclarations { d with modifiers })
  | method {d : MethodInvocation} {signature : MethodSignature} {id : TypeId} :
    .retypeInvocation (some n) signature ∈ es →
    Touched es n (.methodInvocation d) (.methodInvocation { d with type := some id })

/-- What a set of edits may make of a file. -/
structure EditSet.Frame (s : EditSet) (f g : SourceFile) : Prop where
  path : g.path = f.path
  root : g.root = f.root
  nodes_le : f.store.size ≤ g.store.size
  types_le : f.types.size ≤ g.types.size
  entry : ∀ {id e}, f.types.get? id = some e →
    ∃ e', g.types.get? id = some e' ∧ e.Renamed s.edits id e'
  payload : ∀ {n x}, f.store.data? (some n) = some x → ∃ y z, x.Touched s.edits n y ∧
    y.Slotwise (Edit.Refitted f s.edits n) z ∧ g.store.data? (some n) = some z
  link : ∀ {n}, n < f.store.size → ¬ Edit.Replaced s.edits (some n) →
    ¬ Edit.Reused s.edits (some n) →
    g.store.parent (some n) = f.store.parent (some n)

/-! ## Payloads -/

namespace NodeData

variable {es : List Edit} {n : NodeId} {x y : NodeData}

/-- A payload stays touched in the way of its kind. -/
theorem Touched.touch {e : Edit} (h : x.Touched es n y) (he : e ∈ es)
    (htarget : e.target? = some (some n)) (types : TypeTable) :
    x.Touched es n (e.touch types y) := by
  cases e with
  | setLiteral r value =>
    obtain rfl := Option.some.inj htarget
    cases y with
    | literal d =>
      cases h with
      | same => exact .value he
      | value _ => exact .value he
    | _ => exact h
  | renameIdentifier r name =>
    obtain rfl := Option.some.inj htarget
    cases y with
    | identifier d =>
      cases h with
      | same => exact .name he
      | name _ => exact .name he
    | _ => exact h
  | removeModifier r kind =>
    obtain rfl := Option.some.inj htarget
    cases y with
    | classDeclaration d =>
      cases h with
      | same => exact .classModifiers he
      | classModifiers _ => exact .classModifiers he
    | methodDeclaration d =>
      cases h with
      | same => exact .methodModifiers he
      | methodModifiers _ => exact .methodModifiers he
    | variableDeclarations d =>
      cases h with
      | same => exact .variableModifiers he
      | variableModifiers _ => exact .variableModifiers he
    | _ => exact h
  | retypeInvocation r signature =>
    obtain rfl := Option.some.inj htarget
    cases y with
    | methodInvocation d =>
      cases h with
      | same => exact .method he
      | method _ => exact .method he
    | _ => exact h
  | _ => exact h

theorem childFields_touch (e : Edit) (types : TypeTable) (x : NodeData) :
    (e.touch types x).childFields = x.childFields := by
  cases e <;> first | rfl | (cases x <;> rfl)

/-- The kinds of payloads that edits touch. -/
def touchedKinds : List NodeKind :=
  [.literal, .identifier, .classDeclaration, .methodDeclaration, .variableDeclarations,
    .methodInvocation]

theorem touch_of_kind (h : x.kind ∉ touchedKinds) (e : Edit) (types : TypeTable) :
    e.touch types x = x := by
  cases x <;> first | (cases e <;> rfl) | simp [kind, touchedKinds] at h

/-- Touching and filling slots do not get in each other's way. -/
theorem Slotwise.touch {R : Ref → Ref → Prop} (h : x.Slotwise R y) (e : Edit) (types : TypeTable) :
    (e.touch types x).Slotwise R (e.touch types y) := by
  have hkind := h.kind
  obtain ⟨fs, hfs, rfl⟩ := h
  refine ⟨fs, by rwa [childFields_touch], ?_⟩
  -- A payload of another kind is left as it is, with whatever its slots hold.
  by_cases htouched : x.kind ∈ touchedKinds
  · cases x <;> simp only [childFields, List.forall₂_cons_left_iff, List.forall₂_nil_left_iff,
      ChildField.rel_one_iff, ChildField.rel_many_iff] at hfs
    case literal | identifier =>
      subst hfs
      cases e <;> rfl
    case classDeclaration | methodInvocation | variableDeclarations =>
      obtain ⟨_, _, ⟨_, -, rfl⟩, ⟨_, _, ⟨_, -, rfl⟩, ⟨_, _, ⟨_, -, rfl⟩, rfl, rfl⟩, rfl⟩, rfl⟩ :=
        hfs
      cases e <;> rfl
    case methodDeclaration =>
      obtain ⟨_, _, ⟨_, -, rfl⟩, ⟨_, _, ⟨_, -, rfl⟩, ⟨_, _, ⟨_, -, rfl⟩,
        ⟨_, _, ⟨_, -, rfl⟩, ⟨_, _, ⟨_, -, rfl⟩, rfl, rfl⟩, rfl⟩, rfl⟩, rfl⟩, rfl⟩ := hfs
      cases e <;> rfl
    all_goals simp [NodeData.kind, touchedKinds] at htouched
  · rw [touch_of_kind htouched, touch_of_kind (hkind ▸ htouched)]

end NodeData

/-! ## Links -/

namespace Store

/-- `t` is `s` with new nodes. An old node gets a link to one of these only if it is used, and the
old nodes among `loose` are used. -/
structure Adopts (s : Store) (used : List Ref) (t : Store) (loose : List Ref) : Prop where
  size_le : s.size ≤ t.size
  parent_old : ∀ {m}, m < s.size → t.parent (some m) = s.parent (some m) ∨
    some m ∈ used ∧ ∃ p, t.parent (some m) = some p ∧ s.size ≤ p
  loose_old : ∀ {m}, some m ∈ loose → m < s.size → some m ∈ used

namespace Adopts

variable {s t u : Store} {used used' loose loose' : List Ref}

theorem refl (s : Store) (used : List Ref) : s.Adopts used s used :=
  ⟨Nat.le_refl _, fun _ => .inl rfl, fun hm _ => hm⟩

theorem subset (h : s.Adopts used t loose) (hsub : loose' ⊆ loose) : s.Adopts used t loose' :=
  ⟨h.size_le, h.parent_old, fun hm => h.loose_old (hsub hm)⟩

theorem append (h : s.Adopts used t loose) (h' : t.Adopts used' u loose') :
    s.Adopts (used ++ used') u (loose ++ loose') where
  size_le := h.size_le.trans h'.size_le
  parent_old := by
    intro m hm
    rcases h'.parent_old (hm.trans_le h.size_le) with heq | ⟨hmem, p, hp, hle⟩
    · rw [heq]
      exact (h.parent_old hm).imp_right fun ⟨hmem, hnew⟩ => ⟨List.mem_append_left _ hmem, hnew⟩
    · exact .inr ⟨List.mem_append_right _ hmem, p, hp, h.size_le.trans hle⟩
  loose_old := by
    intro m hmem hm
    rcases List.mem_append.1 hmem with hmem | hmem
    · exact List.mem_append_left _ (h.loose_old hmem hm)
    · exact List.mem_append_right _ (h'.loose_old hmem (hm.trans_le h.size_le))

/-- One more node, over loose ones. -/
theorem add (h : s.Adopts used t loose) {data : NodeData}
    (hdata : ∀ m, some m ∈ data.children → some m ∈ loose) :
    s.Adopts used (t.add data).2 (some t.size :: loose) where
  size_le := by
    rw [size_add]
    exact h.size_le.trans (Nat.le_succ _)
  parent_old := by
    intro m hm
    rw [parent_add t data (hm.trans_le h.size_le)]
    split
    · rename_i hmem
      exact .inr ⟨h.loose_old (hdata m hmem) hm, t.size, rfl, h.size_le⟩
    · exact h.parent_old hm
  loose_old := by
    intro m hmem hm
    rcases List.mem_cons.1 hmem with heq | hmem
    · obtain rfl := Option.some.inj heq
      exact absurd hm (Nat.not_lt.2 h.size_le)
    · exact h.loose_old hmem hm

end Adopts

end Store

namespace Draft

theorem buildClosed_adopts : BuildClosed Store.Adopts where
  existing s r := .refl s [r]
  absent _ := ⟨Nat.le_refl _, fun _ => .inl rfl, by simp⟩
  nil s := .refl s []
  leaf s _ hleaf := (Store.Adopts.refl s []).add (by simp [hleaf])
  append h h' := h.append h'
  addNamed _ _ h hcount := by
    refine ((h.add (by simp [NodeData.children, NodeData.childFields])).add
      fun m hm => ?_).subset (by simp)
    simpa [or_comm] using (some_mem_iff_of_count hcount m).1 hm

/-- What a snippet is built from: new nodes, and those that it uses. -/
theorem adopts_materialize (snippet : Snippet) (d : Draft) :
    d.store.Adopts snippet.existingNodes
      (d.materialize snippet).2.store [(d.materialize snippet).1] :=
  buildClosed_adopts.materialize snippet d

end Draft

/-! ## Entries -/

namespace TypeEntry.Renamed

variable {es : List Edit} {t t' : TypeTable} {id : TypeId} {e e' : TypeEntry}

/-- A class of the file has the name `source` only from its start or by an earlier rename to it. -/
theorem renameClass (h : e.Renamed es id e') (ht : t.IndexSound) (he : t.get? id = some e')
    {source target : String} (hmem : .renameClassType source target ∈ es) :
    ∃ e'', ((t.renameClass source target).getD t).get? id = some e'' ∧ e.Renamed es id e'' := by
  cases hrename : t.renameClass source target with
  | none => exact ⟨e', he, h⟩
  | some t' =>
    rcases TypeTable.renameClass_cases hrename with ⟨-, rfl⟩ | ⟨id', -, hid', -, rfl⟩
    · exact ⟨e', he, h⟩
    · have hget := TypeTable.get?_modify t id' id
      rw [he] at hget
      by_cases hid : id = id'
      · subst hid
        refine ⟨_, (hget _).trans (if_pos rfl), ?_⟩
        have hname := ht source id hid'
        simp only [TypeTable.className?, TypeTable.classAt?, he, Option.bind_some] at hname
        cases e' with
        | classType c =>
          obtain rfl : c.name = source := by simpa [TypeEntry.asClass?] using hname
          cases h with
          | same => exact .classType hmem hmem
          | classType hfirst _ => exact .classType hfirst hmem
        | _ => cases hname
      · exact ⟨e', (hget _).trans (if_neg hid), h⟩

theorem renameMethod (h : e.Renamed es id e') (he : t.get? id = some e') {id' : TypeId}
    {name : String} (hmem : .renameMethodType id' name ∈ es)
    (ht : t.renameMethod id' name = some t') :
    ∃ e'', t'.get? id = some e'' ∧ e.Renamed es id e'' := by
  obtain ⟨m, hm, rfl⟩ := Option.map_eq_some_iff.1 ht
  have hget := TypeTable.get?_modify t id' id fun _ => .method { m with name }
  by_cases hid : id = id'
  · subst hid
    rw [if_pos rfl, he] at hget
    refine ⟨_, hget, ?_⟩
    simp only [TypeTable.methodAt?, he, Option.bind_some] at hm
    cases e' with
    | method m' =>
      obtain rfl := Option.some.inj hm
      cases h with
      | same => exact .method hmem
      | method _ => exact .method hmem
    | _ => cases hm
  · rw [if_neg hid, he] at hget
    exact ⟨e', hget, h⟩

end TypeEntry.Renamed

namespace Draft

/-- What edits of a set may have made of a file on the way. The old nodes hang where they did, below
new nodes, or below a node that held a replaced one. -/
structure Framed (f : SourceFile) (es : List Edit) (d : Draft) : Prop where
  sound : d.types.IndexSound
  nodes_le : f.store.size ≤ d.store.size
  types_le : f.types.size ≤ d.types.size
  entry : ∀ {id e}, f.types.get? id = some e → ∃ e', d.types.get? id = some e' ∧ e.Renamed es id e'
  payload : ∀ {n x}, f.store.data? (some n) = some x → ∃ y z, x.Touched es n y ∧
    y.Slotwise (Edit.Refitted f es n) z ∧ d.store.data? (some n) = some z
  link : ∀ {n}, n < f.store.size → ¬ Edit.Replaced es (some n) → ¬ Edit.Reused es (some n) →
    d.store.parent (some n) = f.store.parent (some n)
  moved : ∀ {n p}, n < f.store.size → d.store.parent (some n) = some p →
    f.store.parent (some n) = some p ∨ f.store.size ≤ p ∨ Edit.HoldsReplaced f es p

namespace Framed

variable {f : SourceFile} {es : List Edit} {d d' : Draft} {e : Edit}

theorem start (hsound : f.types.IndexSound) (es : List Edit) :
    Framed f es { store := f.store, types := f.types } where
  sound := hsound
  nodes_le := Nat.le_refl _
  types_le := Nat.le_refl _
  entry {_ e} he := ⟨e, he, .same e⟩
  payload {_ x} hx := ⟨x, x, .same x, .refl (fun _ => .inl rfl) x, hx⟩
  link _ _ _ := rfl
  moved _ hp := .inl hp

/-- The types after one more edit. -/
theorem step_types (h : Framed f es d) (he : e ∈ es) (hd : d.applyEdit e = .ok d') :
    d'.types.IndexSound ∧ f.types.size ≤ d'.types.size ∧
      ∀ {id x}, f.types.get? id = some x → ∃ y, d'.types.get? id = some y ∧ x.Renamed es id y := by
  rcases applyEdit_table h.sound hd with
    ⟨hgrows, -⟩ | ⟨source, target, rfl, htypes⟩ | ⟨id, name, rfl, htypes⟩
  · refine ⟨hgrows.sound, h.types_le.trans hgrows.size_le, fun hx => ?_⟩
    obtain ⟨y, hy, hxy⟩ := h.entry hx
    exact ⟨y, hgrows.get? hy, hxy⟩
  · rw [htypes]
    refine ⟨?_, (TypeTable.size_renameClass _ _ _).symm ▸ h.types_le, fun hx => ?_⟩
    · cases hrename : d.types.renameClass source target with
      | none => exact h.sound
      | some t => exact h.sound.renameClass hrename
    · obtain ⟨y, hy, hxy⟩ := h.entry hx
      exact hxy.renameClass h.sound hy he
  · refine ⟨h.sound.renameMethod htypes,
      (TypeTable.size_renameMethod htypes).symm ▸ h.types_le, fun hx => ?_⟩
    obtain ⟨y, hy, hxy⟩ := h.entry hx
    exact hxy.renameMethod hy he htypes

/-- An edit that is no replacement leaves all links. -/
theorem step_touch (h : Framed f es d) (he : e ∈ es) (hr : e.replaced? = none)
    (hd : d.applyEdit e = .ok d') :
    Framed f es d' := by
  obtain ⟨hsound, htypes, hentry⟩ := h.step_types he hd
  obtain ⟨hsize, -, hparent⟩ := applyEdit_slots hr hd
  refine ⟨hsound, hsize ▸ h.nodes_le, htypes, hentry, fun {n x} hx => ?_, ?_, ?_⟩
  · obtain ⟨y, z, hxy, hyz, hz⟩ := h.payload hx
    have hdata := applyEdit_touch hr hd hz
    split at hdata
    · rename_i htarget
      exact ⟨_, _, hxy.touch he htarget d.types, hyz.touch e d.types, hdata⟩
    · exact ⟨y, z, hxy, hyz, hdata⟩
  · intro n hn hreplaced hreused
    rw [hparent, h.link hn hreplaced hreused]
  · intro n p hn hp
    rw [hparent] at hp
    exact h.moved hn hp

/-- A replacement fills a slot of a node that is new, or that held a replaced one. -/
theorem step_replaceExpression (h : Framed f es d) {k : NodeId} {snippet : Snippet}
    (hk : k < f.store.size) (he : .replaceExpression (some k) snippet ∈ es)
    (hd : d.applyEdit (.replaceExpression (some k) snippet) = .ok d') : Framed f es d' := by
  obtain ⟨hsound, htypes, hentry⟩ := h.step_types he hd
  obtain ⟨holder, hholder, hsplice, -⟩ := applyEdit_replacement hd
  have hextends := extends_materialize snippet d
  have hadopts := adopts_materialize snippet d
  have hreplaced : Edit.Replaced es (some k) := ⟨snippet, he⟩
  have hholds : f.store.size ≤ holder ∨ Edit.HoldsReplaced f es holder := by
    rcases h.moved hk hholder with hold | hmoved
    · exact .inr ⟨some k, hreplaced, hold⟩
    · exact hmoved
  refine ⟨hsound, ?_, htypes, hentry, fun {n x} hx => ?_, ?_, ?_⟩
  · rw [Store.size_replaceChild hsplice]
    exact h.nodes_le.trans hadopts.size_le
  · have hn := Store.lt_size_of_data? hx
    obtain ⟨y, z, hxy, hyz, hz⟩ := h.payload hx
    have hz' := (hextends.data?_old (hn.trans_le h.nodes_le)).trans hz
    obtain ⟨v, w, hv, hvw, hdata⟩ := Store.data?_replaceChild hsplice
    -- Only the holder gets another payload; as it is not new, it held a replaced node in the file.
    by_cases hnh : n = holder
    · subst hnh
      obtain rfl := Option.some.inj (hv.symm.trans hz')
      have hheld := hholds.resolve_left (Nat.not_le.2 hn)
      refine ⟨y, w, hxy, hyz.comp ?_ (NodeData.slotwise_replaceChild hvw),
        by rw [hdata, if_pos rfl]⟩
      -- A slot filled before stays one that had something replaced, whatever goes into it now.
      rintro a b c (rfl | hab) (rfl | ⟨rfl, -⟩)
      · exact .inl rfl
      · exact .inr ⟨hreplaced, hheld⟩
      · exact .inr hab
      · exact .inr hab
    · exact ⟨y, z, hxy, hyz, by rw [hdata, if_neg (by simpa using hnh), hz']⟩
  · intro n hn hnot hunused
    have hn' := hn.trans_le h.nodes_le
    have hmem : some n ∉ snippet.existingNodes := fun hmem => hunused ⟨_, snippet, he, hmem⟩
    have hne : some n ≠ some k := fun heq => hnot (heq ▸ hreplaced)
    have hnew : some n ≠ (d.materialize snippet).1 :=
      fun heq => hmem (hadopts.loose_old (by simp [heq]) hn')
    rw [Store.parent_replaceChild hsplice hne hnew, ← h.link hn hnot hunused]
    exact (hadopts.parent_old hn').resolve_right fun hadopted => hmem hadopted.1
  · intro n p hn hp
    rcases Store.parent_of_replaceChild hsplice hp with heq | hp
    · obtain rfl := Option.some.inj heq
      exact .inr hholds
    · rcases hadopts.parent_old (hn.trans_le h.nodes_le) with heq | ⟨-, q, hq, hle⟩
      · exact h.moved hn (heq ▸ hp)
      · obtain rfl := Option.some.inj (hq.symm.trans hp)
        exact .inr (.inl (h.nodes_le.trans hle))

theorem step (h : Framed f es d) (he : e ∈ es) (hfault : e.fault? f = none)
    (hd : d.applyEdit e = .ok d') :
    Framed f es d' := by
  cases hr : e.replaced? with
  | none => exact h.step_touch he hr hd
  | some r =>
    cases e with
    | replaceExpression r' snippet =>
      obtain ⟨k, hk, rfl⟩ := exists_target hfault rfl
      exact h.step_replaceExpression hk he hd
    | _ => cases hr

end Framed

end Draft

/-! ## The whole set -/

namespace EditSet

variable {s : EditSet} {f g : SourceFile}

theorem framed (hsound : f.types.IndexSound) (h : s.apply f = .ok g) :
    Draft.Framed f s.edits { store := g.store, types := g.types } :=
  apply_induction (P := fun _ d => Draft.Framed f s.edits d) h (.start hsound s.edits)
    fun hfaults hdone _ h he =>
      have hmem := hdone _ List.mem_cons_self
      h.step hmem (hfaults _ hmem) he

/-- A set that applies leaves everything that its edits do not name. -/
theorem apply_frame (hsound : f.types.IndexSound) (h : s.apply f = .ok g) : s.Frame f g := by
  have hframed := framed hsound h
  obtain ⟨-, d, -, hg⟩ := apply_eq_ok h
  exact {
    path := by rw [hg]
    root := by rw [hg]
    nodes_le := hframed.nodes_le
    types_le := hframed.types_le
    entry := hframed.entry
    payload := hframed.payload
    link := hframed.link }

/-- In particular a node keeps its payload if it held nothing that is replaced, and no other edit is
about it. -/
theorem Frame.data?_eq (h : s.Frame f g) {n : NodeId} (hn : n < f.store.size)
    (htarget : ∀ e ∈ s.edits, e.target? = some (some n) → e.replaced?.isSome)
    (hholds : ¬ Edit.HoldsReplaced f s.edits n) :
    g.store.data? (some n) = f.store.data? (some n) := by
  obtain ⟨x, hx⟩ := Store.exists_data? hn
  obtain ⟨y, z, hxy, hyz, hz⟩ := h.payload hx
  have hyx : y = x := by
    cases hxy with
    | same => rfl
    | value he | name he | classModifiers he | methodModifiers he | variableModifiers he
        | method he =>
      exact absurd (htarget _ he rfl) (by simp [Edit.replaced?])
  have hzy : z = y :=
    (hyz.mono fun _ _ hab => (hab.resolve_right fun hfilled => hholds hfilled.2).symm).eq
  rw [hx, hz, hzy, hyx]

/-- The call is put into another one, and everything in it gets another name. -/
def wrapCall : EditSet where
  edits := [.setLiteral (some 0) (.int 8080),
    .replaceExpression (some 2)
      (.invocation (some (.existing (some 2))) ⟨"a.Client", "close", none, ["java.lang.String"]⟩
        [.stringLiteral ""]),
    .renameIdentifier (some 1) "listen", .removeModifier (some 5) .isFinal,
    .renameClassType "a.Server" "a.Host", .renameMethodType 2 "listen"]

theorem apply_frame_wrapCall :
    serverFile.types.IndexSound ∧ ∃ g, wrapCall.apply serverFile = .ok g ∧
    g.store.parent (some 2) = some 12 ∧ g.store.children (some 3) = [some 12] ∧
    wrapCall.Frame serverFile g := by
  have hrun : ∃ g, wrapCall.apply serverFile = .ok g ∧ g.store.parent (some 2) = some 12 ∧
      g.store.children (some 3) = [some 12] :=
    ⟨(wrapCall.apply serverFile).toOption.getD serverFile,
      by decide +kernel, by decide +kernel, by decide +kernel⟩
  obtain ⟨g, hg, hparent, hchildren⟩ := hrun
  exact ⟨indexSound_serverFile, g, hg, hparent, hchildren, apply_frame indexSound_serverFile hg⟩

end EditSet

end JavaRecipes
