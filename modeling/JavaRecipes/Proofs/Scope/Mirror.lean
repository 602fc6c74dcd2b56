import JavaRecipes.Proofs.Scope.Innermost
import JavaRecipes.Proofs.Tree.Slots
import JavaRecipes.Proofs.Tree.Stored
import JavaRecipes.Proofs.Types.Growth

/-!
Scopes in files that mirror each other. Along a relation of nodes, payloads agree slot by slot, or
are both calls, and parents are related; then walks outward go alike, names have related bindings,
and a reference stands for related initializers (`Mirrors.resolve_rel`).
-/

namespace JavaRecipes

/-! ## Walks -/

/-- Two walks end alike. -/
inductive Walk.Rel {β γ : Type} (S : β → γ → Prop) : Walk β → Walk γ → Prop
  | found {b : β} {c : γ} : S b c → Rel S (.found b) (.found c)
  | exhausted : Rel S .exhausted .exhausted
  | limitReached : Rel S .limitReached .limitReached

theorem Walk.Rel.found? {β γ : Type} {S : β → γ → Prop} {w : Walk β} {w' : Walk γ}
    (h : Walk.Rel S w w') :
    Option.Rel S w.found? w'.found? := by
  cases h with
  | found hbc => exact .some hbc
  | exhausted => exact .none
  | limitReached => exact .none

/-- Walks from related positions end alike, if related positions show related things and lead on to
related positions where they show nothing. -/
theorem walkOutward_rel {σ τ β γ : Type} {R : σ → τ → Prop} {S : β → γ → Prop} {out : σ → Option σ}
    {visit : σ → Option β} {out' : τ → Option τ} {visit' : τ → Option γ}
    (hvisit : ∀ p q, R p q → Option.Rel S (visit p) (visit' q))
    (hout : ∀ p q, R p q → visit p = none → Option.Rel R (out p) (out' q)) (limit : Nat) {p : σ}
    {q : τ} (h : R p q) :
    Walk.Rel S (walkOutward out visit limit p) (walkOutward out' visit' limit q) := by
  induction limit generalizing p q with
  | zero => exact .limitReached
  | succ limit ih =>
    have hv := hvisit p q h
    have ho := hout p q h
    simp only [walkOutward]
    generalize visit p = v at hv ho
    generalize visit' q = v' at hv
    cases hv with
    | some hbc => exact .found hbc
    | none =>
      have ho := ho rfl
      generalize out p = o at ho
      generalize out' q = o' at ho
      cases ho with
      | some hnext => exact ih hnext
      | none => exact .exhausted

theorem rel_of_eq {α : Type} {a b : Option α} (h : a = b) : Option.Rel Eq a b := by
  subst h
  cases a with
  | none => exact .none
  | some x => exact .some rfl

theorem eq_of_rel {α : Type} {a b : Option α} (h : Option.Rel Eq a b) : a = b := by
  cases h with
  | none => rfl
  | some hxy => rw [hxy]

theorem rel_bind {α β γ δ : Type} {R : α → β → Prop} {S : γ → δ → Prop} {a : Option α}
    {b : Option β} {p : α → Option γ} {q : β → Option δ} (h : Option.Rel R a b)
    (hpq : ∀ x y, R x y → Option.Rel S (p x) (q y)) : Option.Rel S (a.bind p) (b.bind q) := by
  cases h with
  | some hxy => exact hpq _ _ hxy
  | none => exact .none

theorem rel_findSome? {α β γ δ : Type} {R : α → β → Prop} {S : γ → δ → Prop}
    {as : List α} {bs : List β} {p : α → Option γ} {q : β → Option δ} (h : List.Forall₂ R as bs)
    (hpq : ∀ x y, R x y → Option.Rel S (p x) (q y)) :
    Option.Rel S (as.findSome? p) (bs.findSome? q) := by
  induction h with
  | nil => exact .none
  | @cons a b as bs hab _ ih =>
    have hfirst := hpq a b hab
    simp only [List.findSome?_cons]
    generalize p a = x at hfirst
    generalize q b = y at hfirst
    cases hfirst with
    | some hxy => exact .some hxy
    | none => exact ih

/-! ## Types -/

/-- All types that the nodes and the entries name are there. -/
structure SourceFile.TypesInRange (f : SourceFile) : Prop where
  nodes : ∀ {r x}, f.store.data? r = some x → ∀ i ∈ x.typeIds, i < f.types.size
  entries : f.types.InRange

theorem NodeData.mem_typeIds_of_ownType {x : NodeData} {i : TypeId} (h : x.ownType = some i) :
    i ∈ x.typeIds := by
  cases x <;> simp_all [ownType, typeIds]

theorem Store.expressionType_of_kind {s : Store} {types : TypeTable} {r : Ref} {x : NodeData}
    (hx : s.data? r = some x) (h : x.kind ≠ .methodInvocation) :
    s.expressionType types r = x.ownType := by
  unfold expressionType
  rw [hx]
  cases x <;> simp_all [NodeData.kind]

/-- The type of an expression is there. -/
theorem SourceFile.TypesInRange.expressionType_lt {f : SourceFile} (h : f.TypesInRange) {r : Ref}
    {id : TypeId} (hid : f.store.expressionType f.types r = some id) : id < f.types.size := by
  cases hx : f.store.data? r with
  | none => simp [Store.expressionType, hx] at hid
  | some x =>
    by_cases hkind : x.kind = .methodInvocation
    · obtain ⟨c, rfl⟩ := NodeData.exists_of_kind hkind
      simp only [Store.expressionType, hx, Option.bind_eq_some_iff] at hid
      obtain ⟨method, -, m, hm, hreturns⟩ := hid
      exact h.entries.of_methodAt? hm id (by simp [TypeEntry.typeIds, hreturns])
    · rw [Store.expressionType_of_kind hx hkind] at hid
      exact h.nodes hx id (NodeData.mem_typeIds_of_ownType hid)

theorem TypeEntry.mem_typeIds_of_owner? {e : TypeEntry} {o : TypeId} (h : e.owner? = some o) :
    o ∈ e.typeIds := by
  cases e <;> simp_all [owner?, typeIds]

/-- The root owner of a type does not change as the table grows. -/
theorem TypeTable.Grows.rootOwner_eq {t t' : TypeTable} (h : t.Grows t')
    (hrange : t.InRange) {id : TypeId} (hid : id < t.size) : t'.rootOwner id = t.rootOwner id := by
  have hwalk : Walk.Rel Eq
      (walkOutward t.owner? (fun i => if (t.get? i).any TypeEntry.isRoot then some i else none)
        ownerWalkLimit id)
      (walkOutward t'.owner? (fun i => if (t'.get? i).any TypeEntry.isRoot then some i else none)
        ownerWalkLimit id) := by
    refine walkOutward_rel (R := fun a b => a = b ∧ a < t.size) ?_ ?_ ownerWalkLimit ⟨rfl, hid⟩
    · rintro a b ⟨rfl, ha⟩
      rw [h.get?_old ha]
      split
      · exact .some rfl
      · exact .none
    · rintro a b ⟨rfl, ha⟩ -
      rw [owner?, owner?, h.get?_old ha]
      cases he : t.get? a with
      | none => exact .none
      | some e =>
        cases ho : e.owner? with
        | none =>
          simp only [Option.bind_some, ho]
          exact .none
        | some o =>
          simp only [Option.bind_some, ho]
          exact .some ⟨rfl, hrange a e he o (TypeEntry.mem_typeIds_of_owner? ho)⟩
  simp only [rootOwner]
  generalize walkOutward t.owner? _ ownerWalkLimit id = w at hwalk
  generalize walkOutward t'.owner? _ ownerWalkLimit id = w' at hwalk
  cases hwalk with
  | found hbc => rw [hbc]
  | exhausted => rfl
  | limitReached => rfl

/-! ## Payloads that differ in their slots -/

namespace NodeData

theorem identifier?_of_kind {x : NodeData} (h : x.kind ≠ .identifier) : x.identifier? = none := by
  cases x <;> simp_all [kind, identifier?]

theorem isSome_class?_iff {x : NodeData} : x.class?.isSome ↔ x.kind = .classDeclaration := by
  cases x <;> simp [kind, class?]

theorem isEnclosing_iff {x : NodeData} :
    x.isEnclosing ↔ x.kind ∈ [.methodDeclaration, .classDeclaration, .compilationUnit] := by
  cases x <;> simp [kind, isEnclosing]

theorem declaredType_of_kind {x : NodeData} (h : x.kind ∉ [.methodDeclaration, .classDeclaration]) :
    x.declaredType = none := by
  cases x <;> simp_all [kind, declaredType]

theorem mem_typeIds_of_declaredType {x : NodeData} {i : TypeId} (h : x.declaredType = some i) :
    i ∈ x.typeIds := by
  cases x <;> simp_all [declaredType, typeIds]

namespace Slotwise

variable {R : Ref → Ref → Prop} {x y : NodeData}

theorem identifier?_eq (h : Slotwise R x y) : y.identifier? = x.identifier? := by
  cases x with
  | identifier d => rw [h.of_identifier]
  | _ => exact identifier?_of_kind (by rw [h.kind]; simp [NodeData.kind])

theorem declaredType_eq (h : Slotwise R x y) : y.declaredType = x.declaredType := by
  cases x with
  | methodDeclaration d =>
    obtain ⟨d', rfl, htype, -⟩ := h.of_methodDeclaration
    exact htype
  | classDeclaration d =>
    obtain ⟨d', rfl, htype⟩ := h.of_classDeclaration
    exact htype
  | _ => exact declaredType_of_kind (by rw [h.kind]; simp [NodeData.kind])

end Slotwise

end NodeData

/-- What makes a frame. -/
def frameKinds : List NodeKind :=
  [.methodDeclaration, .block, .forLoop, .tryStatement, .lambda, .variableDeclarations]

theorem Store.frame?_of_kind {s : Store} {r prior : Ref} {x : NodeData} (hx : s.data? r = some x)
    (h : x.kind ∉ frameKinds) : s.frame? r prior = none := by
  unfold frame?
  rw [hx]
  cases x <;> simp_all [NodeData.kind, frameKinds]

theorem Store.referencedVariable_of_kind {s : Store} {r : Ref} {x : NodeData}
    (hx : s.data? r = some x) (h : x.kind ∉ [.identifier, .fieldAccess]) :
    s.referencedVariable r = none := by
  unfold referencedVariable
  rw [hx]
  cases x <;> simp_all [NodeData.kind]

/-! ## Scopes -/

/-- Nodes of `f` stand for nodes of `g`: payloads differ in their slots, or a call stands for a new
one. Parents are related, but those of compilation units, where walks outward end. -/
structure Mirrors (f g : SourceFile) (Sim : NodeId → NodeId → Prop) : Prop where
  range : f.TypesInRange
  types : f.types.Grows g.types
  inj : ∀ {n n' m m'}, Sim n m → Sim n' m' → (n = n' ↔ m = m')
  payload : ∀ {n m}, Sim n m → ∃ x y, f.store.data? (some n) = some x ∧
    g.store.data? (some m) = some y ∧
    (x.Slotwise (Option.Rel Sim) y ∨
      x.kind = .methodInvocation ∧ y.kind = .methodInvocation ∧ f.store.size ≤ m)
  parent : ∀ {n m}, Sim n m → f.store.kind? (some n) ≠ some .compilationUnit →
    Option.Rel Sim (f.store.parent (some n)) (g.store.parent (some m))

/-- Bindings to related initializers, both final or both not. -/
def Binding.Alike (Sim : NodeId → NodeId → Prop) (b c : Binding) : Prop :=
  c.isFinal = b.isFinal ∧ Option.Rel Sim b.initializer c.initializer

namespace Mirrors

variable {f g : SourceFile} {Sim : NodeId → NodeId → Prop} {a a' b b' : Ref} {n m : NodeId}

theorem eq_iff (h : Mirrors f g Sim) (hab : Option.Rel Sim a b) (hab' : Option.Rel Sim a' b') :
    a = a' ↔ b = b' := by
  cases hab with
  | none => cases hab' <;> simp
  | some hnm =>
    cases hab' with
    | none => simp
    | some hnm' => simpa using h.inj hnm hnm'

theorem parent_rel (h : Mirrors f g Sim) (hab : Option.Rel Sim a b)
    (ha : f.store.kind? a ≠ some .compilationUnit) :
    Option.Rel Sim (f.store.parent a) (g.store.parent b) := by
  cases hab with
  | none => exact .none
  | some hnm => exact h.parent hnm ha

theorem kind?_eq (h : Mirrors f g Sim) (hab : Option.Rel Sim a b) :
    g.store.kind? b = f.store.kind? a := by
  cases hab with
  | none => rfl
  | some hnm =>
    obtain ⟨x, y, hx, hy, hslots | ⟨hxk, hyk, -⟩⟩ := h.payload hnm
    · rw [Store.kind?, Store.kind?, hx, hy, Option.map_some, Option.map_some, hslots.kind]
    · rw [Store.kind?, Store.kind?, hx, hy, Option.map_some, Option.map_some, hxk, hyk]

/-- What is read from payloads is related if it is so for those that differ in their slots, and if
nothing is read from a call. -/
theorem bind_rel (h : Mirrors f g Sim) {α β : Type} {S : α → β → Prop} {p : NodeData → Option α}
    {q : NodeData → Option β}
    (hslots : ∀ x y, x.Slotwise (Option.Rel Sim) y → Option.Rel S (p x) (q y))
    (hcall : ∀ c, p (.methodInvocation c) = none ∧ q (.methodInvocation c) = none)
    (hab : Option.Rel Sim a b) :
    Option.Rel S ((f.store.data? a).bind p) ((g.store.data? b).bind q) := by
  cases hab with
  | none => exact .none
  | some hnm =>
    obtain ⟨x, y, hx, hy, hxy | ⟨hxk, hyk, -⟩⟩ := h.payload hnm
    · rw [hx, hy]
      exact hslots x y hxy
    · obtain ⟨c, rfl⟩ := NodeData.exists_of_kind hxk
      obtain ⟨c', rfl⟩ := NodeData.exists_of_kind hyk
      rw [hx, hy, Option.bind_some, Option.bind_some, (hcall c).1, (hcall c').2]
      exact .none

theorem identifier?_eq (h : Mirrors f g Sim) (hab : Option.Rel Sim a b) :
    g.store.identifier? b = f.store.identifier? a := by
  have hrel : Option.Rel Eq (f.store.identifier? a) (g.store.identifier? b) :=
    h.bind_rel (fun x y hxy => rel_of_eq hxy.identifier?_eq.symm) (fun _ => ⟨rfl, rfl⟩) hab
  exact (eq_of_rel hrel).symm

theorem identifierText?_eq (h : Mirrors f g Sim) (hab : Option.Rel Sim a b) :
    g.store.identifierText? b = f.store.identifierText? a := by
  rw [Store.identifierText?, Store.identifierText?, h.identifier?_eq hab]

/-- An expression has a type of the name only if the related one has, unless it is a new call. -/
theorem isNamed_expressionType (h : Mirrors f g Sim) {name : String}
    (hnew : ∀ m c, f.store.size ≤ m → g.store.data? (some m) = some (.methodInvocation c) →
      ¬ g.types.isNamed (g.store.expressionType g.types (some m)) name)
    (hab : Option.Rel Sim a b) (hnamed : g.types.isNamed (g.store.expressionType g.types b) name) :
    f.types.isNamed (f.store.expressionType f.types a) name := by
  cases hab with
  | none => exact hnamed
  | @some n m hnm =>
    obtain ⟨x, y, hx, hy, hslots | ⟨-, hyk, hle⟩⟩ := h.payload hnm
    · have htype :
          g.store.expressionType g.types (some m) = f.store.expressionType f.types (some n) := by
        by_cases hkind : x.kind = .methodInvocation
        · obtain ⟨c, rfl⟩ := NodeData.exists_of_kind hkind
          obtain ⟨c', rfl, htype, -⟩ := hslots.of_methodInvocation
          simp only [Store.expressionType, hx, hy, htype]
          cases hid : c.type with
          | none => rfl
          | some id =>
            have hlt := h.range.nodes hx id (by simp [NodeData.typeIds, hid])
            rw [Option.bind_some, Option.bind_some, h.types.methodAt?_eq hlt]
        · rw [Store.expressionType_of_kind hx hkind,
            Store.expressionType_of_kind hy (hslots.kind ▸ hkind), hslots.ownType]
      rw [htype] at hnamed
      cases hid : f.store.expressionType f.types (some n) with
      | none =>
        rw [hid] at hnamed
        exact hnamed
      | some id =>
        rw [hid] at hnamed
        simpa [TypeTable.isNamed, h.types.name?_eq (h.range.expressionType_lt hid)] using hnamed
    · obtain ⟨c, rfl⟩ := NodeData.exists_of_kind hyk
      exact absurd hnamed (hnew m c hle hy)

/-- Related declarations bind a name alike. -/
theorem findIn?_rel (h : Mirrors f g Sim) (name : String) (hab : Option.Rel Sim a b) :
    Option.Rel (Binding.Alike Sim) (f.store.findIn? name a) (g.store.findIn? name b) := by
  unfold Store.findIn?
  refine rel_bind
    (h.bind_rel (fun _ _ => NodeData.Slotwise.declarations?_rel) (fun _ => ⟨rfl, rfl⟩) hab)
    fun d e ⟨hmodifiers, _, _, hdeclared⟩ => ?_
  refine rel_findSome? hdeclared fun r r' hrr' => ?_
  unfold Store.bindingOf?
  refine rel_bind
    (h.bind_rel (fun _ _ => NodeData.Slotwise.namedVariable?_rel) (fun _ => ⟨rfl, rfl⟩) hrr')
    fun v w ⟨hname, hinit⟩ => ?_
  rw [h.identifierText?_eq hname, hmodifiers]
  split
  · exact .some ⟨rfl, hinit⟩
  · exact .none

theorem isClassBody_eq (h : Mirrors f g Sim) (hab : Option.Rel Sim a b)
    (ha : f.store.kind? a ≠ some .compilationUnit) :
    g.store.isClassBody b = f.store.isClassBody a := by
  have hiff : ∀ (s : Store) (r : Ref), s.isClassBody r ↔
      s.kind? (s.parent r) = some .classDeclaration := by
    intro s r
    unfold Store.isClassBody Store.class? Store.kind?
    cases s.data? (s.parent r) with
    | none => simp
    | some x => simp [NodeData.isSome_class?_iff]
  rw [Bool.eq_iff_iff, hiff, hiff, h.kind?_eq (h.parent_rel hab ha)]

theorem takeWhile_rel (h : Mirrors f g Sim) {as bs : List Ref}
    (has : List.Forall₂ (Option.Rel Sim) as bs) (hab : Option.Rel Sim a b) :
    List.Forall₂ (Option.Rel Sim) (as.takeWhile (· ≠ a)) (bs.takeWhile (· ≠ b)) := by
  induction has with
  | nil => exact .nil
  | @cons c d _ _ hcd _ ih =>
    by_cases hc : c = a
    · simp [hc, (h.eq_iff hcd hab).1 hc]
    · have hd : d ≠ b := fun hd => hc ((h.eq_iff hcd hab).2 hd)
      simpa [hc, hd] using List.Forall₂.cons hcd ih

/-- Related nodes make frames with related candidates. -/
theorem frame?_rel (h : Mirrors f g Sim) (hnm : Sim n m) (hab : Option.Rel Sim a b) :
    Option.Rel (fun p q : ScopeFrame => List.Forall₂ (Option.Rel Sim) p.candidates q.candidates)
      (f.store.frame? (some n) a) (g.store.frame? (some m) b) := by
  obtain ⟨x, y, hx, hy, hslots | ⟨hxk, hyk, -⟩⟩ := h.payload hnm
  · cases x with
    | methodDeclaration d =>
      obtain ⟨e, rfl, -, -, hparameters⟩ := hslots.of_methodDeclaration
      rw [Store.frame?, Store.frame?, hx, hy]
      exact .some hparameters
    | block d =>
      obtain ⟨e, rfl, hstatements⟩ := hslots.of_block
      rw [Store.frame?, Store.frame?, hx, hy]
      refine .some ?_
      have hkind : f.store.kind? (some n) ≠ some .compilationUnit := by
        simp [Store.kind?, hx, NodeData.kind]
      rw [Store.visibleStatements, Store.visibleStatements, h.isClassBody_eq (.some hnm) hkind]
      split
      · exact hstatements
      · exact h.takeWhile_rel hstatements hab
    | forLoop d =>
      obtain ⟨e, rfl, hinitial⟩ := hslots.of_forLoop
      rw [Store.frame?, Store.frame?, hx, hy]
      exact .some hinitial
    | tryStatement d =>
      obtain ⟨e, rfl, hresources⟩ := hslots.of_tryStatement
      rw [Store.frame?, Store.frame?, hx, hy]
      have hempty : e.resources.isEmpty = d.resources.isEmpty := by
        rw [Bool.eq_iff_iff, List.isEmpty_iff_length_eq_zero, List.isEmpty_iff_length_eq_zero,
          hresources.length_eq]
      simp only [hempty]
      split
      · exact .none
      · exact .some hresources
    | lambda d =>
      obtain ⟨e, rfl, hparameters⟩ := hslots.of_lambda
      rw [Store.frame?, Store.frame?, hx, hy]
      exact .some hparameters
    | variableDeclarations d =>
      obtain ⟨e, rfl, -⟩ := hslots.of_variableDeclarations
      rw [Store.frame?, Store.frame?, hx, hy]
      exact .some (.cons (.some hnm) .nil)
    | _ =>
      rw [Store.frame?_of_kind hx (by simp [NodeData.kind, frameKinds]),
        Store.frame?_of_kind hy (by rw [hslots.kind]; simp [NodeData.kind, frameKinds])]
      exact .none
  · rw [Store.frame?_of_kind hx (by rw [hxk]; decide),
      Store.frame?_of_kind hy (by rw [hyk]; decide)]
    exact .none

theorem bindingAt_rel (h : Mirrors f g Sim) (name : String) (hnm : Sim n m)
    (hab : Option.Rel Sim a b) :
    Option.Rel (Option.Rel (Binding.Alike Sim)) (f.store.bindingAt name a n)
      (g.store.bindingAt name b m) := by
  rw [Store.bindingAt_eq, Store.bindingAt_eq, h.kind?_eq (.some hnm)]
  split
  · exact .some .none
  · have hfound := rel_bind (h.frame?_rel hnm hab) fun p q hpq =>
      rel_findSome? hpq fun r r' hrr' => h.findIn?_rel name hrr'
    change Option.Rel _
      (Option.map some ((f.store.frame? (some n) a).bind fun p => p.candidates.findSome? _))
      (Option.map some ((g.store.frame? (some m) b).bind fun q => q.candidates.findSome? _))
    generalize (f.store.frame? (some n) a).bind _ = o at hfound
    generalize (g.store.frame? (some m) b).bind _ = o' at hfound
    cases hfound with
    | some hbc => exact .some (.some hbc)
    | none => exact .none

/-- Related positions see related bindings of a name. -/
theorem findBinding_rel (h : Mirrors f g Sim) (name : String) (hab : Option.Rel Sim a b)
    (ha : f.store.kind? a ≠ some .compilationUnit) :
    Option.Rel (Binding.Alike Sim) (f.store.findBinding name a) (g.store.findBinding name b) := by
  have hparent := h.parent_rel hab ha
  unfold Store.findBinding
  generalize f.store.parent a = p at hparent
  generalize g.store.parent b = q at hparent
  cases hparent with
  | none => exact .none
  | @some start start' hstart =>
    have hwalk := walkOutward_rel
      (R := fun p q : Ref × NodeId => Option.Rel Sim p.1 q.1 ∧ Sim p.2 q.2)
      (fun p q hpq => h.bindingAt_rel name hpq.2 hpq.1)
      (fun p q hpq hnone =>
        show Option.Rel _ ((f.store.parent (some p.2)).map fun r => (some p.2, r))
          ((g.store.parent (some q.2)).map fun r => (some q.2, r)) by
        have hout := h.parent hpq.2 (Store.bindingAt_eq_none_iff.1 hnone).1
        generalize f.store.parent (some p.2) = o at hout
        generalize g.store.parent (some q.2) = o' at hout
        cases hout with
        | some hnext => exact .some ⟨.some hpq.2, hnext⟩
        | none => exact .none)
      scopeWalkLimit (p := (a, start)) (q := (b, start')) ⟨hab, hstart⟩
    have hfound := hwalk.found?
    simp only
    generalize Walk.found? (walkOutward _ _ scopeWalkLimit (a, start)) = w at hfound ⊢
    generalize Walk.found? (walkOutward _ _ scopeWalkLimit (b, start')) = w' at hfound ⊢
    cases hfound with
    | some hbc => exact hbc
    | none => exact .none

theorem localRootOwner_eq (h : Mirrors f g Sim) (hab : Option.Rel Sim a b)
    (ha : f.store.kind? a ≠ some .compilationUnit) :
    g.store.localRootOwner g.types b = f.store.localRootOwner f.types a := by
  have hwalk : Walk.Rel Sim (f.store.declarationWalk a) (g.store.declarationWalk b) := by
    have hparent := h.parent_rel hab ha
    unfold Store.declarationWalk
    generalize f.store.parent a = p at hparent
    generalize g.store.parent b = q at hparent
    cases hparent with
    | none => exact .exhausted
    | some hstart =>
      refine walkOutward_rel (fun n m hnm => ?_) (fun n m hnm hnone => h.parent hnm ?_)
        scopeWalkLimit hstart
      · have hkind := h.kind?_eq (.some hnm)
        obtain ⟨x, y, hx, hy, -⟩ := h.payload hnm
        rw [Store.kind?, Store.kind?, hx, hy, Option.map_some, Option.map_some,
          Option.some.injEq] at hkind
        have hsame : y.isEnclosing = x.isEnclosing := by
          rw [Bool.eq_iff_iff, NodeData.isEnclosing_iff, NodeData.isEnclosing_iff, hkind]
        rw [hx, hy, Option.any_some, Option.any_some, hsame]
        split
        · exact .some hnm
        · exact .none
      · intro hunit
        obtain ⟨x, hx, hkind⟩ := Option.map_eq_some_iff.1 hunit
        have henclosing : x.isEnclosing := NodeData.isEnclosing_iff.2 (by simp [hkind])
        simp [hx, henclosing] at hnone
  unfold Store.localRootOwner
  generalize f.store.declarationWalk a = w at hwalk
  generalize g.store.declarationWalk b = w' at hwalk
  cases hwalk with
  | exhausted => rfl
  | limitReached => rfl
  | @found n m hnm =>
    obtain ⟨x, y, hx, hy, hslots | ⟨hxk, hyk, -⟩⟩ := h.payload hnm
    · simp only [hx, hy, Option.bind_some, hslots.declaredType_eq]
      cases hid : x.declaredType with
      | none => rfl
      | some id =>
        exact h.types.rootOwner_eq h.range.entries
          (h.range.nodes hx id (NodeData.mem_typeIds_of_declaredType hid))
    · simp only [hx, hy, Option.bind_some,
        NodeData.declaredType_of_kind (x := x) (by rw [hxk]; decide),
          NodeData.declaredType_of_kind (x := y) (by rw [hyk]; decide)]

theorem referencedVariable_eq (h : Mirrors f g Sim) (hab : Option.Rel Sim a b) :
    g.store.referencedVariable b = f.store.referencedVariable a := by
  cases hab with
  | none => rfl
  | some hnm =>
    obtain ⟨x, y, hx, hy, hslots | ⟨hxk, hyk, -⟩⟩ := h.payload hnm
    · cases x with
      | identifier d =>
        rw [Store.referencedVariable, Store.referencedVariable, hx, hy, hslots.of_identifier]
      | fieldAccess d =>
        obtain ⟨e, rfl, -, hname⟩ := hslots.of_fieldAccess
        rw [Store.referencedVariable, Store.referencedVariable, hx, hy]
        simp only [h.identifier?_eq hname]
      | _ =>
        rw [Store.referencedVariable_of_kind hx (by simp [NodeData.kind]),
          Store.referencedVariable_of_kind hy (by rw [hslots.kind]; simp [NodeData.kind])]
    · rw [Store.referencedVariable_of_kind hx (by rw [hxk]; decide),
        Store.referencedVariable_of_kind hy (by rw [hyk]; decide)]

theorem lt_size_of_referencedVariable (h : Mirrors f g Sim) {id : TypeId}
    (hid : f.store.referencedVariable a = some id) : id < f.types.size := by
  have hidentifier : ∀ r d, f.store.identifier? r = some d → d.variableType = some id →
      id < f.types.size := by
    intro r d hd hvariable
    obtain ⟨x, hx, hxd⟩ := Option.bind_eq_some_iff.1 hd
    refine h.range.nodes hx id ?_
    cases x <;> simp only [NodeData.identifier?, reduceCtorEq] at hxd
    obtain rfl := Option.some.inj hxd
    simp [NodeData.typeIds, hvariable]
  unfold Store.referencedVariable at hid
  split at hid
  · rename_i d hd
    exact hidentifier a d (by rw [Store.identifier?, hd]; rfl) hid
  · obtain ⟨d, hd, hvariable⟩ := Option.bind_eq_some_iff.1 hid
    exact hidentifier _ d hd hvariable
  · cases hid

/-- Related references stand for related initializers, or for themselves. -/
theorem resolve_rel (h : Mirrors f g Sim) (hab : Option.Rel Sim a b) :
    Option.Rel Sim (f.store.resolve f.types a a) (g.store.resolve g.types b b) := by
  unfold Store.resolve
  rw [h.referencedVariable_eq hab]
  cases hid : f.store.referencedVariable a with
  | none => exact hab
  | some id =>
    -- what names a variable is no compilation unit, so it has related parents
    have hkind : f.store.kind? a ≠ some .compilationUnit := by
      intro hunit
      obtain ⟨x, hx, hxk⟩ := Option.map_eq_some_iff.1 hunit
      rw [Store.referencedVariable_of_kind hx (by simp [hxk])] at hid
      cases hid
    have hlt := h.lt_size_of_referencedVariable hid
    have hvariable : g.types.variableAt? id = f.types.variableAt? id := by
      rw [TypeTable.variableAt?, TypeTable.variableAt?, h.types.get?_old hlt]
    simp only [hvariable, h.types.rootOwner_eq h.range.entries hlt, h.localRootOwner_eq hab hkind]
    split
    · exact hab
    · rename_i v hv
      split
      · split
        · have hbinding := h.findBinding_rel v.name hab hkind
          generalize f.store.findBinding v.name a = o at hbinding
          generalize g.store.findBinding v.name b = o' at hbinding
          cases hbinding with
          | none => exact hab
          | @some c c' hcc' =>
            obtain ⟨hfinal, hinitializer⟩ := hcc'
            have hsome : c'.initializer.isSome = c.initializer.isSome := by
              generalize c.initializer = i at hinitializer
              generalize c'.initializer = i' at hinitializer
              cases hinitializer <;> rfl
            simp only [hfinal, hsome]
            split
            · exact hinitializer
            · exact hab
        · exact hab
      · exact hab

end Mirrors

end JavaRecipes
