import JavaRecipes.Proofs.Scope.Outward
import JavaRecipes.Proofs.Tree.Reach
import JavaRecipes.Scope.Resolve
import Mathlib.Logic.Function.Iterate

/-!
The innermost visible binding. What a node shows to a child is told by kinds of nodes (`FrameOf`),
and what a name stands for by the order of declarations and of the nodes around a position
(`Innermost`); the walk through the scopes finds just that, on trees with cyclic or broken links
too.
-/

namespace JavaRecipes

namespace Store

variable {s : Store} {r prior position : Ref} {f : ScopeFrame} {name : String} {b : Binding}

/-! ## Frames -/

/-- The frame that a node makes for what comes from `prior`. -/
inductive FrameOf (s : Store) (r prior : Ref) : ScopeFrame → Prop
  | method {d : MethodDeclaration} :
    s.data? r = some (.methodDeclaration d) → FrameOf s r prior ⟨.method, d.parameters⟩
  /-- The body of a class shows all its members. -/
  | members {d : Block} : s.data? r = some (.block d) → s.isClassBody r →
    FrameOf s r prior ⟨.block, d.statements⟩
  /-- Another block shows the statements before the one that is left. -/
  | earlier {d : Block} {before after : List Ref} : s.data? r = some (.block d) →
    ¬ s.isClassBody r →
      d.statements = before ++ prior :: after → prior ∉ before → FrameOf s r prior ⟨.block, before⟩
  /-- To what is no statement of it, a block shows all statements. -/
  | statements {d : Block} : s.data? r = some (.block d) → ¬ s.isClassBody r →
    prior ∉ d.statements →
      FrameOf s r prior ⟨.block, d.statements⟩
  | loop {d : ForLoop} : s.data? r = some (.forLoop d) → FrameOf s r prior ⟨.loop, d.initial⟩
  | resources {d : TryStatement} : s.data? r = some (.tryStatement d) → d.resources ≠ [] →
      FrameOf s r prior ⟨.resourceClause, d.resources⟩
  | lambda {d : Lambda} : s.data? r = some (.lambda d) →
    FrameOf s r prior ⟨.functionLiteral, d.parameters⟩
  /-- A declaration shows itself to its own initializers. -/
  | declaration {d : VariableDeclarations} : s.data? r = some (.variableDeclarations d) →
      FrameOf s r prior ⟨.singleDeclaration, [r]⟩

theorem takeWhile_ne_append {α : Type} [DecidableEq α] {a : α} {before : List α} (h : a ∉ before)
    (rest : List α) :
    (before ++ rest).takeWhile (· ≠ a) = before ++ rest.takeWhile (· ≠ a) := by
  refine List.takeWhile_append_of_pos fun x hx => decide_eq_true fun hxa => h (hxa ▸ hx)

/-- What comes before the first `prior`. -/
theorem visibleStatements_earlier {d : Block} {before after : List Ref} (hbody : ¬ s.isClassBody r)
    (hsplit : d.statements = before ++ prior :: after) (hnot : prior ∉ before) :
    s.visibleStatements r d prior = before := by
  rw [visibleStatements, if_neg hbody, hsplit, takeWhile_ne_append hnot]
  simp

theorem visibleStatements_of_not_mem {d : Block} (hnot : prior ∉ d.statements) :
    s.visibleStatements r d prior = d.statements := by
  have hall := takeWhile_ne_append hnot []
  rw [visibleStatements]
  simpa using fun _ => hall

theorem FrameOf.frame?_eq (h : s.FrameOf r prior f) : s.frame? r prior = some f := by
  cases h with
  | method hd => simp [frame?, hd]
  | members hd hbody => simp [frame?, hd, visibleStatements, hbody]
  | earlier hd hbody hsplit hnot =>
    simp [frame?, hd, visibleStatements_earlier hbody hsplit hnot]
  | statements hd _ hnot => simp [frame?, hd, visibleStatements_of_not_mem hnot]
  | loop hd => simp [frame?, hd]
  | resources hd hsome => simp [frame?, hd, hsome]
  | lambda hd => simp [frame?, hd]
  | declaration hd => simp [frame?, hd]

theorem frameOf_of_frame? (h : s.frame? r prior = some f) : s.FrameOf r prior f := by
  cases hx : s.data? r with
  | none => simp [frame?, hx] at h
  | some x =>
    cases x with
    | methodDeclaration d =>
      simp only [frame?, hx, Option.some.injEq] at h
      exact h ▸ .method hx
    | block d =>
      simp only [frame?, hx, Option.some.injEq] at h
      subst h
      by_cases hbody : s.isClassBody r
      · rw [visibleStatements, if_pos hbody]
        exact .members hx hbody
      · by_cases hprior : prior ∈ d.statements
        · obtain ⟨before, after, hsplit, hnot⟩ := List.eq_append_cons_of_mem hprior
          rw [visibleStatements_earlier hbody hsplit hnot]
          exact .earlier hx hbody hsplit hnot
        · rw [visibleStatements_of_not_mem hprior]
          exact .statements hx hbody hprior
    | forLoop d =>
      simp only [frame?, hx, Option.some.injEq] at h
      exact h ▸ .loop hx
    | tryStatement d =>
      simp only [frame?, hx, List.isEmpty_iff, Option.ite_none_left_eq_some, Option.some.injEq] at h
      exact h.2 ▸ .resources hx h.1
    | lambda d =>
      simp only [frame?, hx, Option.some.injEq] at h
      exact h ▸ .lambda hx
    | variableDeclarations d =>
      simp only [frame?, hx, Option.some.injEq] at h
      exact h ▸ .declaration hx
    | _ => simp [frame?, hx] at h

theorem frame?_eq_some_iff : s.frame? r prior = some f ↔ s.FrameOf r prior f :=
  ⟨frameOf_of_frame?, FrameOf.frame?_eq⟩

/-! ## Names in frames -/

/-- The variable has the name. -/
def Bears (s : Store) (name : String) (v : Ref) : Prop :=
  ∃ w ∈ s.namedVariable? v, s.identifierText? w.name = some name

/-- One of the variables of the declaration has the name. -/
def Declares (s : Store) (name : String) (c : Ref) : Prop :=
  ∃ d ∈ s.declarations? c, ∃ v ∈ d.declared, s.Bears name v

instance (s : Store) (name : String) (v : Ref) : Decidable (s.Bears name v) :=
  inferInstanceAs (Decidable (∃ w ∈ s.namedVariable? v, s.identifierText? w.name = some name))

instance (s : Store) (name : String) (c : Ref) : Decidable (s.Declares name c) :=
  inferInstanceAs (Decidable (∃ d ∈ s.declarations? c, ∃ v ∈ d.declared, s.Bears name v))

/-- The first variable of the name in a declaration, with what the declaration says about it. -/
structure FirstIn (s : Store) (name : String) (d : VariableDeclarations) (b : Binding) : Prop where
  declaration : s.declarations? b.declaration = some d
  first : ∃ before after, d.declared = before ++ b.named :: after ∧ ∀ v ∈ before, ¬ s.Bears name v
  named : ∃ w, s.namedVariable? b.named = some w ∧ s.identifierText? w.name = some name ∧
    b.initializer = w.initializer
  modifiers : b.isFinal = hasModifier d.modifiers .isFinal

/-- The first variable of the name in the first of the candidates that declares one. -/
def FirstOf (s : Store) (name : String) (candidates : List Ref) (b : Binding) : Prop :=
  ∃ before after, candidates = before ++ b.declaration :: after ∧
    (∀ c ∈ before, ¬ s.Declares name c) ∧
    ∃ d, s.FirstIn name d b

theorem bindingOf?_eq_some_iff {c v : Ref} {d : VariableDeclarations} :
    s.bindingOf? c d name v = some b ↔
      ∃ w, s.namedVariable? v = some w ∧ s.identifierText? w.name = some name ∧
      b = ⟨c, v, hasModifier d.modifiers .isFinal, w.initializer⟩ := by
  unfold bindingOf?
  rw [Option.bind_eq_some_iff]
  refine exists_congr fun w => and_congr_right fun _ => ?_
  rw [Option.ite_none_right_eq_some, Option.some.injEq, eq_comm (b := b)]

theorem bindingOf?_eq_none_iff {c v : Ref} {d : VariableDeclarations} :
    s.bindingOf? c d name v = none ↔ ¬ s.Bears name v := by
  simp [bindingOf?, Bears]

theorem findIn?_eq_some_iff {c : Ref} :
    s.findIn? name c = some b ↔ b.declaration = c ∧ ∃ d, s.FirstIn name d b := by
  unfold findIn?
  simp only [Option.bind_eq_some_iff, List.findSome?_eq_some_iff, bindingOf?_eq_some_iff,
    bindingOf?_eq_none_iff]
  constructor
  · rintro ⟨d, hd, before, v, after, hsplit, ⟨w, hw, hname, rfl⟩, hnot⟩
    exact ⟨rfl, d, hd, ⟨before, after, hsplit, hnot⟩, ⟨w, hw, hname, rfl⟩, rfl⟩
  · rintro ⟨rfl, d, hd, ⟨before, after, hsplit, hnot⟩, ⟨w, hw, hname, hinit⟩, hfinal⟩
    refine ⟨d, hd, before, b.named, after, hsplit, ⟨w, hw, hname, ?_⟩, hnot⟩
    cases b
    simp_all

theorem findIn?_eq_none_iff {c : Ref} : s.findIn? name c = none ↔ ¬ s.Declares name c := by
  simp [findIn?, Option.bind_eq_none_iff, bindingOf?_eq_none_iff, Declares]

theorem find?_eq_some_iff : f.find? s name = some b ↔ s.FirstOf name f.candidates b := by
  unfold ScopeFrame.find? FirstOf
  simp only [List.findSome?_eq_some_iff, findIn?_eq_some_iff, findIn?_eq_none_iff]
  constructor
  · rintro ⟨before, c, after, hsplit, ⟨rfl, hfirst⟩, hnot⟩
    exact ⟨before, after, hsplit, hnot, hfirst⟩
  · rintro ⟨before, after, hsplit, hnot, hfirst⟩
    exact ⟨before, b.declaration, after, hsplit, ⟨rfl, hfirst⟩, hnot⟩

theorem find?_eq_none_iff : f.find? s name = none ↔ ∀ c ∈ f.candidates, ¬ s.Declares name c := by
  simp [ScopeFrame.find?, findIn?_eq_none_iff]

theorem FirstOf.mem {candidates : List Ref} (h : s.FirstOf name candidates b) :
    b.declaration ∈ candidates := by
  obtain ⟨before, after, rfl, -⟩ := h
  simp

theorem FirstOf.declares {candidates : List Ref} (h : s.FirstOf name candidates b) :
    s.Declares name b.declaration := by
  obtain ⟨-, -, -, -, d, hd, ⟨before, after, hsplit, -⟩, ⟨w, hw, hname, -⟩, -⟩ := h
  exact ⟨d, hd, b.named, by simp [hsplit], w, hw, hname⟩

/-! ## Scopes around a position -/

/-- The frame of the node `k + 1` levels around the position, entered from the one before; up to it
there are nodes, and none of them is a compilation unit. -/
structure ScopeAt (s : Store) (position : Ref) (k : Nat) (f : ScopeFrame) : Prop where
  inside : ∀ i ≤ k, ∃ x, s.data? (s.parent^[i + 1] position) = some x ∧ x.kind ≠ .compilationUnit
  frame : s.FrameOf (s.parent^[k + 1] position) (s.parent^[k] position) f

/-- The binding of the name in the innermost scope that has one, not more levels around the position
than a walk may go. -/
def Innermost (s : Store) (name : String) (position : Ref) (b : Binding) : Prop :=
  ∃ k < scopeWalkLimit, ∃ f, s.ScopeAt position k f ∧ s.FirstOf name f.candidates b ∧
    ∀ i < k, ∀ g, s.ScopeAt position i g → ∀ c ∈ g.candidates, ¬ s.Declares name c

/-! ## The walk through the scopes -/

theorem bindingAt_eq (s : Store) (name : String) (prior : Ref) (n : NodeId) :
    s.bindingAt name prior n = if s.kind? (some n) = some .compilationUnit then some none
      else ((s.frame? (some n) prior).bind fun f => f.find? s name).map some := by
  unfold bindingAt kind?
  cases s.data? (some n) with
  | none => rfl
  | some x => cases x <;> rfl

theorem bindingAt_eq_some_iff {n : NodeId} : s.bindingAt name prior n = some (some b) ↔
    s.kind? (some n) ≠ some .compilationUnit ∧
      ∃ f, s.FrameOf (some n) prior f ∧ s.FirstOf name f.candidates b := by
  rw [bindingAt_eq]
  split
  · simp_all
  · simp_all [Option.bind_eq_some_iff, frame?_eq_some_iff, find?_eq_some_iff]

theorem bindingAt_eq_none_iff {n : NodeId} : s.bindingAt name prior n = none ↔
    s.kind? (some n) ≠ some .compilationUnit ∧
      ∀ f, s.FrameOf (some n) prior f → ∀ c ∈ f.candidates, ¬ s.Declares name c := by
  rw [bindingAt_eq]
  split
  · simp_all
  · simp_all [Option.bind_eq_none_iff, frame?_eq_some_iff, find?_eq_none_iff]

theorem parent_iterate_none (s : Store) (k : Nat) : s.parent^[k] none = none :=
  Function.iterate_fixed rfl k

/-- Every node on the way up exists, but perhaps for the last one. -/
theorem exists_data?_iterate {n : NodeId} {i k : Nat} (h : s.parent^[k] position = some n)
    (hi : i < k) :
    ∃ x, s.data? (s.parent^[i] position) = some x := by
  obtain ⟨j, rfl⟩ := Nat.exists_eq_add_of_lt hi
  cases hx : s.data? (s.parent^[i] position) with
  | some x => exact ⟨x, rfl⟩
  | none =>
    have hnone : s.parent (s.parent^[i] position) = none := by
      rw [parent, Option.map_eq_none_iff.1 hx]
      rfl
    rw [show i + j + 1 = j + (i + 1) by omega, Function.iterate_add_apply,
      Function.iterate_succ_apply', hnone, parent_iterate_none] at h
    cases h

/-- The walk comes to the nodes around the position one after the other, each from the one
before. -/
theorem outward_scopes {start : NodeId} (hstart : s.parent position = some start) (k : Nat) :
    outward (fun (_, n) => (s.parent (some n)).map fun p => (some n, p)) (position, start) k =
      (s.parent^[k + 1] position).map fun n => (s.parent^[k] position, n) := by
  induction k with
  | zero => simp [hstart]
  | succ k ih =>
    rw [outward, ih, Function.iterate_succ_apply' s.parent (k + 1)]
    cases s.parent^[k + 1] position with
    | none => rfl
    | some n => rfl

/-- A binding is found where the first of the nodes around the position has one. -/
theorem findBinding_eq_some_iff_exists : s.findBinding name position = some b ↔
    ∃ k < scopeWalkLimit, ∃ n, s.parent^[k + 1] position = some n ∧
      s.bindingAt name (s.parent^[k] position) n = some (some b) ∧
      ∀ j < k, ∀ m, s.parent^[j + 1] position = some m →
      s.bindingAt name (s.parent^[j] position) m = none := by
  cases hstart : s.parent position with
  | none => simp [findBinding, hstart, Function.iterate_succ_apply, parent_iterate_none]
  | some start =>
    have hwalk : s.findBinding name position = some b ↔
        walkOutward (fun (_, n) => (s.parent (some n)).map fun p => (some n, p))
          (fun (prior, n) => s.bindingAt name prior n) scopeWalkLimit (position, start) =
            .found (some b) := by
      simp only [findBinding, hstart]
      generalize walkOutward _ _ scopeWalkLimit (position, start) = w
      cases w <;> simp [Walk.found?]
    rw [hwalk, walkOutward_eq_found_iff]
    refine exists_congr fun k => and_congr_right fun _ => ?_
    simp only [Arrives, outward_scopes hstart, Option.map_eq_some_iff]
    constructor
    · rintro ⟨_, ⟨⟨n, hn, rfl⟩, hbefore⟩, hb⟩
      exact ⟨n, hn, hb, fun j hj m hm => hbefore j hj _ ⟨m, hm, rfl⟩⟩
    · rintro ⟨n, hn, hb, hbefore⟩
      refine ⟨_, ⟨⟨n, hn, rfl⟩, ?_⟩, hb⟩
      rintro j hj _ ⟨m, hm, rfl⟩
      exact hbefore j hj m hm

theorem FrameOf.exists_data? (h : s.FrameOf r prior f) : ∃ x, s.data? r = some x := by
  cases h <;> exact ⟨_, ‹_›⟩

theorem kind?_ne_iff {k : NodeKind} {x : NodeData} (hx : s.data? r = some x) :
    s.kind? r ≠ some k ↔ x.kind ≠ k := by
  simp [kind?, hx]

theorem innermost_of_findBinding (h : s.findBinding name position = some b) :
    s.Innermost name position b := by
  obtain ⟨k, hk, n, hn, hb, hbefore⟩ := findBinding_eq_some_iff_exists.1 h
  obtain ⟨hkind, f, hframe, hfirst⟩ := bindingAt_eq_some_iff.1 hb
  rw [← hn] at hkind hframe
  have hpassed : ∀ j < k, s.kind? (s.parent^[j + 1] position) ≠ some .compilationUnit ∧
      ∀ g, s.FrameOf (s.parent^[j + 1] position) (s.parent^[j] position) g →
        ∀ c ∈ g.candidates, ¬ s.Declares name c := by
    intro j hj
    obtain ⟨x, hx⟩ := exists_data?_iterate hn (by omega : j + 1 < k + 1)
    obtain ⟨m, hm⟩ := exists_of_data? hx
    rw [hm]
    exact bindingAt_eq_none_iff.1 (hbefore j hj m hm)
  refine ⟨k, hk, f, ⟨fun i hi => ?_, hframe⟩, hfirst, fun i hi g hg => (hpassed i hi).2 g hg.frame⟩
  rcases Nat.lt_or_eq_of_le hi with hi | rfl
  · obtain ⟨x, hx⟩ := exists_data?_iterate hn (by omega : i + 1 < k + 1)
    exact ⟨x, hx, (kind?_ne_iff hx).1 (hpassed i hi).1⟩
  · obtain ⟨x, hx⟩ := hframe.exists_data?
    exact ⟨x, hx, (kind?_ne_iff hx).1 hkind⟩

theorem Innermost.findBinding_eq (h : s.Innermost name position b) :
    s.findBinding name position = some b := by
  obtain ⟨k, hk, f, ⟨hinside, hframe⟩, hfirst, hnearer⟩ := h
  have hkind : ∀ i ≤ k, s.kind? (s.parent^[i + 1] position) ≠ some .compilationUnit := by
    intro i hi
    obtain ⟨x, hx, hne⟩ := hinside i hi
    exact (kind?_ne_iff hx).2 hne
  obtain ⟨x, hx⟩ := hframe.exists_data?
  obtain ⟨n, hn⟩ := exists_of_data? hx
  refine findBinding_eq_some_iff_exists.2 ⟨k, hk, n, hn, bindingAt_eq_some_iff.2 ?_,
    fun j hj m hm => bindingAt_eq_none_iff.2 ?_⟩
  · rw [← hn]
    exact ⟨hkind k (Nat.le_refl k), f, hframe, hfirst⟩
  · rw [← hm]
    exact ⟨hkind j (by omega), fun g hg => hnearer j hj g ⟨fun i hi => hinside i (by omega), hg⟩⟩

/-- A name stands for its innermost visible binding, and for nothing where there is none. -/
theorem findBinding_eq_iff_innermost (s : Store) (name : String) (position : Ref) :
    (∀ b, s.findBinding name position = some b ↔ s.Innermost name position b) ∧
      (s.findBinding name position = none ↔ ∀ b, ¬ s.Innermost name position b) := by
  have hiff : ∀ b, s.findBinding name position = some b ↔ s.Innermost name position b :=
    fun b => ⟨innermost_of_findBinding, Innermost.findBinding_eq⟩
  refine ⟨hiff, ?_⟩
  rw [Option.eq_none_iff_forall_ne_some]
  exact forall_congr' fun b => not_congr (hiff b)

end Store

end JavaRecipes
