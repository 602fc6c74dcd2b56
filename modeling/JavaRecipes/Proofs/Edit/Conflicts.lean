import JavaRecipes.Proofs.Edit.Validated

/-!
What the check of an edit set says. Each edit is looked at by itself
(`fault?_eq_none_iff_acceptable`) and then against one earlier edit of the same node only, the last.
In a set that was built, where no edit stands twice, this comes to the same as comparing all pairs
(`validate_ok_iff`).
-/

namespace JavaRecipes

theorem roleFault?_eq_none_iff {f : SourceFile} {r : Ref} {role : NodeRole} :
    roleFault? f r role = none ↔ ∃ kind, f.store.kind? r = some kind ∧ role.admits kind := by
  unfold roleFault?
  cases f.store.kind? r with
  | none => simp
  | some kind => cases hadmits : role.admits kind <;> simp [hadmits]

theorem missingFault?_eq_none_iff {f : SourceFile} {rs : List Ref} :
    missingFault? f rs = none ↔ ∀ r ∈ rs, (f.store.get? r).isSome := by
  simp [missingFault?, Option.isNone_iff_eq_none, Option.isSome_iff_ne_none]

namespace Snippet

/-- The snippet has the node of the file in it. -/
inductive Uses : Snippet → Ref → Prop
  | existing (a : Ref) : Uses (.existing a) a
  | target {target : Snippet} {owner name : String} {fieldType : Option String} {a : Ref} :
    Uses target a → Uses (.staticField target owner name fieldType) a
  | select {select : Snippet} {signature : MethodSignature} {arguments : List Snippet} {a : Ref} :
    Uses select a → Uses (.invocation (some select) signature arguments) a
  | argument {select : Option Snippet} {signature : MethodSignature} {arguments : List Snippet}
    {argument : Snippet} {a : Ref} : argument ∈ arguments → Uses argument a →
    Uses (.invocation select signature arguments) a

mutual

/-- The nodes that a snippet has in it are listed. -/
theorem mem_existingNodes_iff {a : Ref} :
    ∀ {snippet : Snippet}, a ∈ snippet.existingNodes ↔ snippet.Uses a
  | .existing r => by
    rw [existingNodes, List.mem_singleton]
    constructor
    · rintro rfl
      exact .existing a
    · rintro ⟨⟩
      rfl
  | .stringLiteral _ => ⟨fun h => (List.not_mem_nil h).elim, fun h => nomatch h⟩
  | .typeName _ => ⟨fun h => (List.not_mem_nil h).elim, fun h => nomatch h⟩
  | .staticField target _ _ _ => by
    rw [existingNodes, mem_existingNodes_iff]
    constructor
    · exact .target
    · rintro (_ | h)
      exact h
  | .invocation select _ arguments => by
    rw [existingNodes, List.mem_append, mem_existingNodesOption_iff, mem_existingNodesList_iff]
    constructor
    · rintro (⟨s, rfl, h⟩ | ⟨s, hs, h⟩)
      · exact .select h
      · exact .argument hs h
    · rintro (_ | _ | h | ⟨hs, h⟩)
      · exact .inl ⟨_, rfl, h⟩
      · exact .inr ⟨_, hs, h⟩

theorem mem_existingNodesOption_iff {a : Ref} : ∀ {select : Option Snippet},
    a ∈ existingNodesOption select ↔ ∃ s, select = some s ∧ s.Uses a
  | none => by simp [existingNodesOption]
  | some s => by simp [existingNodesOption, mem_existingNodes_iff]

theorem mem_existingNodesList_iff {a : Ref} : ∀ {arguments : List Snippet},
    a ∈ existingNodesList arguments ↔ ∃ s ∈ arguments, s.Uses a
  | [] => by simp [existingNodesList]
  | s :: rest => by
    simp [existingNodesList, mem_existingNodes_iff, mem_existingNodesList_iff]

end

end Snippet

namespace Edit

/-- An edit that can be made in a file: the node it is about is there and of the right kind, what it
uses is there, and no class takes the name of another one. -/
def Acceptable (f : SourceFile) : Edit → Prop
  | .setLiteral r _ => f.store.kind? r = some .literal
  | .replaceExpression r snippet =>
    (f.store.get? r).isSome ∧ (f.store.parent r).isSome ∧
      ∀ a, snippet.Uses a → (f.store.get? a).isSome
  | .renameIdentifier r _ => f.store.kind? r = some .identifier
  | .removeModifier r _ =>
    f.store.kind? r = some .classDeclaration ∨ f.store.kind? r = some .methodDeclaration ∨
      f.store.kind? r = some .variableDeclarations
  | .renameClassType source target =>
    ¬(source ≠ target ∧ (f.types.lookupClass source).isSome ∧ (f.types.lookupClass target).isSome)
  | .renameMethodType id _ => ∃ m, f.types.methodAt? id = some m
  | .retypeInvocation r _ => f.store.kind? r = some .methodInvocation

/-- The edits that take a modifier away. -/
def RemovesModifier (e : Edit) : Prop := ∃ r modifier, e = .removeModifier r modifier

theorem fault?_eq_none_iff_acceptable {f : SourceFile} {e : Edit} :
    e.fault? f = none ↔ e.Acceptable f := by
  cases e with
  | setLiteral r value => simp [fault?, Acceptable, roleFault?_eq_none_iff, NodeRole.admits]
  | replaceExpression r snippet =>
    cases hnode : f.store.get? r with
    | none => simp [fault?, Acceptable, hnode]
    | some node =>
      cases hparent : f.store.parent r <;>
        simp [fault?, Acceptable, hnode, hparent, missingFault?_eq_none_iff,
          Snippet.mem_existingNodes_iff]
  | renameIdentifier r name => simp [fault?, Acceptable, roleFault?_eq_none_iff, NodeRole.admits]
  | removeModifier r modifier =>
    simp only [fault?, Acceptable, roleFault?_eq_none_iff, NodeRole.admits]
    cases f.store.kind? r <;> simp [or_assoc]
  | renameClassType source target =>
    simp only [fault?, Acceptable, ite_eq_right_iff, reduceCtorEq, imp_false]
  | renameMethodType id name =>
    simp [fault?, Acceptable, Option.isNone_iff_eq_none, Option.eq_none_iff_forall_ne_some]
  | retypeInvocation r signature =>
    simp [fault?, Acceptable, roleFault?_eq_none_iff, NodeRole.admits]

/-- Two different edits agree just if both take modifiers away. -/
theorem agrees_iff_of_ne {a b : Edit} (hne : a ≠ b) :
    a.Agrees b ↔ a.RemovesModifier ∧ b.RemovesModifier := by
  constructor
  · rintro (h | ⟨r, r', k, k', ha, hb⟩)
    · exact absurd h hne
    · exact ⟨⟨r, k, ha⟩, r', k', hb⟩
  · rintro ⟨⟨r, k, ha⟩, r', k', hb⟩
    exact .inr ⟨r, r', k, k', ha, hb⟩

end Edit

namespace EditSet

theorem harmonious_iff {es : List Edit} : Harmonious es ↔ ∀ a ∈ es, ∀ b ∈ es, a ≠ b →
    ∀ r, a.target? = some r → b.target? = some r → a.RemovesModifier ∧ b.RemovesModifier := by
  constructor
  · intro h a ha b hb hne r har hbr
    exact (Edit.agrees_iff_of_ne hne).1 (h a ha b hb r har hbr)
  · intro h a ha b hb r har hbr
    by_cases heq : a = b
    · exact .inl heq
    · exact (Edit.agrees_iff_of_ne heq).2 (h a ha b hb heq r har hbr)

/-- A set that was built passes the check of a file just if each of its edits can be made in the
file, and any two different edits of one node take modifiers away. -/
theorem validate_ok_iff {s : EditSet} (hs : s.Built) (f : SourceFile) :
    s.validate f = .ok () ↔ (∀ e ∈ s.edits, e.Acceptable f) ∧ ∀ a ∈ s.edits, ∀ b ∈ s.edits, a ≠ b →
      ∀ r, a.target? = some r → b.target? = some r → a.RemovesModifier ∧ b.RemovesModifier := by
  rw [validate_eq_ok_iff, fault?_eq_none_iff hs.nodup, harmonious_iff]
  simp only [Edit.fault?_eq_none_iff_acceptable]

/-- A class that is public and static. -/
def modifiersFile : SourceFile :=
  let d : Draft := {}
  let (n, d) := d.classDeclaration {
    name := "Box", modifiers := [{ kind := .isPublic }, { kind := .isStatic }] }
  d.finish "Box.java" none [] [some n]

/-- Take both modifiers away and rename the class in between; one of the modifiers is named
twice. -/
def stripping : EditSet :=
  ((empty.push (.removeModifier (some 2) .isStatic)).push
      (.renameIdentifier (some 0) "Crate")).pushAll
    ((empty.push (.removeModifier (some 2) .isStatic)).push
      (.removeModifier (some 2) .isPublic)).edits

/-- The set passes, and does not once the class gets a second new name, with a modifier between the
two. -/
theorem validate_ok_iff_stripping :
    stripping.Built ∧ (∀ e ∈ stripping.edits, e.Acceptable modifiersFile) ∧
    (stripping.push (.renameIdentifier (some 0) "Chest")).validate modifiersFile ≠ .ok () := by
  have hbuilt : stripping.Built := .extend (.push _ (.push _ .empty)) (.push _ (.push _ .empty))
  have hpasses : stripping.validate modifiersFile = .ok () := by decide +kernel
  refine ⟨hbuilt, ((validate_ok_iff hbuilt modifiersFile).1 hpasses).1, fun h => ?_⟩
  obtain ⟨r, modifier, hremoves⟩ := (((validate_ok_iff (hbuilt.push _) modifiersFile).1 h).2
    (.renameIdentifier (some 0) "Crate") (by decide) (.renameIdentifier (some 0) "Chest")
      (by decide) (by decide)
    (some 0) rfl rfl).1
  cases hremoves

end EditSet

end JavaRecipes
