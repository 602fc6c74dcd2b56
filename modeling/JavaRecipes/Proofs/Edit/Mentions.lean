import JavaRecipes.Edit.Apply

/-!
The type names that edits mention, and what interning them does to the class index: a name that is
there stays where it is, and only names that are mentioned come up.
-/

namespace JavaRecipes

/-- The type names in a signature. -/
def MethodSignature.typeNames (m : MethodSignature) : List String :=
  m.declaring :: (m.returns.toList ++ m.params)

namespace Snippet

mutual

/-- The type names in a snippet; a string has the type of strings. -/
def typeNames : Snippet → List String
  | .existing _ => []
  | .stringLiteral _ => [stringClass]
  | .typeName name => [name]
  | .staticField target owner _ fieldType => typeNames target ++ owner :: fieldType.toList
  | .invocation select signature arguments =>
    typeNamesOption select ++ typeNamesList arguments ++ signature.typeNames

def typeNamesOption : Option Snippet → List String
  | none => []
  | some s => typeNames s

def typeNamesList : List Snippet → List String
  | [] => []
  | s :: ss => typeNames s ++ typeNamesList ss

end

end Snippet

/-- The type names that an edit brings in. -/
def Edit.typeNames : Edit → List String
  | .replaceExpression _ snippet => snippet.typeNames
  | .retypeInvocation _ signature => signature.typeNames
  | _ => []

namespace TypeTable

/-- The index of `t'` is that of `t`, with new names among the given ones. -/
def Interns (names : List String) (t t' : TypeTable) : Prop :=
  ∀ name, t'.lookupClass name = t.lookupClass name ∨ name ∈ names ∧ t.lookupClass name = none

namespace Interns

variable {names names' : List String} {t u v : TypeTable}

theorem refl (t : TypeTable) : Interns [] t t := fun _ => .inl rfl

theorem mono (h : Interns names t u) (hsub : names ⊆ names') : Interns names' t u :=
  fun name => (h name).imp_right fun ⟨hmem, hnone⟩ => ⟨hsub hmem, hnone⟩

theorem trans (h : Interns names t u) (h' : Interns names' u v) :
    Interns (names ++ names') t v := by
  intro name
  rcases h name with hsame | ⟨hmem, hnone⟩
  · rw [← hsame]
    exact (h' name).imp_right fun ⟨hmem, hnone⟩ => ⟨List.mem_append_right _ hmem, hnone⟩
  · exact .inr ⟨List.mem_append_left _ hmem, hnone⟩

/-- A class that is known stays known. -/
theorem lookupClass_of_some (h : Interns names t u) {name : String} {id : TypeId}
    (hid : t.lookupClass name = some id) : u.lookupClass name = some id := by
  rcases h name with hsame | ⟨-, hnone⟩
  · rw [hsame, hid]
  · rw [hid] at hnone
    cases hnone

/-- A name that is not mentioned does not come up. -/
theorem lookupClass_of_not_mem (h : Interns names t u) {name : String} (hname : name ∉ names) :
    u.lookupClass name = t.lookupClass name :=
  (h name).resolve_right fun hmem => hname hmem.1

/-- An entry that is pushed is not indexed. -/
theorem push (h : Interns names t u) (e : TypeEntry) : Interns names t (u.push e) := h

theorem internEntry (h : Interns names t u) (e : TypeEntry) :
    Interns names t (u.internEntry e).2 := by
  unfold TypeTable.internEntry
  split
  · exact h
  · exact h.push e

theorem internClass (t : TypeTable) (name : String) (owner : Option TypeId) :
    Interns [name] t (t.internClass name owner).2 := by
  intro key
  by_cases hkey : name = key
  · subst hkey
    cases hid : t.lookupClass name with
    | none => exact .inr ⟨List.mem_singleton_self _, rfl⟩
    | some id =>
      refine .inl ?_
      simp [TypeTable.internClass, hid]
  · exact .inl (by rw [lookupClass_internClass, if_neg hkey])

theorem internName (t : TypeTable) (name : String) : Interns [name] t (t.internName name).2 := by
  unfold TypeTable.internName
  split
  · exact ((refl t).internEntry _).mono (List.nil_subset _)
  · exact internClass t name none

theorem internNames (t : TypeTable) (names : List String) :
    Interns names t (t.internNames names).2 := by
  induction names generalizing t with
  | nil => exact refl t
  | cons name names ih => exact (internName t name).trans (ih _)

theorem internSignature (t : TypeTable) (signature : MethodSignature) :
    Interns signature.typeNames t (t.internSignature signature).2 := by
  obtain ⟨declaring, name, returns, params⟩ := signature
  have hclass := internClass t declaring none
  cases returns with
  | none =>
    exact Interns.mono ((hclass.trans (internNames _ params)).internEntry _)
      (by simp [MethodSignature.typeNames])
  | some result =>
    exact Interns.mono
      (((hclass.trans (internName _ result)).trans (internNames _ params)).internEntry _)
      (by simp [MethodSignature.typeNames])

end Interns

end TypeTable

namespace Draft

open TypeTable (Interns)

theorem interns_typeNamed? (d : Draft) (name : Option String) :
    Interns name.toList d.types (d.typeNamed? name).2.types := by
  cases name with
  | none => exact .refl _
  | some name => exact .internName _ name

mutual

/-- Building a snippet interns the names in it. -/
theorem interns_materialize : ∀ (snippet : Snippet) (d : Draft),
    Interns snippet.typeNames d.types (d.materialize snippet).2.types
  | .existing _, d => .refl d.types
  | .stringLiteral _, d => .internClass d.types stringClass none
  | .typeName name, d => .internClass d.types name none
  | .staticField target owner name fieldType, d => by
    have htarget := interns_materialize target d
    have howner := htarget.trans (.internClass _ owner none)
    have htype :=
      howner.trans (interns_typeNamed? ((d.materialize target).2.classType owner).2 fieldType)
    exact Interns.mono (htype.push _) (by simp [Snippet.typeNames])
  | .invocation select signature arguments, d =>
    ((interns_materializeOption select d).trans (interns_materializeList arguments _)).trans
      (.internSignature _ signature)

theorem interns_materializeOption : ∀ (snippet : Option Snippet) (d : Draft),
    Interns (Snippet.typeNamesOption snippet) d.types (d.materializeOption snippet).2.types
  | none, d => .refl d.types
  | some snippet, d => interns_materialize snippet d

theorem interns_materializeList : ∀ (snippets : List Snippet) (d : Draft),
    Interns (Snippet.typeNamesList snippets) d.types (d.materializeList snippets).2.types
  | [], d => .refl d.types
  | snippet :: snippets, d =>
    (interns_materialize snippet d).trans (interns_materializeList snippets _)

end

end Draft

end JavaRecipes
