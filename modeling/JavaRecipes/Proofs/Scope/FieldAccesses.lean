import JavaRecipes.Proofs.Scope.Precedence
import JavaRecipes.Tree.Draft

/-!
What a field access stands for. Only the name of the field is looked up, so a local variable of that
name comes before the field (`resolve_shadowedFile`); where no local of the name is in sight, a
field access stands for what a member of a class starts with, and what no other declaration starts
with (`resolve_fieldAccess`).
-/

namespace JavaRecipes

namespace Store

variable {s : Store} {types : TypeTable} {reference position c : Ref} {name : String}

/-- A frame around the position shows the declaration. -/
def InScope (s : Store) (position c : Ref) : Prop :=
  ∃ k f, s.ScopeAt position k f ∧ c ∈ f.candidates

/-- The declaration is a member of the body of a class. -/
def ClassMember (s : Store) (c : Ref) : Prop :=
  ∃ n < s.size, ∃ d ∈ s.class? (some n), ∃ e ∈ s.block? d.body, c ∈ e.statements

instance (s : Store) (c : Ref) : Decidable (s.ClassMember c) :=
  inferInstanceAs
    (Decidable (∃ n < s.size, ∃ d ∈ s.class? (some n), ∃ e ∈ s.block? d.body, c ∈ e.statements))

/-- A local variable of the name is in scope, and no member of a class in a nearer scope has the
name. -/
def LocalInSight (s : Store) (name : String) (position : Ref) : Prop :=
  ∃ k f, s.ScopeAt position k f ∧ (∃ c ∈ f.candidates, s.Declares name c ∧ ¬ s.ClassMember c) ∧
    ∀ i < k, ∀ g, s.ScopeAt position i g → ∀ c ∈ g.candidates, s.Declares name c → ¬ s.ClassMember c

/-- A variable of the name starts with `x` in the declaration. -/
def Initializes (s : Store) (c : Ref) (name : String) (x : Ref) : Prop :=
  ∃ d ∈ s.declarations? c, ∃ v ∈ d.declared, ∃ w ∈ s.namedVariable? v,
    s.identifierText? w.name = some name ∧ w.initializer = x

instance (s : Store) (c : Ref) (name : String) (x : Ref) : Decidable (s.Initializes c name x) :=
  inferInstanceAs (Decidable (∃ d ∈ s.declarations? c, ∃ v ∈ d.declared, ∃ w ∈ s.namedVariable? v,
    s.identifierText? w.name = some name ∧ w.initializer = x))

theorem Innermost.inScope {b : Binding} (h : s.Innermost name position b) :
    s.InScope position b.declaration := by
  obtain ⟨k, -, f, hscope, hfirst, -⟩ := h
  exact ⟨k, f, hscope, hfirst.mem⟩

theorem Innermost.declares {b : Binding} (h : s.Innermost name position b) :
    s.Declares name b.declaration := by
  obtain ⟨k, -, f, -, hfirst, -⟩ := h
  exact hfirst.declares

theorem Innermost.initializes {b : Binding} (h : s.Innermost name position b) :
    s.Initializes b.declaration name b.initializer := by
  obtain ⟨k, -, f, -,
      ⟨-, -, -, -, d, hd, ⟨before, after, hsplit, -⟩, ⟨w, hw, hname, hinit⟩, -⟩, -⟩ := h
  exact ⟨d, hd, b.named, by simp [hsplit], w, hw, hname, hinit.symm⟩

/-- What a name stands for is a member of a class, or a local variable in sight. -/
theorem Innermost.classMember {b : Binding} (h : s.Innermost name position b)
    (hlocal : ¬ s.LocalInSight name position) : s.ClassMember b.declaration := by
  obtain ⟨k, -, f, hscope, hfirst, hnearer⟩ := h
  by_contra hmember
  exact hlocal ⟨k, f, hscope, ⟨b.declaration, hfirst.mem, hfirst.declares, hmember⟩,
    fun i hi g hg c hc hdeclares => absurd hdeclares (hnearer i hi g hg c hc)⟩

/-- A reference that stands for something else names a variable, and stands for what its innermost
binding starts with. -/
theorem exists_innermost_of_resolve (h : s.resolve types reference position ≠ reference) :
    ∃ id v b, s.referencedVariable reference = some id ∧ types.variableAt? id = some v ∧
      s.Innermost v.name position b ∧ s.resolve types reference position = b.initializer := by
  unfold resolve at h ⊢
  cases hid : s.referencedVariable reference with
  | none => simp [hid] at h
  | some id =>
    cases hv : types.variableAt? id with
    | none => simp [hid, hv] at h
    | some v =>
      cases howner : types.rootOwner id with
      | none => simp [hid, hv, howner] at h
      | some owner =>
        cases haround : s.localRootOwner types position with
        | none => simp [hid, hv, howner, haround] at h
        | some around =>
          cases hb : s.findBinding v.name position with
          | none => simp [hid, hv, howner, haround, hb] at h
          | some b =>
            simp only [hid, hv, howner, haround, hb] at h ⊢
            split at h
            · split at h
              · rename_i heq hfinal
                refine ⟨id, v, b, rfl, hv, innermost_of_findBinding hb, ?_⟩
                simp [heq, hfinal]
              · exact absurd rfl h
            · exact absurd rfl h

theorem Initializes.declares {x : Ref} (h : s.Initializes c name x) : s.Declares name c := by
  obtain ⟨d, hd, v, hv, w, hw, hname, -⟩ := h
  exact ⟨d, hd, v, hv, w, hw, hname⟩

/-- An initializer is below its declaration, with one variable between them. -/
theorem Initializes.exists_variable {n x : NodeId} (h : s.Initializes (some n) name (some x)) :
    ∃ v, s.Holds n v ∧ s.Holds v x := by
  obtain ⟨d, hd, v, hv, w, hw, -, hinit⟩ := h
  have hdata := namedVariable?_eq_some.1 hw
  obtain ⟨v, rfl⟩ := exists_of_data? hdata
  refine ⟨v, (holds_iff (declarations?_eq_some.1 hd)).2 (NodeData.mem_children_of_many ?_ hv),
    (holds_iff hdata).2 ?_⟩
  · simp [NodeData.childFields]
  · simp [NodeData.children, NodeData.childFields, ChildField.children, hinit]

end Store

namespace SourceFile

variable {f : SourceFile} {n n' position x : NodeId} {reference c : Ref} {name name' : String}

/-- The reference is a field access such as `this.name` or `Config.name`: what it names is a
variable of a class. -/
def AccessesField (f : SourceFile) (reference : Ref) (name : String) : Prop :=
  f.store.kind? reference = some .fieldAccess ∧
    ∃ id ∈ f.store.referencedVariable reference, ∃ v ∈ f.types.variableAt? id,
      v.name = name ∧ ∃ owner ∈ v.owner, (f.types.classAt? owner).isSome

instance (f : SourceFile) (reference : Ref) (name : String) :
    Decidable (f.AccessesField reference name) :=
  inferInstanceAs (Decidable (f.store.kind? reference = some .fieldAccess ∧
    ∃ id ∈ f.store.referencedVariable reference, ∃ v ∈ f.types.variableAt? id,
      v.name = name ∧ ∃ owner ∈ v.owner, (f.types.classAt? owner).isSome))

/-- Two declarations of a tree do not start variables with one node. -/
theorem Treelike.eq_of_initializes (h : f.Treelike) (hx : x < f.store.size) (hn : f.Reaches n)
    (hn' : f.Reaches n') (hinit : f.store.Initializes (some n) name (some x))
    (hinit' : f.store.Initializes (some n') name' (some x)) :
    n' = n := by
  obtain ⟨v, hnv, hvx⟩ := hinit.exists_variable
  obtain ⟨v', hnv', hvx'⟩ := hinit'.exists_variable
  have hv : f.Reaches v := .step hn hnv (Store.holds_lt_size hvx)
  have hv' : f.Reaches v' := .step hn' hnv' (Store.holds_lt_size hvx')
  obtain rfl := h.holder_eq hv hv' hvx hvx' hx
  exact h.holder_eq hn hn' hnv hnv' hv.lt_size

/-- What is in scope at a reachable node is reachable, where it is a node. -/
theorem Rooted.reaches_of_inScope (hf : f.Rooted) (hposition : f.Reaches position)
    (h : f.store.InScope (some position) (some n)) (hn : n < f.store.size) : f.Reaches n := by
  obtain ⟨k, frame, hscope, hmem⟩ := h
  obtain ⟨x, hx, -⟩ := hscope.inside k (Nat.le_refl k)
  obtain ⟨r, hr⟩ := Store.exists_of_data? hx
  obtain ⟨hreach, -, -⟩ := hf.above hposition hr
  have hframe := hscope.frame
  rw [hr] at hframe
  rcases hframe.mem_children hmem with hchild | hself
  · exact .step hreach hchild hn
  · obtain rfl := Option.some.inj hself
    exact hreach

/-- In the tree, no variable of another declaration starts with the node `x`. -/
def StartsOnly (f : SourceFile) (c x : Ref) : Prop :=
  ∀ n name, f.Reaches n → (f.store.get? x).isSome → f.store.Initializes (some n) name x → c = some n

/-- If no local variable of its name is in sight, a field access stands for what a variable in the
body of a class starts with; at a position in the tree, only variables of that declaration start
with it. -/
theorem Rooted.resolve_fieldAccess (hf : f.Rooted) {position : Ref}
    (haccess : f.AccessesField reference name) (hlocal : ¬ f.store.LocalInSight name position)
    (hne : f.store.resolve f.types reference position ≠ reference) :
    ∃ c, f.store.ClassMember c ∧
      f.store.Initializes c name (f.store.resolve f.types reference position) ∧
      ∀ p ∈ position, f.Reaches p →
      f.StartsOnly c (f.store.resolve f.types reference position) := by
  obtain ⟨id, v, b, hid, hv, hinnermost, hresult⟩ := Store.exists_innermost_of_resolve hne
  obtain ⟨-, id', hid', v', hv', rfl, -⟩ := haccess
  obtain rfl := Option.some.inj (hid.symm.trans hid')
  obtain rfl := Option.some.inj (hv.symm.trans hv')
  rw [hresult]
  refine ⟨b.declaration, hinnermost.classMember hlocal, hinnermost.initializes, ?_⟩
  rintro p rfl hp n' name' hn' hx hinit'
  obtain ⟨node, hnode⟩ := Option.isSome_iff_exists.1 hx
  obtain ⟨x, hxeq, -⟩ := Option.bind_eq_some_iff.1 hnode
  obtain ⟨n, hn, hlt⟩ := hinnermost.declares.exists_node
  have hinit := hinnermost.initializes
  have hscope := hinnermost.inScope
  rw [hxeq] at hinit hinit' hx
  rw [hn] at hinit hscope ⊢
  rw [hf.treelike.eq_of_initializes ((f.store.get?_isSome_iff x).1 hx)
    (hf.reaches_of_inScope hp hscope hlt) hn' hinit hinit']

/-- A class with a constant, and a method in which a local constant stands before an access to the
field. -/
def accessFile (localName : String) : SourceFile :=
  let d : Draft := {}
  let (config, d) := d.classType "sample.Config"
  let (string, d) := d.classType stringClass
  let (run, d) := d.methodType { declaring := config, name := "run", returns := none, params := [] }
  let (value, d) := d.stringLiteral "field"
  let (field, fields, d) := d.declaration [] [{ kind := .isFinal }] (some string)
    [{ name := "NAME", owner := some config, initializer := some value }]
  let (value, d) := d.stringLiteral "local"
  let (declaration, _, d) := d.declaration [] [{ kind := .isFinal }] (some string)
    [{ name := localName, owner := some run, initializer := some value }]
  let (owner, d) := d.typeRef config
  let (access, d) := d.fieldAccess (some owner) (fields.headD 0)
  let (body, d) := d.block [some declaration, some access]
  let (method, d) := d.method { name := "run", body := some body, type := some run }
  let (c, d) := d.classDeclaration {
    name := "Config", members := [some field, some method], type := some config }
  d.finish "Config.java" none [] [some c]

/-- The access stands for the field, as the local constant has another name. -/
theorem resolve_fieldAccess_accessFile :
    let f := accessFile "OTHER"
    f.Rooted ∧ f.AccessesField (some 12) "NAME" ∧
      ¬ f.store.LocalInSight "NAME" (some 12) ∧
      f.store.resolve f.types (some 12) (some 12) = some 0 ∧
      ∃ c, f.store.ClassMember c ∧ f.store.Initializes c "NAME" (some 0) ∧
          f.StartsOnly c (some 0) := by
  have hrooted : (accessFile "OTHER").Rooted :=
    (linked_of_forall (by decide +kernel) (by decide +kernel)).rooted
  have haccess : (accessFile "OTHER").AccessesField (some 12) "NAME" := by decide +kernel
  have hlocal : ¬ (accessFile "OTHER").store.LocalInSight "NAME" (some 12) := by
    rintro ⟨k, frame, -, ⟨c, -, hdeclares, hnot⟩, -⟩
    have hmembers : ∀ n < (accessFile "OTHER").store.size,
        (accessFile "OTHER").store.Declares "NAME" (some n) →
        (accessFile "OTHER").store.ClassMember (some n) := by decide +kernel
    obtain ⟨n, rfl, hlt⟩ := hdeclares.exists_node
    exact hnot (hmembers n hlt hdeclares)
  have hresolve :
      (accessFile "OTHER").store.resolve (accessFile "OTHER").types (some 12) (some 12) =
        some 0 := by
    decide +kernel
  obtain ⟨c, hmember, hinit, honly⟩ :=
    hrooted.resolve_fieldAccess haccess hlocal (by rw [hresolve]; decide)
  rw [hresolve] at hinit honly
  exact ⟨hrooted, haccess, hlocal, hresolve, c, hmember, hinit,
    honly 12 rfl (reaches_of_mem_nodes (by decide +kernel))⟩

/-- A local constant of the same name comes before the field: the access stands for what the local
constant starts with, which no member of a class does. -/
theorem resolve_shadowedFile :
    let f := accessFile "NAME"
    f.Linked ∧ f.AccessesField (some 12) "NAME" ∧ f.Reaches 12 ∧
      f.store.resolve f.types (some 12) (some 12) = some 5 ∧
      ¬ ∃ c name, f.store.ClassMember c ∧ f.store.Initializes c name (some 5) := by
  have hlinked : (accessFile "NAME").Linked :=
    linked_of_forall (by decide +kernel) (by decide +kernel)
  refine ⟨hlinked,
    by decide +kernel, reaches_of_mem_nodes (by decide +kernel), by decide +kernel, ?_⟩
  rintro ⟨c, name, hmember, hinit⟩
  obtain ⟨n, rfl, hlt⟩ := hinit.declares.exists_node
  have hnodes : ∀ n < (accessFile "NAME").store.size, n ∈ (accessFile "NAME").nodes := by
    decide +kernel
  have hreaches : ∀ n < (accessFile "NAME").store.size, (accessFile "NAME").Reaches n :=
    fun n hn => reaches_of_mem_nodes (hnodes n hn)
  have hlocal : (accessFile "NAME").store.Initializes (some 9) "NAME" (some 5) := by decide +kernel
  obtain rfl := hlinked.rooted.treelike.eq_of_initializes (by decide +kernel)
    (hreaches 9 (by decide +kernel)) (hreaches n hlt) hlocal hinit
  exact absurd hmember (by decide +kernel)

end SourceFile

end JavaRecipes
