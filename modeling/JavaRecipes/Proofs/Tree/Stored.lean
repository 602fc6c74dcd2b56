import JavaRecipes.Proofs.Json.RoundTrip
import JavaRecipes.Proofs.Types.Index
import JavaRecipes.Tree.Stored

/-!
What is stored is read back: the records of a file as JSON values and the readers of these records
are inverse to each other (`SourceFile.ofJson?_toJson`), as long as every index is a number of 32
bits.
-/

namespace JavaRecipes

/-! ## Indexes in a file -/

/-- The types that a payload names. -/
def NodeData.typeIds : NodeData → List TypeId
  | .classDeclaration d => d.type.toList
  | .methodDeclaration d => d.type.toList
  | .namedVariable d => d.type.toList
  | .identifier d => d.type.toList ++ d.variableType.toList
  | .fieldAccess d => d.type.toList
  | .methodInvocation d => d.type.toList
  | .newClass d => d.type.toList
  | .literal d => d.type.toList
  | .assignment d => d.type.toList
  | .newArray d => d.type.toList
  | .lambda d => d.type.toList
  | .binary d => d.type.toList
  | _ => []

/-- A reference of 32 bits: all of them but the number that stands for nothing. -/
def Ref.Fits (r : Ref) : Prop := ∀ n, r = some n → n < Ref.vacant

def ChildField.Fits (field : ChildField) : Prop := ∀ r ∈ field.children, Ref.Fits r

/-- Types of 32 bits. -/
def TypesFit (ids : List TypeId) : Prop := ∀ id ∈ ids, id ≤ 4294967295

/-- Every index in the payload has 32 bits. -/
structure NodeData.Fits (x : NodeData) : Prop where
  fields : ∀ field ∈ x.childFields, field.Fits
  types : TypesFit x.typeIds

/-- Every index in the file has 32 bits. -/
structure SourceFile.Fits (f : SourceFile) : Prop where
  parents : ∀ r, Ref.Fits (f.store.parent r)
  payloads : ∀ {r x}, f.store.data? r = some x → x.Fits
  entries : ∀ {id e}, f.types.get? id = some e → TypesFit e.typeIds
  root : Ref.Fits f.root

instance (r : Ref) : Decidable (Ref.Fits r) :=
  decidable_of_iff (r.all (· < Ref.vacant)) (by simp [Ref.Fits, Option.all_eq_true])

instance (field : ChildField) : Decidable field.Fits :=
  inferInstanceAs (Decidable (∀ r ∈ field.children, Ref.Fits r))

instance (ids : List TypeId) : Decidable (TypesFit ids) :=
  inferInstanceAs (Decidable (∀ id ∈ ids, id ≤ 4294967295))

instance (x : NodeData) : Decidable x.Fits :=
  decidable_of_iff ((∀ field ∈ x.childFields, field.Fits) ∧ TypesFit x.typeIds)
    ⟨fun h => ⟨h.1, h.2⟩, fun h => ⟨h.1, h.2⟩⟩

theorem Store.exists_get?_of_mem {s : Store} {node : Node} (h : node ∈ s.nodes) :
    ∃ n, s.get? (some n) = some node :=
  let ⟨n, hn, hnode⟩ := Array.mem_iff_getElem.1 h
  ⟨n, by simp [get?, hn, hnode]⟩

theorem Store.mem_of_get? {s : Store} {r : Ref} {node : Node} (h : s.get? r = some node) :
    node ∈ s.nodes := by
  obtain ⟨n, -, hn⟩ := Option.bind_eq_some_iff.1 h
  exact Array.mem_of_getElem? hn

/-- The indexes of a file have 32 bits when those of each node and each entry have. -/
theorem SourceFile.fits_of_forall_mem {f : SourceFile}
    (hnodes : ∀ node ∈ f.store.nodes, Ref.Fits node.parent ∧ node.data.Fits)
    (hentries : ∀ e ∈ f.types.entries, TypesFit e.typeIds) (hroot : Ref.Fits f.root) : f.Fits := by
  refine ⟨?_, ?_, fun {id e} he => hentries e (Array.mem_of_getElem? he), hroot⟩
  · intro r k hk
    obtain ⟨node, hnode, hparent⟩ := Option.bind_eq_some_iff.1 hk
    exact (hnodes node (Store.mem_of_get? hnode)).1 k hparent
  · intro r x hx
    obtain ⟨node, hnode, rfl⟩ := Option.map_eq_some_iff.1 hx
    exact (hnodes node (Store.mem_of_get? hnode)).2

theorem ChildField.fits_one {r : Ref} : (ChildField.one r).Fits ↔ Ref.Fits r := by
  cases r <;> simp [Fits, children, Ref.Fits]

theorem typesFit_append {ids ids' : List TypeId} :
    TypesFit (ids ++ ids') ↔ TypesFit ids ∧ TypesFit ids' :=
  List.forall_mem_append

/-! ## Records -/

namespace Json

@[simp]
theorem canonical_text (s : String) : (Json.text s).Canonical := trivial

@[simp]
theorem canonical_int (i : Int) : (Json.int i).Canonical := Number.canonical_ofInt i

@[simp]
theorem canonical_nat (n : Nat) : (Json.nat n).Canonical := Number.canonical_ofInt n

theorem allCanonical_iff {items : List Json} :
    AllCanonical items ↔ ∀ item ∈ items, item.Canonical := by
  induction items with
  | nil => simp [AllCanonical]
  | cons item items ih => simp [AllCanonical, ih]

@[simp]
theorem canonical_array {items : List Json} :
    (Json.array items).Canonical ↔ ∀ item ∈ items, item.Canonical :=
  allCanonical_iff

@[simp]
theorem canonical_fields {fs : List (String × Json)} :
    (Json.fields fs).Canonical ↔ ∀ f ∈ fs, f.2.Canonical := by
  induction fs with
  | nil => simp [fields, Canonical, FieldsCanonical]
  | cons f fs ih =>
    simp only [fields, Canonical, List.map_cons, FieldsCanonical] at ih ⊢
    rw [ih, List.forall_mem_cons]

@[simp]
theorem canonical_option {α : Type} {f : α → Json} {a : Option α} :
    (Json.option f a).Canonical ↔ ∀ b, a = some b → (f b).Canonical := by
  cases a <;> simp [option, Canonical]

/-- The field of a key among named fields. -/
private theorem find?_fields (fs : List (String × Json)) (name : String) :
    ((fs.map fun f => (some f.1, f.2)).find? (·.1 == some name)).map (·.2) = fs.lookup name := by
  induction fs with
  | nil => rfl
  | cons f fs ih =>
    obtain ⟨key, value⟩ := f
    by_cases h : name = key
    · simp [h]
    · have hkey : (key == name) = false := by simpa using Ne.symm h
      have hname : (name == key) = false := by simpa using h
      simp only [List.map_cons, List.find?_cons, List.lookup_cons, Option.some_beq_some,
        hkey, hname, ih]

/-- The fields of an object with keys of its own are found by their names. -/
theorem record?_fields {fs : List (String × Json)} (h : (fs.map (·.1)).Nodup) (names : List String)
    (tail : Nat) :
    (Json.fields fs).record? names tail = some (names.map fun name => fs.lookup name) := by
  have honce : ∀ name,
      ((fs.map fun f => (some f.1, f.2)).filter (·.1 == some name)).length ≤ 1 := by
    intro name
    have hcount : (fs.map (·.1)).count name ≤ 1 := List.nodup_iff_count.1 h name
    rw [List.count, List.countP_map] at hcount
    rw [← List.countP_eq_length_filter, List.countP_map]
    simpa [Function.comp_def] using hcount
  have hsome : (fs.map fun f => (some f.1, f.2)).all (·.1.isSome) = true := by simp
  have hall : names.all (fun name =>
      ((fs.map fun f => (some f.1, f.2)).filter (·.1 == some name)).length ≤ 1) = true := by
    simp only [List.all_eq_true, decide_eq_true_eq]
    exact fun name _ => honce name
  rw [fields, record?, hsome, hall, Bool.and_true, if_pos rfl]
  simp only [find?_fields]

theorem int?_int {low high i : Int} (hlow : low ≤ i) (hhigh : i ≤ high) :
    (Json.int i).int? low high = some i := by
  simp [int?, int, Number.int?_ofInt, hlow, hhigh]

theorem word?_nat {n : Nat} (h : n ≤ 4294967295) : (Json.nat n).word? = some n := by
  have hint : (Json.int n).int? 0 4294967295 = some (n : Int) := int?_int (by omega) (by omega)
  simp [word?, nat, hint]

@[simp]
theorem required?_some {α : Type} (f : Json → Option α) (v : Json) :
    Json.required? f (some v) = f v := rfl

@[simp]
theorem text?_text (s : String) : (Json.text s).text? = some s := rfl

/-- A list whose items are read back is read back. -/
theorem list?_map {α : Type} {f : Json → Option α} {g : α → Json} {as : List α}
    (h : ∀ a ∈ as, f (g a) = some a) : Json.list? f (.array (as.map g)) = some as := by
  rw [list?]
  induction as with
  | nil => rfl
  | cons a as ih =>
    rw [List.forall_mem_cons] at h
    simp [h.1, ih h.2]

/-- An option whose value is read back, and is not `null`, is read back. -/
theorem optional?_option {α : Type} {f : Json → Option α} {g : α → Json} {a : Option α}
    (h : ∀ b, a = some b → g b ≠ .null ∧ f (g b) = some b) :
    Json.optional? f (some (Json.option g a)) = some a := by
  cases a with
  | none => rfl
  | some b =>
    obtain ⟨hnull, hread⟩ := h b rfl
    rw [option, optional?, hread]
    · rfl
    · exact hnull

end Json

/-! ## Small values -/

theorem unitOfJson?_text {α : Type} {all : List α} {label : α → String} {a : α}
    (h : all.find? (fun b => label b == label a) = some a) :
    unitOfJson? all label (.text (label a)) = some a := h

@[simp]
theorem ModifierKind.ofJson?_toJson (k : ModifierKind) : ofJson? k.toJson = some k :=
  unitOfJson?_text (by cases k <;> decide)

@[simp]
theorem ClassKind.ofJson?_toJson (k : ClassKind) : ofJson? k.toJson = some k :=
  unitOfJson?_text (by cases k <;> decide)

@[simp]
theorem BinaryOperator.ofJson?_toJson (o : BinaryOperator) : ofJson? o.toJson = some o :=
  unitOfJson?_text (by cases o <;> decide)

@[simp]
theorem Primitive.ofJson?_toJson (p : Primitive) : ofJson? p.toJson = some p :=
  unitOfJson?_text (by cases p <;> decide)

theorem Ref.ofJson?_toJson {r : Ref} (h : r.Fits) : Ref.ofJson? (Ref.toJson r) = some r := by
  unfold Ref.ofJson? Ref.toJson
  cases r with
  | none => rfl
  | some n =>
    have hn : n < Ref.vacant := h n rfl
    have hword : (Json.nat n).word? = some n := Json.word?_nat (Nat.le_of_lt hn)
    simp [Ref.code, hword, Ref.ofCode, Nat.ne_of_lt hn]

@[simp]
theorem Ref.ofJson?_toJson_of_field {r : Ref} (h : (ChildField.one r).Fits) :
    Ref.ofJson? (Ref.toJson r) = some r :=
  Ref.ofJson?_toJson (ChildField.fits_one.1 h)

@[simp]
theorem refsOfJson?_refsToJson {rs : List Ref} (h : (ChildField.many rs).Fits) :
    refsOfJson? (refsToJson rs) = some rs :=
  Json.list?_map fun r hr => Ref.ofJson?_toJson (h r hr)

@[simp]
theorem textsOfJson?_textsToJson (ss : List String) : textsOfJson? (textsToJson ss) = some ss :=
  Json.list?_map fun _ _ => rfl

@[simp]
theorem typeOfJson?_typeToJson {type : Option TypeId} (h : TypesFit type.toList) :
    typeOfJson? (some (typeToJson type)) = some type :=
  Json.optional?_option fun id hid =>
    ⟨by simp [Json.nat, Json.int], Json.word?_nat (h id (by simp [hid]))⟩

theorem commentsOfJson?_lookup (cs : List String) {fs : List (String × Json)}
    (h : "comments" ∉ fs.map (·.1)) :
    commentsOfJson? ((commentFields cs ++ fs).lookup "comments") = some cs := by
  have hnone : fs.lookup "comments" = none := by
    rw [List.lookup_eq_none_iff]
    intro f hf
    simpa using fun hkey => h (List.mem_map.2 ⟨f, hf, hkey.symm⟩)
  cases cs with
  | nil => simp [commentFields, hnone, commentsOfJson?, Json.defaulted?]
  | cons c cs =>
    simp [commentFields, commentsOfJson?, Json.defaulted?, textsOfJson?_textsToJson]

theorem lookup_commentFields (cs : List String) (fs : List (String × Json)) {key : String}
    (h : key ≠ "comments") : (commentFields cs ++ fs).lookup key = fs.lookup key := by
  cases cs with
  | nil => rfl
  | cons c cs =>
    have hkey : (key == "comments") = false := by simpa using h
    simp [commentFields, List.lookup_cons, hkey]

@[simp]
theorem Modifier.ofJson?_toJson (m : Modifier) : ofJson? m.toJson = some m := by
  obtain ⟨kind, comments⟩ := m
  have hkeys : ((("kind", kind.toJson) :: commentFields comments).map (·.1)).Nodup := by
    cases comments <;> simp [commentFields]
  have hcomments : commentsOfJson? ((commentFields comments ++ []).lookup "comments") =
      some comments :=
    commentsOfJson?_lookup comments (by simp)
  rw [List.append_nil] at hcomments
  simp [ofJson?, toJson, Json.record?_fields hkeys, List.lookup_cons, Json.required?,
    ModifierKind.ofJson?_toJson, hcomments]

@[simp]
theorem modifiersOfJson?_modifiersToJson (ms : List Modifier) :
    modifiersOfJson? (modifiersToJson ms) = some ms :=
  Json.list?_map fun m _ => m.ofJson?_toJson

@[simp]
theorem LiteralValue.ofJson?_toJson (v : LiteralValue) : ofJson? v.toJson = some v := by
  cases v with
  | int i =>
    have hread : (Json.int i.toInt).int? (-2147483648) 2147483647 = some i.toInt :=
      Json.int?_int i.le_toInt (Int.le_of_lt_add_one i.toInt_lt)
    simp [ofJson?, toJson, Json.fields, Json.variant?, hread]
  | long i =>
    have hread : (Json.int i.toInt).int? (-9223372036854775808) 9223372036854775807 =
        some i.toInt :=
      Json.int?_int i.le_toInt (Int.le_of_lt_add_one i.toInt_lt)
    simp [ofJson?, toJson, Json.fields, Json.variant?, hread]
  | _ => rfl

theorem MethodDeclaration.keys_nodup (d : MethodDeclaration) :
    ((commentFields d.comments ++
      [("annotations", refsToJson d.annotations), ("modifiers", modifiersToJson d.modifiers),
        ("return_type", Ref.toJson d.returnType), ("name", Ref.toJson d.name),
        ("parameters", refsToJson d.parameters), ("body", Ref.toJson d.body),
        ("method_type", typeToJson d.type)]).map (·.1)).Nodup := by
  cases d.comments <;> simp [commentFields]

/-- A payload is read back from its content. -/
theorem NodeData.ofContent?_contentJson {x : NodeData} (h : x.Fits) :
    ofContent? x.kind.label x.contentJson = some x := by
  obtain ⟨hfields, htypes⟩ := h
  cases x <;> simp only [childFields, List.forall_mem_cons, typeIds, typesFit_append]
    at hfields htypes <;>
    simp only [kind, NodeKind.label, ofContent?, contentJson]
  case compilationUnit d =>
    have hpackage : Json.optional? Json.text? (some (Json.option .text d.packageName)) =
        some d.packageName := Json.optional?_option fun _ _ => ⟨by simp [Json.text], rfl⟩
    simp [CompilationUnit.ofJson?, CompilationUnit.toJson, Json.record?_fields, List.lookup_cons,
      hfields, hpackage]
  case classDeclaration d =>
    simp [ClassDeclaration.ofJson?, ClassDeclaration.toJson, Json.record?_fields, List.lookup_cons,
      hfields, htypes]
  case methodDeclaration d =>
    simp [MethodDeclaration.ofJson?, MethodDeclaration.toJson, Json.record?_fields d.keys_nodup,
      commentsOfJson?_lookup, lookup_commentFields, List.lookup_cons, hfields, htypes]
  case block d =>
    simp [Block.ofJson?, Block.toJson, Json.record?_fields, List.lookup_cons, hfields]
  case variableDeclarations d =>
    simp [VariableDeclarations.ofJson?, VariableDeclarations.toJson, Json.record?_fields,
      List.lookup_cons, hfields]
  case namedVariable d =>
    simp [NamedVariable.ofJson?, NamedVariable.toJson, Json.record?_fields, List.lookup_cons,
      hfields, htypes]
  case identifier d =>
    simp [Identifier.ofJson?, Identifier.toJson, Json.record?_fields, List.lookup_cons, htypes]
  case fieldAccess d =>
    simp [FieldAccess.ofJson?, FieldAccess.toJson, Json.record?_fields, List.lookup_cons,
      hfields, htypes]
  case methodInvocation d =>
    simp [MethodInvocation.ofJson?, MethodInvocation.toJson, Json.record?_fields, List.lookup_cons,
      hfields, htypes]
  case newClass d =>
    simp [NewClass.ofJson?, NewClass.toJson, Json.record?_fields, List.lookup_cons, hfields, htypes]
  case literal d =>
    simp [Literal.ofJson?, Literal.toJson, Json.record?_fields, List.lookup_cons, htypes]
  case annotationUse d =>
    simp [AnnotationUse.ofJson?, AnnotationUse.toJson, Json.record?_fields,
      List.lookup_cons, hfields]
  case assignment d =>
    simp [Assignment.ofJson?, Assignment.toJson, Json.record?_fields, List.lookup_cons,
      hfields, htypes]
  case newArray d =>
    simp [NewArray.ofJson?, NewArray.toJson, Json.record?_fields, List.lookup_cons, hfields, htypes]
  case returnStatement d =>
    simp [ReturnStatement.ofJson?, ReturnStatement.toJson, Json.record?_fields,
      List.lookup_cons, hfields]
  case forLoop d =>
    simp [ForLoop.ofJson?, ForLoop.toJson, Json.record?_fields, List.lookup_cons, hfields]
  case tryStatement d =>
    simp [TryStatement.ofJson?, TryStatement.toJson, Json.record?_fields, List.lookup_cons, hfields]
  case lambda d =>
    simp [Lambda.ofJson?, Lambda.toJson, Json.record?_fields, List.lookup_cons, hfields, htypes]
  case binary d =>
    simp [Binary.ofJson?, Binary.toJson, Json.record?_fields, List.lookup_cons, hfields, htypes]

/-- A payload is read back from its record. -/
theorem NodeData.ofJson?_toJson {x : NodeData} (h : x.Fits) : ofJson? x.toJson = some x :=
  ofContent?_contentJson h

/-! ## Entries and files -/

theorem TypeEntry.ofJson?_toJson {e : TypeEntry} (h : TypesFit e.typeIds) :
    ofJson? e.toJson = some e := by
  cases e with
  | classType c =>
    simp only [typeIds] at h
    have hread : ClassType.ofJson? c.toJson = some c := by
      simp [ClassType.ofJson?, ClassType.toJson, Json.record?_fields, List.lookup_cons, h]
    simp [ofJson?, toJson, Json.fields, Json.variant?, hread]
  | primitive p => simp [ofJson?, toJson, Json.fields, Json.variant?]
  | method m =>
    simp only [typeIds, List.cons_append] at h
    obtain ⟨hdeclaring, hreturns, hparams⟩ : m.declaring ≤ 4294967295 ∧ TypesFit m.returns.toList ∧
        TypesFit m.params := by simpa [TypesFit, or_imp, forall_and] using h
    have hlist : Json.list? Json.word? (.array (m.params.map .nat)) = some m.params :=
      Json.list?_map fun id hid => Json.word?_nat (hparams id hid)
    have hread : MethodType.ofJson? m.toJson = some m := by
      simp [MethodType.ofJson?, MethodType.toJson, Json.record?_fields, List.lookup_cons,
        Json.word?_nat hdeclaring, hreturns, hlist]
    simp [ofJson?, toJson, Json.fields, Json.variant?, hread]
  | «variable» v =>
    simp only [typeIds, typesFit_append] at h
    have hread : VariableType.ofJson? v.toJson = some v := by
      simp [VariableType.ofJson?, VariableType.toJson, Json.record?_fields, List.lookup_cons, h]
    simp [ofJson?, toJson, Json.fields, Json.variant?, hread]
  | unknown => rfl

theorem Node.ofJson?_toJson {n : Node} (hparent : Ref.Fits n.parent) (hdata : n.data.Fits) :
    ofJson? n.toJson = some n := by
  simp [ofJson?, toJson, Json.record?_fields, List.lookup_cons, Ref.ofJson?_toJson hparent,
    NodeData.ofJson?_toJson hdata]

/-- A file is read back from its record, but for its class index, which is not stored. -/
theorem SourceFile.ofJson?_toJson {f : SourceFile} (h : f.Fits) :
    ofJson? f.toJson = some { f with types := { entries := f.types.entries } } := by
  have hnodes : Json.list? Node.ofJson? (.array (f.store.nodes.toList.map Node.toJson)) =
      some f.store.nodes.toList :=
    Json.list?_map fun node hnode => by
      obtain ⟨n, hn⟩ := Store.exists_get?_of_mem (Array.mem_toList_iff.1 hnode)
      refine Node.ofJson?_toJson ?_ (h.payloads (r := some n) (by simp [Store.data?, hn]))
      simpa [Store.parent, hn] using h.parents (some n)
  have hentries : Json.list? TypeEntry.ofJson? f.types.entriesJson = some f.types.entries.toList :=
    Json.list?_map fun e he => by
      obtain ⟨id, hid⟩ := Array.mem_iff_getElem?.1 (Array.mem_toList_iff.1 he)
      exact TypeEntry.ofJson?_toJson (h.entries hid)
  have hstore : Store.ofJson? f.store.toJson = some f.store := by
    simp [Store.ofJson?, Store.toJson, Json.record?_fields, List.lookup_cons, hnodes]
  have htypes : TypeTable.ofJson? f.types.toJson = some { entries := f.types.entries } := by
    simp [TypeTable.ofJson?, TypeTable.toJson, Json.record?_fields, List.lookup_cons, hentries]
  simp [ofJson?, toJson, Json.record?_fields, List.lookup_cons, hstore, htypes,
    Ref.ofJson?_toJson h.root]

/-! ## Numbers -/

@[simp]
theorem Ref.canonical_toJson (r : Ref) : (Ref.toJson r).Canonical := Json.canonical_nat _

@[simp]
theorem canonical_refsToJson (rs : List Ref) : (refsToJson rs).Canonical := by simp [refsToJson]

@[simp]
theorem canonical_textsToJson (ss : List String) : (textsToJson ss).Canonical := by
    simp [textsToJson]

@[simp]
theorem canonical_typeToJson (type : Option TypeId) : (typeToJson type).Canonical := by
  simp [typeToJson]

theorem canonical_commentFields (cs : List String) : ∀ f ∈ commentFields cs, f.2.Canonical := by
  cases cs <;> simp [commentFields]

@[simp]
theorem Modifier.canonical_toJson (m : Modifier) : m.toJson.Canonical := by
  simp only [toJson, Json.canonical_fields, List.forall_mem_cons]
  exact ⟨Json.canonical_text _, canonical_commentFields _⟩

@[simp]
theorem canonical_modifiersToJson (ms : List Modifier) : (modifiersToJson ms).Canonical := by
  simp [modifiersToJson]

@[simp]
theorem LiteralValue.canonical_toJson (v : LiteralValue) : v.toJson.Canonical := by
  cases v <;> simp [toJson, Json.Canonical]

theorem NodeData.canonical_contentJson (x : NodeData) : x.contentJson.Canonical := by
  cases x with
  | methodDeclaration d =>
    simp only [contentJson, MethodDeclaration.toJson, Json.canonical_fields, List.forall_mem_append]
    exact ⟨canonical_commentFields _, by simp⟩
  | _ => simp [contentJson, CompilationUnit.toJson, ClassDeclaration.toJson, Block.toJson,
      VariableDeclarations.toJson, NamedVariable.toJson, Identifier.toJson, FieldAccess.toJson,
      MethodInvocation.toJson, NewClass.toJson, Literal.toJson, AnnotationUse.toJson,
        Assignment.toJson,
      NewArray.toJson, ReturnStatement.toJson, ForLoop.toJson, TryStatement.toJson, Lambda.toJson,
      Binary.toJson, ClassKind.toJson, BinaryOperator.toJson]

theorem TypeEntry.canonical_toJson (e : TypeEntry) : e.toJson.Canonical := by
  cases e <;>
    simp [toJson, ClassType.toJson, MethodType.toJson, VariableType.toJson, Primitive.toJson]

theorem SourceFile.canonical_toJson (f : SourceFile) : f.toJson.Canonical := by
  simp [toJson, Store.toJson, TypeTable.toJson, TypeTable.entriesJson, Node.toJson, NodeData.toJson,
    NodeData.canonical_contentJson, TypeEntry.canonical_toJson]

/-- Loading what was stored gives the file with its links and its class index drawn afresh. -/
theorem SourceFile.decode?_encode {f : SourceFile} (h : f.Fits) :
    decode? f.encode = some f.refresh := by
  rw [decode?, encode, Json.parse_pretty f.canonical_toJson, Option.bind_some, load?,
    ofJson?_toJson h]
  rfl

/-! ## Reading gives words -/

theorem Json.word?_le {v : Json} {n : Nat} (h : v.word? = some n) : n ≤ 4294967295 := by
  obtain ⟨i, hi, rfl⟩ := Option.map_eq_some_iff.1 h
  cases v with
  | number m =>
    obtain ⟨j, -, hj⟩ := Option.bind_eq_some_iff.1 hi
    split at hj
    · rename_i hrange
      cases hj
      omega
    · cases hj
  | _ => cases hi

theorem Ref.fits_of_ofJson? {v : Json} {r : Ref} (h : Ref.ofJson? v = some r) : r.Fits := by
  obtain ⟨n, hn, rfl⟩ := Option.map_eq_some_iff.1 h
  rintro m hm
  have hle := Json.word?_le hn
  unfold Ref.ofCode at hm
  split at hm
  · cases hm
  · rename_i hne
    cases hm
    exact Nat.lt_of_le_of_ne hle hne

/-- What holds of every item that is read holds of the list. -/
theorem Json.forall_of_list? {α : Type} {p : α → Prop} {f : Json → Option α}
    {v : Json} {as : List α} (hp : ∀ {w a}, f w = some a → p a) (h : Json.list? f v = some as) :
    ∀ a ∈ as, p a := by
  cases v with
  | array items =>
    rw [Json.list?] at h
    induction items generalizing as with
    | nil =>
      obtain rfl : [] = as := by simpa using h
      simp
    | cons item items ih =>
      simp only [List.mapM_cons, Option.bind_eq_bind, Option.bind_eq_some_iff, Option.pure_def,
        Option.some.injEq] at h
      obtain ⟨a, ha, as, has, rfl⟩ := h
      exact List.forall_mem_cons.2 ⟨hp ha, ih has⟩
  | _ => cases h

theorem typesFit_of_list? {v : Json} {ids : List TypeId} (h : Json.list? Json.word? v = some ids) :
    TypesFit ids :=
  Json.forall_of_list? Json.word?_le h

theorem typesFit_of_typeOfJson? {v : Option Json} {type : Option TypeId}
    (h : typeOfJson? v = some type) :
    TypesFit type.toList := by
  rcases v with _ | v
  · cases h
    simp [TypesFit]
  · cases type with
    | none => simp [TypesFit]
    | some id =>
      cases v with
      | null => cases h
      | _ =>
        simp only [typeOfJson?, Json.optional?, Option.map_eq_some_iff] at h
        obtain ⟨_, hid, ⟨⟩⟩ := h
        simpa [TypesFit] using Json.word?_le hid

theorem Ref.fits_of_required? {v : Option Json} {r : Ref}
    (h : Json.required? Ref.ofJson? v = some r) :
    (ChildField.one r).Fits := by
  obtain ⟨w, -, hw⟩ := Option.bind_eq_some_iff.1 h
  exact ChildField.fits_one.2 (Ref.fits_of_ofJson? hw)

theorem Ref.fits_of_required_list? {v : Option Json} {rs : List Ref}
    (h : Json.required? refsOfJson? v = some rs) :
    (ChildField.many rs).Fits := by
  obtain ⟨w, -, hw⟩ := Option.bind_eq_some_iff.1 h
  exact Json.forall_of_list? Ref.fits_of_ofJson? hw

theorem NodeData.fits_of_ofContent? {label : String} {v : Json} {x : NodeData}
    (h : ofContent? label v = some x) : x.Fits := by
  unfold ofContent? at h
  split at h
  case h_20 => cases h
  -- A field of the record is a slot, a type or neither, and its reader tells what it gives.
  all_goals
    obtain ⟨d, hd, rfl⟩ := Option.map_eq_some_iff.1 h
    obtain ⟨values, -, hd⟩ := Option.bind_eq_some_iff.1 hd
    split at hd
    · simp only [Option.bind_eq_bind, Option.bind_eq_some_iff, Option.some.injEq] at hd
      constructor
      · simp only [childFields, List.forall_mem_cons]
        grind [Ref.fits_of_required?, Ref.fits_of_required_list?]
      · simp only [typeIds, typesFit_append]
        grind [typesFit_of_typeOfJson?, TypesFit]
    · cases hd

theorem NodeData.fits_of_ofJson? {v : Json} {x : NodeData} (h : ofJson? v = some x) : x.Fits := by
  unfold ofJson? at h
  split at h
  · exact fits_of_ofContent? h
  · cases h

theorem TypeEntry.typesFit_of_ofJson? {v : Json} {e : TypeEntry} (h : ofJson? v = some e) :
    TypesFit e.typeIds := by
  unfold ofJson? at h
  split at h
  case h_1 c hc =>
    obtain ⟨d, hd, rfl⟩ := Option.map_eq_some_iff.1 h
    obtain ⟨values, -, hd⟩ := Option.bind_eq_some_iff.1 hd
    split at hd
    · simp only [Option.bind_eq_bind, Option.bind_eq_some_iff, Option.some.injEq] at hd
      obtain ⟨_, -, _, howner, rfl⟩ := hd
      exact typesFit_of_typeOfJson? howner
    · cases hd
  case h_2 =>
    obtain ⟨p, -, rfl⟩ := Option.map_eq_some_iff.1 h
    simp [typeIds, TypesFit]
  case h_3 c hc =>
    obtain ⟨d, hd, rfl⟩ := Option.map_eq_some_iff.1 h
    obtain ⟨values, -, hd⟩ := Option.bind_eq_some_iff.1 hd
    split at hd
    · simp only [Option.bind_eq_bind, Option.bind_eq_some_iff, Option.some.injEq, Json.required?]
        at hd
      obtain ⟨_, ⟨_, -, hdeclaring⟩, _, -, _, hreturns, _, ⟨_, -, hparams⟩, rfl⟩ := hd
      have hfirst := Json.word?_le hdeclaring
      rw [typeIds, List.cons_append]
      exact List.forall_mem_cons.2
        ⟨hfirst, typesFit_append.2 ⟨typesFit_of_typeOfJson? hreturns, typesFit_of_list? hparams⟩⟩
    · cases hd
  case h_4 c hc =>
    obtain ⟨d, hd, rfl⟩ := Option.map_eq_some_iff.1 h
    obtain ⟨values, -, hd⟩ := Option.bind_eq_some_iff.1 hd
    split at hd
    · simp only [Option.bind_eq_bind, Option.bind_eq_some_iff, Option.some.injEq] at hd
      obtain ⟨_, -, _, howner, _, htype, rfl⟩ := hd
      exact typesFit_append.2 ⟨typesFit_of_typeOfJson? howner, typesFit_of_typeOfJson? htype⟩
    · cases hd
  case h_5 | h_6 =>
    cases h
    simp [typeIds, TypesFit]
  case h_7 => cases h

theorem Node.fits_of_ofJson? {v : Json} {n : Node} (h : ofJson? v = some n) :
    Ref.Fits n.parent ∧ n.data.Fits := by
  obtain ⟨values, -, h⟩ := Option.bind_eq_some_iff.1 h
  split at h
  · simp only [Option.bind_eq_bind, Option.bind_eq_some_iff, Option.some.injEq, Json.required?] at h
    obtain ⟨_, ⟨_, -, hparent⟩, _, ⟨_, -, hdata⟩, rfl⟩ := h
    exact ⟨Ref.fits_of_ofJson? hparent, NodeData.fits_of_ofJson? hdata⟩
  · cases h

/-- Every index in a file that was read has 32 bits. -/
theorem SourceFile.fits_of_ofJson? {v : Json} {f : SourceFile}
    (h : ofJson? v = some f) : f.Fits := by
  obtain ⟨values, -, h⟩ := Option.bind_eq_some_iff.1 h
  split at h
  · simp only [Option.bind_eq_bind, Option.bind_eq_some_iff, Option.some.injEq, Json.required?,
      Store.ofJson?, TypeTable.ofJson?] at h
    obtain ⟨_, -, _, ⟨_, -, _, -, hs⟩, _, ⟨_, -, _, -, ht⟩, _, ⟨_, -, hroot⟩, rfl⟩ := h
    split at hs
    · split at ht
      · simp only [Option.bind_eq_some_iff, Option.some.injEq] at hs ht
        obtain ⟨_, ⟨_, -, hnodes⟩, rfl⟩ := hs
        obtain ⟨_, ⟨_, -, hentries⟩, rfl⟩ := ht
        exact fits_of_forall_mem
          (fun n hn => Json.forall_of_list? Node.fits_of_ofJson? hnodes n (by simpa using hn))
          (fun e he =>
            Json.forall_of_list? TypeEntry.typesFit_of_ofJson? hentries e (by simpa using he))
          (Ref.fits_of_ofJson? hroot)
      · cases ht
    · cases hs
  · cases h

end JavaRecipes
