import JavaRecipes.Proofs.Recipe.FixedPoint
import JavaRecipes.Proofs.Recipe.Reports

/-!
What the change of the media types makes of a file. A call that stands for a version gives way to a
new one, on the receiver that it had; this is so for receivers too, and for calls within arguments,
which go. As calls are replaced from the outside to the inside, the text is that of the file with
such calls spelled anew (`run_versioned`). A call in two slots of its holder is replaced in the
first one only.
-/

namespace JavaRecipes

namespace ActuatorMediaType

/-! ## Spelling a call anew -/

/-- A call for the MIME type of a version. -/
def versionLayout (receiver : Layout) (version : String) : Layout :=
  Layout.call (some receiver) [.text "asMediaType"]
    [Layout.call (some [.text "ApiVersion", .text ".", .text version])
      [.text "getProducedMimeType"] []]

/-- The receiver of a call, given the text of what is in it: the class if there is none. -/
def receiverLayout (text : Ref → Layout) : Ref → Layout
  | some k => text (some k)
  | none => [.text "MediaType"]

/-- The version that a node is a constant for. -/
def versionOf? (f : SourceFile) (r : Ref) : Option String :=
  match f.store.data? r with
  | some (.fieldAccess d) =>
    if (f.store.expressionType f.types d.target).bind f.types.name? = some actuatorMediaType then
      if f.store.identifierText? d.name = some "V2_JSON" then some "V2"
      else if f.store.identifierText? d.name = some "V3_JSON" then some "V3"
      else none
    else none
  | _ => none

/-- Whether a method is the one for strings. -/
def ParsesStrings (types : TypeTable) (m : MethodType) : Prop :=
  types.name? m.declaring = some mediaType ∧ m.name = "parseMediaType" ∧
    m.params.map types.name? = [some stringClass]

instance (types : TypeTable) (m : MethodType) : Decidable (ParsesStrings types m) :=
  inferInstanceAs (Decidable (_ ∧ _))

/-- How a call that stands for a version is to be spelled, given the text of what is in it. -/
def versionedCall (f : SourceFile) (n : NodeId) : Option ((Ref → Layout) → Layout) :=
  match f.store.data? (some n) with
  | some (.methodInvocation { select, arguments := [argument], type, .. }) =>
    if ∃ m ∈ type.bind f.types.methodAt?, ParsesStrings f.types m then
      ((versionOf? f argument).or (versionOf? f (f.store.resolve f.types argument argument))).map
        fun version text => versionLayout (receiverLayout text select) version
    else none
  | _ => none

section

variable {f : SourceFile} {n : NodeId} {version : String} {r : Ref}

theorem versionOf?_eq_some_iff : versionOf? f r = some version ↔ IsConstant f r version := by
  constructor
  · intro h
    unfold versionOf? at h
    split at h
    · rename_i d hd
      split at h
      · rename_i hclass
        obtain ⟨id, hid, hclass⟩ := Option.bind_eq_some_iff.1 hclass
        split at h
        · rename_i hname
          exact ⟨d, id, _, hd, hid, hclass, hname, .inl ⟨rfl, (Option.some.inj h).symm⟩⟩
        · split at h
          · rename_i hname
            exact ⟨d, id, _, hd, hid, hclass, hname, .inr ⟨rfl, (Option.some.inj h).symm⟩⟩
          · cases h
      · cases h
    · cases h
  · rintro ⟨d, id, name, hd, hid, hclass, hname, ⟨rfl, rfl⟩ | ⟨rfl, rfl⟩⟩ <;>
      simp [versionOf?, hd, hid, hclass, hname]

theorem versionedCall_eq_some_iff {spell : (Ref → Layout) → Layout} :
    versionedCall f n = some spell ↔ ∃ d version, VersionCall f n d version ∧
      spell = fun text => versionLayout (receiverLayout text d.select) version := by
  constructor
  · intro h
    unfold versionedCall at h
    split at h
    · rename_i select _ argument type hd
      split at h
      · rename_i hmethod
        obtain ⟨m, hm, hclass, hname, hparams⟩ := hmethod
        obtain ⟨id, hid, hm⟩ := Option.bind_eq_some_iff.1 hm
        obtain ⟨version, hversion, rfl⟩ := Option.map_eq_some_iff.1 h
        rw [Option.or_eq_some_iff] at hversion
        simp only [versionOf?_eq_some_iff, Option.eq_none_iff_forall_ne_some, ne_eq] at hversion
        exact ⟨_, version, ⟨hd, ⟨id, m, hid, hm, hclass, hname, hparams⟩, argument, rfl, hversion⟩,
          rfl⟩
      · cases h
    · cases h
  · rintro ⟨⟨select, name, arguments, type⟩, version, ⟨hd, hmethod, argument, harguments, hversion⟩,
      rfl⟩
    obtain rfl : arguments = [argument] := harguments
    obtain ⟨id, m, hid, hm, hclass, hname, hparams⟩ := hmethod
    obtain rfl : type = some id := hid
    have hparses : ∃ m ∈ (some id).bind f.types.methodAt?, ParsesStrings f.types m :=
      ⟨m, hm, hclass, hname, hparams⟩
    simp only [← versionOf?_eq_some_iff, ← Option.eq_none_iff_forall_ne_some] at hversion
    simp only [versionedCall, hd]
    rw [if_pos hparses, Option.or_eq_some_iff.2 hversion]
    rfl

end

/-- What a new call is spelled as. -/
theorem template_replacement (existing : Ref → Layout) (select : Ref) (version : String) :
    (replacement select version).template existing =
      versionLayout (receiverLayout existing select) version := by
  have hmedia : ClassName.simple mediaType = "MediaType" := by decide +kernel
  have hversion : ClassName.simple apiVersionClass = "ApiVersion" := by decide +kernel
  cases select <;>
    simp [replacement, producedMimeType, Snippet.template, Snippet.templateOption,
      Snippet.templateList, hmedia, hversion, versionLayout, receiverLayout]

/-- Each call that stands for a version is spelled anew, and nothing else. -/
theorem Moved.rewrites {f : SourceFile} {σ : NodeId → NodeId} {d : Draft} (hheld : f.Held)
    (hindex : f.types.reindex = f.types) (h : Moved f (plan f).edits.reverse σ d) :
    f.store.Rewrites d.store f.root σ (versionedCall f) := by
  refine ⟨hheld.lt_size, ?_, ?_⟩
  · intro n x hn hx hother
    have hspare := (spare_iff hheld hindex hn).2 fun call version hmatched => by
      have hsome :=
        versionedCall_eq_some_iff.2 ⟨call, version, matched_iff_versionCall.1 hmatched, rfl⟩
      rw [hother] at hsome
      cases hsome
    rw [h.spare hspare]
    exact h.kept hn hspare hx
  · intro n spell hn hother
    obtain ⟨call, version, hversion, rfl⟩ := versionedCall_eq_some_iff.1 hother
    have hmatched := matched_iff_versionCall.2 hversion
    have hreplaced : ¬ Edit.Spare (plan f).edits.reverse n := fun hspare =>
      (spare_iff hheld hindex hn).1 hspare call version hmatched
    have hwritten := h.called hn hmatched hreplaced
    obtain ⟨p, e, hp, -, he, -⟩ := id hwritten
    refine ⟨call, e, hmatched.data, hp ▸ he, fun hacyclic => ?_⟩
    have hselect := (NodeData.among_methodInvocation call).1
    have hprintable :
        d.store.Printable (replacement (call.select.map σ) version).existingNodes := by
      intro r hr
      obtain ⟨_, hmap, rfl⟩ := mem_existingNodes_replacement.1 hr
      obtain ⟨k, hk, rfl⟩ := Option.map_eq_some_iff.1 hmap
      exact ⟨by simp, hacyclic (some k) ((hk ▸ hselect).resolve_left (by simp))⟩
    obtain ⟨hn, hlayout⟩ := hwritten.layout_eq hprintable
    refine ⟨hn, fun text htext => ?_⟩
    rw [hlayout, template_replacement]
    cases hk : call.select with
    | none => rfl
    | some k => simp only [Option.map_some, receiverLayout, htext (some k) (hk ▸ hselect)]

/-- The run goes through, and the text of the file has its calls that stand for a version spelled
anew, in receivers too, provided that they are each in one slot of what holds them. -/
theorem run_versioned {f : SourceFile} {unit : CompilationUnit} (hheld : f.Held)
    (hunit : f.store.data? f.root = some (.compilationUnit unit))
    (hindex : f.types.reindex = f.types) (honce : Once f) :
    ∃ changes g, run [f] = .ok changes ∧ merge [f] changes = [g] ∧
      g.print = f.printWith (versionedCall f) := by
  obtain ⟨r, hr⟩ := Store.exists_of_data? hunit
  have hroot {n : NodeId} {d : MethodInvocation} {version : String}
      (hmatched : Matched f n d version) : f.root ≠ some n := by
    intro hn
    rw [hn, hmatched.data] at hunit
    cases hunit
  obtain ⟨d, hd, σ, h⟩ := exists_moved hheld hindex hroot honce
  obtain ⟨changes, hrun⟩ : ∃ changes, run [f] = .ok changes :=
    changeFiles_singleton_ok_iff.2 (EditSet.exists_apply (fault?_plan hheld hroot hindex) hd)
  obtain ⟨g, hg, happly⟩ := exists_merge_singleton hrun
  obtain ⟨-, d', hd', rfl⟩ := EditSet.apply_eq_ok happly
  obtain rfl := Except.ok.inj (hd.symm.trans hd')
  -- The root is no call, so it has not moved.
  have hstart : f.Reaches r := .start hr (Store.lt_size_of_data? (hr ▸ hunit))
  have hmoved : f.root = f.root.map σ := by
    rw [hr, Option.map_some, h.spare]
    exact (spare_iff hheld hindex hstart).2 fun _ _ hmatched => hroot hmatched hr
  exact ⟨changes, _, hrun, hg,
    SourceFile.print_of_rewrites hheld.acyclic hunit hmoved (h.rewrites hheld hindex)⟩

/-- A call with a local for its argument, as the receiver of a call whose argument has another call
in it. -/
def requestFile : SourceFile :=
  let d : Draft := {}
  let (actuator, d) := d.classType actuatorMediaType
  let (media, d) := d.classType mediaType
  let (string, d) := d.classType stringClass
  let (client, d) := d.classType "sample.Client"
  let (parse, d) := d.methodType {
    declaring := media, name := "parseMediaType", returns := some media, params := [string] }
  let (types, d) := d.methodType {
    declaring := client, name := "types", returns := some actuator, params := [media] }
  let (accept, d) := d.methodType {
    declaring := client, name := "accept", returns := none, params := [] }
  let (v2, d) := d.variableType { name := "V2_JSON", owner := some actuator, type := some string }
  let (v3, d) := d.variableType { name := "V3_JSON", owner := some actuator, type := some string }
  let (owner, d) := d.typeRef actuator
  let (constant, d) := d.fieldAccess (some owner) v2
  let (declaration, locals, d) := d.declaration [] [{ kind := .isFinal }] (some string)
    [{ name := "old", owner := some accept, initializer := some constant }]
  let (owner, d) := d.typeRef media
  let (argument, d) := d.variableRef (locals.headD 0)
  let (receiver, d) := d.invoke (some owner) parse [some argument]
  let (owner, d) := d.typeRef actuator
  let (constant, d) := d.fieldAccess (some owner) v2
  let (dropped, d) := d.invoke none parse [some constant]
  let (target, d) := d.invoke none types [some dropped]
  let (argument, d) := d.fieldAccess (some target) v3
  let (call, d) := d.invoke (some receiver) parse [some argument]
  let (body, d) := d.block [some declaration, some call]
  let (method, d) := d.method { name := "accept", body := some body, type := some accept }
  let (c, d) := d.classDeclaration {
    name := "Client", members := [some method], type := some client }
  d.finish "Client.java" none [] [some c]

/-- Receiver and call are spelled anew, and the call in the argument goes. -/
theorem run_versioned_requestFile :
    ∃ changes g, run [requestFile] = .ok changes ∧ merge [requestFile] changes = [g] ∧
    g.print =
      "class Client \x7b\n    accept() \x7b\n" ++
      "        final String old = ActuatorMediaType.V2_JSON;\n" ++
      "        MediaType.asMediaType(ApiVersion.V2.getProducedMimeType())" ++
      ".asMediaType(ApiVersion.V3.getProducedMimeType());\n    \x7d\n\x7d\n" := by
  have hunit : requestFile.store.data? requestFile.root =
      some (.compilationUnit { packageName := none, imports := [], classes := [some 27] }) := by
        decide +kernel
  have hcount : ∀ n < requestFile.store.size, ∀ r ∈ requestFile.store.children (some n),
      (requestFile.store.children (some n)).count r ≤ 1 := by decide +kernel
  obtain ⟨changes, g, hrun, hg, hprint⟩ :=
    run_versioned (SourceFile.held_of_forall (by decide +kernel)) hunit
      (by decide +kernel) (once_of_forall hcount)
  exact ⟨changes, g, hrun, hg, hprint.trans (by decide +kernel)⟩

/-- A call that is both elements of an array is replaced as the first one only. -/
theorem run_sharedElement : (Recipe.mediaFile [some 4, some 4] 6).Held ∧
    (∀ n, (Recipe.mediaFile [some 4, some 4] 6).Reaches n →
      none ∉ (Recipe.mediaFile [some 4, some 4] 6).store.children (some n)) ∧
    (Recipe.mediaFile [some 4, some 4] 6).store.data? (some 6) =
      some (.compilationUnit { packageName := none, imports := [], classes := [some 5] }) ∧
    (Recipe.mediaFile [some 4, some 4] 6).types.reindex =
      (Recipe.mediaFile [some 4, some 4] 6).types ∧
    ∃ changes g, run [Recipe.mediaFile [some 4, some 4] 6] = .ok changes ∧
      merge [Recipe.mediaFile [some 4, some 4] 6] changes = [g] ∧
      (Recipe.mediaFile [some 4, some 4] 6).printWith
        (versionedCall (Recipe.mediaFile [some 4, some 4] 6)) =
        "\x7bMediaType.asMediaType(ApiVersion.V2.getProducedMimeType()), " ++
          "MediaType.asMediaType(ApiVersion.V2.getProducedMimeType())\x7d;\n" ∧
      g.print = "\x7bMediaType.asMediaType(ApiVersion.V2.getProducedMimeType()), " ++
        "parseMediaType(ActuatorMediaType.V2_JSON)\x7d;\n" := by
  have hfull : ∀ n < (Recipe.mediaFile [some 4, some 4] 6).store.size,
      none ∉ (Recipe.mediaFile [some 4, some 4] 6).store.children (some n) := by decide +kernel
  have hrun : run [Recipe.mediaFile [some 4, some 4] 6] =
      .ok (Recipe.mediaChanges (Recipe.mediaFile [some 4, some 4] 6)) := by decide +kernel
  obtain ⟨g, hg, -⟩ := exists_merge_singleton hrun
  have hprint : (merge [Recipe.mediaFile [some 4, some 4] 6]
      (Recipe.mediaChanges (Recipe.mediaFile [some 4, some 4] 6))).map (·.print) =
      ["\x7bMediaType.asMediaType(ApiVersion.V2.getProducedMimeType()), " ++
        "parseMediaType(ActuatorMediaType.V2_JSON)\x7d;\n"] := by decide +kernel
  rw [hg] at hprint
  exact ⟨SourceFile.held_of_forall (by decide +kernel), fun n hn => hfull n hn.lt_size,
    by decide +kernel,
    by decide +kernel, _, g, hrun, hg, by decide +kernel, (List.cons.inj hprint).1⟩

end ActuatorMediaType

end JavaRecipes
