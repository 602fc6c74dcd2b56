import JavaRecipes.Proofs.Types.Growth
import Mathlib.Data.List.Basic
import Mathlib.Data.List.Induction

/-!
Exact class indexes: the index has the class entries under their names, in their order, and no two
classes have one name. Then looking a name up and reading it off an entry come to the same
(`Exact.lookupClass_eq_some_iff`), and indexing afresh changes nothing (`Exact.reindex_eq`).
Whatever is done to a table keeps its index exact, and its entries what they are but for their names
(`Evolves`).
-/

namespace JavaRecipes

namespace ClassIndex

theorem mem_of_find?_eq_some {index : ClassIndex} {name : String} {id : TypeId}
    (h : index.find? name = some id) :
    (name, id) ∈ index := by
  induction index with
  | nil => cases h
  | cons e index ih =>
    obtain ⟨key, old⟩ := e
    simp only [find?] at h
    split at h
    · rename_i hkey
      obtain rfl := Option.some.inj h
      simp [hkey]
    · exact List.mem_cons_of_mem _ (ih h)

theorem isSome_find?_of_mem {index : ClassIndex} {name : String} {id : TypeId}
    (h : (name, id) ∈ index) :
    (index.find? name).isSome := by
  induction index with
  | nil => cases h
  | cons e index ih =>
    obtain ⟨key, old⟩ := e
    simp only [find?]
    split
    · rfl
    · rename_i hkey
      exact ih ((List.mem_cons.1 h).resolve_left fun heq => hkey (Prod.mk.inj heq).1.symm)

/-- A name that is not there comes last. -/
theorem put_of_find?_eq_none {index : ClassIndex} {name : String} (h : index.find? name = none)
    (id : TypeId) :
    index.put name id = index ++ [(name, id)] := by
  induction index with
  | nil => rfl
  | cons e index ih =>
    obtain ⟨key, old⟩ := e
    simp only [find?] at h
    split at h
    · cases h
    · rename_i hkey
      simp [put, hkey, ih h]

end ClassIndex

/-- An entry without the name that renaming would give it: what it is, and the types that it
names. -/
def TypeEntry.unnamed : TypeEntry → TypeEntry
  | .classType c => .classType { c with name := "" }
  | .method m => .method { m with name := "" }
  | e => e

namespace TypeTable

variable {t u v : TypeTable}

/-- No two classes have one name. -/
def Distinct (t : TypeTable) : Prop :=
  ∀ (id id' : TypeId) (name : String), t.className? id = some name →
    t.className? id' = some name → id' = id

instance (t : TypeTable) : Decidable t.Distinct :=
  decidable_of_iff (∀ id < t.size, ∀ id' < t.size, (t.className? id).isSome →
    t.className? id = t.className? id' →
      id' = id) <| by
    constructor
    · intro h id id' name hname hname'
      exact h id (lt_size_of_className? hname) id' (lt_size_of_className? hname') (by simp [hname])
        (hname.trans hname'.symm)
    · intro h id _ id' _ hsome heq
      obtain ⟨name, hname⟩ := Option.isSome_iff_exists.1 hsome
      exact h id id' name hname (heq ▸ hname)

/-- The names of the class entries with their positions, in order. -/
def classEntries (t : TypeTable) : ClassIndex :=
  (List.range t.size).filterMap fun id => (t.className? id).map (·, id)

structure Exact (t : TypeTable) : Prop where
  classes : t.classes = t.classEntries
  distinct : t.Distinct

theorem mem_classEntries {name : String} {id : TypeId} :
    (name, id) ∈ t.classEntries ↔ t.className? id = some name := by
  simp only [classEntries, List.mem_filterMap, List.mem_range, Option.map_eq_some_iff,
    Prod.mk.injEq]
  constructor
  · rintro ⟨id', -, name', hname, rfl, rfl⟩
    exact hname
  · intro hname
    exact ⟨id, lt_size_of_className? hname, name, hname, rfl, rfl⟩

theorem Distinct.find?_classEntries (h : t.Distinct) {name : String} {id : TypeId} :
    t.classEntries.find? name = some id ↔ t.className? id = some name := by
  constructor
  · exact fun hfind => mem_classEntries.1 (ClassIndex.mem_of_find?_eq_some hfind)
  · intro hname
    obtain ⟨id', hid'⟩ :=
      Option.isSome_iff_exists.1 (ClassIndex.isSome_find?_of_mem (mem_classEntries.2 hname))
    have hname' := mem_classEntries.1 (ClassIndex.mem_of_find?_eq_some hid')
    rw [hid', h _ _ _ hname hname']

namespace Exact

theorem lookupClass_eq_some_iff (h : t.Exact) {name : String} {id : TypeId} :
    t.lookupClass name = some id ↔ t.className? id = some name := by
  rw [lookupClass, h.classes, h.distinct.find?_classEntries]

theorem lookupClass_eq_none_iff (h : t.Exact) {name : String} :
    t.lookupClass name = none ↔ ∀ id, t.className? id ≠ some name := by
  simp only [Option.eq_none_iff_forall_ne_some, ne_eq, h.lookupClass_eq_some_iff]

end Exact

/-! ## More entries -/

theorem className?_push (t : TypeTable) (e : TypeEntry) (id : TypeId) :
    (t.push e).className? id = if id = t.size then e.asClass?.map (·.name)
    else t.className? id := by
  simp only [className?, classAt?, get?_push]
  split <;> rfl

theorem classEntries_push (t : TypeTable) (e : TypeEntry) :
    (t.push e).classEntries =
      t.classEntries ++ (e.asClass?.map fun c => (c.name, t.size)).toList := by
  have hold : (List.range t.size).filterMap (fun id => ((t.push e).className? id).map (·, id)) =
      t.classEntries := by
    refine List.filterMap_congr fun id hid => ?_
    rw [className?_push, if_neg (Nat.ne_of_lt (List.mem_range.1 hid))]
  rw [classEntries, size_push, List.range_succ, List.filterMap_append, hold, List.filterMap_cons,
    List.filterMap_nil, className?_push, if_pos rfl]
  cases e.asClass? <;> rfl

theorem Distinct.push (h : t.Distinct) {e : TypeEntry}
    (he : ∀ c, e.asClass? = some c → ∀ id, t.className? id ≠ some c.name) :
    (t.push e).Distinct := by
  intro id id' name hname hname'
  rw [className?_push] at hname hname'
  split at hname <;> split at hname'
  · rename_i hid hid'
    rw [hid, hid']
  · obtain ⟨c, hc, rfl⟩ := Option.map_eq_some_iff.1 hname
    exact absurd hname' (he c hc id')
  · obtain ⟨c, hc, rfl⟩ := Option.map_eq_some_iff.1 hname'
    exact absurd hname (he c hc id)
  · exact h id id' name hname hname'

theorem Distinct.of_push {e : TypeEntry} (h : (t.push e).Distinct) : t.Distinct := by
  have hold : ∀ {id name}, t.className? id = some name → (t.push e).className? id = some name := by
    intro id name hname
    rwa [className?_push, if_neg (Nat.ne_of_lt (lt_size_of_className? hname))]
  exact fun id id' name hname hname' => h id id' name (hold hname) (hold hname')

/-! ## Indexing afresh -/

/-- A table of entries whose index is still to be built. -/
private def ofEntries (es : List TypeEntry) : TypeTable := { entries := es.toArray }

private theorem ofEntries_snoc (es : List TypeEntry) (e : TypeEntry) :
    ofEntries (es ++ [e]) = (ofEntries es).push e := by
  simp [ofEntries, push]

/-- Entries that are entered one after another, no name twice, stand in the index in their order. -/
private theorem foldl_put (es : List TypeEntry) (h : (ofEntries es).Distinct) :
    es.zipIdx.foldl (fun (index : ClassIndex) (entry, id) => match entry with
        | .classType c => index.put c.name id
        | _ => index) [] = (ofEntries es).classEntries := by
  induction es using List.reverseRecOn with
  | nil => rfl
  | append_singleton es e ih =>
    rw [ofEntries_snoc] at h
    have hsize : (ofEntries es).size = es.length := List.size_toArray
    rw [List.zipIdx_append, List.foldl_append, ih h.of_push, ofEntries_snoc,
      classEntries_push, hsize]
    cases e with
    | classType c =>
      -- a name in the index is one of an earlier entry
      have hfree : (ofEntries es).classEntries.find? c.name = none := by
        refine Option.eq_none_iff_forall_ne_some.2 fun id hid => ?_
        have hname := h.of_push.find?_classEntries.1 hid
        have hne := Nat.ne_of_lt (lt_size_of_className? hname)
        refine hne (h (ofEntries es).size id c.name ?_ ?_)
        · rw [className?_push, if_pos rfl]
          rfl
        · rwa [className?_push, if_neg hne]
      simp [ClassIndex.put_of_find?_eq_none hfree, TypeEntry.asClass?]
    | _ => simp [TypeEntry.asClass?]

/-- A table whose classes have different names is indexed exactly. -/
theorem exact_reindex (h : t.Distinct) : t.reindex.Exact where
  classes := foldl_put t.entries.toList h
  distinct := h

/-- And indexing it once more changes nothing. -/
theorem Exact.reindex_eq (h : t.Exact) : t.reindex = t := by
  have hclasses : t.reindex.classes = t.classes :=
    (exact_reindex h.distinct).classes.trans h.classes.symm
  obtain ⟨entries, classes⟩ := t
  exact congrArg (TypeTable.mk entries) hclasses

theorem exact_empty : empty.Exact where
  classes := rfl
  distinct id _ _ hname _ := absurd (lt_size_of_className? hname) (Nat.not_lt_zero id)

/-! ## What every change keeps -/

/-- The entries of `t` are in `t'`, at their positions; names may be others. -/
structure Keeps (t t' : TypeTable) : Prop where
  size_le : t.size ≤ t'.size
  unnamed : ∀ {id}, id < t.size →
    (t'.get? id).map TypeEntry.unnamed = (t.get? id).map TypeEntry.unnamed

namespace Keeps

theorem refl (t : TypeTable) : t.Keeps t := ⟨Nat.le_refl _, fun _ => rfl⟩

theorem trans (h : t.Keeps u) (h' : u.Keeps v) : t.Keeps v :=
  ⟨Nat.le_trans h.size_le h'.size_le,
    fun hid => (h'.unnamed (Nat.lt_of_lt_of_le hid h.size_le)).trans (h.unnamed hid)⟩

theorem push (t : TypeTable) (e : TypeEntry) : t.Keeps (t.push e) where
  size_le := by
    rw [size_push]
    exact Nat.le_succ _
  unnamed hid := by rw [get?_push, if_neg (Nat.ne_of_lt hid)]

theorem modify (t : TypeTable) (id : TypeId) {change : TypeEntry → TypeEntry}
    (h : ∀ e, t.get? id = some e → (change e).unnamed = e.unnamed) :
    t.Keeps (t.modify id change) where
  size_le := by simp
  unnamed {id'} _ := by
    rw [get?_modify]
    split
    · rename_i hid
      subst hid
      cases he : t.get? id' with
      | none => rfl
      | some e => exact congrArg some (h e he)
    · rfl

end Keeps

/-- `t'` comes from `t` by a change that keeps an exact index exact and the entries what they
are. -/
structure Evolves (t t' : TypeTable) : Prop where
  exact : t.Exact → t'.Exact
  keeps : t.Keeps t'

/-- The index stays exact as long as the names in the entries and in the index stay. -/
theorem Exact.congr (h : t.Exact) (hclasses : u.classes = t.classes)
    (hentries : u.classEntries = t.classEntries) :
    u.Exact where
  classes := hclasses.trans (h.classes.trans hentries.symm)
  distinct id id' name hname hname' := by
    have hold : ∀ {id}, u.className? id = some name → t.className? id = some name := by
      intro id hid
      rwa [← mem_classEntries, ← hentries, mem_classEntries]
    exact h.distinct id id' name (hold hname) (hold hname')

section

variable {source target : String}

private theorem spec_of_renameClass (h : t.renameClass source target = some u)
    (hne : source ≠ target) :
    ∃ old, t.lookupClass source = some old ∧ t.lookupClass target = none ∧ u.size = t.size ∧
      u.classes = t.classes.rekey source target := by
  rcases renameClass_cases h with ⟨hst, -⟩ | ⟨old, -, hold, hfree, rfl⟩
  · exact absurd hst hne
  · exact ⟨old, hold, hfree, size_modify t old _, rfl⟩

/-- After a rename, too, each class is found under its name. -/
theorem Exact.lookupClass_of_renameClass (ht : t.Exact) (h : t.renameClass source target = some u)
    (hne : source ≠ target) {id : TypeId} {name : String} (hid : u.className? id = some name) :
    u.lookupClass name = some id := by
  rw [className?_renameClass h hne] at hid
  rw [lookupClass_renameClass h hne]
  split at hid
  · rename_i hsource
    obtain ⟨_, -, rfl⟩ := Option.map_eq_some_iff.1 hid
    rw [if_pos rfl, hsource]
  · rename_i hsource
    obtain ⟨_, -, hfree, -, -⟩ := spec_of_renameClass h hne
    have hlookup := ht.lookupClass_eq_some_iff.2 hid
    rw [if_neg, if_neg, hlookup]
    · rintro rfl
      exact hsource hlookup
    · rintro rfl
      rw [hfree] at hlookup
      cases hlookup

/-- The names in the entries change as the keys of the index do. -/
theorem Exact.classes_of_renameClass (ht : t.Exact) (h : t.renameClass source target = some u)
    (hne : source ≠ target) : u.classes = u.classEntries := by
  obtain ⟨old, hold, -, hsize, hclasses⟩ := spec_of_renameClass h hne
  have hsource := ht.lookupClass_eq_some_iff.1 hold
  rw [hclasses, ht.classes, classEntries, classEntries, hsize, ClassIndex.rekey, List.map_filterMap]
  refine List.filterMap_congr fun id _ => ?_
  rw [className?_renameClass h hne, hold, Option.map_map]
  cases hid : t.className? id with
  | none => simp
  | some name =>
    have hiff : name = source ↔ old = id := by
      constructor
      · rintro rfl
        exact ht.distinct _ _ _ hid hsource
      · rintro rfl
        exact Option.some.inj (hid.symm.trans hsource)
    by_cases hs : name = source
    · simp [hs, hiff.1 hs]
    · simp [hs, mt hiff.2 hs]

end

namespace Evolves

theorem refl (t : TypeTable) : t.Evolves t := ⟨id, .refl t⟩

theorem trans (h : t.Evolves u) (h' : u.Evolves v) : t.Evolves v :=
  ⟨fun ht => h'.exact (h.exact ht), h.keeps.trans h'.keeps⟩

theorem push (t : TypeTable) {e : TypeEntry} (he : e.asClass? = none) : t.Evolves (t.push e) where
  exact h := h.congr rfl (by simp [classEntries_push, he])
  keeps := .push t e

theorem internEntry (t : TypeTable) {e : TypeEntry} (he : e.asClass? = none) :
    t.Evolves (t.internEntry e).2 := by
  unfold TypeTable.internEntry
  split
  · exact refl t
  · exact push t he

theorem internPrimitive (t : TypeTable) (p : Primitive) : t.Evolves (t.internPrimitive p).2 :=
  internEntry t rfl

theorem internMethod (t : TypeTable) (m : MethodType) : t.Evolves (t.internMethod m).2 :=
  internEntry t rfl

/-- A new class comes last, among the entries and in the index. -/
theorem internClass (t : TypeTable) (name : String) (owner : Option TypeId) :
    t.Evolves (t.internClass name owner).2 := by
  unfold TypeTable.internClass
  cases hl : t.lookupClass name with
  | some id => exact refl t
  | none =>
    refine ⟨fun h => ⟨?_, h.distinct.push fun c hc => ?_⟩,
      (Keeps.push t _).trans ⟨Nat.le_refl _, fun _ => rfl⟩⟩
    · have hput := ClassIndex.put_of_find?_eq_none hl t.size
      rw [h.classes] at hput
      rw [h.classes, hput]
      exact (classEntries_push t (.classType ⟨name, owner⟩)).symm
    · obtain rfl := Option.some.inj hc
      exact h.lookupClass_eq_none_iff.1 hl

theorem internName (t : TypeTable) (name : String) : t.Evolves (t.internName name).2 := by
  unfold TypeTable.internName
  split
  · exact internPrimitive t _
  · exact internClass t name none

theorem internNames (t : TypeTable) (names : List String) : t.Evolves (t.internNames names).2 := by
  induction names generalizing t with
  | nil => exact refl t
  | cons name names ih => exact (internName t name).trans (ih _)

theorem reindex (t : TypeTable) : t.Evolves t.reindex where
  exact h := exact_reindex h.distinct
  keeps := ⟨Nat.le_refl _, fun _ => rfl⟩

/-- A rename moves one name, in its entry and in the index. -/
theorem renameClass {t' : TypeTable} {source target : String}
    (h : t.renameClass source target = some t') :
    t.Evolves t' where
  exact ht := by
    rcases renameClass_cases h with ⟨-, rfl⟩ | ⟨_, hne, -, -, -⟩
    · exact ht
    · refine ⟨ht.classes_of_renameClass h hne, fun id id' name hid hid' => ?_⟩
      · have hsame :=
          (ht.lookupClass_of_renameClass h hne hid').symm.trans
            (ht.lookupClass_of_renameClass h hne hid)
        exact Option.some.inj hsame
  keeps := by
    rcases renameClass_cases h with ⟨-, rfl⟩ | ⟨old, -, -, -, rfl⟩
    · exact .refl _
    · exact (Keeps.modify t old fun e _ => by cases e <;> rfl).trans ⟨Nat.le_refl _, fun _ => rfl⟩

theorem renameMethod {t' : TypeTable} {id : TypeId} {name : String}
    (h : t.renameMethod id name = some t') :
    t.Evolves t' := by
  have hname := className?_renameMethod h
  obtain ⟨m, hm, rfl⟩ := Option.map_eq_some_iff.1 h
  refine ⟨fun ht => ht.congr rfl ?_, .modify t id fun e he => ?_⟩
  · simp only [classEntries, size_modify, hname]
  · simp only [methodAt?, he, Option.bind_some] at hm
    cases e with
    | method m' =>
      obtain rfl := Option.some.inj hm
      rfl
    | _ => cases hm

end Evolves

end TypeTable

end JavaRecipes
