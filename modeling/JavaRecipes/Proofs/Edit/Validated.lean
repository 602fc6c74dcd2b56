import JavaRecipes.Proofs.Edit.Applicable
import JavaRecipes.Proofs.Tree.Reload

/-!
The check of an edit set decides whether the set applies. A set that is built edit by edit has no
edit twice, and the links of a file that was loaded or built name holders; for such a set and file,
applying and checking succeed together and fail with the same error (`apply_validate`).
-/

namespace JavaRecipes

/-! ## Files -/

namespace Store

/-- Links that are drawn afresh name holders. -/
theorem linksHold_relink (s : Store) : s.relink.LinksHold := by
  intro n p hp
  have hn : n < s.size := s.size_relink ▸ lt_size_of_parent hp
  have hheld : s.Holds p n := ((parent_relink_eq_some_iff hn).1 hp).1
  rwa [Holds, children_congr (data?_relink s (some p))]

end Store

namespace SourceFile

theorem linksHold_of_refresh {f : SourceFile} (h : f.refresh = f) : f.store.LinksHold := by
  rw [← h]
  exact Store.linksHold_relink f.store

/-- The links of a loaded file name holders. -/
theorem linksHold_of_decode? {text : String} {f : SourceFile} (h : decode? text = some f) :
    f.store.LinksHold :=
  linksHold_of_refresh (of_decode? h).1

end SourceFile

namespace EditSet

/-! ## Sets -/

/-- Sets that are built from nothing, by adding one edit or all of another set. -/
inductive Built : EditSet → Prop
  | empty : Built .empty
  | push {s : EditSet} (e : Edit) : Built s → Built (s.push e)
  | extend {s t : EditSet} : Built s → Built t → Built (s.pushAll t.edits)

theorem Built.nodup {s : EditSet} (h : s.Built) : s.edits.Nodup := by
  induction h with
  | empty => exact .nil
  | push e _ ih => exact push_nodup ih e
  | @extend s t _ _ ih _ => exact pushAll_nodup ih t.edits

theorem validate_eq_ok_iff {s : EditSet} {f : SourceFile} :
    s.validate f = .ok () ↔ s.fault? f = none := by
  unfold validate
  cases s.fault? f <;> simp

theorem validate_eq_error_iff {s : EditSet} {f : SourceFile} {error : EditError} :
    s.validate f = .error error ↔ s.fault? f = some error := by
  unfold validate
  cases s.fault? f <;> simp

/-- In a file whose links name holders, a set that was built applies just if it passes the check,
and else fails with the error of the check. -/
theorem apply_validate {s : EditSet} {f : SourceFile} (hs : s.Built) (hlinks : f.store.LinksHold) :
    ((∃ g, s.apply f = .ok g) ↔ s.validate f = .ok ()) ∧
      ∀ error, s.apply f = .error error ↔ s.validate f = .error error := by
  have hok := apply_ok_iff hs.nodup hlinks
  refine ⟨hok.trans validate_eq_ok_iff.symm, fun error => ?_⟩
  rw [validate_eq_error_iff]
  cases hfault : s.fault? f with
  | none =>
    obtain ⟨g, hg⟩ := hok.2 hfault
    simp [hg]
  | some error' => simp [apply, hfault]

/-- A call around another one. -/
def wrapperFile : SourceFile :=
  let d : Draft := {}
  let (size, d) := d.classType "a.Size"
  let (parse, d) := d.methodType {
    declaring := size, name := "parse", returns := some size, params := [] }
  let (value, d) := d.stringLiteral "1MB"
  let (inner, d) := d.invoke none parse [some value]
  let (outer, d) := d.invoke none parse [some inner]
  let (body, d) := d.block [some outer]
  d.finish "Size.java" (some "a") [] [some body]

/-- The outer call gives way to the inner one, which then gives way to its own argument in a new
call. -/
def unwrapping : EditSet :=
  (empty.push (.replaceExpression (some 4) (.existing (some 2)))).pushAll
    (empty.push (.replaceExpression (some 2)
      (.invocation (some (.typeName "a.Size"))
        ⟨"a.Size", "of", none, []⟩ [.existing (some 0)]))).edits

/-- The second edit finds its node in the place that the first one has given it. With one more edit
of that node, checking and applying fail alike. -/
theorem apply_validate_wrapperFile : unwrapping.Built ∧ wrapperFile.store.LinksHold ∧
    (∃ g, unwrapping.apply wrapperFile = .ok g) ∧
    (unwrapping.push (.retypeInvocation (some 2) ⟨"a.Size", "of", none, []⟩)).apply wrapperFile =
      .error (.conflict (some 2)) := by
  have hbuilt : unwrapping.Built := .extend (.push _ .empty) (.push _ .empty)
  have hfits : wrapperFile.Fits :=
    SourceFile.fits_of_forall_mem (by decide +kernel) (by decide +kernel) (by decide +kernel)
  have hloaded : SourceFile.decode? wrapperFile.encode = some wrapperFile := by
    rw [SourceFile.decode?_encode hfits]
    decide +kernel
  have hlinks : wrapperFile.store.LinksHold := SourceFile.linksHold_of_decode? hloaded
  exact ⟨hbuilt, hlinks, (apply_validate hbuilt hlinks).1.2 (by decide +kernel),
    ((apply_validate (hbuilt.push _) hlinks).2 _).2 (by decide +kernel)⟩

end EditSet

end JavaRecipes
