import JavaRecipes.Proofs.Edit.Checked
import JavaRecipes.Proofs.Edit.Splices
import JavaRecipes.Proofs.Tree.Copies

/-!
Cycles that edits make. A replacement may use any node of the file, also one that holds the node it
replaces, and then the tree closes on itself. It stays a tree without cycles if no node that another
one holds leads back to that one, where a node leads to what it holds and to what its replacement
uses (`EditSet.acyclic_apply`).
-/

namespace JavaRecipes

open Relation (ReflTransGen TransGen)

/-! ## Where a file leads -/

/-- An edit of the list puts `m` into the place of `n`, or below what it puts there. -/
def Edit.Puts (es : List Edit) (n m : NodeId) : Prop :=
  ∃ e ∈ es, e.replaced? = some (some n) ∧ some m ∈ e.used

namespace Store

/-- The node holds the other one, or that is used for the replacement of the node. -/
def Leads (s : Store) (es : List Edit) (n m : NodeId) : Prop := s.Holds n m ∨ Edit.Puts es n m

/-- A way that goes down at least once; where it goes from a node to what replaces it, it need not
go down. -/
def Descends (s : Store) (es : List Edit) (n m : NodeId) : Prop :=
  ∃ a b, ReflTransGen (s.Leads es) n a ∧ s.Holds a b ∧ ReflTransGen (s.Leads es) b m

section

variable {s : Store} {es : List Edit} {n m k : NodeId}

theorem leads_of_holds (h : ReflTransGen s.Holds n m) : ReflTransGen (s.Leads es) n m :=
  ReflTransGen.mono (fun _ _ => .inl) _ _ h

theorem Descends.of_holds (h : s.Holds n m) : s.Descends es n m := ⟨n, m, .refl, h, .refl⟩

theorem Descends.trans (h : s.Descends es n m) (hk : ReflTransGen (s.Leads es) m k) :
    s.Descends es n k :=
  let ⟨a, b, hna, hab, hbm⟩ := h
  ⟨a, b, hna, hab, hbm.trans hk⟩

theorem Descends.of_trans (hm : ReflTransGen (s.Leads es) n m) (h : s.Descends es m k) :
    s.Descends es n k :=
  let ⟨a, b, hma, hab, hbk⟩ := h
  ⟨a, b, hm.trans hma, hab, hbk⟩

end

end Store

namespace SourceFile

/-- Nodes that the root leads to, over slots and replacements. -/
def Led (f : SourceFile) (es : List Edit) (n : NodeId) : Prop :=
  ∃ r, f.root = some r ∧ ReflTransGen (f.store.Leads es) r n

theorem Led.of_reaches {f : SourceFile} {es : List Edit} {n : NodeId} (h : f.Reaches n) :
    f.Led es n := by
  obtain ⟨r, hr, -⟩ := h.exists_root
  rw [Reaches, hr] at h
  exact ⟨r, hr, Store.leads_of_holds h.reflTransGen⟩

theorem Led.trans {f : SourceFile} {es : List Edit} {n m : NodeId} (h : f.Led es n)
    (hm : ReflTransGen (f.store.Leads es) n m) : f.Led es m :=
  let ⟨r, hr, hn⟩ := h
  ⟨r, hr, hn.trans hm⟩

/-- What a store after some of the edits has to do with the file. Each node has a place, that of a
new one being the node that was to be replaced, and what it holds has a place that the file leads to
from there. The file leads down from a node of its own, and new nodes that hold new ones have a
higher rank. A new node that is out of reach may have no place. -/
structure Placement (f : SourceFile) (es : List Edit) (s : Store) (place : NodeId → Option NodeId)
    (rank : NodeId → Nat) : Prop where
  size_le : f.store.size ≤ s.size
  place_old : ∀ {n}, n < f.store.size → place n = some n
  edge : ∀ {n a m}, place n = some a → f.Led es a → s.Holds n m →
    m < s.size ∧ ∃ b, place m = some b ∧
    ReflTransGen (f.store.Leads es) a b ∧ (n < f.store.size → f.store.Descends es a b) ∧
    (f.store.size ≤ n → f.store.size ≤ m → rank m < rank n)

namespace Placement

variable {f : SourceFile} {es : List Edit} {s t u : Store} {place : NodeId → Option NodeId}
  {rank : NodeId → Nat}

theorem start (hslots : ∀ n m, f.Led es n → f.store.Holds n m → m < f.store.size) :
    f.Placement es f.store some fun _ => 0 where
  size_le := Nat.le_refl _
  place_old _ := rfl
  edge := by
    rintro n _ m ⟨⟩ hled hh
    exact ⟨hslots n m hled hh, m, rfl, .single (.inl hh), fun _ => .of_holds hh,
      fun hn => absurd (Store.holds_lt_size hh) (Nat.not_lt.2 hn)⟩

/-- The place of new nodes: the replaced node, if they are put into a node that was there. -/
def placed (s : Store) (place : NodeId → Option NodeId) (holder old n : NodeId) : Option NodeId :=
  if n < s.size then place n else if holder < s.size then some old else none

/-- New nodes rank below those that were new before, and above what they hold. -/
def ranked (s u : Store) (rank : NodeId → Nat) (n : NodeId) : Nat :=
  if n < s.size then rank n + u.size else n

section

variable {used : List Ref} {holder old new n m : NodeId}

theorem placed_old (hn : n < s.size) : placed s place holder old n = place n := if_pos hn

theorem placed_new (hn : s.size ≤ n) (hholder : holder < s.size) :
    placed s place holder old n = some old := by
  rw [placed, if_neg (Nat.not_lt.2 hn), if_pos hholder]

theorem eq_of_placed_new {a : NodeId} (hn : s.size ≤ n) (h : placed s place holder old n = some a) :
    holder < s.size ∧ a = old := by
  rw [placed, if_neg (Nat.not_lt.2 hn)] at h
  split at h
  · exact ⟨‹_›, (Option.some.inj h).symm⟩
  · cases h

theorem ranked_old (hn : n < s.size) : ranked s u rank n = rank n + u.size := if_pos hn

theorem ranked_new (hn : s.size ≤ n) : ranked s u rank n = n := if_neg (Nat.not_lt.2 hn)

variable (h : f.Placement es s place rank) (hsplice : s.Spliced t u used holder old new)
  (hold : old < f.store.size)
  (hused : ∀ m, some m ∈ used → m < f.store.size ∧ Edit.Puts es old m)

include h hsplice hold hused in
/-- What is put into the holder has a place that the file leads to from the one of the holder. -/
theorem edge_new {a : NodeId} (hholder : holder < s.size) (ha : place holder = some a)
    (hled : f.Led es a) :
    ∃ b, placed s place holder old new = some b ∧ ReflTransGen (f.store.Leads es) a b ∧
      (holder < f.store.size → f.store.Descends es a b) ∧
      (f.store.size ≤ holder → f.store.size ≤ new →
        ranked s u rank new < ranked s u rank holder) := by
  obtain ⟨-, b, hb, hab, hdown, -⟩ := h.edge ha hled (hsplice.holds_old hholder)
  obtain rfl : old = b := Option.some.inj ((h.place_old hold).symm.trans hb)
  by_cases hnew : new < s.size
  · obtain ⟨hlt, hputs⟩ := hused new (hsplice.new_mem hnew)
    have hstep : ReflTransGen (f.store.Leads es) old new := .single (.inr hputs)
    exact ⟨new, (placed_old hnew).trans (h.place_old hlt), hab.trans hstep,
      fun hn => (hdown hn).trans hstep,
      fun _ hle => absurd hlt (Nat.not_lt.2 hle)⟩
  · have hle := Nat.not_lt.1 hnew
    refine ⟨old, placed_new hle hholder, hab, hdown, fun _ _ => ?_⟩
    rw [ranked_new hle, ranked_old hholder]
    exact hsplice.new_lt.trans_le (Nat.le_add_left _ _)

include h hsplice hold hused in
theorem splice : f.Placement es u (placed s place holder old) (ranked s u rank) where
  size_le := h.size_le.trans hsplice.size_le
  place_old hn := by rw [placed_old (hn.trans_le h.size_le), h.place_old hn]
  edge := by
    intro n a m ha hled hh
    by_cases hn : n < s.size
    · rw [placed_old hn] at ha
      rcases hsplice.holds_cases hh with ⟨rfl, rfl⟩ | ⟨hle, -⟩ | ⟨-, hh⟩
      · exact ⟨hsplice.new_lt, h.edge_new hsplice hold hused hn ha hled⟩
      · exact absurd hn (Nat.not_lt.2 hle)
      · obtain ⟨hm, b, hb, hab, hdown, hrank⟩ := h.edge ha hled hh
        refine ⟨hm.trans_le hsplice.size_le, b, (placed_old hm).trans hb, hab, hdown,
          fun hn' hm' => ?_⟩
        rw [ranked_old hn, ranked_old hm]
        exact Nat.add_lt_add_right (hrank hn' hm') _
    · have hn := Nat.not_lt.1 hn
      obtain ⟨hholder, rfl⟩ := eq_of_placed_new hn ha
      have hnew : ¬ n < f.store.size := Nat.not_lt.2 (h.size_le.trans hn)
      rcases hsplice.holds_cases hh with ⟨rfl, -⟩ | ⟨-, hmn, hmem⟩ | ⟨hlt, -⟩
      · exact absurd hholder (Nat.not_lt.2 hn)
      · refine ⟨hmn.trans (Store.holds_lt_size hh), ?_⟩
        by_cases hm : m < s.size
        · obtain ⟨hlt, hputs⟩ := hused m (hmem hm)
          exact ⟨m, (placed_old hm).trans (h.place_old hlt), .single (.inr hputs),
            fun hn => absurd hn hnew,
            fun _ hle => absurd hlt (Nat.not_lt.2 hle)⟩
        · have hm := Nat.not_lt.1 hm
          refine ⟨a, placed_new hm hholder, .refl, fun hn => absurd hn hnew, fun _ _ => ?_⟩
          rwa [ranked_new hn, ranked_new hm]
      · exact absurd hlt (Nat.not_lt.2 hn)

end

theorem congr {s' : Store} (h : f.Placement es s place rank) (hsize : s'.size = s.size)
    (hchildren : ∀ r, s'.children r = s.children r) : f.Placement es s' place rank where
  size_le := hsize ▸ h.size_le
  place_old := h.place_old
  edge ha hled hh := by
    rw [Store.Holds, hchildren] at hh
    rw [hsize]
    exact h.edge ha hled hh

/-! ### Ways down -/

section

variable (h : f.Placement es s place rank) {n m a : NodeId}

include h in
theorem led_of_reaches (hroot : ∀ r, f.root = some r → r < f.store.size) (hn : s.Reaches f.root n) :
    ∃ a, place n = some a ∧ f.Led es a := by
  induction hn with
  | @start n hr _ => exact ⟨n, h.place_old (hroot n hr), n, hr, .refl⟩
  | step _ hh _ ih =>
    obtain ⟨a, ha, hled⟩ := ih
    obtain ⟨-, b, hb, hab, -⟩ := h.edge ha hled hh
    exact ⟨b, hb, hled.trans hab⟩

include h in
/-- A way down leads down in the file, unless it goes over new nodes only or from such to the first
old one. -/
theorem transGen_cases (ha : place n = some a) (hled : f.Led es a) (hnm : TransGen s.Holds n m) :
    ∃ b, place m = some b ∧ ReflTransGen (f.store.Leads es) a b ∧ (f.store.Descends es a b ∨
      f.store.size ≤ n ∧ (f.store.size ≤ m → rank m < rank n)) := by
  induction hnm with
  | @single m hh =>
    obtain ⟨-, b, hb, hab, hdown, hrank⟩ := h.edge ha hled hh
    refine ⟨b, hb, hab, ?_⟩
    by_cases hn : n < f.store.size
    · exact .inl (hdown hn)
    · exact .inr ⟨Nat.not_lt.1 hn, hrank (Nat.not_lt.1 hn)⟩
  | @tail m k _ hh ih =>
    obtain ⟨b, hb, hab, hway⟩ := ih
    obtain ⟨-, c, hc, hbc, hdown, hrank⟩ := h.edge hb (hled.trans hab) hh
    refine ⟨c, hc, hab.trans hbc, ?_⟩
    rcases hway with hway | ⟨hn, hlt⟩
    · exact .inl (hway.trans hbc)
    · by_cases hm : m < f.store.size
      · exact .inl (.of_trans hab (hdown hm))
      · have hm := Nat.not_lt.1 hm
        exact .inr ⟨hn, fun hk => (hrank hm hk).trans (hlt hm)⟩

include h in
theorem acyclic (hroot : ∀ r, f.root = some r → r < f.store.size)
    (hclear : ∀ n m, f.Led es n → f.store.Holds n m → ¬ ReflTransGen (f.store.Leads es) m n) :
    s.Acyclic f.root := by
  intro n hn hcycle
  obtain ⟨a, ha, hled⟩ := h.led_of_reaches hroot hn
  obtain ⟨b, hb, -, hway⟩ := h.transGen_cases ha hled hcycle
  obtain rfl : a = b := Option.some.inj (ha.symm.trans hb)
  rcases hway with ⟨x, y, hax, hxy, hya⟩ | ⟨hn, hlt⟩
  · exact hclear x y (hled.trans hax) hxy (hya.trans hax)
  · exact absurd (hlt hn) (Nat.lt_irrefl _)

end

end Placement

end SourceFile

theorem EditSet.exists_placement {f g : SourceFile} {s : EditSet} (hs : s.apply f = .ok g)
    (hslots : ∀ n m, f.Led s.edits n → f.store.Holds n m → m < f.store.size) :
    ∃ place rank, f.Placement s.edits g.store place rank := by
  obtain ⟨hfault, d, hd, rfl⟩ := apply_eq_ok hs
  have hchecked := (fault?_eq_none hfault).1
  refine Draft.applyEdits_induction
    (P := fun _ d => ∃ place rank, f.Placement s.edits d.store place rank) hd
    ⟨some, _, .start hslots⟩ ?_
  rintro done e rest d₁ d₂ hsplit ⟨place, rank, h⟩ he
  have hmem : e ∈ s.edits := by simp [hsplit]
  cases hr : e.replaced? with
  | none =>
    obtain ⟨hsize, hchildren, -⟩ := Draft.applyEdit_slots hr he
    exact ⟨place, rank, h.congr hsize hchildren⟩
  | some r =>
    cases e with
    | replaceExpression r' snippet =>
      obtain ⟨hparent, hexisting⟩ := Edit.replaceExpression_of_fault? (hchecked _ hmem)
      have hlt : ∀ m, some m ∈ snippet.existingNodes → m < f.store.size := fun m hm =>
        (Store.get?_isSome_iff _ m).1 (hexisting _ hm)
      have hexisting' : ∀ a ∈ snippet.existingNodes, (d₁.store.get? a).isSome := by
        intro a ha
        cases a with
        | none => simpa [Store.get?] using hexisting _ ha
        | some m => exact (Store.get?_isSome_iff _ m).2 ((hlt m ha).trans_le h.size_le)
      obtain ⟨t, holder, old, new, rfl, hsplice⟩ := Draft.exists_spliced he hexisting'
      obtain ⟨k, hk⟩ := Option.isSome_iff_exists.1 hparent
      exact ⟨_, _,
        h.splice hsplice (Store.lt_size_of_parent hk) fun m hm => ⟨hlt m hm, _, hmem, rfl, hm⟩⟩
    | _ => cases hr

/-- Where what is used is the replaced node or stands below it, the edits lead nowhere that the
slots do not. -/
theorem SourceFile.holds_of_leads {f : SourceFile} {es : List Edit}
    (hes : ∀ n m, Edit.Puts es n m → ReflTransGen f.store.Holds n m) {n m : NodeId}
    (h : ReflTransGen (f.store.Leads es) n m) : ReflTransGen f.store.Holds n m := by
  induction h with
  | refl => exact .refl
  | tail _ hstep ih => exact hstep.elim ih.tail fun hputs => ih.trans (hes _ _ hputs)

/-- If no way from what a node holds leads back to that node, over slots and replacements, the
edited tree has no cycle. So it is where each replacement uses the replaced node or nodes below it.
A single replacement makes no cycle exactly if it uses no node that has the holder below it, or a
cycle. -/
theorem EditSet.acyclic_apply {f g : SourceFile} {s : EditSet} (hs : s.apply f = .ok g)
    (hroot : ∀ r, f.root = some r → r < f.store.size)
    (hslots : ∀ n m, f.Led s.edits n → f.store.Holds n m → m < f.store.size) :
    ((∀ n m, f.Led s.edits n → f.store.Holds n m → ¬ ReflTransGen (f.store.Leads s.edits) m n) →
      g.Acyclic) ∧
      (f.Acyclic → (∀ n m, Edit.Puts s.edits n m → ReflTransGen f.store.Holds n m) → g.Acyclic) ∧
      ∀ old snippet holder, s.edits = [.replaceExpression (some old) snippet] → f.Acyclic →
        f.store.parent (some old) = some holder → f.Reaches holder →
        (g.Acyclic ↔ ∀ l, some l ∈ snippet.existingNodes →
          f.store.Acyclic (some l) ∧ ¬ f.store.Reaches (some l) holder) := by
  have hclear :
      (∀ n m, f.Led s.edits n → f.store.Holds n m → ¬ ReflTransGen (f.store.Leads s.edits) m n) →
      g.Acyclic := by
    intro hclear
    obtain ⟨place, rank, h⟩ := exists_placement hs hslots
    obtain ⟨-, d, -, rfl⟩ := apply_eq_ok hs
    exact h.acyclic hroot hclear
  refine ⟨hclear, fun hf hbelow => hclear fun n m hled hh hmn => ?_, ?_⟩
  · obtain ⟨r, hr, hrn⟩ := hled
    have hn : f.store.Reaches f.root n :=
      hr ▸ .of_reflTransGen (f.holds_of_leads hbelow hrn) (Store.holds_lt_size hh)
    exact hf n hn (.head' hh (f.holds_of_leads hbelow hmn))
  · intro old snippet holder hedits hf hparent hholder
    obtain ⟨hfault, d, hd, rfl⟩ := apply_eq_ok hs
    have hchecked := (fault?_eq_none hfault).1
    rw [hedits] at hd hchecked
    obtain ⟨d', he, hnil⟩ := Draft.applyEdits_cons hd
    obtain rfl := Except.ok.inj hnil
    obtain ⟨-, hexisting⟩ := Edit.replaceExpression_of_fault? (hchecked _ List.mem_cons_self)
    obtain ⟨t, holder', old', new, heq, hsplice⟩ := Draft.exists_spliced he hexisting
    obtain rfl := Option.some.inj heq
    obtain rfl : holder = holder' := Option.some.inj (hparent.symm.trans hsplice.parent_eq)
    refine hsplice.acyclic_iff hf hholder fun n m hn hh => hslots n m ?_ hh
    rcases hn with hn | ⟨l, hl, hln⟩
    · exact .of_reaches hn
    · have hputs : Edit.Puts s.edits old l :=
        ⟨.replaceExpression (some old) snippet, by simp [hedits], rfl, hl⟩
      have hheld := hsplice.holds_old hholder.lt_size
      exact ((SourceFile.Led.of_reaches hholder).trans
          (.tail (.single (.inl hheld)) (.inr hputs))).trans
        (Store.leads_of_holds hln.reflTransGen)

/-- A class with a method that returns `f(x)`. -/
def callFile : SourceFile where
  path := "A.java"
  types := .empty
  root := some 10
  store := ⟨#[
    ⟨some 2, .identifier ⟨"x", none, none⟩⟩,
    ⟨some 2, .identifier ⟨"f", none, none⟩⟩,
    ⟨some 3, .methodInvocation ⟨none, some 1, [some 0], none⟩⟩,
    ⟨some 4, .returnStatement ⟨some 2⟩⟩,
    ⟨some 6, .block ⟨[some 3]⟩⟩,
    ⟨some 6, .identifier ⟨"m", none, none⟩⟩,
    ⟨some 7, .methodDeclaration ⟨[], [], [], none, some 5, [], some 4, none⟩⟩,
    ⟨some 9, .block ⟨[some 6]⟩⟩,
    ⟨some 9, .identifier ⟨"A", none, none⟩⟩,
    ⟨some 10, .classDeclaration ⟨[], [], .ordinary, some 8, some 7, none⟩⟩,
    ⟨none, .compilationUnit ⟨none, [], [some 9]⟩⟩]⟩

theorem acyclic_callFile : callFile.Acyclic :=
  Store.acyclic_of_rank id (by decide +kernel) (some 10)

/-- The argument is replaced by the call that it is an argument of, and the call is below itself. -/
theorem cyclic_callFile :
    callFile.Acyclic ∧
    ∃ g, EditSet.apply ⟨[.replaceExpression (some 0) (.existing (some 2))]⟩ callFile = .ok g ∧
      g.Reaches 2 ∧ g.store.Holds 2 2 ∧ ¬ g.Acyclic := by
  let g :=
    (EditSet.apply ⟨[.replaceExpression (some 0) (.existing (some 2))]⟩ callFile).toOption.getD
      callFile
  have hreach : g.Reaches 2 := SourceFile.reaches_of_mem_nodes (by decide +kernel)
  have hself : g.store.Holds 2 2 := show some 2 ∈ g.store.children (some 2) by decide +kernel
  exact ⟨acyclic_callFile, g,
    by decide +kernel, hreach, hself, fun hg => hg 2 hreach (.single hself)⟩

/-- The call is wrapped in another one that it is the select of. -/
theorem acyclic_wrapped_callFile :
    ∃ g, EditSet.apply ⟨[.replaceExpression (some 2)
        (.invocation (some (.existing (some 2))) ⟨"sample.A", "g", none, []⟩ [])]⟩
          callFile = .ok g ∧
      g.store.children (some 3) = [some 12] ∧ g.Acyclic := by
  let snippet : Snippet := .invocation (some (.existing (some 2))) ⟨"sample.A", "g", none, []⟩ []
  let s : EditSet := ⟨[.replaceExpression (some 2) snippet]⟩
  let g := (s.apply callFile).toOption.getD callFile
  have hs : s.apply callFile = .ok g := by decide +kernel
  have hfilled : ∀ n < 11, ∀ r ∈ callFile.store.children (some n), ∀ m ∈ r, m < 11 := by
    decide +kernel
  have hown : ∀ n m, Edit.Puts s.edits n m → m = n := by
    rintro n m ⟨e, he, hreplaced, hused⟩
    obtain rfl := List.mem_singleton.1 he
    obtain rfl : 2 = n := by simpa [Edit.replaced?] using hreplaced
    simpa [Edit.used, snippet, Snippet.existingNodes, Snippet.existingNodesOption,
      Snippet.existingNodesList] using
      hused
  have hroot : ∀ r, callFile.root = some r → r < callFile.store.size := by
    intro r hr
    obtain rfl : 10 = r := Option.some.inj hr
    decide
  have hg :=
    EditSet.acyclic_apply hs hroot fun n m _ hh => hfilled n (Store.holds_lt_size hh) _ hh m rfl
  refine ⟨g, hs, by decide +kernel, hg.2.1 acyclic_callFile fun n m hputs => ?_⟩
  obtain rfl := hown n m hputs
  exact .refl

end JavaRecipes
