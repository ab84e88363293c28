import NexusKernel.Walks

/-!
What the nested clone functions of vmm.c do to a tree of page tables. `Cloned` describes the state
after the first `w` entries of a table of level `n`: the invariant of each loop and the
specification of the loop below it. A refused allocation leaves the subtree behind its entry out.
-/

namespace NexusKernel.Cloning

open Lib.TableTree Lib.Loops PhysicalMemory PageAllocation PageEntries Hardware
  PageSupply Function
open Vmm Walks Grows

def cowEntry (e : UInt64) : UInt64 := if user e && writable e then withoutWrite e else e

theorem cowEntry_spec (e : UInt64) :
    present (cowEntry e) = present e ∧ user (cowEntry e) = user e ∧ frame (cowEntry e) = frame e ∧
      writable (cowEntry e) = (writable e && !user e) := by
  obtain ⟨hp, hw, hu, hf⟩ := withoutWrite_spec e
  unfold cowEntry
  cases hue : user e <;> cases hwe : writable e <;> simp [hp, hw, hu, hf, hue, hwe]

theorem mapsUser_cowEntry (e : UInt64) (f : ℕ) : mapsUser (cowEntry e) f = mapsUser e f := by
  obtain ⟨hp, hu, hf, _⟩ := cowEntry_spec e
  simp only [mapsUser, hp, hu, hf]

/-- A leaf `e` after a clone, `old` in the original and `new` in the clone. Only present leaves
not behind a refused table are copied. -/
def ClonedLeaf (e old new : UInt64) : Prop :=
  (new = 0 ∧ old = e) ∨ (present e = true ∧ old = cowEntry e ∧ new = cowEntry e)

/-- The clone's table `z` is empty and apart from the tree at `o`. -/
structure ClonePre (Good : UInt64 → Prop) (n w : ℕ) (m : Machine) (o z : ℕ) : Prop where
  sane : Sane m
  tree : TreeIn Good m n w o
  inUse : InUse m.pmm z
  blank : ∀ i, i < w → m.ram z i = 0
  apart : z ∉ tables x86 m.ram n w o

structure Cloned (Good : UInt64 → Prop) (n w : ℕ) (m : Machine) (o z : ℕ)
    (m' : Machine) : Prop where
  grows : Grows m m'
  elsewhere : ∀ q, InUse m.pmm q → q ≠ z → q ∉ tables x86 m.ram n w o → m'.ram q = m.ram q
  oldRest : ∀ i, w ≤ i → m'.ram o i = m.ram o i
  newRest : ∀ i, w ≤ i → m'.ram z i = m.ram z i
  oldTables : tables x86 m'.ram n w o = tables x86 m.ram n w o
  oldProper : Proper x86 Good m'.ram n w o
  newTables : ∀ q ∈ tables x86 m'.ram n w z, q = z ∨ (IsFree m.pmm q ∧ InUse m'.pmm q)
  newProper : Proper x86 UpperGood m'.ram n w z
  leaves : ∀ l ∈ paths x86 n w, ClonedLeaf (leaf m o l) (leaf m' o l) (leaf m' z l)
  complete : (0 < n → m'.oom = false ∧ ∀ e, Good e → user e = true) →
    ∀ l ∈ paths x86 n w, present (leaf m o l) = true → leaf m' z l = cowEntry (leaf m o l)
  gaps : (0 < n → m'.oom = false ∧ ∀ e, Good e → user e = true) → ∀ l ∈ paths x86 n w,
      missing x86 m'.ram z l = missing x86 m'.ram o l
  oldGaps : ∀ l ∈ paths x86 n w, missing x86 m'.ram o l = missing x86 m.ram o l
  refcount : ∀ f, InUse m.pmm f → f < maxPages →
    m'.pmm.pageRefcount f = m.pmm.pageRefcount f + UInt16.ofNat (refs m'.ram n w z f)

variable {Good : UInt64 → Prop} {m m₁ m₂ m₃ : Machine} {n w o z r t : ℕ}

theorem ClonePre.mono {v : ℕ} (hw : w ≤ v) (h : ClonePre Good n v m o z) :
    ClonePre Good n w m o z where
  sane := h.sane
  tree := ⟨h.tree.proper.mono hw, fun q hq => h.tree.inUse q (tables_mono hw hq)⟩
  inUse := h.inUse
  blank := fun i hi => h.blank i (by omega)
  apart := fun hz => h.apart (tables_mono hw hz)

theorem ClonePre.ne (h : ClonePre Good n w m o z) : o ≠ z := by
  intro heq
  subst o
  exact h.apart root_mem_tables

theorem cloned_start (n : ℕ) (m : Machine) (o z : ℕ) : Cloned Good n 0 m o z m := by
  have hpaths : ∀ l, l ∉ paths x86 n 0 := by
    intro l hl
    cases n with
    | zero =>
      obtain ⟨i, hi, _⟩ := mem_paths_zero.mp hl
      omega
    | succ n =>
      obtain ⟨i, s, hi, _⟩ := mem_paths_succ.mp hl
      omega
  have hblank : ∀ p i, i < 0 → m.ram p i = x86.blank := by
    intro p i hi
    omega
  refine ⟨refl m, fun _ _ _ _ => rfl, fun _ _ => rfl, fun _ _ => rfl, rfl,
    proper_of_blank (hblank o), ?_, proper_of_blank (hblank z), fun l hl => absurd hl (hpaths l),
    fun _ l hl => absurd hl (hpaths l), fun _ l hl => absurd hl (hpaths l),
    fun l hl => absurd hl (hpaths l), ?_⟩
  · intro q hq
    rw [tables_of_blank (hblank z)] at hq
    exact .inl hq
  · intro f _ _
    rw [refs_of_blank (hblank z)]
    simp

private theorem pageRef_spec (s : Pmm) (e : UInt64) :
    let s' := pmmPageRef s (e &&& addrMask)
    (s'.bitmap = s.bitmap ∧ s'.bitmapAddr = s.bitmapAddr ∧ s'.maxPageIndex = s.maxPageIndex) ∧
      ∀ f < maxPages, s'.pageRefcount f = s.pageRefcount f + UInt16.ofNat
        (decide (frame e = f)).toNat := by
  simp only [pmmPageRef, show pageOf (e &&& addrMask) = frame e from rfl]
  split
  · refine ⟨⟨rfl, rfl, rfl⟩, fun f hf => ?_⟩
    simp [show frame e ≠ f by omega]
  · refine ⟨⟨rfl, rfl, rfl⟩, fun f _ => ?_⟩
    by_cases heq : frame e = f
    · simp [heq]
    · simp [heq, update_of_ne (Ne.symm heq)]

structure PteCloned (m : Machine) (o z i : ℕ) (m' : Machine) : Prop where
  grows : Grows m m'
  budget : budget m' = budget m
  inUse : ∀ q, InUse m'.pmm q ↔ InUse m.pmm q
  refcount : ∀ f, f < maxPages → m'.pmm.pageRefcount f =
    m.pmm.pageRefcount f + UInt16.ofNat (mapsUser (m.ram o i) f).toNat
  ram : m'.ram =
    if present (m.ram o i) then
      update (update m.ram o (update (m.ram o) i (cowEntry (m.ram o i)))) z
        (update (m.ram z) i (cowEntry (m.ram o i)))
    else m.ram

theorem clonePte_cloned (ho : o < 2 ^ 52) (hz : z < 2 ^ 52) (hne : o ≠ z) (i : ℕ) :
    PteCloned m o z i (clonePte (pageAddr o) (pageAddr z) i m) := by
  have hentry : m.entry (pageAddr o) i = m.ram o i := by
    simp only [Machine.entry, pageOf_pageAddr ho]
  simp only [clonePte, hentry]
  cases hpres : present (m.ram o i) with
  | false =>
    refine ⟨refl m, rfl, fun q => Iff.rfl, ?_, ?_⟩
    · intro f _
      simp [mapsUser, hpres]
    · simp [hpres]
  | true =>
    obtain ⟨⟨hbits, haddr, hmax⟩, hrefs⟩ := pageRef_spec m.pmm (m.ram o i)
    have huse : ∀ q, InUse (pmmPageRef m.pmm (m.ram o i &&& addrMask)) q ↔ InUse m.pmm q := by
      intro q
      simp only [InUse, hbits, hmax]
    cases huser : user (m.ram o i) with
    | false =>
      refine ⟨(refl m).write _, rfl, fun q => Iff.rfl, ?_, ?_⟩
      · intro f _
        simp [mapsUser, huser, Machine.setEntry]
      · simp [Machine.setEntry, hpres, cowEntry, huser, pageOf_pageAddr hz]
    | true =>
      cases hwrite : writable (m.ram o i) <;>
      · refine ⟨⟨haddr, hmax, fun q hq => (huse q).mpr hq, id, rfl, rfl⟩, ?_, huse,
          fun f hf => ?_, ?_⟩
        · simp [budget, Machine.setEntry, Machine.pmmPageRef, hbits, hmax]
        · refine (hrefs f hf).trans ?_
          simp [mapsUser, hpres, huser, beq_eq_decide]
        simp [Machine.setEntry, Machine.pmmPageRef, hpres, cowEntry, huser, hwrite,
          pageOf_pageAddr hz, pageOf_pageAddr ho, update_of_ne (Ne.symm hne)]

theorem cloned_pte (hpre : ClonePre Good 0 (w + 1) m o z) (h : Cloned Good 0 w m o z m₁)
    (hpte : PteCloned m₁ o z w m₂) : Cloned Good 0 (w + 1) m o z m₂ := by
  have hne := hpre.ne
  have hold : m₁.ram o w = m.ram o w := h.oldRest w le_rfl
  have hnew : m₁.ram z w = 0 := (h.newRest w le_rfl).trans (hpre.blank w (Nat.lt_succ_self w))
  have hother : ∀ q, q ≠ o → q ≠ z → m₂.ram q = m₁.ram q := by
    intro q hqo hqz
    rw [hpte.ram]
    split
    · rw [update_of_ne hqz, update_of_ne hqo]
    · rfl
  have hrest : ∀ i, i ≠ w → m₂.ram o i = m₁.ram o i ∧ m₂.ram z i = m₁.ram z i := by
    intro i hi
    rw [hpte.ram]
    split
    · rw [update_of_ne hne, update_self, update_self, update_of_ne hi, update_of_ne hi]
      exact ⟨rfl, rfl⟩
    · exact ⟨rfl, rfl⟩
  have hlast : (present (m.ram o w) = true ∧ m₂.ram o w = cowEntry (m.ram o w) ∧
    m₂.ram z w = cowEntry (m.ram o w)) ∨
      (present (m.ram o w) = false ∧ m₂.ram o w = m.ram o w ∧ m₂.ram z w = 0) := by
    rw [hpte.ram, hold]
    cases hpres : present (m.ram o w) with
    | true =>
      refine .inl ⟨rfl, ?_, ?_⟩
      · rw [if_pos rfl, update_of_ne hne, update_self, update_self]
      · rw [if_pos rfl, update_self, update_self]
    | false =>
      exact .inr ⟨rfl, by simpa using hold, by simpa using hnew⟩
  have hmaps : ∀ f, mapsUser (m₂.ram z w) f = mapsUser (m.ram o w) f := by
    intro f
    rcases hlast with ⟨_, _, hz⟩ | ⟨hp, _, hz⟩
    · rw [hz, mapsUser_cowEntry]
    · simp [hz, mapsUser, hp]
  have hpath : ∀ l ∈ paths x86 0 (w + 1), l = [w] ∨ l ∈ paths x86 0 w ∧
      leaf m₂ o l = leaf m₁ o l ∧ leaf m₂ z l = leaf m₁ z l := by
    intro l hl
    obtain ⟨i, hi, rfl⟩ := mem_paths_zero.mp hl
    by_cases hiw : i = w
    · exact .inl (by rw [hiw])
    · exact .inr ⟨mem_paths_zero.mpr ⟨i, by omega, rfl⟩, hrest i hiw⟩
  refine ⟨h.grows.trans hpte.grows, ?_, ?_, ?_, rfl, trivial, fun q hq => .inl hq, trivial, ?_, ?_,
    ?_, ?_, ?_⟩
  · intro q hq hqz hqo
    rw [hother q hqo hqz]
    exact h.elsewhere q hq hqz hqo
  · intro i hi
    rw [(hrest i (by omega)).1]
    exact h.oldRest i (by omega)
  · intro i hi
    rw [(hrest i (by omega)).2]
    exact h.newRest i (by omega)
  · intro l hl
    rcases hpath l hl with rfl | ⟨hl, ho, hz⟩
    · rcases hlast with ⟨hp, ho, hz⟩ | ⟨_, ho, hz⟩
      · exact .inr ⟨hp, ho, hz⟩
      · exact .inl ⟨hz, ho⟩
    · rw [ho, hz]
      exact h.leaves l hl
  · intro _ l hl hpres
    rcases hpath l hl with rfl | ⟨hl, _, hz⟩
    · rcases hlast with ⟨_, _, hz⟩ | ⟨hp, _, _⟩
      · exact hz
      · exact absurd hpres (by simp [leaf, leafAt, hp])
    · rw [hz]
      exact h.complete (fun hpos => absurd hpos (Nat.lt_irrefl 0)) l hl hpres
  · intro _ l hl
    obtain ⟨i, _, rfl⟩ := mem_paths_zero.mp hl
    rfl
  · intro l hl
    obtain ⟨i, _, rfl⟩ := mem_paths_zero.mp hl
    rfl
  · intro f hf hmax
    have hagree : Agree x86 m₁.ram m₂.ram 0 w z := fun i hi => (hrest i (by omega)).2
    have hsame := refs_congr hagree f
    rw [hpte.refcount f hmax, h.refcount f hf hmax, refs_zero_width, hsame, hmaps, hold,
      UInt16.ofNat_add, UInt16.add_assoc]

theorem vmmClonePt_cloned (hpre : ClonePre Good 0 x86.fanout m o z) :
    Cloned Good 0 x86.fanout m o z (vmmClonePt m (pageAddr o) (pageAddr z)) := by
  have ho := hpre.sane.lt_of_inUse hpre.tree.root
  have hz := hpre.sane.lt_of_inUse hpre.inUse
  have hloop : ∀ w, w ≤ x86.fanout →
      Cloned Good 0 w m o z (forUpTo (clonePte (pageAddr o) (pageAddr z)) w m) := by
    intro w hw
    induction w with
    | zero => exact cloned_start 0 m o z
    | succ w ih =>
      exact cloned_pte (hpre.mono hw) (ih (by omega))
        (clonePte_cloned (by omega) (by omega) hpre.ne w)
  exact hloop _ le_rfl

section

variable (hpre : ClonePre Good (n + 1) (w + 1) m o z) (h : Cloned Good (n + 1) w m o z m₁)
include hpre h

/-- The branch behind the next entry is as it was before the clone. -/
theorem branch_kept (hr : x86.next (m.ram o w) = some r) {q : ℕ}
    (hq : q ∈ tables x86 m.ram n x86.fanout r) :
    InUse m.pmm q ∧ q ≠ z ∧ q ∉ tables x86 m.ram (n + 1) w o ∧ m₁.ram q = m.ram q := by
  have hmem := child_tables_subset (Nat.lt_succ_self w) hr hq
  have huse := hpre.tree.inUse q hmem
  have hqz : q ≠ z := by
    intro heq
    subst q
    exact hpre.apart hmem
  have hout : q ∉ tables x86 m.ram (n + 1) w o := fun hqo =>
    Set.disjoint_left.mp (hpre.tree.proper.last_disjoint hr) hqo hq
  exact ⟨huse, hqz, hout, h.elsewhere q huse hqz hout⟩

/-- An entry that leads nowhere, or not for the user, or for which no page was left, stays blank
in the clone. -/
theorem cloned_skip (hram : m₂.ram = m₁.ram) (hpmm : m₂.pmm = m₁.pmm) (hgrows : Grows m₁ m₂)
    (hskip : presentUser (m.ram o w) = false ∨ m₂.oom = true) :
    Cloned Good (n + 1) (w + 1) m o z m₂ := by
  have hold : m₁.ram o w = m.ram o w := h.oldRest w le_rfl
  have hnew : x86.next (m₁.ram z w) = none := by
    rw [h.newRest w le_rfl, hpre.blank w (Nat.lt_succ_self w)]
    rfl
  have hbranch : ∀ r, x86.next (m.ram o w) = some r →
      Agree x86 m.ram m₁.ram n x86.fanout r := fun r hr =>
    agree_of_tables (fun q hq => (branch_kept hpre h hr hq).2.2.2)
  have holdTables : tables x86 m₁.ram (n + 1) (w + 1) o = tables x86 m.ram (n + 1) (w + 1) o := by
    ext q
    rw [mem_tables_width, mem_tables_width, h.oldTables, hold]
    refine or_congr_right (exists_congr fun r => and_congr_right fun hr => ?_)
    rw [(hbranch r hr).tables_eq]
  have hlast : ∀ s ∈ paths x86 n x86.fanout,
      leaf m₂ o (w :: s) = leaf m o (w :: s) ∧ leaf m₂ z (w :: s) = 0 := by
    intro s hs
    have hsne := paths_ne_nil hs
    simp only [leaf, hram]
    refine ⟨?_, leafAt_cons_none hsne hnew⟩
    rw [leafAt_cons hsne, leafAt_cons hsne, hold]
    cases hr : x86.next (m.ram o w) with
    | none => rfl
    | some r => exact (hbranch r hr).leafAt_eq hs
  -- Without a refusal the entry was passed over because it leads nowhere.
  have hnowhere : m₂.oom = false → (∀ e, Good e → user e = true) → x86.next (m.ram o w) = none := by
    intro hoom hgood
    cases hr : x86.next (m.ram o w) with
    | none => rfl
    | some r =>
      have huser := hgood _ (hpre.tree.proper.1 w r (Nat.lt_succ_self w) hr).1
      rcases hskip with hskip | hskip
      · simp [presentUser, (next_eq_some.mp hr).1, huser] at hskip
      · exact absurd hskip (by simp [hoom])
  constructor
  case grows => exact h.grows.trans hgrows
  case elsewhere =>
    intro q hq hqz hqo
    rw [hram]
    exact h.elsewhere q hq hqz (fun hmem => hqo (tables_mono (Nat.le_succ w) hmem))
  case oldRest =>
    intro i hi
    rw [hram]
    exact h.oldRest i (by omega)
  case newRest =>
    intro i hi
    rw [hram]
    exact h.newRest i (by omega)
  case oldTables =>
    rw [hram]
    exact holdTables
  case oldProper =>
    rw [hram]
    apply h.oldProper.extend
    intro r hr
    rw [hold] at hr ⊢
    refine ⟨(hpre.tree.proper.1 w r (Nat.lt_succ_self w) hr).1,
      (hbranch r hr).proper (hpre.tree.proper.1 w r (Nat.lt_succ_self w) hr).2.2, ?_⟩
    rw [h.oldTables, (hbranch r hr).tables_eq]
    exact hpre.tree.proper.last_disjoint hr
  case newTables =>
    intro q hq
    rw [hram, tables_width_none hnew] at hq
    rw [hpmm]
    exact h.newTables q hq
  case newProper =>
    rw [hram]
    apply h.newProper.extend
    intro r hr
    rw [hnew] at hr
    cases hr
  case leaves =>
    intro l hl
    rcases mem_paths_width.mp hl with hl | ⟨s, hs, rfl⟩
    · simp only [leaf, hram]
      exact h.leaves l hl
    · exact .inl ⟨(hlast s hs).2, (hlast s hs).1⟩
  case complete =>
    intro hall l hl hpres
    obtain ⟨hoom, hgood⟩ := hall (Nat.succ_pos n)
    rcases mem_paths_width.mp hl with hl | ⟨s, hs, rfl⟩
    · simp only [leaf, hram]
      exact h.complete (fun _ => ⟨hgrows.not_oom hoom, hgood⟩) l hl hpres
    · rw [leaf_cons_none (paths_ne_nil hs) (hnowhere hoom hgood)] at hpres
      simp at hpres
  case gaps =>
    intro hall l hl
    obtain ⟨hoom, hgood⟩ := hall (Nat.succ_pos n)
    rw [hram]
    rcases mem_paths_width.mp hl with hl | ⟨s, hs, rfl⟩
    · exact h.gaps (fun _ => ⟨hgrows.not_oom hoom, hgood⟩) l hl
    · have hsne := paths_ne_nil hs
      rw [missing_cons_none hsne hnew,
        missing_cons_none hsne (by rw [hold]; exact hnowhere hoom hgood)]
  case oldGaps =>
    intro l hl
    rw [hram]
    rcases mem_paths_width.mp hl with hl | ⟨s, hs, rfl⟩
    · exact h.oldGaps l hl
    · have hsne := paths_ne_nil hs
      cases hr : x86.next (m.ram o w) with
      | none => rw [missing_cons_none hsne hr, missing_cons_none hsne (by rw [hold]; exact hr)]
      | some r =>
        rw [missing_cons_some hsne hr, missing_cons_some hsne (by rw [hold]; exact hr)]
        exact (hbranch r hr).missing_eq hs
  case refcount =>
    intro f hf hmax
    rw [hpmm, hram, h.refcount f hf hmax, refs_width_none hnew]

/-- A fresh page is fit to become the clone of the branch. -/
theorem branch_pre (hr : x86.next (m.ram o w) = some r) (hfresh : Fresh m₁ t m₂) :
    Agree x86 m.ram m₂.ram n x86.fanout r ∧ ClonePre Good n x86.fanout m₂ r t := by
  have hne : ∀ q ∈ tables x86 m.ram n x86.fanout r, q ≠ t := fun q hq =>
    hfresh.ne_of_inUse (h.grows.inUse q (branch_kept hpre h hr hq).1)
  have hagree : Agree x86 m.ram m₂.ram n x86.fanout r := by
    apply agree_of_tables
    intro q hq
    rw [hfresh.ram_of_ne (hne q hq)]
    exact (branch_kept hpre h hr hq).2.2.2
  have hgrows := h.grows.trans hfresh.grows
  refine ⟨hagree, hpre.sane.grows hgrows, ?_, hfresh.inUse, fun i _ => hfresh.ram_self i, ?_⟩
  · exact (hpre.tree.child (Nat.lt_succ_self w) hr).agree hagree hgrows.inUse
  · rw [hagree.tables_eq]
    exact fun ht => hne t ht rfl

structure BranchDone (n w : ℕ) (m₁ : Machine) (o z r t : ℕ) (m₃ m₄ : Machine) : Prop where
  keeps : ∀ q, InUse m₁.pmm q → q ≠ z → q ∉ tables x86 m₃.ram n x86.fanout r → m₄.ram q = m₁.ram q
  oldRow : m₄.ram o = m₁.ram o
  newRow : m₄.ram z = update (m₁.ram z) w (tableEntry (pageAddr t))
  oldLink : x86.next (m₄.ram o w) = some r
  newLink : x86.next (m₄.ram z w) = some t
  oldPart : Agree x86 m₁.ram m₄.ram (n + 1) w o
  newPart : Agree x86 m₁.ram m₄.ram (n + 1) w z
  oldBranch : Agree x86 m₃.ram m₄.ram n x86.fanout r
  newBranch : Agree x86 m₃.ram m₄.ram n x86.fanout t

section

variable (hr : x86.next (m.ram o w) = some r) (hfresh : Fresh m₁ t m₂)
    (hc : Cloned Good n x86.fanout m₂ r t m₃)
include hr hfresh hc

theorem branchDone {m₄ : Machine}
    (hm₄ : m₄ = m₃.setEntry (pageAddr z) w (tableEntry (pageAddr t))) :
    BranchDone n w m₁ o z r t m₃ m₄ := by
  obtain ⟨hagree, -⟩ := branch_pre hpre h hr hfresh
  have hbranchTables := hc.oldTables.trans hagree.tables_eq
  have hz₁ : InUse m₁.pmm z := h.grows.inUse z hpre.inUse
  have hzlt : z < 2 ^ 52 := by
    have := hpre.sane.lt_of_inUse hpre.inUse
    omega
  have hset : m₄.ram = update m₃.ram z (update (m₃.ram z) w (tableEntry (pageAddr t))) := by
    simp only [hm₄, Machine.setEntry, pageOf_pageAddr hzlt]
  have hlow : ∀ q, InUse m₁.pmm q → q ∉ tables x86 m.ram n x86.fanout r → m₃.ram q = m₁.ram q := by
    intro q hq hqr
    have hqt := hfresh.ne_of_inUse hq
    rw [hc.elsewhere q (hfresh.grows.inUse q hq) hqt (by rwa [hagree.tables_eq]),
      hfresh.ram_of_ne hqt]
  have hzr : z ∉ tables x86 m.ram n x86.fanout r := fun hz =>
    (branch_kept hpre h hr hz).2.1 rfl
  have hkeeps : ∀ q, InUse m₁.pmm q → q ≠ z → q ∉ tables x86 m.ram n x86.fanout r →
      m₄.ram q = m₁.ram q := by
    intro q hq hqz hqr
    rw [hset, update_of_ne hqz, hlow q hq hqr]
  have hnewRow : m₄.ram z = update (m₁.ram z) w (tableEntry (pageAddr t)) := by
    rw [hset, update_self, hlow z hz₁ hzr]
  -- The pages of the old tree before entry `w` are neither `z` nor in the branch.
  have hearlier : ∀ q ∈ tables x86 m.ram (n + 1) w o, m₄.ram q = m₁.ram q := by
    intro q hq
    have hmem := tables_mono (Nat.le_succ w) hq
    apply hkeeps q (h.grows.inUse q (hpre.tree.inUse q hmem))
    · intro heq
      subst q
      exact hpre.apart hmem
    · exact Set.disjoint_left.mp (hpre.tree.proper.last_disjoint hr) hq
  obtain ⟨hpres, -, -, hframe⟩ :=
    tableEntry_spec ((hpre.sane.grows h.grows).lt_of_isFree hfresh.free)
  refine ⟨by rwa [hbranchTables], hearlier o root_mem_tables, hnewRow, ?_, ?_, ?_, ⟨?_, ?_⟩, ?_, ?_⟩
  · rw [hearlier o root_mem_tables, h.oldRest w le_rfl]
    exact hr
  · rw [hnewRow, update_self]
    exact next_eq_some.mpr ⟨hpres, hframe⟩
  · apply agree_of_tables
    intro q hq
    rw [h.oldTables] at hq
    exact hearlier q hq
  · intro i hi
    rw [hnewRow, update_of_ne (by omega)]
  · intro i d hi hd q hq
    rcases h.newTables q (child_tables_subset hi hd hq) with rfl | ⟨hfree, huse⟩
    · exact absurd hq (h.newProper.1 i d hi hd).2.1
    · apply hkeeps q huse
      · intro heq
        subst q
        exact hfree.not_inUse hpre.inUse
      · exact fun hqr => hfree.not_inUse (branch_kept hpre h hr hqr).1
  · apply agree_of_tables
    intro q hq
    rw [hbranchTables] at hq
    rw [hset, update_of_ne (branch_kept hpre h hr hq).2.1]
  · apply agree_of_tables
    intro q hq
    have hqz : q ≠ z := by
      intro heq
      subst q
      rcases hc.newTables z hq with hzt | ⟨hfree, _⟩
      · exact hfresh.ne_of_inUse hz₁ hzt
      · exact hfree.not_inUse (hfresh.grows.inUse z hz₁)
    rw [hset, update_of_ne hqz]

/-- An entry whose branch was cloned into a fresh table. -/
theorem cloned_branch : Cloned Good (n + 1) (w + 1) m o z
    (m₃.setEntry (pageAddr z) w (tableEntry (pageAddr t))) := by
  obtain ⟨hagree, -⟩ := branch_pre hpre h hr hfresh
  have hd := branchDone hpre h hr hfresh hc rfl
  have hgrows₃ : Grows m m₃ := (h.grows.trans hfresh.grows).trans hc.grows
  have hbranchTables := hc.oldTables.trans hagree.tables_eq
  have hneBranch : ∀ q ∈ tables x86 m₃.ram n x86.fanout t, IsFree m₁.pmm q ∧ InUse m₃.pmm q := by
    intro q hq
    rcases hc.newTables q hq with rfl | ⟨hfree, huse⟩
    · exact ⟨hfresh.free, hc.grows.inUse q hfresh.inUse⟩
    · exact ⟨hfresh.grows.isFree hfree, huse⟩
  obtain ⟨-, hwr, huser, -⟩ := tableEntry_spec ((hpre.sane.grows h.grows).lt_of_isFree hfresh.free)
  constructor
  case grows => exact hgrows₃.write _
  case elsewhere =>
    intro q hq hqz hqo
    rw [hd.keeps q (h.grows.inUse q hq) hqz]
    · exact h.elsewhere q hq hqz (fun hmem => hqo (tables_mono (Nat.le_succ w) hmem))
    · rw [hbranchTables]
      exact fun hqr => hqo (child_tables_subset (Nat.lt_succ_self w) hr hqr)
  case oldRest =>
    intro i hi
    rw [hd.oldRow]
    exact h.oldRest i (by omega)
  case newRest =>
    intro i hi
    rw [hd.newRow, update_of_ne (by omega)]
    exact h.newRest i (by omega)
  case oldTables =>
    ext q
    rw [mem_tables_width, mem_tables_width, hd.oldPart.tables_eq, h.oldTables]
    simp [hd.oldLink, hr, hd.oldBranch.tables_eq, hbranchTables]
  case oldProper =>
    apply (hd.oldPart.proper h.oldProper).extend
    intro d hdr
    obtain rfl : r = d := Option.some.inj (hd.oldLink.symm.trans hdr)
    refine ⟨?_, hd.oldBranch.proper hc.oldProper, ?_⟩
    · rw [hd.oldRow, h.oldRest w le_rfl]
      exact (hpre.tree.proper.1 w r (Nat.lt_succ_self w) hr).1
    · rw [hd.oldPart.tables_eq, h.oldTables, hd.oldBranch.tables_eq, hbranchTables]
      exact hpre.tree.proper.last_disjoint hr
  case newTables =>
    intro q hq
    rcases mem_tables_width.mp hq with hq | ⟨d, hdt, hq⟩
    · rw [hd.newPart.tables_eq] at hq
      rcases h.newTables q hq with hqz | ⟨hfree, huse⟩
      · exact .inl hqz
      · exact .inr ⟨hfree, hc.grows.inUse q (hfresh.grows.inUse q huse)⟩
    · obtain rfl : t = d := Option.some.inj (hd.newLink.symm.trans hdt)
      rw [hd.newBranch.tables_eq] at hq
      exact .inr ⟨h.grows.isFree (hneBranch q hq).1, (hneBranch q hq).2⟩
  case newProper =>
    apply (hd.newPart.proper h.newProper).extend
    intro d hdt
    obtain rfl : t = d := Option.some.inj (hd.newLink.symm.trans hdt)
    refine ⟨?_, hd.newBranch.proper hc.newProper, ?_⟩
    · rw [hd.newRow, update_self]
      exact ⟨huser, hwr⟩
    · rw [hd.newPart.tables_eq, hd.newBranch.tables_eq, Set.disjoint_left]
      intro q hq hqt
      apply (hneBranch q hqt).1.not_inUse
      rcases h.newTables q hq with rfl | ⟨_, huse⟩
      · exact h.grows.inUse q hpre.inUse
      · exact huse
  case leaves =>
    intro l hl
    rcases mem_paths_width.mp hl with hl | ⟨s, hs, rfl⟩
    · have hold := hd.oldPart.leafAt_eq hl
      have hnew := hd.newPart.leafAt_eq hl
      simp only [leaf, hold, hnew]
      exact h.leaves l hl
    · have hsne := paths_ne_nil hs
      rw [leaf_cons_some hsne hr, leaf_cons_some hsne hd.oldLink, leaf_cons_some hsne hd.newLink]
      have hleaf := hc.leaves s hs
      simp only [leaf, hd.oldBranch.leafAt_eq hs, hd.newBranch.leafAt_eq hs]
      simpa only [leaf, hagree.leafAt_eq hs] using hleaf
  case complete =>
    intro hall l hl hpres
    obtain ⟨hoom, hgood⟩ := hall (Nat.succ_pos n)
    have hoom₃ : m₃.oom = false := hoom
    rcases mem_paths_width.mp hl with hl | ⟨s, hs, rfl⟩
    · have hnew := hd.newPart.leafAt_eq hl
      simp only [leaf, hnew]
      exact h.complete (fun _ => ⟨(hfresh.grows.trans hc.grows).not_oom hoom₃, hgood⟩) l hl hpres
    · have hsne := paths_ne_nil hs
      have hleaf := hc.complete (fun _ => ⟨hoom₃, hgood⟩) s hs
      rw [leaf_cons_some hsne hr] at hpres ⊢
      rw [leaf_cons_some hsne hd.newLink]
      simp only [leaf, hagree.leafAt_eq hs] at hleaf
      simp only [leaf, hd.newBranch.leafAt_eq hs]
      exact hleaf hpres
  case gaps =>
    intro hall l hl
    obtain ⟨hoom, hgood⟩ := hall (Nat.succ_pos n)
    have hoom₃ : m₃.oom = false := hoom
    rcases mem_paths_width.mp hl with hl | ⟨s, hs, rfl⟩
    · rw [hd.newPart.missing_eq hl, hd.oldPart.missing_eq hl]
      exact h.gaps (fun _ => ⟨(hfresh.grows.trans hc.grows).not_oom hoom₃, hgood⟩) l hl
    · have hsne := paths_ne_nil hs
      rw [missing_cons_some hsne hd.newLink, missing_cons_some hsne hd.oldLink,
        hd.newBranch.missing_eq hs, hd.oldBranch.missing_eq hs]
      exact hc.gaps (fun _ => ⟨hoom₃, hgood⟩) s hs
  case oldGaps =>
    intro l hl
    rcases mem_paths_width.mp hl with hl | ⟨s, hs, rfl⟩
    · rw [hd.oldPart.missing_eq hl]
      exact h.oldGaps l hl
    · have hsne := paths_ne_nil hs
      rw [missing_cons_some hsne hd.oldLink, missing_cons_some hsne hr, hd.oldBranch.missing_eq hs,
        hc.oldGaps s hs, hagree.missing_eq hs]
  case refcount =>
    intro f hf hmax
    have hf₁ := h.grows.inUse f hf
    change m₃.pmm.pageRefcount f = _
    rw [hc.refcount f (hfresh.grows.inUse f hf₁) hmax,
      hfresh.refcount_of_ne (hfresh.ne_of_inUse hf₁), h.refcount f hf hmax,
      refs_width_some hd.newLink, refs_congr hd.newPart, refs_congr hd.newBranch,
      UInt16.ofNat_add, UInt16.add_assoc]

end

end

inductive EntryDone (cloneChild : Machine → UInt64 → UInt64 → Machine) (o z w : ℕ) (m₁ : Machine) :
    Machine → Prop where
  | passed (hskip : presentUser (m₁.ram o w) = false) : EntryDone cloneChild o z w m₁ m₁
  | refused (hfollow : presentUser (m₁.ram o w) = true) (href : Refused m₁ m₁.pmmAllocPage.1) :
      EntryDone cloneChild o z w m₁ m₁.pmmAllocPage.1
  | branched (t : ℕ) (hfollow : presentUser (m₁.ram o w) = true)
      (hfresh : Fresh m₁ t m₁.pmmAllocPage.1) : EntryDone cloneChild o z w m₁
        ((cloneChild m₁.pmmAllocPage.1 (pageAddr (frame (m₁.ram o w))) (pageAddr t)).setEntry
          (pageAddr z) w (tableEntry (pageAddr t)))

theorem cloneEntry_done (cloneChild : Machine → UInt64 → UInt64 → Machine) (hs : Sane m₁)
    (ho : InUse m₁.pmm o) (z w : ℕ) :
    EntryDone cloneChild o z w m₁ (cloneEntry cloneChild (pageAddr o) (pageAddr z) w m₁) := by
  have hread : ∀ m' : Machine, m'.entry (pageAddr o) w = m'.ram o w := by
    intro m'
    have := hs.lt_of_inUse ho
    simp only [Machine.entry, pageOf_pageAddr (show o < 2 ^ 52 by omega)]
  simp only [cloneEntry, hread]
  cases hfollow : presentUser (m₁.ram o w) with
  | false =>
    unfold presentUser at hfollow
    simp only [hfollow, Bool.false_eq_true, if_false]
    exact .passed hfollow
  | true =>
    have hboth := hfollow
    unfold presentUser at hboth
    simp only [hboth, if_true]
    rcases pmmAllocPage_cases hs with ⟨hz, href⟩ | ⟨t, haddr, hne, hfresh⟩
    · simp only [hz, if_true]
      exact .refused hfollow href
    · rw [← haddr] at hne
      simp only [hne, if_false, hfresh.ram_of_ne (hfresh.ne_of_inUse ho), and_addrMask]
      rw [haddr]
      exact .branched t hfollow hfresh

theorem next_of_presentUser {e : UInt64} (h : presentUser e = true) :
    x86.next e = some (frame e) := next_eq_some.mpr ⟨(Bool.and_eq_true_iff.mp h).1, rfl⟩

section

variable {cloneChild : Machine → UInt64 → UInt64 → Machine}
  (hchild : ∀ m o z, ClonePre Good n x86.fanout m o z →
  Cloned Good n x86.fanout m o z (cloneChild m (pageAddr o) (pageAddr z)))
include hchild

/-- One entry of an upper table, for any correct clone of the level below. -/
theorem cloned_entry (hpre : ClonePre Good (n + 1) (w + 1) m o z)
    (h : Cloned Good (n + 1) w m o z m₁) :
    Cloned Good (n + 1) (w + 1) m o z (cloneEntry cloneChild (pageAddr o) (pageAddr z) w m₁) := by
  have hold : m₁.ram o w = m.ram o w := h.oldRest w le_rfl
  have hdone := cloneEntry_done cloneChild (hpre.sane.grows h.grows)
    (h.grows.inUse o hpre.tree.root) z w
  generalize cloneEntry cloneChild (pageAddr o) (pageAddr z) w m₁ = m₄ at hdone ⊢
  cases hdone with
  | passed hskip =>
    rw [hold] at hskip
    exact cloned_skip hpre h rfl rfl (refl m₁) (.inl hskip)
  | refused _ href =>
    exact cloned_skip hpre h href.ram href.pmm href.grows (.inr href.oom)
  | branched t hfollow hfresh =>
    rw [hold] at hfollow ⊢
    have hr := next_of_presentUser hfollow
    exact cloned_branch hpre h hr hfresh (hchild _ _ t (branch_pre hpre h hr hfresh).2)

theorem cloneTable_cloned (hpre : ClonePre Good (n + 1) w m o z) :
    Cloned Good (n + 1) w m o z (cloneTable cloneChild w m (pageAddr o) (pageAddr z)) := by
  induction w with
  | zero => exact cloned_start (n + 1) m o z
  | succ w ih => exact cloned_entry hchild hpre (ih (hpre.mono (Nat.le_succ w)))

end

theorem vmmClonePd_cloned (m : Machine) (o z : ℕ) (hpre : ClonePre Good 1 x86.fanout m o z) :
    Cloned Good 1 x86.fanout m o z (vmmClonePd m (pageAddr o) (pageAddr z)) :=
  cloneTable_cloned (fun _ _ _ => vmmClonePt_cloned) hpre

theorem vmmClonePdpt_cloned (m : Machine) (o z : ℕ) (hpre : ClonePre Good 2 x86.fanout m o z) :
    Cloned Good 2 x86.fanout m o z (vmmClonePdpt m (pageAddr o) (pageAddr z)) :=
  cloneTable_cloned vmmClonePd_cloned hpre

end NexusKernel.Cloning
