import NexusKernel.Walks
import Mathlib.Algebra.Order.BigOperators.Group.Finset

/-!
What the nested loops of `vmm_destroy_address_space` do. Memory is only read; every user leaf
gives up one reference, and every table below the root is freed. `Destroyed` describes the state
after `w` entries, as `Cloned` does for the clone.
-/

namespace NexusKernel.Destruction

open Lib.TableTree Lib.Loops PhysicalMemory PageAllocation PageEntries Hardware
open Vmm Walks Function

variable {s : Pmm} {m m₁ m₂ : Machine} {n w p r : ℕ}

structure SameLayout (s s' : Pmm) : Prop where
  bitmapAddr : s'.bitmapAddr = s.bitmapAddr
  maxPageIndex : s'.maxPageIndex = s.maxPageIndex

theorem SameLayout.trans {s s' s'' : Pmm} (h : SameLayout s s') (h' : SameLayout s' s'') :
    SameLayout s s'' := ⟨h'.bitmapAddr.trans h.bitmapAddr, h'.maxPageIndex.trans h.maxPageIndex⟩

theorem returned_inUse {s' : Pmm} (h : Returned s p s') (q : ℕ) : InUse s' q ↔
    InUse s q ∧ q ≠ p := by
  simp only [InUse, h.maxPageIndex, h.test, Bool.and_eq_true, decide_eq_true_iff]
  tauto

theorem freePage_spec (hr : r ≠ 0) (hlt : r < 2 ^ 52) (hin : InUse s r) :
    SameLayout s (pmmFreePage s (pageAddr r)) ∧
    (∀ q, InUse (pmmFreePage s (pageAddr r)) q ↔ InUse s q ∧ q ≠ r) ∧
    ∀ q, q ≠ r → (pmmFreePage s (pageAddr r)).pageRefcount q = s.pageRefcount q := by
  have hpage := pageOf_pageAddr hlt
  rcases pmmFreePage_cases s (pageAddr r) with ⟨_, hskip⟩ | ⟨_, _, hreturned, hnum⟩
  · rw [hpage] at hskip
    exact absurd hskip (by tauto)
  · rw [hpage] at hreturned hnum
    refine ⟨⟨hreturned.bitmapAddr, hreturned.maxPageIndex⟩, returned_inUse hreturned, ?_⟩
    intro q hq
    rw [hnum, if_neg (fun h => hq h.1)]

/-- Giving up a reference takes the page back when it was the last one. -/
theorem unref_spec (s : Pmm) (e : UInt64) :
    let s' := pmmPageUnref s (e &&& addrMask)
    SameLayout s s' ∧
    (∀ q, InUse s' q ↔ InUse s q ∧
      ¬ (q = frame e ∧ q ≠ 0 ∧ q < maxPages ∧ (s.pageRefcount q).toNat = 1)) ∧
    ∀ f, f ≠ 0 → f < maxPages →
      (s'.pageRefcount f).toNat = (s.pageRefcount f).toNat - (frame e == f).toNat := by
  have hone : ∀ c : UInt16, c.toNat = 1 ↔ c = 1 := fun c => by
    rw [← UInt16.toNat_inj]
    rfl
  have hz : ∀ c : UInt16, c.toNat = 0 ↔ c = 0 := fun c => by
    rw [← UInt16.toNat_inj]
    rfl
  have hcases := pmmPageUnref_cases s (e &&& addrMask)
  rw [show pageOf (e &&& addrMask) = frame e from rfl] at hcases
  rcases hcases with ⟨hsame, hwhy⟩ | ⟨hlt, hne, hpos, hnum, hbit⟩
  · rw [hsame]
    refine ⟨⟨rfl, rfl⟩, ?_, ?_⟩
    · intro q
      refine (and_iff_left_of_imp ?_).symm
      rintro - ⟨rfl, hq0, hqlt, hq1⟩
      rcases hwhy with h | h | h
      · omega
      · exact hq0 h
      · rw [h] at hq1
        cases hq1
    · intro f hf0 hflt
      by_cases hf : frame e = f
      · subst f
        rcases hwhy with h | h | h
        · omega
        · exact absurd h hf0
        · simp [h]
      · rw [beq_false_of_ne hf]
        rfl
  · have hrefcount : ∀ f, ((pmmPageUnref s (e &&& addrMask)).pageRefcount f).toNat =
        (s.pageRefcount f).toNat - (frame e == f).toNat := by
      intro f
      rw [hnum]
      by_cases hf : frame e = f
      · subst f
        have hpos' : (s.pageRefcount (frame e)).toNat ≠ 0 := fun h => hpos ((hz _).mp h)
        rw [update_self, UInt16.toNat_sub_of_le]
        · simp
        · rw [UInt16.le_iff_toNat_le]
          change 1 ≤ _
          omega
      · rw [update_of_ne (Ne.symm hf), beq_false_of_ne hf]
        rfl
    rcases hbit with ⟨hlast, _, hreturned⟩ | ⟨hkeep, hbits, haddr, hmax, _, _⟩
    · refine ⟨⟨hreturned.bitmapAddr, hreturned.maxPageIndex⟩, ?_, fun f _ _ => hrefcount f⟩
      intro q
      rw [returned_inUse hreturned]
      constructor
      · exact fun hq => ⟨hq.1, fun h => hq.2 h.1⟩
      · intro hq
        refine ⟨hq.1, ?_⟩
        intro heq
        subst q
        exact hq.2 ⟨rfl, hne, hlt, (hone _).mpr hlast⟩
    · refine ⟨⟨haddr, hmax⟩, ?_, fun f _ _ => hrefcount f⟩
      intro q
      simp only [InUse, hbits, hmax]
      refine (and_iff_left_of_imp fun hq => ?_).symm
      rintro ⟨rfl, _, _, hq1⟩
      rcases hkeep with h | h
      · exact h ((hone _).mp hq1)
      · cases h.symm.trans hq.2

/-- The leaves of the tree hold every reference to page `f`. -/
def Released (m : Machine) (n w p f : ℕ) : Prop :=
  f ≠ 0 ∧ f < maxPages ∧ 0 < (m.pmm.pageRefcount f).toNat ∧
    (m.pmm.pageRefcount f).toNat ≤ refs m.ram n w p f

structure DestroyPre (n w : ℕ) (m : Machine) (p : ℕ) : Prop where
  width : m.pmm.maxPageIndex.toNat ≤ 2 ^ 40
  tree : TreeOk m n w p
  nonzero : 0 ∉ tables x86 m.ram n w p
  frames : ∀ f, 0 < refs m.ram n w p f → f ∉ tables x86 m.ram n w p

theorem DestroyPre.mono {v : ℕ} (hw : w ≤ v) (h : DestroyPre n v m p) : DestroyPre n w m p where
  width := h.width
  tree := ⟨h.tree.proper.mono hw, fun q hq => h.tree.inUse q (tables_mono hw hq)⟩
  nonzero := fun hz => h.nonzero (tables_mono hw hz)
  frames := fun f hf hmem => h.frames f
    (lt_of_lt_of_le hf (Finset.sum_le_sum_of_subset (paths_mono hw))) (tables_mono hw hmem)

structure Destroyed (n w : ℕ) (m : Machine) (p : ℕ) (m' : Machine) : Prop where
  ram : m'.ram = m.ram
  heap : m'.heap = m.heap
  layout : SameLayout m.pmm m'.pmm
  inUse : ∀ q, InUse m'.pmm q ↔ InUse m.pmm q ∧ (q ∈ tables x86 m.ram n w p → q = p) ∧
    ¬ Released m n w p q
  refcount : ∀ f, f ≠ 0 → f < maxPages → f ∉ tables x86 m.ram n w p →
    (m'.pmm.pageRefcount f).toNat = (m.pmm.pageRefcount f).toNat - refs m.ram n w p f

theorem destroyed_start (n : ℕ) (m : Machine) (p : ℕ) : Destroyed n 0 m p m := by
  have hblank : ∀ i < 0, m.ram p i = x86.blank := by
    intro i hi
    omega
  have hrefs : ∀ f, refs m.ram n 0 p f = 0 := refs_of_blank hblank
  refine ⟨rfl, rfl, ⟨rfl, rfl⟩, ?_, ?_⟩
  · intro q
    rw [tables_of_blank hblank]
    constructor
    · intro hq
      refine ⟨hq, id, ?_⟩
      intro hrel
      obtain ⟨_, _, hpos, hle⟩ := hrel
      rw [hrefs] at hle
      omega
    · exact fun hq => hq.1
  · intro f _ _ _
    rw [hrefs]
    omega

theorem destroyed_pte (hpre : DestroyPre 0 (w + 1) m p) (h : Destroyed 0 w m p m₁)
    (hp : p < 2 ^ 52) : Destroyed 0 (w + 1) m p (destroyPte (pageAddr p) w m₁) := by
  have hread : m₁.entry (pageAddr p) w = m.ram p w := by
    simp only [Machine.entry, pageOf_pageAddr hp, h.ram]
  rw [destroyPte, hread]
  cases hmaps : present (m.ram p w) && user (m.ram p w) with
  | false =>
    have hsame : ∀ f, refs m.ram 0 (w + 1) p f = refs m.ram 0 w p f := by
      intro f
      rw [refs_zero_width]
      simp [mapsUser, hmaps]
    simp only [Bool.false_eq_true, if_false]
    refine ⟨h.ram, h.heap, h.layout, ?_, ?_⟩
    · intro q
      simp only [h.inUse, Released, hsame]
      rfl
    · intro f hf0 hlt hout
      rw [hsame]
      exact h.refcount f hf0 hlt hout
  | true =>
    have hmore :
        ∀ f, refs m.ram 0 (w + 1) p f = refs m.ram 0 w p f + (frame (m.ram p w) == f).toNat := by
      intro f
      rw [refs_zero_width]
      simp [mapsUser, hmaps]
    obtain ⟨hlayout, huse, hnum⟩ := unref_spec m₁.pmm (m.ram p w)
    refine ⟨h.ram, h.heap, h.layout.trans hlayout, ?_, ?_⟩
    · intro q
      change InUse (pmmPageUnref m₁.pmm (m.ram p w &&& addrMask)) q ↔ _
      have hlast : Released m 0 w p q ∨ (q = frame (m.ram p w) ∧ q ≠ 0 ∧ q < maxPages ∧
          (m₁.pmm.pageRefcount q).toNat = 1) ↔ Released m 0 (w + 1) p q := by
        by_cases hq : frame (m.ram p w) = q
        · subst q
          simp only [Released, hmore, BEq.rfl, Bool.toNat_true, true_and]
          by_cases hcovered : frame (m.ram p w) ≠ 0 ∧ frame (m.ram p w) < maxPages
          · have hout : frame (m.ram p w) ∉ tables x86 m.ram 0 (w + 1) p := by
              apply hpre.frames
              simp [hmore]
            have hrc := h.refcount _ hcovered.1 hcovered.2 hout
            omega
          · omega
        · simp [Released, hmore, beq_false_of_ne hq, Ne.symm hq]
      rw [huse, h.inUse, and_assoc, and_assoc, ← not_or, hlast]
      rfl
    · intro f hf0 hlt hout
      change ((pmmPageUnref m₁.pmm (m.ram p w &&& addrMask)).pageRefcount f).toNat = _
      rw [hnum f hf0 hlt, h.refcount f hf0 hlt hout, hmore]
      omega

theorem destroyPt_destroyed (m : Machine) (p : ℕ) (hpre : DestroyPre 0 x86.fanout m p) :
    Destroyed 0 x86.fanout m p (destroyPt m (pageAddr p)) := by
  have hp := lt_of_lt_of_le hpre.tree.root.1 hpre.width
  have hloop : ∀ w ≤ x86.fanout, Destroyed 0 w m p (forUpTo (destroyPte (pageAddr p)) w m) := by
    intro w hw
    induction w with
    | zero => exact destroyed_start 0 m p
    | succ w ih => exact destroyed_pte (hpre.mono hw) (ih (by omega)) (by omega)
  exact hloop _ le_rfl

section

variable (hpre : DestroyPre (n + 1) (w + 1) m p) (h : Destroyed (n + 1) w m p m₁)
    (hr : x86.next (m.ram p w) = some r)
include hpre h hr

/-- What is left of a tree after its first entries can be destroyed. -/
theorem branch_destroyPre : DestroyPre n x86.fanout m₁ r := by
  have hsub : tables x86 m.ram n x86.fanout r ⊆
      tables x86 m.ram (n + 1) (w + 1) p := child_tables_subset (Nat.lt_succ_self w) hr
  have hmore := refs_width_some (n := n) hr
  refine ⟨by rw [h.layout.maxPageIndex]; exact hpre.width, ⟨?_, ?_⟩, ?_, ?_⟩
  · rw [h.ram]
    exact (hpre.tree.child (Nat.lt_succ_self w) hr).proper
  · intro q hq
    rw [h.ram] at hq
    refine (h.inUse q).mpr ⟨hpre.tree.inUse q (hsub hq), ?_, ?_⟩
    · intro hqp
      exact absurd hq (Set.disjoint_left.mp (hpre.tree.proper.last_disjoint hr) hqp)
    · intro hrel
      obtain ⟨_, _, hpos, hle⟩ := hrel
      exact hpre.frames q (by rw [hmore]; omega) (hsub hq)
  · rw [h.ram]
    exact fun hz => hpre.nonzero (hsub hz)
  · intro f hf hmem
    rw [h.ram] at hf hmem
    exact hpre.frames f (by rw [hmore]; omega) (hsub hmem)

theorem destroyed_branch (hc : Destroyed n x86.fanout m₁ r m₂) :
    Destroyed (n + 1) (w + 1) m p (m₂.pmmFreePage (pageAddr r)) := by
  have hchild := branch_destroyPre hpre h hr
  have hmore := refs_width_some (n := n) hr
  have hlast := hpre.tree.proper.last_disjoint hr
  have hram : m₂.ram = m.ram := hc.ram.trans h.ram
  have hr₀ : r ≠ 0 := by
    intro hz
    subst r
    exact hchild.nonzero root_mem_tables
  have hr₂ : InUse m₂.pmm r := by
    refine (hc.inUse r).mpr ⟨hchild.tree.root, fun _ => rfl, ?_⟩
    intro hrel
    obtain ⟨_, _, hpos, hle⟩ := hrel
    exact hchild.frames r (by omega) root_mem_tables
  have hrlt : r < 2 ^ 52 := by
    have := lt_of_lt_of_le hchild.tree.root.1 hchild.width
    omega
  obtain ⟨hlayout, huse, hnum⟩ := freePage_spec hr₀ hrlt hr₂
  have hcounted : ∀ f, f ≠ 0 → f < maxPages → f ∉ tables x86 m.ram (n + 1) (w + 1) p →
      (m₁.pmm.pageRefcount f).toNat = (m.pmm.pageRefcount f).toNat - refs m.ram (n + 1) w p f :=
        fun f hf₀ hlt hout =>
    h.refcount f hf₀ hlt (fun hmem => hout (tables_mono (Nat.le_succ w) hmem))
  refine ⟨hram, hc.heap.trans h.heap, (h.layout.trans hc.layout).trans hlayout, ?_, ?_⟩
  · intro q
    -- A page is released now if it was already or if the branch held its last references.
    have hrel : Released m (n + 1) w p q ∨ Released m₁ n x86.fanout r q ↔
        Released m (n + 1) (w + 1) p q := by
      simp only [Released, h.ram, hmore]
      by_cases hmap : 0 < refs m.ram (n + 1) (w + 1) p q
      · have hout := hpre.frames q hmap
        by_cases hcovered : q ≠ 0 ∧ q < maxPages
        · have hrc := hcounted q hcovered.1 hcovered.2 hout
          omega
        · omega
      · rw [hmore] at hmap
        omega
    have htabs : ((q ∈ tables x86 m.ram (n + 1) w p → q = p) ∧
        (q ∈ tables x86 m.ram n x86.fanout r → q = r) ∧ q ≠ r) ↔
        (q ∈ tables x86 m.ram (n + 1) (w + 1) p → q = p) := by
      rw [mem_tables_width]
      simp only [hr, Option.some.injEq, exists_eq_left']
      constructor
      · intro hout hq
        obtain ⟨hearlier, hbranch, hqr⟩ := hout
        rcases hq with hq | hq
        · exact hearlier hq
        · exact absurd (hbranch hq) hqr
      · intro hout
        have hbranch : q ∉ tables x86 m.ram n x86.fanout r := by
          intro hq
          have hqp := hout (.inr hq)
          subst q
          exact Set.disjoint_left.mp hlast root_mem_tables hq
        refine ⟨fun hq => hout (.inl hq), fun hq => absurd hq hbranch, ?_⟩
        intro heq
        subst q
        exact hbranch root_mem_tables
    change InUse (pmmFreePage m₂.pmm (pageAddr r)) q ↔ _
    rw [huse, hc.inUse, h.inUse, ← htabs, ← hrel, h.ram]
    constructor
    · intro hq
      obtain ⟨⟨⟨hq, h₁, h₂⟩, h₃, h₄⟩, h₅⟩ := hq
      exact ⟨hq, ⟨h₁, h₃, h₅⟩, fun hor => hor.elim h₂ h₄⟩
    · intro hq
      obtain ⟨hq, ⟨h₁, h₃, h₅⟩, hnot⟩ := hq
      exact ⟨⟨⟨hq, h₁, fun hl => hnot (.inl hl)⟩, h₃, fun hl => hnot (.inr hl)⟩, h₅⟩
  · intro f hf₀ hlt hout
    have hbranch : f ∉ tables x86 m₁.ram n x86.fanout r := by
      rw [h.ram]
      exact fun hmem => hout (child_tables_subset (Nat.lt_succ_self w) hr hmem)
    have hfr : f ≠ r := by
      intro heq
      subst f
      exact hbranch root_mem_tables
    change ((pmmFreePage m₂.pmm (pageAddr r)).pageRefcount f).toNat = _
    rw [hnum f hfr, hc.refcount f hf₀ hlt hbranch, hcounted f hf₀ hlt hout, h.ram, hmore]
    omega

end

section

variable {follow : UInt64 → Bool} {destroyChild : Machine → UInt64 → Machine}
  (hfollow : ∀ e, (present e = false → follow e = false) ∧ (present e = true → user e = true →
    follow e = true)) (hchild : ∀ m p, DestroyPre n x86.fanout m p →
    Destroyed n x86.fanout m p (destroyChild m (pageAddr p)))
include hfollow hchild

/-- One entry of an upper table, for any correct loop over the level below. The loops differ in
whether they look at the user bit. -/
theorem destroyed_entry (hpre : DestroyPre (n + 1) (w + 1) m p) (h : Destroyed (n + 1) w m p m₁) :
    Destroyed (n + 1) (w + 1) m p (destroyEntry follow destroyChild (pageAddr p) w m₁) := by
  have hp := lt_of_lt_of_le hpre.tree.root.1 hpre.width
  have hread : m₁.entry (pageAddr p) w = m.ram p w := by
    simp only [Machine.entry, pageOf_pageAddr (show p < 2 ^ 52 by omega), h.ram]
  simp only [destroyEntry, hread]
  cases hr : x86.next (m.ram p w) with
  | none =>
    rw [(hfollow _).1 (next_eq_none.mp hr)]
    simp only [Bool.false_eq_true, if_false]
    have hsame := refs_width_none (n := n) hr
    have htabs := tables_width_none (n := n) hr
    refine ⟨h.ram, h.heap, h.layout, ?_, ?_⟩
    · intro q
      simp only [h.inUse, Released, hsame, htabs]
    · intro f hf₀ hlt hout
      rw [htabs] at hout
      rw [hsame]
      exact h.refcount f hf₀ hlt hout
  | some r =>
    obtain ⟨hpres, hframe⟩ := next_eq_some.mp hr
    have huser := (hpre.tree.proper.1 w r (Nat.lt_succ_self w) hr).1.1
    rw [(hfollow _).2 hpres huser]
    simp only [if_true, and_addrMask, hframe]
    exact destroyed_branch hpre h hr (hchild _ r (branch_destroyPre hpre h hr))

theorem destroyTable_destroyed (hpre : DestroyPre (n + 1) w m p) :
    Destroyed (n + 1) w m p (destroyTable follow destroyChild w m (pageAddr p)) := by
  induction w with
  | zero => exact destroyed_start (n + 1) m p
  | succ w ih =>
    exact destroyed_entry hfollow hchild hpre (ih (hpre.mono (Nat.le_succ w)))

end

theorem destroyPd_destroyed (m : Machine) (p : ℕ) (hpre : DestroyPre 1 x86.fanout m p) :
    Destroyed 1 x86.fanout m p (destroyPd m (pageAddr p)) :=
  destroyTable_destroyed (fun e => by simp +contextual [presentUser]) destroyPt_destroyed hpre

theorem destroyPdpt_destroyed (m : Machine) (p : ℕ) (hpre : DestroyPre 2 x86.fanout m p) :
    Destroyed 2 x86.fanout m p (destroyPdpt m (pageAddr p)) :=
  destroyTable_destroyed (fun e => by simp +contextual [presentUser]) destroyPd_destroyed hpre

structure SpaceDestroyed (m : Machine) (p : ℕ) (m' : Machine) : Prop where
  ram : m'.ram = m.ram
  heap : m'.heap = m.heap
  layout : SameLayout m.pmm m'.pmm
  inUse : ∀ q, InUse m'.pmm q ↔ InUse m.pmm q ∧ q ∉ tables x86 m.ram 3 256 p ∧
    ¬ Released m 3 256 p q
  refcount : ∀ f, f ≠ 0 → f < maxPages → f ∉ tables x86 m.ram 3 256 p →
    (m'.pmm.pageRefcount f).toNat = (m.pmm.pageRefcount f).toNat - refs m.ram 3 256 p f

theorem vmmDestroyAddressSpace_destroyed (hpre : DestroyPre 3 256 m p) :
    SpaceDestroyed m p (vmmDestroyAddressSpace m (pageAddr p)) := by
  have hp := lt_of_lt_of_le hpre.tree.root.1 hpre.width
  have hp₀ : p ≠ 0 := by
    intro hz
    subst p
    exact hpre.nonzero root_mem_tables
  have h : Destroyed 3 256 m p (destroyTable present destroyPdpt 256 m (pageAddr p)) :=
    destroyTable_destroyed (fun e => by simp +contextual) destroyPdpt_destroyed hpre
  have hroot : InUse (destroyTable present destroyPdpt 256 m (pageAddr p)).pmm p := by
    refine (h.inUse p).mpr ⟨hpre.tree.root, fun _ => rfl, ?_⟩
    intro hrel
    obtain ⟨_, _, hpos, hle⟩ := hrel
    exact hpre.frames p (by omega) root_mem_tables
  obtain ⟨hlayout, huse, hnum⟩ := freePage_spec hp₀ (by omega) hroot
  have hne : pageAddr p ≠ 0 := pageAddr_ne_zero (by omega) (by omega)
  rw [vmmDestroyAddressSpace, if_neg hne]
  refine ⟨h.ram, h.heap, h.layout.trans hlayout, ?_, ?_⟩
  · intro q
    change InUse (pmmFreePage _ (pageAddr p)) q ↔ _
    rw [huse, h.inUse]
    constructor
    · intro hq
      obtain ⟨⟨hq, htabs, hkept⟩, hqp⟩ := hq
      exact ⟨hq, fun hmem => hqp (htabs hmem), hkept⟩
    · intro hq
      obtain ⟨hq, htabs, hkept⟩ := hq
      refine ⟨⟨hq, fun hmem => absurd hmem htabs, hkept⟩, ?_⟩
      intro heq
      subst q
      exact htabs root_mem_tables
  · intro f hf₀ hlt hout
    have hfp : f ≠ p := by
      intro heq
      subst f
      exact hout root_mem_tables
    change ((pmmFreePage _ (pageAddr p)).pageRefcount f).toNat = _
    rw [hnum f hfp]
    exact h.refcount f hf₀ hlt hout

end NexusKernel.Destruction
