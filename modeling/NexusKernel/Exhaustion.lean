import NexusKernel.RunningProcess
import NexusKernel.CopyOnWrite

/-!
Where no allocation is denied, one fails only when no page is free, and from then on none is free
as long as nothing is given back. So an operation that ended with a page to spare had all it asked
for.
-/

namespace NexusKernel.Exhaustion

open Lib.Loops PhysicalMemory PageAllocation Hardware PageSupply Vmm
open KernelHeap HeapGrowth

structure Undenied (m : Machine) : Prop where
  sane : Sane m
  denials : m.denials = []
  dry : m.oom = true → (budget m).free = 0

variable {m m' : Machine}

section

variable (h : Undenied m)
include h

theorem Undenied.congr (hbitmap : m'.pmm.bitmap = m.pmm.bitmap)
    (haddr : m'.pmm.bitmapAddr = m.pmm.bitmapAddr)
    (hmax : m'.pmm.maxPageIndex = m.pmm.maxPageIndex) (hden : m'.denials = m.denials)
    (hoom : m'.oom = m.oom) : Undenied m' := by
  have huse : ∀ q, InUse m'.pmm q ↔ InUse m.pmm q := by
    intro q
    simp only [InUse, hbitmap, hmax]
  refine ⟨h.sane.keeps haddr hmax ((huse 0).mpr h.sane.zero) ?_, hden.trans h.denials, ?_⟩
  · exact fun q hq => (huse q).mpr (h.sane.kept.inUse q hq)
  · rw [hoom]
    simpa only [budget, hbitmap, hmax] using h.dry

theorem Undenied.alloc : Undenied m.pmmAllocPage.1 := by
  rcases pmmAllocPage_cases h.sane with ⟨_, href⟩ | ⟨q, _, _, hnew⟩
  · have hfree := href.free_eq_zero h.denials
    have hspend := href.budget
    simp only [Budget.spend, href.denied, Bool.false_eq_true, if_false] at hspend
    refine ⟨h.sane.grows href.grows, ?_, fun _ => ?_⟩
    · have htail := congrArg Budget.denials hspend
      rw [show (budget m).denials = [] from h.denials] at htail
      exact htail
    · rw [congrArg Budget.free hspend]
      exact hfree
  · obtain ⟨hfree, htail⟩ := Budget.free_of_granted hnew.granted hnew.budget
    refine ⟨h.sane.grows hnew.grows, ?_, fun hoom => ?_⟩
    · rw [show (budget m).denials = [] from h.denials] at htail
      exact htail
    · rw [hnew.oom] at hoom
      have hnone := h.dry hoom
      omega

theorem Undenied.setEntry (table : UInt64) (i : ℕ) (e : UInt64) : Undenied (m.setEntry table i e) :=
  h.congr rfl rfl rfl rfl rfl

theorem Undenied.withHeap (heap : HeapState) : Undenied { m with heap := heap } :=
  h.congr rfl rfl rfl rfl rfl

theorem Undenied.pageRef (phys : UInt64) : Undenied (m.pmmPageRef phys) := by
  unfold Machine.pmmPageRef pmmPageRef
  dsimp only
  split
  · exact h
  · exact h.congr rfl rfl rfl rfl rfl

theorem Undenied.kmalloc (size : UInt64) : Undenied (kmalloc m size).1 :=
  kmalloc_invariant (fun _ ht => ht.alloc) (fun _ _ ht => ht.congr rfl rfl rfl rfl rfl)
    (fun _ heap ht => ht.withHeap heap) h size

theorem Undenied.cloneKernelSpace : Undenied (vmmCloneKernelSpace m).1 := by
  unfold vmmCloneKernelSpace
  dsimp only
  split
  · exact h.alloc
  · exact forUpTo_invariant (fun _ => Undenied) h.alloc fun _ _ _ ht => ht.setEntry _ _ _

theorem Undenied.clonePt (oldPt newPt : UInt64) : Undenied (vmmClonePt m oldPt newPt) := by
  apply forUpTo_invariant (fun _ => Undenied) h
  intro i m₁ _ h₁
  unfold clonePte
  dsimp only
  split
  · split
    · exact ((h₁.setEntry _ _ _).setEntry _ _ _).pageRef _
    · split
      · exact (h₁.setEntry _ _ _).pageRef _
      · exact h₁.setEntry _ _ _
  · exact h₁

end

theorem Undenied.cloneTable {cloneChild : Machine → UInt64 → UInt64 → Machine}
    (hchild : ∀ m a b, Undenied m → Undenied (cloneChild m a b)) (h : Undenied m) (width : ℕ)
    (oldTable newTable : UInt64) : Undenied (cloneTable cloneChild width m oldTable newTable) := by
  apply forUpTo_invariant (fun _ => Undenied) h
  intro i m₁ _ h₁
  unfold cloneEntry
  split
  · dsimp only
    split
    · exact h₁.alloc
    · exact (hchild _ _ _ h₁.alloc).setEntry _ _ _
  · exact h₁

theorem Undenied.cowClone (h : Undenied m) (parentCr3 : UInt64) :
    Undenied (vmmCowClone m parentCr3).1 := by
  have hpd : ∀ m a b, Undenied m → Undenied (vmmClonePd m a b) := fun _ a b hm =>
    Undenied.cloneTable (fun _ a b hm => hm.clonePt a b) hm 512 a b
  have hpdpt : ∀ m a b, Undenied m → Undenied (vmmClonePdpt m a b) := fun _ a b hm =>
    Undenied.cloneTable hpd hm 512 a b
  unfold vmmCowClone
  dsimp only
  split
  · exact h.cloneKernelSpace
  · exact Undenied.cloneTable hpdpt h.cloneKernelSpace 256 _ _

end NexusKernel.Exhaustion
