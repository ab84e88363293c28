import NexusKernel.Mapping

/-!
The page tables as a map from virtual to physical pages. `vmm_map_page` and `vmm_unmap_page`
change the value at one page only and keep the tree of tables well formed.
-/

namespace NexusKernel.PageMap

open Lib.TableTree PageAllocation PageEntries Hardware PageSupply Vmm Walks Mapping

variable {m m' : Machine} {w : ℕ} {e : UInt64}

def NotHuge (e : UInt64) : Prop := huge e = false

theorem notHuge_table : TableGood NotHuge := fun _ hq => huge_tableEntry hq

/-- The tree behind CR3 has no large page, and no table is used twice or free. -/
abbrev Space (m : Machine) : Prop := TreeIn NotHuge m 3 512 (frame m.cr3)

variable {virt : UInt64}

/-- What `vmm_get_phys` answers is the leaf of the address. -/
theorem vmmGetPhys_congr (hcr3 : m'.cr3 = m.cr3)
    (hleaf : leaf m' (frame m.cr3) (pathOf virt) = leaf m (frame m.cr3) (pathOf virt)) :
    vmmGetPhys m' virt = vmmGetPhys m virt := by
  rw [vmmGetPhys_eq, vmmGetPhys_eq, hcr3, hleaf]

theorem vmmGetPhys_leafEntry {virt phys flags : UInt64} (hpresent : flags &&& pagePresent ≠ 0)
    (hflags : flags &&& addrMask = 0) (hleaf : leaf m (frame m.cr3) (pathOf virt) =
      leafEntry phys flags) : vmmGetPhys m virt = (phys &&& addrMask) ||| (virt &&& 0xFFF) := by
  have hpres : present (leafEntry phys flags) = true := by
    rw [present_leafEntry]
    exact bne_iff_ne.mpr hpresent
  have hframe : leafEntry phys flags &&& addrMask = phys &&& addrMask := by
    rw [leafEntry, or_addrMask (addrMask_idem phys) hflags]
  rw [vmmGetPhys_eq, hleaf, if_pos hpres, hframe]

theorem vmmGetPhys_blank (hleaf : leaf m (frame m.cr3) (pathOf virt) = 0) :
    vmmGetPhys m virt = 0 := by
  rw [vmmGetPhys_eq, hleaf]
  rfl

/-- Both functions are an attempt to set the leaf of the address. -/
theorem vmmMapPage_mapped (hs : Sane m) (htree : Space m) (virt phys flags : UInt64) :
    MappedOf x86 NotHuge 3 512 m (frame m.cr3) (pathOf virt) (leafEntry phys flags)
      (vmmMapPage m virt phys flags) := by
  rw [vmmMapPage_eq, Machine.currentPml4, and_addrMask]
  exact mapAt_mappedOf reads_x86 notHuge_table _ hs htree
    (pathOf_mem_paths rfl (pml4Index_lt virt)) (unblocked_refl _)

theorem vmmUnmapPage_cases (hs : Sane m) (htree : Space m) (virt : UInt64) :
    (leaf m (frame m.cr3) (pathOf virt) = 0 ∧ vmmUnmapPage m virt = m) ∨
      MappedOf x86 NotHuge 3 512 m (frame m.cr3) (pathOf virt) 0 (vmmUnmapPage m virt) := by
  cases hpt : vmmFindPt m virt with
  | none =>
    left
    rw [leaf_pathOf, vmmUnmapPage, hpt]
    exact ⟨rfl, rfl⟩
  | some pt =>
    right
    rw [vmmUnmapPage_eq hpt, Machine.currentPml4, and_addrMask]
    exact mapAt_mappedOf reads_x86 notHuge_table 0 hs htree
      (pathOf_mem_paths rfl (pml4Index_lt virt)) (unblocked_refl _)

structure Frame (m : Machine) (virt : UInt64) (m' : Machine) : Prop where
  space : Space m'
  other : ∀ w, pageNumber w ≠ pageNumber virt → vmmGetPhys m' w = vmmGetPhys m w

theorem frame_of_mapped (htree : Space m)
    (h : MappedOf x86 NotHuge 3 512 m (frame m.cr3) (pathOf virt) e m') : Frame m virt m' := by
  refine ⟨?_, fun w hw => ?_⟩
  · rw [Space, h.grows.cr3]
    exact h.treeOf htree
  · exact vmmGetPhys_congr h.grows.cr3 (h.leaves _ (pathOf_mem_paths rfl (pml4Index_lt w))
      (fun heq => hw (pathOf_eq_iff.mp heq)))

/-- Mapping makes the page translate to the frame if no table was refused, unmapping to nothing,
and neither touches another page or spoils the tree. -/
theorem page_tables_implement_map (hs : Sane m) (htree : Space m) (virt phys flags : UInt64)
    (hpresent : flags &&& pagePresent ≠ 0) (hflags : flags &&& addrMask = 0) :
    Frame m virt (vmmMapPage m virt phys flags) ∧
      ((vmmMapPage m virt phys flags).oom = false → ∀ w, pageNumber w = pageNumber virt →
        vmmGetPhys (vmmMapPage m virt phys flags) w = (phys &&& addrMask) ||| (w &&& 0xFFF)) ∧
      Frame m virt (vmmUnmapPage m virt) ∧
      ∀ w, pageNumber w = pageNumber virt → vmmGetPhys (vmmUnmapPage m virt) w = 0 := by
  have hmap := vmmMapPage_mapped hs htree virt phys flags
  refine ⟨frame_of_mapped htree hmap, fun hoom w hw => ?_, ?_, fun w hw => ?_⟩
  · have hleaf := hmap.mapped.resolve_right (fun hfailed => by simp [hoom] at hfailed)
    apply vmmGetPhys_leafEntry hpresent hflags
    rw [hmap.grows.cr3, pathOf_eq_iff.mpr hw]
    exact hleaf
  · rcases vmmUnmapPage_cases hs htree virt with ⟨_, heq⟩ | hunmap
    · rw [heq]
      exact ⟨htree, fun _ _ => rfl⟩
    · exact frame_of_mapped htree hunmap
  · apply vmmGetPhys_blank
    rcases vmmUnmapPage_cases hs htree virt with ⟨hz, heq⟩ | hunmap
    · rw [heq, pathOf_eq_iff.mpr hw]
      exact hz
    · rw [hunmap.grows.cr3, pathOf_eq_iff.mpr hw]
      exact hunmap.mapped.elim id fun hfailed => hfailed.2.2

theorem vmmMapPage_oom (hs : Sane m) (h : Affords m 3) (virt phys flags : UInt64) :
    (vmmMapPage m virt phys flags).oom = m.oom := by
  have htabs : Affords m ([pdptIndex virt, pdIndex virt, ptIndex virt].length + 0) := h
  exact (mapAt_affords (leafEntry phys flags) (pml4Index virt) hs m.currentPml4 htabs).2.1

def blankMachine : Machine where
  ram := fun _ _ => 0
  pmm := {
    bitmap := Bitmap.fullBytes 64
    bitmapAddr := 0x1000
    maxPageIndex := 1024
    usablePages := 1024
    usedPages := 512
    pageRefcount := fun _ => 0
    maxPageIndex_lt := by decide }
  cr3 := 0xC8000
  heap := ⟨[], 0, 0, 0, []⟩
  denials := []
  oom := false

theorem blankMachine_sane : Sane blankMachine :=
  sane_of_fullBytes rfl (by decide) (by decide) (by decide) (by decide) (by decide)

theorem blankMachine_space : Space blankMachine := by
  have hroot : InUse blankMachine.pmm 200 :=
    ⟨by decide, (Bitmap.test_fullBytes 64 200).trans (by decide)⟩
  refine ⟨proper_of_blank (fun _ _ => rfl), fun q hq => ?_⟩
  rw [tables_of_blank (fun _ _ => rfl)] at hq
  rw [Set.mem_singleton_iff.mp hq]
  exact hroot

theorem page_tables_implement_map_blank :
    vmmGetPhys (vmmMapPage blankMachine 0x400000 0x300000 3) 0x400123 = 0x300123 := by
  have haff : Affords blankMachine 3 := (affords_of_fullBytes rfl rfl).mono (by decide)
  have hoom : (vmmMapPage blankMachine 0x400000 0x300000 3).oom = false :=
    vmmMapPage_oom blankMachine_sane haff 0x400000 0x300000 3
  exact (page_tables_implement_map blankMachine_sane blankMachine_space 0x400000 0x300000 3
    (by decide) (by decide)).2.1 hoom 0x400123 (by decide)

end NexusKernel.PageMap
