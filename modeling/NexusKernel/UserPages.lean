import NexusKernel.CopyOnWrite
import NexusKernel.BootMemory
import NexusKernel.Lib.Runs

/-!
The life of user pages over whole runs: address spaces are created, filled, cloned, written to and
destroyed in any order, and any allocation may fail. The reference counts of mapped pages are
exact, which keeps the 16-bit counts from wrapping as long as no page has too many sharers.
-/

namespace NexusKernel.UserPages

open Bitmap BootMemory Lib.Runs Lib.TableTree Lib.Sharing PhysicalMemory
  PageAllocation PageEntries
open Hardware PageSupply Vmm Walks Destruction AddressSpaces CopyOnWrite

variable {m m' : Machine} {live : Finset ℕ} {resv : Set ℕ} {r z f : ℕ} {l : List ℕ} {write : Bool}

def ExactCounts (m : Machine) (live : Finset ℕ) : Prop :=
  Exact (slots live) (slotAt m) (fun f => (m.pmm.pageRefcount f).toNat) (· < maxPages)

theorem exact_of_eq (h : ExactCounts m live) (hram : m'.ram = m.ram) (hpmm : m'.pmm = m.pmm) :
    ExactCounts m' live := by
  apply h.mono
  · intro x _
    simp only [slotAt, leaf, hram]
  · intro a _ _
    rw [hpmm]

theorem exact_beside (h : ExactCounts m live) (hagree : ∀ r ∈ live, Agree x86 m.ram m'.ram 3 256 r)
    (hnum : ∀ f < maxPages, 0 < mappings m live f →
      m'.pmm.pageRefcount f = m.pmm.pageRefcount f) : ExactCounts m' live := by
  apply h.mono
  · intro x hx
    obtain ⟨hr, hl⟩ := mem_slots.mp hx
    rw [slotAt, slotAt, show leaf m' x.1 x.2 = leaf m x.1 x.2 from (hagree _ hr).leafAt_eq hl]
  · intro f hf hpos
    rw [hnum f hf hpos]

section

variable (hwf : Wf m live resv) (h : ExactCounts m live)
include hwf h

theorem exact_created (hc : Created m z m') : ExactCounts m' (insert z live) := by
  rw [ExactCounts, slots_insert]
  apply h.copy (slots_disjoint (hwf.not_live_of_free hc.free))
  · intro x hx
    obtain ⟨hr, hl⟩ := mem_slots.mp hx
    rw [slotAt, slotAt, hc.old_leaf hwf hr hl]
  · intro y hy a ha
    rw [target_of_blank hc.userHalf hy] at ha
    cases ha
  · intro a _ ha
    have hne : a ≠ z := by
      intro heq
      subst a
      exact hc.free.not_inUse (hwf.mapped ha).1
    rw [users_of_blank hc.userHalf, hc.refcount a hne]
    rfl

section

variable (hr : r ∈ live)
include hr

theorem exact_pageMapped (hl : l ∈ userPaths) (habs : present (leaf m r l) = false)
    (hmap : PageMapped m r l f write m') : ExactCounts m' live := by
  have hnum : ∀ a, 0 < mappings m live a → m'.pmm.pageRefcount a = m.pmm.pageRefcount a :=
    fun a ha => hmap.refcount a (hwf.mapped ha).1
  have hsame : ∀ y ∈ slots live, y ≠ (r, l) → slotAt m' y = slotAt m y := fun y hy hne =>
    congrArg slotOf (hwf.leaf_other hr hmap.elsewhere hmap.leaves hy hne)
  rcases hmap.mapped with hdone | ⟨_, hpre, hafter⟩
  · apply h.retarget (mem_slots.mpr ⟨hr, hl⟩) hsame (hmap.target hwf.sane hdone)
      (hwf.unmapped_of_free hmap.free)
    · intro hf
      rw [hmap.counted hf]
      rfl
    · intro a _ _ hpos
      have hnone : (slotAt m (r, l)).target ≠ some a := by
        intro htgt
        exact Bool.noConfusion (habs.symm.trans (slotOf_target.mp htgt).1)
      rw [hnum a hpos, users_singleton, if_neg hnone]
      rfl
  · apply h.mono
    · intro y hy
      by_cases hx : y = (r, l)
      · rw [hx, slotAt, slotAt, hpre, hafter]
      · rw [hsame y hy hx]
    · intro a _ hpos
      rw [hnum a hpos]

theorem exact_cloned
    (hc : SpaceCloned m r z m') (hroom : Room m live z m') : ExactCounts m' (insert z live) := by
  rw [ExactCounts, slots_insert]
  apply h.copy (slots_disjoint (hwf.not_live_of_free hc.free))
  · exact fun x hx => hc.old_target hwf hr hx
  · intro y hy a ha
    exact users_pos (mem_slots.mpr ⟨hr, (Finset.mem_product.mp hy).2⟩) (hc.new_target hy ha).1
  · intro a ha hpos
    rw [hc.refcount_toNat (hwf.mapped hpos).1 ha (hroom a ha hpos), refs_eq_users]

theorem exact_cow (hl : l ∈ userPaths) (hcow : CowOutcome m r l m') : ExactCounts m' live := by
  cases hcow with
  | absent => exact h
  | granted _ hpres _ _ hmap hpmm =>
    apply h.mono
    · intro x hx
      by_cases hxl : x = (r, l)
      · rw [hxl, slotAt, slotAt, hmap.done hpres, slotOf_withWrite]
      · rw [slotAt, slotAt, hwf.leaf_other hr hmap.elsewhere hmap.leaves hx hxl]
    · intro a _ _
      rw [hpmm]
  | refused _ _ href => exact exact_of_eq h href.ram href.pmm
  | copied m₁ f hpres _ hmap _ =>
    obtain ⟨hnew, hothers⟩ := copied_counts hwf hr hl hpres hmap
    apply h.retarget (mem_slots.mpr ⟨hr, hl⟩)
    · exact fun y hy hne => congrArg slotOf (hwf.leaf_other hr hmap.elsewhere hmap.leaves hy hne)
    · exact hmap.target hwf.sane (hmap.done hpres)
    · exact hwf.unmapped_of_free hmap.free
    · exact hnew
    · exact fun a ha _ hpos => hothers a ha hpos

theorem exact_destroyed (hd : SpaceDestroyed m r m') : ExactCounts m' (live.erase r) := by
  have hslot : slotAt m' = slotAt m := by
    funext x
    simp only [slotAt, leaf, hd.ram]
  rw [ExactCounts, hslot, slots_erase]
  apply h.drop (Finset.product_subset_product_left (Finset.singleton_subset_iff.mpr hr))
  intro a ha hpos
  rw [← slots_erase] at hpos
  have hmap : 0 < mappings m live a := by
    have := mappings_erase m hr a
    have hpos' : 0 < mappings m (live.erase r) a := hpos
    omega
  obtain ⟨_, hne, _, hout⟩ := hwf.mapped hmap
  rw [hd.refcount a hne ha (hout r hr), refs_eq_users]

end

end

structure System where
  machine : Machine
  live : Finset ℕ

def System.opened (s : System) (result : Machine × UInt64) : System where
  machine := result.1
  live := if result.2 = 0 then s.live else insert (pageOf result.2) s.live

/-- Which calls a run may contain: where `map_user_page` may map, and what may be cloned. -/
structure Policy where
  target : System → ℕ → UInt64 → Prop
  clone : System → ℕ → Prop

/-- The operations on user pages. A copy-on-write fault is in the loaded address space, in the
user half: only there are user leaves. -/
inductive Op (P : Policy) (s : System) : System → Prop where
  | cloneKernelSpace (ds : List Bool) :
      Op P s (s.opened (vmmCloneKernelSpace (denying s.machine ds)))
  | mapUserPage (ds : List Bool) (r : ℕ) (virt : UInt64) (write : Bool) (hr : r ∈ s.live)
      (hhalf : pml4Index virt < 256) (htgt : P.target s r virt) :
      Op P s ⟨mapUserPage (denying s.machine ds)
        (pageAddr r) virt (userFlags write), s.live⟩
  | cowClone (ds : List Bool) (r : ℕ) (hr : r ∈ s.live) (hclone : P.clone s r) :
      Op P s (s.opened (vmmCowClone (denying s.machine ds) (pageAddr r)))
  | cowHandleFault (ds : List Bool) (r : ℕ) (virt : UInt64) (hr : r ∈ s.live)
      (hcr3 : s.machine.cr3 = pageAddr r) (hhalf : pml4Index virt < 256) :
      Op P s ⟨cowHandleFault (denying s.machine ds) (pageAddr r) virt, s.live⟩
  | destroyAddressSpace (r : ℕ) (hr : r ∈ s.live) :
      Op P s ⟨vmmDestroyAddressSpace s.machine (pageAddr r), s.live.erase r⟩
  | writeCr3 (value : UInt64) : Op P s ⟨s.machine.writeCr3 value, s.live⟩

inductive Effect (P : Policy) (s : System) : System → Prop where
  | same (m' : Machine) (hram : m'.ram = s.machine.ram) (hpmm : m'.pmm = s.machine.pmm) :
      Effect P s ⟨m', s.live⟩
  | created (ds : List Bool) (z : ℕ) (m' : Machine)
      (hc : Created (denying s.machine ds) z m') : Effect P s ⟨m', insert z s.live⟩
  | mapped (ds : List Bool) (r : ℕ) (virt : UInt64) (write : Bool) (f : ℕ) (m' : Machine)
      (hr : r ∈ s.live) (hhalf : pml4Index virt < 256) (htgt : P.target s r virt)
      (hmap : PageMapped (denying s.machine ds) r (pathOf virt) f write m') :
      Effect P s ⟨m', s.live⟩
  | cloned (ds : List Bool) (r z : ℕ) (m' : Machine) (hr : r ∈ s.live) (hclone : P.clone s r)
      (hc : SpaceCloned (denying s.machine ds) r z m') : Effect P s ⟨m', insert z s.live⟩
  | cow (ds : List Bool) (r : ℕ) (virt : UInt64) (m' : Machine) (hr : r ∈ s.live)
      (hhalf : pml4Index virt < 256)
      (hcow : CowOutcome (denying s.machine ds) r (pathOf virt) m') :
      Effect P s ⟨m', s.live⟩
  | destroyed (r : ℕ) (m' : Machine) (hr : r ∈ s.live) (hd : SpaceDestroyed s.machine r m') :
      Effect P s ⟨m', s.live.erase r⟩

variable {P : Policy} {s s' : System} {result : Machine × UInt64}

theorem opened_refused (hz : result.2 = 0) : s.opened result = ⟨result.1, s.live⟩ := by
  simp [System.opened, hz]

theorem opened_new (haddr : result.2 = pageAddr z)
    (hne : pageAddr z ≠ 0) (hz : z < 2 ^ 40) : s.opened result = ⟨result.1, insert z s.live⟩ := by
  simp only [System.opened, haddr, hne, if_false, pageOf_pageAddr (show z < 2 ^ 52 by omega)]

theorem op_effect (h : Wf s.machine s.live resv) (hop : Op P s s') : Effect P s s' := by
  cases hop with
  | cloneKernelSpace ds =>
    have hsane := (h.deny ds).sane
    rcases vmmCloneKernelSpace_cases hsane with ⟨hz, href⟩ | ⟨z, haddr, hne, hmade⟩
    · rw [opened_refused hz]
      exact Effect.same _ href.ram href.pmm
    · rw [opened_new haddr hne (hsane.lt_of_isFree hmade.free)]
      exact Effect.created ds z _ hmade
  | mapUserPage ds r virt write hr hhalf htgt =>
    have hwf := h.deny ds
    rcases mapUserPage_cases hwf.sane (hwf.tree r hr) hhalf write with href | ⟨f, hmap⟩
    · exact Effect.same _ href.ram href.pmm
    · exact Effect.mapped ds r virt write f _ hr hhalf htgt hmap
  | cowClone ds r hr hclone =>
    have hwf := h.deny ds
    rcases vmmCowClone_cases hwf.sane (hwf.tree r hr) with
      ⟨hz, href⟩ | ⟨z, haddr, hne, hcloned⟩
    · rw [opened_refused hz]
      exact Effect.same _ href.ram href.pmm
    · rw [opened_new haddr hne (hwf.sane.lt_of_isFree hcloned.free)]
      exact Effect.cloned ds r z _ hr hclone hcloned
  | cowHandleFault ds r virt hr hcr3 hhalf =>
    have hwf := h.deny ds
    have hl := pathOf_mem hhalf
    refine Effect.cow ds r virt _ hr hhalf
      (cowHandleFault_cases hwf.sane (hwf.tree r hr) hcr3 hhalf (fun hpres => ?_))
    exact ⟨(hwf.leaves r hr _ hl hpres).2.2.1, (hwf.leaves r hr _ hl hpres).2.1⟩
  | destroyAddressSpace r hr =>
    exact Effect.destroyed r _ hr (vmmDestroyAddressSpace_destroyed (destroyPre h hr))
  | writeCr3 value => exact Effect.same _ rfl rfl

def CloneFits (P : Policy) (s s' : System) : Prop :=
  ∀ ds r z m', r ∈ s.live → P.clone s r → SpaceCloned (denying s.machine ds) r z m' →
    s' = ⟨m', insert z s.live⟩ → Room s.machine s.live z m'

/-- Every operation keeps the invariant, if clones have room. -/
theorem effect_wf (h : Wf s.machine s.live resv) (heff : Effect P s s')
    (hroom : CloneFits P s s') : Wf s'.machine s'.live resv := by
  cases heff with
  | same m' hram hpmm => exact h.of_eq hram hpmm
  | created ds z m' hc => exact (h.deny ds).created hc
  | mapped ds r virt write f m' hr hhalf _ hmap =>
    exact (h.deny ds).pageMapped hr (pathOf_mem hhalf) hmap
  | cloned ds r z m' hr hclone hc =>
    exact wf_cloned (h.deny ds) hr hc (hroom ds r z m' hr hclone hc rfl)
  | cow ds r virt m' hr hhalf hcow =>
    exact wf_cow (h.deny ds) hr (pathOf_mem hhalf) hcow
  | destroyed r m' hr hd => exact wf_destroyed h hr hd

/-- Counts stay exact when pages are mapped only where none is. -/
theorem effect_exact (hwf : Wf s.machine s.live resv) (h : ExactCounts s.machine s.live)
    (heff : Effect P s s')
    (htgt : ∀ r virt, P.target s r virt → present (leaf s.machine r (pathOf virt)) = false)
    (hroom : CloneFits P s s') : ExactCounts s'.machine s'.live := by
  have h' : ∀ ds, ExactCounts (denying s.machine ds) s.live :=
    fun _ => exact_of_eq h rfl rfl
  cases heff with
  | same m' hram hpmm => exact exact_of_eq h hram hpmm
  | created ds z m' hc => exact exact_created (hwf.deny ds) (h' ds) hc
  | mapped ds r virt write f m' hr hhalf hallowed hmap =>
    exact exact_pageMapped (hwf.deny ds) (h' ds) hr (pathOf_mem hhalf)
      (htgt r virt hallowed) hmap
  | cloned ds r z m' hr hclone hc =>
    exact exact_cloned (hwf.deny ds) (h' ds) hr hc (hroom ds r z m' hr hclone hc rfl)
  | cow ds r virt m' hr hhalf hcow =>
    exact exact_cow (hwf.deny ds) (h' ds) hr (pathOf_mem hhalf) hcow
  | destroyed r m' hr hd => exact exact_destroyed hwf h hr hd

/-- The mappings after a clone are the old ones and those of the clone. -/
theorem mappings_cloned (hwf : Wf m live resv) (hr : r ∈ live) (hc : SpaceCloned m r z m') (f : ℕ) :
    mappings m' (insert z live) f = mappings m live f + refs m'.ram 3 256 z f := by
  rw [mappings, slots_insert, users_union (slots_disjoint (hwf.not_live_of_free hc.free)),
    users_congr (fun x hx => hc.old_target hwf hr hx), refs_eq_users]
  rfl

/-- Memory without address spaces: all that is in use is the kernel's. -/
theorem start_wf (hsane : Sane s.machine) (hlive : s.live = ∅) :
    Wf s.machine s.live {q | InUse s.machine.pmm q} := by
  have hslots : slots s.live = ∅ := by
    rw [slots, hlive, Finset.empty_product]
  refine ⟨hsane, ?_, ?_, ?_, ?_, ?_, fun q hq => hsane.kept.inUse q hq, ?_⟩
  · simp [hlive]
  · simp [hlive]
  · simp [hlive]
  · simp [hlive]
  · intro q hq
    exact ⟨hq, by simp [hlive]⟩
  · rw [hslots]
    exact ⟨fun a _ => Nat.zero_le _, fun x hx => absurd hx (Finset.notMem_empty x)⟩

/-- Memory with a single address space, whose user half is empty. -/
theorem wf_of_blank (hs : Sane m) (hr : InUse m.pmm r) (hne : r ≠ 0)
    (hbitmap : ¬ StoresBitmap m.pmm r)
    (hblank : ∀ i < 256, m.ram r i = 0) : Wf m {r} {q | InUse m.pmm q ∧ q ≠ r} := by
  have htabs : userTables m r = {r} := tables_of_blank hblank
  have hleaf : ∀ l ∈ userPaths, leaf m r l = 0 := fun l hl => leafAt_of_blank hblank hl
  refine ⟨hs, ?_, ?_, ?_, ?_, ?_, ?_, ?_, ?_⟩
  · intro t ht
    obtain rfl := Finset.mem_singleton.mp ht
    refine ⟨proper_of_blank hblank, fun q hq => ?_⟩
    rw [Set.mem_singleton_iff.mp (htabs.subset hq)]
    exact hr
  · intro s hs t ht hst
    exact absurd ((Finset.mem_singleton.mp hs).trans (Finset.mem_singleton.mp ht).symm) hst
  · intro t ht
    rw [Finset.mem_singleton.mp ht, htabs]
    exact fun hz => hne (Set.mem_singleton_iff.mp hz).symm
  · intro t ht l hl hpres
    rw [Finset.mem_singleton.mp ht, hleaf l hl] at hpres
    cases hpres
  · intro q hq
    refine ⟨hq.1, fun t ht hmem => hq.2 ?_⟩
    rw [Finset.mem_singleton.mp ht, htabs] at hmem
    exact hmem
  · intro q hq
    refine ⟨hs.kept.inUse q hq, fun heq => hbitmap ?_⟩
    rwa [← heq]
  · intro a _
    exact (users_of_blank hblank a).trans_le (Nat.zero_le _)
  · intro x hx _ a ha
    rw [target_of_blank hblank hx] at ha
    cases ha

variable {m : Machine} {k : ℕ}

/-- A first address space can be made if a page is free. -/
theorem exists_first_space (P : Policy) (hs : Sane m) (hoom : m.oom = false)
    (h : Affords m (k + 1)) : ∃ z, Op P ⟨m, ∅⟩ ⟨(vmmCloneKernelSpace m).1, {z}⟩ ∧
      Created m z (vmmCloneKernelSpace m).1 ∧ Affords (vmmCloneKernelSpace m).1 k ∧
      (vmmCloneKernelSpace m).2 = pageAddr z := by
  have hself := denying_self h.denials hoom
  rcases vmmCloneKernelSpace_cases hs with ⟨_, href⟩ | ⟨z, haddr, hne, hmade⟩
  · exact absurd href h.not_refused
  · have hop := Op.cloneKernelSpace (P := P) (s := ⟨m, ∅⟩) []
    simp only [hself] at hop
    rw [opened_new haddr hne (hs.lt_of_isFree hmade.free)] at hop
    exact ⟨z, hop, hmade, h.of_spend hmade.granted hmade.budget, haddr⟩

theorem mappings_created {m m' : Machine} {z : ℕ} (hc : Created m z m') (f : ℕ) :
    mappings m' {z} f = 0 := by
  rw [mappings, show slots {z} = {z} ×ˢ userPaths from rfl, users_of_blank hc.userHalf]

/-- When one leaf changes, a page gets at most one mapping more. -/
theorem mappings_le_succ {x : ℕ × List ℕ} (hx : x ∈ slots live)
    (hother : ∀ y ∈ slots live, y ≠ x → leaf m' y.1 y.2 = leaf m y.1 y.2) (f : ℕ) :
    mappings m' live f ≤ mappings m live f + 1 := by
  have hmove := users_change hx (fun y hy hne => congrArg slotOf (hother y hy hne)) f
  rw [users_singleton, users_singleton] at hmove
  change users _ (slotAt m') f + _ = users _ (slotAt m) f + _ at hmove
  unfold mappings
  split_ifs at hmove <;> omega

/-- A page can be mapped in a first address space if five pages are free. -/
theorem exists_first_page (hs : Sane m) (hoom : m.oom = false)
    (h : Affords m (k + 5)) {virt : UInt64} (hvirt : pml4Index virt < 256) (write : Bool)
    (htgt : ∀ s r, present (leaf s.machine r (pathOf virt)) = false → P.target s r virt) :
    ∃ z f m₁ m', Op P ⟨m, ∅⟩ ⟨m₁, {z}⟩ ∧ (∀ g, mappings m₁ {z} g = 0) ∧
      Op P ⟨m₁, {z}⟩ ⟨m', {z}⟩ ∧ (∀ g < maxPages, mappings m' {z} g ≤ 1) ∧
      Wf m' {z} {q | InUse m.pmm q} ∧ IsFree m.pmm f ∧ f < 2 ^ 40 ∧
      leaf m' z (pathOf virt) = leafEntry (pageAddr f) (userFlags write) ∧ Affords m' k ∧
      m'.oom = false ∧ (vmmCloneKernelSpace m).2 = pageAddr z ∧
      m' = mapUserPage (vmmCloneKernelSpace m).1 (pageAddr z) virt (userFlags write) := by
  obtain ⟨z, hopen, hmade, haff, haddr⟩ := exists_first_space P hs hoom h
  generalize hm₁ : (vmmCloneKernelSpace m).1 = m₁ at *
  have hblank : ∀ i < 256, m₁.ram z i = x86.blank := hmade.userHalf
  have hz := Finset.mem_singleton_self z
  have hl := pathOf_mem hvirt
  have hwf : Wf m₁ {z} {q | InUse m.pmm q} := (start_wf (s := ⟨m, ∅⟩) hs rfl).created hmade
  have habs : present (leaf m₁ z (pathOf virt)) = false := by
    rw [leaf, leafAt_of_blank hblank hl]
    rfl
  have hoom₁ := hmade.oom.trans hoom
  have hself := denying_self haff.denials hoom₁
  have hmapOp := Op.mapUserPage [] z virt write hz hvirt (htgt ⟨m₁, {z}⟩ z habs)
  simp only [hself] at hmapOp
  obtain ⟨f, hmap, hdone, hk, hoom'⟩ :=
    mapUserPage_affords hwf.sane (hwf.tree z hz) hvirt write hoom₁ haff
  have hwf' := hwf.pageMapped hz hl hmap
  refine ⟨z, f, m₁, _, hopen, mappings_created hmade, hmapOp, ?_, hwf',
    hmade.grows.isFree hmap.free, hwf.sane.lt_of_isFree hmap.free, hdone, hk, hoom', haddr, rfl⟩
  intro g _
  have hfew := mappings_le_succ (mem_slots.mpr ⟨hz, hl⟩)
    (fun y hy hne => hwf.leaf_other hz hmap.elsewhere hmap.leaves hy hne) g
  rwa [mappings_created hmade] at hfew

def unmappedOnly : Policy where
  target := fun s r virt => present (leaf s.machine r (pathOf virt)) = false
  clone := fun _ _ => True

/-- An operation after which no page has 65535 or more sharers. -/
structure Step (s s' : System) : Prop where
  op : Op unmappedOnly s s'
  bounded : ∀ f, f < maxPages → mappings s'.machine s'.live f < 65535

structure Safe (s : System) (resv : Set ℕ) : Prop where
  wf : Wf s.machine s.live resv
  exactCounts : ExactCounts s.machine s.live

theorem step_safe (h : Safe s resv) (hstep : Step s s') : Safe s' resv := by
  have heff := op_effect h.wf hstep.op
  -- An exact count that fits before and after a clone does not wrap around.
  have hroom : CloneFits unmappedOnly s s' := by
    intro ds r z m' hr _ hc hs' f hmax hpos
    have hwf := h.wf.deny ds
    have hfit := hstep.bounded f hmax
    have hsum := mappings_cloned hwf hr hc f
    have hnum : (s.machine.pmm.pageRefcount f).toNat = mappings s.machine s.live f :=
      h.exactCounts f hmax hpos
    have hdenied : mappings (denying s.machine ds) s.live f =
      mappings s.machine s.live f := rfl
    rw [hs'] at hfit
    rw [hnum, ← hdenied, ← hsum]
    exact hfit.trans (by omega)
  exact ⟨effect_wf h.wf heff hroom, effect_exact h.wf h.exactCounts heff
    (fun _ _ habs => habs) hroom⟩

theorem start_safe (hsane : Sane s.machine) (hlive : s.live = ∅) :
    Safe s {q | InUse s.machine.pmm q} := by
  refine ⟨start_wf hsane hlive, ?_⟩
  rw [hlive]
  intro a _ hpos
  exact absurd hpos (Nat.lt_irrefl 0)

theorem run_safe {s₀ s : System} (hsane : Sane s₀.machine) (hlive : s₀.live = ∅)
    (hrun : Reachable Step s₀ s) : Safe s {q | InUse s₀.machine.pmm q} :=
  hrun.invariant (fun s => Safe s {q | InUse s₀.machine.pmm q})
    (fun _ _ hsafe hstep => step_safe hsafe hstep) (start_safe hsane hlive)

/-- Reference counts never fall below the number of mappings, mapped pages stay
allocated, and a writable page has a single mapping, in every state reachable
from a memory without address spaces. -/
theorem no_use_after_free {s₀ s : System} (hsane : Sane s₀.machine) (hlive : s₀.live = ∅)
    (hrun : Reachable Step s₀ s) : (∀ f, f < maxPages →
      mappings s.machine s.live f ≤ (s.machine.pmm.pageRefcount f).toNat ∧
        (0 < mappings s.machine s.live f → bitmapTest s.machine.pmm.bitmap f = true)) ∧
    ∀ r ∈ s.live, ∀ l ∈ userPaths, present (leaf s.machine r l) = true →
      writable (leaf s.machine r l) = true →
      ∀ t ∈ s.live, ∀ k ∈ userPaths, present (leaf s.machine t k) = true →
        frame (leaf s.machine t k) = frame (leaf s.machine r l) → t = r ∧ k = l := by
  have hwf := (run_safe hsane hlive hrun).wf
  constructor
  · intro f hf
    exact ⟨hwf.shared.counted f hf, fun hpos => (hwf.mapped hpos).1.2⟩
  · intro r hr l hl hpres hwrite t ht k hk hpres' hframe
    apply Prod.mk.inj
    by_contra hne
    exact hwf.frame_ne hr hl hpres hwrite ht hk hpres' hne hframe

def smallMachine : Machine where
  ram := fun _ _ => 0
  pmm := smallBoot
  cr3 := 0
  heap := ⟨[], 0, 0, 0, []⟩
  denials := []
  oom := false

theorem sane_of_booted {memmap : List MemmapEntry} (h : Booted memmap m.pmm)
    (hpos : 0 < m.pmm.maxPageIndex.toNat) (hwidth : m.pmm.maxPageIndex.toNat ≤ 2 ^ 40) : Sane m :=
  ⟨h.kept, ⟨hpos, h.pageZero⟩, hwidth⟩

theorem smallMachine_sane : Sane smallMachine := by
  obtain ⟨s₀, hinit, hbooted⟩ := pmmInit_booted smallMap_usable fun _ => 0
  obtain rfl : smallBoot = s₀ := Option.some.inj ((Option.some_get _).trans hinit)
  exact sane_of_booted hbooted (by decide) (by decide)

def pagedMachine : Machine :=
  mapUserPage (vmmCloneKernelSpace smallMachine).1 (pageAddr 2) 0 (userFlags true)

/-- On the small machine a writable page can be mapped. -/
theorem paged_ops (htgt : ∀ s r, present (leaf s.machine r (pathOf 0)) = false → P.target s r 0) :
    ∃ m₁, Op P ⟨smallMachine, ∅⟩ ⟨m₁, {2}⟩ ∧ (∀ f, mappings m₁ {2} f = 0) ∧
      Op P ⟨m₁, {2}⟩ ⟨pagedMachine, {2}⟩ ∧ (∀ f < maxPages, mappings pagedMachine {2} f ≤ 1) ∧
      present (leaf pagedMachine 2 (pathOf 0)) = true ∧
      writable (leaf pagedMachine 2 (pathOf 0)) = true := by
  obtain ⟨r, f, m₁, m, hopen, hnone, hmap, hfew, hwf, -, -, hleaf, -, -, haddr, rfl⟩ :=
    exists_first_page (k := 0) smallMachine_sane rfl ⟨rfl, by decide +kernel⟩
      (show pml4Index 0 < 256 by decide) true htgt
  have hr := hwf.sane.lt_of_inUse (hwf.tree r (Finset.mem_singleton_self r)).root
  have htwo : (vmmCloneKernelSpace smallMachine).2 = pageAddr 2 := by decide +kernel
  have hroot := congrArg pageOf (haddr.symm.trans htwo)
  rw [pageOf_pageAddr (by omega), pageOf_pageAddr (by decide)] at hroot
  obtain rfl := hroot
  obtain ⟨hpres, hwrite, _⟩ := PageEntries.leafEntry_spec (pageAddr f) true
  rw [← hleaf] at hpres hwrite
  exact ⟨m₁, hopen, hnone, hmap, hfew, hpres, hwrite⟩

theorem paged_reached : Reachable Step ⟨smallMachine, ∅⟩ ⟨pagedMachine, {2}⟩ := by
  obtain ⟨m₁, hopen, hnone, hmap, hfew, -⟩ := paged_ops (P := unmappedOnly) fun _ _ h => h
  have hstep : Step ⟨smallMachine, ∅⟩ ⟨m₁, {2}⟩ := ⟨hopen, fun f _ => (hnone f).trans_lt (by omega)⟩
  exact .tail (.single hstep) ⟨hmap, fun f hf => (hfew f hf).trans_lt (by omega)⟩

theorem no_use_after_free_smallMachine :
    ∃ (s : System) (r : ℕ), Reachable Step ⟨smallMachine, ∅⟩ s ∧ r ∈ s.live ∧
    writable (leaf s.machine r (pathOf 0)) = true ∧ ∀ f, f < maxPages →
      mappings s.machine s.live f ≤ (s.machine.pmm.pageRefcount f).toNat := by
  obtain ⟨-, -, -, -, -, -, hwrite⟩ := paged_ops (P := unmappedOnly) fun _ _ h => h
  exact ⟨⟨pagedMachine, {2}⟩, 2, paged_reached, Finset.mem_singleton_self 2, hwrite,
    fun f hf => ((no_use_after_free smallMachine_sane rfl paged_reached).1 f hf).1⟩

end NexusKernel.UserPages
