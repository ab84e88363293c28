import NexusKernel.ForkValidity
import NexusKernel.KernelIsolation
import NexusKernel.SegmentLoading

/-!
Segments without `PF_W`. `elf_load` and the handler map their pages without `PAGE_WRITABLE`. But
to the handler any page that is present and not writable is a copy-on-write page, and a write
makes it writable. What is proved is over runs of the loaded process, of its children and of any
others beside them.
-/

namespace NexusKernel.ReadOnlySegments

open Lib.TableTree Lib.Runs PhysicalMemory PageAllocation PageEntries Hardware
  PageSupply Vmm
open Walks Cloning AddressSpaces CopyOnWrite KernelHeap KernelTables HeapGrowth Processes
open Lib.Loops RunningProcess FirstProcess UserAccess ElfLoader KernelIsolation ForkValidity
open SegmentLoading (Ready)

def covers (p : ElfPhdr) (l : List ℕ) : Prop := ∃ j < p.numPages.toNat, pathOf (p.pageVirt j) = l

/-- The page belongs to segments, and none of them is writable. -/
structure ReadOnly (image : Image) (l : List ℕ) : Prop where
  covered : ∃ p ∈ image.segments, covers p l
  only : ∀ p ∈ image.segments, covers p l → p.writes = false

def Below (image : Image) : Prop :=
  ∀ p ∈ image.segments, ∀ j < p.numPages.toNat, pml4Index (p.pageVirt j) < 256

def Protected (image : Image) (m : Machine) (family : Finset ℕ) : Prop :=
  ∀ r ∈ family, ∀ l, ReadOnly image l → permission (leaf m r l) ≠ some true

variable {m m' : Machine} {live family : Finset ℕ} {resv K : Set ℕ} {r t z : ℕ} {l : List ℕ}
variable {image : Image} {proc : Process} {virt : UInt64} {write : Bool}

theorem ReadOnly.mem (h : ReadOnly image l) (hbelow : Below image) : l ∈ userPaths := by
  obtain ⟨p, hp, j, hj, rfl⟩ := h.covered
  exact pathOf_mem (hbelow p hp j hj)

theorem pml4Index_of_mem (h : pathOf virt ∈ userPaths) : pml4Index virt < 256 := by
  obtain ⟨i, s, hi, _, heq⟩ := mem_paths_succ.mp h
  obtain ⟨rfl, _⟩ := List.cons.inj heq
  exact hi

theorem Protected.congr (h : Protected image m family) (hbelow : Below image)
    (hleaf : ∀ r ∈ family, ∀ l ∈ userPaths, leaf m' r l = leaf m r l) :
    Protected image m' family := by
  intro r hr l hl
  rw [hleaf r hr l (hl.mem hbelow)]
  exact h r hr l hl

structure Loading (image : Image) (live : Finset ℕ) (r n : ℕ) (m : Machine)
    (resv K : Set ℕ) : Prop where
  wf : Wf m live resv
  ready : HeapReady K r m
  tables : K ⊆ resv
  room : HeapRoom m (4 * n)
  kept : Protected image m {r}

theorem Loading.state {n : ℕ} (h : Loading image live r n m resv K) : Ready live r n m resv K :=
  ⟨h.wf, h.ready, h.tables, h.room⟩

section

variable {n : ℕ} (hr : r ∈ live) (hbelow : Below image)
include hr hbelow

theorem Loading.record (h : Loading image live r (n + 1) m resv K) :
    ∃ resv K, Loading image live r n (kmalloc m 32).1 resv K := by
  obtain ⟨⟨resv', K', hstate⟩, _, hsame⟩ := h.state.record hr
  refine ⟨resv', K', hstate.wf, hstate.heap, hstate.tables, hstate.room, h.kept.congr hbelow ?_⟩
  intro t ht l hl
  rw [Finset.mem_singleton.mp ht]
  exact (hsame l hl).leaf

theorem Loading.page {j : ℕ} {p : ElfPhdr} (h : Loading image live r n m resv K)
    (hp : p ∈ image.segments)
    (hj : j < p.filePages.toNat) : Loading image live r n (loadPage image.file p j m).1 resv K := by
  have hj' := hj.trans_le (filePages_le p)
  have hhalf := hbelow p hp j hj'
  have hl := pathOf_mem hhalf
  rcases loadPage_cases h.wf.sane (h.wf.tree r hr) h.ready.cr3 image.file p j hhalf with
    href | ⟨f, hmap⟩
  · have hstate := h.state.refused hr href
    refine ⟨hstate.wf, hstate.heap, hstate.tables, hstate.room,
      h.kept.congr hbelow (fun t _ l _ => ?_)⟩
    simp only [leaf, href.ram]
  · have hstate := h.state.mapped hr hl hmap
    refine ⟨hstate.wf, hstate.heap, hstate.tables, hstate.room, ?_⟩
    intro t ht k hk
    rw [Finset.mem_singleton.mp ht]
    by_cases hkl : k = pathOf (p.pageVirt j)
    · subst k
      have hw : p.writes = false := hk.only p hp ⟨j, hj', rfl⟩
      rcases hmap.mapped with hdone | ⟨_, _, hz⟩
      · rw [hdone, permission_leafEntry, hw]
        simp
      · rw [hz]
        exact nofun
    · rw [hmap.leaves k (hk.mem hbelow) hkl]
      exact h.kept r (Finset.mem_singleton_self r) k hk

theorem elfLoad_protected (h : Wf m live resv) (hproc : proc.cr3 = pageAddr r) (hK : K ⊆ resv)
    (hwalk : HeapWalk K m.ram r) (hroom : HeapRoom m (4 * image.segments.length))
    (hst : Protected image m {r}) (ds : List Bool) :
    (∃ resv, Wf (elfLoad (denying m ds) proc image).1 live resv) ∧
      Protected image (elfLoad (denying m ds) proc image).1 {r} := by
  have hwf : Wf ((denying m ds).writeCr3 proc.cr3) live resv := h.of_eq rfl rfl
  have hload : ∃ resv K, Loading image live r image.segments.length
      ((denying m ds).writeCr3 proc.cr3) resv K :=
    ⟨resv, K, hwf, heapReady_of_wf hwf hr hproc hK hwalk, hK, ⟨hroom.start, hroom.fits⟩, hst⟩
  obtain ⟨n, t, ⟨resv', K', hend⟩, heq⟩ := elfLoad_invariant
    (fun n m => ∃ resv K, Loading image live r n m resv K)
    (fun n m ⟨_, _, ht⟩ => ht.record hr hbelow)
    (fun n m p j hp hj ⟨resv, K, ht⟩ => ⟨resv, K, ht.page hr hbelow hp hj⟩) hload
  rw [heq]
  exact ⟨⟨resv', hend.wf.of_eq rfl rfl⟩, hend.kept⟩

end

structure State where
  machine : Machine
  live : Finset ℕ
  family : Finset ℕ

inductive Event where
  | fault (r : ℕ) (proc : Process) (virt : UInt64) (write : Bool)
  | fork (r : ℕ)
  | switch (r : ℕ)

def State.forked (s : State) (r : ℕ) (result : Machine × UInt64) : State :=
  if result.2 = 0 then { s with machine := result.1 }
  else
    { machine := result.1
      live := insert (pageOf result.2) s.live
      family := if r ∈ s.family then insert (pageOf result.2) s.family else s.family }

def State.after (s : State) (ds : List Bool) : Event → State
  | .fault _ proc virt write =>
      { s with machine := (fault (denying s.machine ds) proc virt write).1 }
  | .fork r => s.forked r (vmmCowClone (denying s.machine ds) (pageAddr r))
  | .switch r => { s with machine := s.machine.writeCr3 (pageAddr r) }

/-- A process runs and faults where its access is refused. -/
structure Faults (m : Machine) (r : ℕ) (proc : Process) (virt : UInt64) (write : Bool) : Prop where
  cr3 : m.cr3 = pageAddr r
  proc : proc.cr3 = pageAddr r
  refused : userTranslate m virt write = none

def Possible (s : State) : Event → Prop
  | .fault r proc virt write => r ∈ s.live ∧ Faults s.machine r proc virt write
  | .fork r => r ∈ s.live
  | .switch r => r ∈ s.live

/-- No page becomes writable by a fault at this address: a page that is there is shared and cannot
be copied; for one that is not, the stack, the region or the heap gives no right to write, or
there is no memory to map it. -/
def Withheld (m : Machine) (r : ℕ) (proc : Process) (virt : UInt64) : Prop :=
  if present (leaf m r (pathOf virt)) then grantsWrite m (leaf m r (pathOf virt)) = false
  else absentPlan proc virt = .map true → (budget m).free ≤ missing x86 m.ram r (pathOf virt)

def Guarded (image : Image) (s : State) : Event → Prop
  | .fault r proc virt write =>
      Isolating ⟨s.machine, proc⟩ (.fault virt write) ∧
        (r ∈ s.family → ReadOnly image (pathOf virt) → Withheld s.machine r proc virt)
  | .fork r => ∀ f, f < maxPages → 0 < mappings s.machine s.live f →
      (s.machine.pmm.pageRefcount f).toNat + refs s.machine.ram 3 256 r f < 65536
  | .switch _ => True

def Step (image : Image) (s s' : State) : Prop :=
  ∃ ds e, Possible s e ∧ Guarded image s e ∧ s' = s.after ds e

structure Inv (image : Image) (resv : Set ℕ) (s : State) : Prop where
  wf : Wf s.machine s.live resv
  family : s.family ⊆ s.live
  kept : Protected image s.machine s.family

/-- An access is refused because the page is not writable, or not there. -/
theorem Faults.cases (hf : Faults m r proc virt write) (h : Wf m live resv) (hr : r ∈ live)
    (hhalf : pml4Index virt < 256) :
    (present (leaf m r (pathOf virt)) = true ∧ writable (leaf m r (pathOf virt)) = false ∧
      faultPlan m proc virt write = .cow) ∨
    (present (leaf m r (pathOf virt)) = false ∧ faultPlan m proc virt write =
      absentPlan proc virt) := by
  have hroot : frame m.cr3 = r := by
    rw [hf.cr3, frame_pageAddr (h.sane.lt_of_inUse (h.tree r hr).root)]
  have htrans := userTranslate_eq h hr hf.cr3 hhalf write
  rw [hf.refused] at htrans
  cases hpres : present (leaf m r (pathOf virt)) with
  | false => exact .inr ⟨rfl, faultPlan_absent hroot hpres proc write⟩
  | true =>
    obtain ⟨huser, _⟩ := h.leaves r hr _ (pathOf_mem hhalf) hpres
    have hperm : permits write (leaf m r (pathOf virt)) = false := by
      by_contra hyes
      rw [if_pos (by simpa using hyes)] at htrans
      cases htrans
    have hreadOnly : write = true ∧ writable (leaf m r (pathOf virt)) = false := by
      simpa [permits, hpres, huser, imp_iff_not_or] using hperm
    refine .inl ⟨rfl, hreadOnly.2, ?_⟩
    simp [faultPlan, isCowPage_eq, hroot, hreadOnly, hpres, huser]

theorem grantsWrite_of_isFree {f : ℕ} (hf : IsFree m.pmm f) (e : UInt64) :
    grantsWrite m e = true := by
  have hfree : 0 < (budget m).free := Finset.card_pos.mpr ⟨f, Bitmap.mem_clearBits.mpr hf⟩
  simp [grantsWrite, hfree]

/-- The page of a fault, if writing was not granted. -/
theorem fault_withheld {m' : Machine} (h : Wf m live resv) (hr : r ∈ live)
    (hf : Faults m r proc virt write)
    (hhandled : Handled m r proc virt write m') (hheld : Withheld m r proc virt)
    (hkept : permission (leaf m r (pathOf virt)) ≠ some true) :
    permission (leaf m' r (pathOf virt)) ≠ some true := by
  cases hhandled with
  | unchanged hram _ _ =>
    rw [leaf, hram]
    exact hkept
  | mapped f w hhalf hplan hmap hneeds =>
    rcases hf.cases h hr hhalf with ⟨_, _, hcow⟩ | ⟨habs, hplan'⟩
    · rw [hplan] at hcow
      cases hcow
    · rcases hmap.mapped with hdone | ⟨_, _, hz⟩
      · rw [hdone, permission_leafEntry]
        intro hw
        rw [Option.some.inj hw] at hplan
        rw [Withheld, habs] at hheld
        have hfree := hheld (hplan'.symm.trans hplan)
        have henough := hneeds habs (by rw [hdone]; exact (leafEntry_spec _ _).1)
        omega
      · rw [hz]
        exact fun hnone => absurd hnone (by decide)
  | copied hhalf _ hcow =>
    cases hcow with
    | absent => exact hkept
    | granted _ hpres hmax hone _ _ =>
      rw [Withheld, if_pos hpres] at hheld
      simp [grantsWrite, hmax, hone] at hheld
    | refused _ _ href =>
      rw [leaf, href.ram]
      exact hkept
    | copied _ f hpres _ hmap _ =>
      rw [Withheld, if_pos hpres, grantsWrite_of_isFree hmap.free] at hheld
      cases hheld

theorem permission_cowEntry {e : UInt64} (h : permission e ≠ some true) :
    permission (cowEntry e) ≠ some true := by
  obtain ⟨hp, _, _, hw⟩ := cowEntry_spec e
  unfold permission at h ⊢
  rw [hp, hw]
  split
  · rename_i hpres
    rw [if_pos hpres] at h
    intro heq
    rw [Option.some.injEq, Bool.and_eq_true] at heq
    exact h (congrArg some heq.1)
  · simp

theorem fork_inv {s : State} (h : Inv image resv s) (hbelow : Below image) (hr : r ∈ s.live)
    (hguard : Guarded image s (.fork r)) (ds : List Bool) :
    Inv image resv (s.after ds (.fork r)) := by
  have hwf := h.wf.deny ds
  have hcases := vmmCowClone_cases hwf.sane (hwf.tree r hr)
  change Inv image resv (s.forked r (vmmCowClone (denying s.machine ds) (pageAddr r)))
  generalize vmmCowClone (denying s.machine ds) (pageAddr r) = out at hcases ⊢
  unfold State.forked
  rcases hcases with ⟨hzero, href⟩ | ⟨z, haddr, hne, hc⟩
  · rw [if_pos hzero]
    refine ⟨hwf.of_eq href.ram href.pmm, h.family, h.kept.congr hbelow (fun t _ l _ => ?_)⟩
    simp only [leaf, href.ram]
    rfl
  · have hz : pageOf out.2 = z := by
      have := hwf.sane.lt_of_isFree hc.free
      rw [haddr, pageOf_pageAddr (by omega)]
    rw [if_neg (by rwa [haddr]), hz]
    have hroom : Room (denying s.machine ds) s.live z out.1 := by
      intro f hf hpos
      have hless := hguard f hf hpos
      have hclone := refs_clone_le hc f
      change (s.machine.pmm.pageRefcount f).toNat + _ < _
      change _ ≤ refs s.machine.ram 3 256 r f at hclone
      omega
    have hold : ∀ t ∈ s.family, ∀ l, ReadOnly image l →
        permission (leaf out.1 t l) ≠ some true := by
      intro t ht l hl
      have hkept := h.kept t ht l hl
      rcases hc.old_leaf hwf hr (mem_slots.mpr ⟨h.family ht, hl.mem hbelow⟩) with heq | heq
      · rw [heq]
        exact hkept
      · rw [heq]
        exact permission_cowEntry hkept
    refine ⟨wf_cloned hwf hr hc hroom, ?_, ?_⟩
    · split
      · exact Finset.insert_subset_insert _ h.family
      · exact h.family.trans (Finset.subset_insert _ _)
    · split
      · rename_i hmem
        intro t ht l hl
        rcases Finset.mem_insert.mp ht with rfl | ht
        · rcases hc.leaves l (hl.mem hbelow) with ⟨hnew, _⟩ | ⟨_, _, hnew⟩
          · rw [hnew]
            exact nofun
          · rw [hnew]
            exact permission_cowEntry (h.kept r hmem l hl)
        · exact hold t ht l hl
      · exact hold

theorem fault_inv {s : State} (h : Inv image resv s) (hbelow : Below image) (hr : r ∈ s.live)
    (hf : Faults s.machine r proc virt write) (hguard : Guarded image s (.fault r proc virt write))
    (ds : List Bool) : Inv image resv (s.after ds (.fault r proc virt write)) := by
  have hwf := h.wf.deny ds
  have hhandled := fault_handled ds h.wf hr hf.cr3 hf.proc hguard.1
  refine ⟨hhandled.wf hwf hr, h.family, fun t ht l hl => ?_⟩
  by_cases hx : (t, l) = (r, pathOf virt)
  · obtain ⟨rfl, rfl⟩ := Prod.mk.inj hx
    exact fault_withheld hwf hr ⟨hf.cr3, hf.proc, hf.refused⟩ hhandled (hguard.2 ht hl)
      (h.kept t ht _ hl)
  · have hsame := hhandled.leaf_other hwf hr (mem_slots.mpr ⟨h.family ht, hl.mem hbelow⟩) hx
    change permission (leaf (fault (denying s.machine ds) proc virt write).1 t l) ≠ _
    rw [hsame]
    exact h.kept t ht l hl

theorem step_inv {s s' : State} (hbelow : Below image) (h : Inv image resv s)
    (hstep : Step image s s') : Inv image resv s' := by
  obtain ⟨ds, e, hpossible, hguard, rfl⟩ := hstep
  cases e with
  | fault r proc virt write => exact fault_inv h hbelow hpossible.1 hpossible.2 hguard ds
  | fork r => exact fork_inv h hbelow hpossible hguard ds
  | switch r => exact ⟨h.wf.of_eq rfl rfl, h.family, h.kept⟩

/-- If nothing is denied the condition on a fault is exact. -/
theorem fault_writable_iff (h : Wf m live resv) (hr : r ∈ live) (hf : Faults m r proc virt write)
    (hhalf : pml4Index virt < 256) :
    permission (leaf (fault (denying m []) proc virt write).1 r (pathOf virt)) ≠ some true ↔
      Withheld m r proc virt := by
  have hwf := h.deny []
  have hfaulting : Faulting (denying m []) r :=
    ⟨hwf.sane, rfl, hwf.tree r hr, fun l hl hpres =>
    ⟨(hwf.leaves r hr l hl hpres).1, (hwf.leaves r hr l hl hpres).2.1,
      (hwf.leaves r hr l hl hpres).2.2.1⟩⟩
  unfold fault
  rw [pageFaultHandler_eq, faultPlan_denying, hf.proc]
  rcases hf.cases h hr hhalf with ⟨hpres, hreadOnly, hplan⟩ | ⟨habs, hplan⟩
  · rw [hplan]
    rw [cowHandleFault_permission hfaulting hf.cr3 hhalf hpres hreadOnly, Withheld, if_pos hpres]
    simp
    rfl
  · rw [hplan, Withheld, habs]
    cases hcase : absentPlan proc virt with
    | cow => exact absurd hcase (absentPlan_ne_cow proc virt)
    | kill =>
      change permission (leaf m r (pathOf virt)) ≠ _ ↔ _
      simp [permission, habs]
    | map w =>
      rw [mapUserPage_permission hfaulting hhalf habs w]
      change (if missing x86 m.ram r (pathOf virt) < (budget m).free then some w
        else none) ≠ _ ↔ _
      split
      · rename_i henough
        cases w with
        | false => simp
        | true => simp [henough]
      · rename_i hshort
        simp [Nat.not_lt.mp hshort]

theorem fault_killed_iff (m : Machine) (proc : Process) (virt : UInt64) (write : Bool) :
    (fault m proc virt write).2.2 = .killed ↔ Fatal m proc virt write := by
  rw [← faultPlan_kill_iff, fault, pageFaultHandler_eq]
  cases faultPlan m proc virt write with
  | cow => simp
  | map w => simp
  | kill => simp

/-- Whatever image is loaded: while every fault on its read-only pages is withheld, they stay
read-only in the process and its descendants. A fault on such a page leaves it read-only exactly
if it is withheld, and a write ends the process exactly if the fault is fatal. -/
theorem read_only_segments {s : State} (h : Wf m live resv) (hr : r ∈ live)
    (hproc : proc.cr3 = pageAddr r)
    (hK : K ⊆ resv) (hwalk : HeapWalk K m.ram r) (hroom : HeapRoom m (4 * image.segments.length))
    (hbelow : Below image) (hst : Protected image m {r}) (ds : List Bool)
    (hrun : Reachable (Step image) ⟨(elfLoad (denying m ds) proc image).1, live, {r}⟩ s) :
    Protected image s.machine s.family ∧
      ∀ t ∈ s.family, ∀ q virt write, Faults s.machine t q virt write →
        ReadOnly image (pathOf virt) →
        (permission (leaf (fault (denying s.machine []) q virt write).1 t
          (pathOf virt)) ≠ some true ↔ Withheld s.machine t q virt) ∧
        ((fault s.machine q virt write).2.2 = .killed ↔ Fatal s.machine q virt write) := by
  obtain ⟨⟨resv', hwf⟩, hkept⟩ := elfLoad_protected hr hbelow h hproc hK hwalk hroom hst ds
  have hloaded : Inv image resv' ⟨(elfLoad (denying m ds) proc image).1, live, {r}⟩ :=
    ⟨hwf, Finset.singleton_subset_iff.mpr hr, hkept⟩
  have hend := hrun.invariant (Inv image resv') (fun _ _ h hstep => step_inv hbelow h hstep) hloaded
  refine ⟨hend.kept, fun t ht q virt write hf hpage => ⟨?_, fault_killed_iff _ _ _ _⟩⟩
  exact fault_writable_iff hend.wf (hend.family ht) hf (pml4Index_of_mem (hpage.mem hbelow))

def textSegment : ElfPhdr := ⟨1, 5, 120, 0x400000, 16, 0x2000⟩

def textImage : Image := Image.ofSegments [textSegment] (List.replicate 16 0x90)

theorem textImage_segments : textImage.segments = [textSegment] := by decide

theorem textImage_below : Below textImage := by
  intro p hp j hj
  rw [textImage_segments, List.mem_singleton] at hp
  subst p
  have hj' : j < 2 := hj
  interval_cases j
  · decide
  · decide

theorem textImage_readOnly {j : ℕ} (hj : j < 2) :
    ReadOnly textImage (pathOf (textSegment.pageVirt j)) := by
  refine ⟨⟨textSegment, by rw [textImage_segments]; exact List.mem_singleton_self _, j, hj, rfl⟩,
    ?_⟩
  intro p hp _
  rw [textImage_segments, List.mem_singleton] at hp
  subst p
  decide

theorem protected_of_blank (hbelow : Below image) (hblank : ∀ i < 256, m.ram r i = 0) :
    Protected image m {r} := by
  intro t ht l hl
  have hz : leaf m r l = 0 := leafAt_of_blank hblank (hl.mem hbelow)
  rw [Finset.mem_singleton.mp ht, hz]
  exact nofun

/-- The first process after the load: code mapped, pages left. -/
theorem exists_text_process : ∃ K m z resv, Running m {z} resv K z ∧ (∀ i < 256, m.ram z i = 0) ∧
    ∃ f m', (elfLoad (denying m []) (newProcess z 0 0) textImage).1 = m' ∧ m'.cr3 = pageAddr z ∧
      Affords m' 250 ∧ m'.oom = false ∧
      leaf m' z (pathOf 0x400000) = leafEntry (pageAddr f) (userFlags false) ∧
      present (leaf m' z (pathOf 0x401000)) = false := by
  obtain ⟨K, m₀, z, resv, _, h, haff, hoom, hblks, hblank⟩ := exists_first_process
  obtain ⟨ptr, blocks, hfound⟩ : ∃ ptr blocks, takeBlock (rounded 32) firstBlocks =
    some (ptr, blocks) := ⟨_, _, rfl⟩
  refine ⟨K, m₀.writeCr3 (pageAddr z), z, resv, h, hblank, ?_⟩
  rw [denying_self haff.denials hoom]
  have hcall : kmalloc (m₀.writeCr3 (pageAddr z)) 32 =
      ({ m₀.writeCr3 (pageAddr z) with heap := { m₀.heap with blocks := blocks } }, ptr) :=
    kmallocFuel_take _ (by decide) (by rw [← hfound, ← hblks]; rfl)
  obtain ⟨m₁, hm₁, hwf, hcr3, haff₁, hoom₁, hleaf⟩ : ∃ m₁ : Machine,
      (kmalloc (m₀.writeCr3 (pageAddr z)) 32).1 = m₁ ∧ Wf m₁ {z} resv ∧ m₁.cr3 = pageAddr z ∧
        Affords m₁ (250 + 4) ∧ m₁.oom = false ∧ ∀ l ∈ userPaths, leaf m₁ z l = 0 :=
    ⟨_, congrArg Prod.fst hcall, h.wf.of_eq rfl rfl, rfl, haff.congr rfl rfl, hoom,
      fun l hl => leafAt_of_blank hblank hl⟩
  have hz := Finset.mem_singleton_self z
  obtain ⟨f, hmap, hdone, haff₂, hoom₂⟩ := loadPage_affords hwf.sane (hwf.tree z hz) hcr3
    textImage.file textSegment 0 (by decide) hoom₁ haff₁
  have hload : (elfLoad (m₀.writeCr3 (pageAddr z)) (newProcess z 0 0) textImage).1 =
      (loadPage textImage.file textSegment 0 m₁).1.writeCr3 (pageAddr z) := by
    rw [elfLoad_single (by decide) (by decide) (by decide)]
    change (forWhile (loadPage textImage.file textSegment) 1
      (kmalloc (m₀.writeCr3 (pageAddr z)) 32).1).1.writeCr3 (pageAddr z) = _
    rw [hm₁]
    rfl
  refine ⟨f, _, hload, rfl, ⟨haff₂.denials, haff₂.free⟩, hoom₂, hdone, ?_⟩
  change present (leaf (loadPage textImage.file textSegment 0 m₁).1 z (pathOf 0x401000)) = false
  rw [hmap.leaves (pathOf 0x401000) (pathOf_mem (by decide)) (by decide),
    hleaf _ (pathOf_mem (by decide))]
  rfl

/-- The first write to the code of the process is granted. -/
theorem text_becomes_writable : ∃ K m z resv, Running m {z} resv K z ∧ Below textImage ∧
    Protected textImage m {z} ∧ ReadOnly textImage (pathOf 0x400000) ∧
    let out := elfLoad (denying m []) (newProcess z 0 0) textImage
    permission (leaf out.1 z (pathOf 0x400000)) = some false ∧
      Faults out.1 z out.2.1 0x400000 true ∧ (fault out.1 out.2.1 0x400000 true).2.2 = .resumed ∧
      permission (leaf (fault out.1 out.2.1 0x400000 true).1 z (pathOf 0x400000)) = some true := by
  obtain ⟨K, m, z, resv, h, hblank, f, m', heq, hcr3, haff, hoom, hleaf, _⟩ := exists_text_process
  have hz := Finset.mem_singleton_self z
  have hst := protected_of_blank textImage_below hblank
  obtain ⟨⟨resv', hwf⟩, _⟩ := elfLoad_protected hz textImage_below h.wf
    (show (newProcess z 0 0).cr3 = pageAddr z from rfl) h.tables h.walk
      (h.room.mono (by rw [textImage_segments]; decide)) hst []
  refine ⟨K, m, z, resv, h, textImage_below, hst, textImage_readOnly (j := 0) (by decide), ?_⟩
  have hproc := elfLoad_cr3 (denying m []) (newProcess z 0 0) textImage
  generalize elfLoad (denying m []) (newProcess z 0 0) textImage = out at heq hwf hproc ⊢
  obtain ⟨t, q, _⟩ := out
  dsimp only at heq hwf hproc ⊢
  subst t
  have hpermission : permission (leaf m' z (pathOf 0x400000)) = some false := by
    rw [hleaf, permission_leafEntry]
  obtain ⟨hpres, hwr, _, _⟩ := leafEntry_spec (pageAddr f) false
  rw [← hleaf] at hpres hwr
  have hf : Faults m' z q 0x400000 true := by
    refine ⟨hcr3, hproc, ?_⟩
    rw [userTranslate_eq hwf hz hcr3 (by decide)]
    simp [permits, hwr]
  have hself := denying_self haff.denials hoom
  have hgrants : ¬ Withheld m' z q 0x400000 := by
    have hfree : 0 < (budget m').free := by
      have := haff.free
      omega
    rw [Withheld, if_pos hpres]
    simp [grantsWrite, hfree]
  have hplan : faultPlan m' q 0x400000 true = .cow := by
    rcases hf.cases hwf hz (by decide) with ⟨_, _, hcow⟩ | ⟨habs, _⟩
    · exact hcow
    · cases habs.symm.trans hpres
  refine ⟨hpermission, hf, ?_, ?_⟩
  · rw [fault, pageFaultHandler_eq, hplan]
  · by_contra hnot
    have hheld := (fault_writable_iff hwf hz hf (by decide)).mp
    rw [hself] at hheld
    exact hgrants (hheld hnot)

/-- The process reads the second page of its code region, which is then mapped as the first one
was. -/
theorem read_only_segments_text : ∃ m z, ∃ s : State, Reachable (Step textImage)
      ⟨(elfLoad (denying m []) (newProcess z 0 0) textImage).1, {z}, {z}⟩ s ∧
    Protected textImage s.machine s.family ∧ z ∈ s.family ∧
    permission (leaf s.machine z (pathOf 0x401000)) = some false := by
  obtain ⟨K, m, z, resv, h, hblank, f, m', heq, hcr3, haff, hoom, _, habs⟩ := exists_text_process
  have hz := Finset.mem_singleton_self z
  have hst := protected_of_blank textImage_below hblank
  have hroom : HeapRoom m (4 * textImage.segments.length) :=
    h.room.mono (by rw [textImage_segments]; decide)
  have hproc : (newProcess z 0 0).cr3 = pageAddr z := rfl
  obtain ⟨⟨resv', hwf⟩, _⟩ :=
    elfLoad_protected hz textImage_below h.wf hproc h.tables h.walk hroom hst []
  rw [heq] at hwf
  let q : Process := { newProcess z 0 0 with vmas := [⟨0, 0x400000, 0x402000, 5⟩] }
  have hplan : absentPlan q 0x401000 = .map false := rfl
  have hf : Faults m' z q 0x401000 false := by
    refine ⟨hcr3, rfl, ?_⟩
    rw [userTranslate_eq hwf hz hcr3 (by decide)]
    simp [permits, habs]
  have hguard : Guarded textImage ⟨m', {z}, {z}⟩ (.fault z q 0x401000 false) := by
    refine ⟨.inl (by decide), fun _ _ => ?_⟩
    rw [Withheld, habs, hplan]
    exact fun hno => absurd hno (by decide)
  have hrun : Reachable (Step textImage)
    ⟨(elfLoad (denying m []) (newProcess z 0 0) textImage).1, {z}, {z}⟩
      (State.after ⟨m', {z}, {z}⟩ [] (.fault z q 0x401000 false)) := by
    rw [heq]
    exact .single ⟨[], .fault z q 0x401000 false, ⟨hz, hf⟩, hguard, rfl⟩
  refine ⟨m, z, _, hrun,
    (read_only_segments h.wf hz hproc h.tables h.walk hroom textImage_below hst [] hrun).1, hz, ?_⟩
  obtain ⟨g, _, hdone, _⟩ := mapUserPage_affords hwf.sane (hwf.tree z hz)
    (show pml4Index 0x401000 < 256 by decide) false hoom (haff.mono (show 0 + 4 ≤ 250 by decide))
  have hfault : (fault (denying m' []) q 0x401000 false).1 =
      mapUserPage m' (pageAddr z) 0x401000 (userFlags false) := by
    rcases hf.cases hwf hz (by decide) with ⟨hpres, _⟩ | ⟨_, hcase⟩
    · cases habs.symm.trans hpres
    · rw [denying_self haff.denials hoom, fault, pageFaultHandler_eq, hcase, hplan]
      rfl
  change permission (leaf (fault (denying m' []) q 0x401000 false).1 z (pathOf 0x401000)) = _
  rw [hfault, hdone, permission_leafEntry]

end NexusKernel.ReadOnlySegments
