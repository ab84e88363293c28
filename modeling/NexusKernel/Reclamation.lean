import NexusKernel.UserPages

/-!
What `vmm_destroy_address_space` gives back. Tables of the user half are freed by `pmm_free_page`
whatever they contain; user pages go through `pmm_page_unref`, which frees a page when its last
reference goes and ignores pages without a count. Pages may be mapped anywhere in the user half,
also over others.
-/

namespace NexusKernel.Reclamation

open Lib.TableTree Lib.Runs PhysicalMemory PageAllocation PageEntries
open Hardware PageSupply Vmm Walks Destruction AddressSpaces CopyOnWrite UserPages

def anyPage : Policy where
  target := fun _ _ _ => True
  clone := fun s r => ∀ f, f < maxPages →
    (s.machine.pmm.pageRefcount f).toNat + refs s.machine.ram 3 256 r f < 65536

def MapsPage (m : Machine) (t f : ℕ) : Prop := ∃ l ∈ userPaths, mapsUser (leaf m t l) f = true

/-- From `m` to `m'` the address space `r` among `live` was given back completely, the pages in
`kept` not. -/
structure Reclaimed (kept : Set ℕ) (m : Machine) (live : Finset ℕ) (r : ℕ) (m' : Machine) :
    Prop where
  tables : ∀ q ∈ userTables m r, IsFree m'.pmm q
  pages : ∀ f, MapsPage m r f → (∀ t ∈ live, t ≠ r → ¬ MapsPage m t f) → IsFree m'.pmm f
  memory : m'.ram = m.ram
  kernelPages : ∀ q ∈ kept, InUse m'.pmm q

/-- Every page that only `r` maps has a reference count, which is its number of mappings in `r`. -/
def SoleCounted (m : Machine) (live : Finset ℕ) (r : ℕ) : Prop :=
  ∀ f, MapsPage m r f → (∀ t ∈ live, t ≠ r → ¬ MapsPage m t f) →
    f < maxPages ∧ (m.pmm.pageRefcount f).toNat = refs m.ram 3 256 r f

variable {m m' : Machine} {live : Finset ℕ} {resv : Set ℕ} {s s' s₀ : System} {r f : ℕ}

theorem refs_pos (h : MapsPage m r f) : 0 < refs m.ram 3 256 r f := by
  obtain ⟨l, hl, hmaps⟩ := h
  have hle := Finset.single_le_sum
    (f := fun l => (mapsUser (leafAt x86 m.ram r l) f).toNat) (fun _ _ => Nat.zero_le _) hl
  have hone : (mapsUser (leafAt x86 m.ram r l) f).toNat = 1 := by
    rw [show mapsUser (leafAt x86 m.ram r l) f = true from hmaps]
    rfl
  exact lt_of_lt_of_le (by omega) hle

theorem step_wf (h : Wf s.machine s.live resv) (hop : Op anyPage s s') :
    Wf s'.machine s'.live resv := by
  apply effect_wf h (op_effect h hop)
  intro ds r z m' _ hclone hc _ g hg _
  have hle : refs m'.ram 3 256 z g ≤ refs s.machine.ram 3 256 r g := refs_clone_le hc g
  have hroom := hclone g hg
  omega

theorem run_wf (hsane : Sane s₀.machine) (hlive : s₀.live = ∅)
    (hrun : Reachable (Op anyPage) s₀ s) : Wf s.machine s.live {q | InUse s₀.machine.pmm q} :=
  hrun.invariant (fun s => Wf s.machine s.live {q | InUse s₀.machine.pmm q})
    (fun _ _ h hop => step_wf h hop) (start_wf hsane hlive)

theorem free_of_destroyed (hd : SpaceDestroyed m r m') {q : ℕ} (hq : InUse m.pmm q)
    (hgone : q ∈ userTables m r ∨ Released m 3 256 r q) : IsFree m'.pmm q := by
  apply isFree_of_not_inUse
  · rw [hd.layout.maxPageIndex]
    exact hq.1
  · intro huse
    obtain ⟨_, hout, hkept⟩ := (hd.inUse q).mp huse
    rcases hgone with hmem | hrel
    · exact hout hmem
    · exact hkept hrel

theorem reclaimed_iff (h : Wf m live resv) (hr : r ∈ live) (hd : SpaceDestroyed m r m') :
    Reclaimed resv m live r m' ↔ SoleCounted m live r := by
  have hmap : ∀ f, MapsPage m r f →
      InUse m.pmm f ∧ f ≠ 0 ∧ f ∉ resv ∧ ∀ t ∈ live, f ∉ userTables m t := fun f hf =>
    h.mapped (lt_of_lt_of_le (refs_pos hf) (refs_le_mappings hr f))
  constructor
  · intro hreclaimed f hf hsole
    obtain ⟨huse, _, _, hout⟩ := hmap f hf
    have hrel : Released m 3 256 r f := by
      by_contra hnot
      exact (hreclaimed.pages f hf hsole).not_inUse ((hd.inUse f).mpr ⟨huse, hout r hr, hnot⟩)
    obtain ⟨_, hmax, _, hle⟩ := hrel
    have hcounted := h.shared.counted f hmax
    exact ⟨hmax, le_antisymm hle ((refs_le_mappings hr f).trans hcounted)⟩
  · intro hsole
    refine ⟨?_, ?_, hd.ram, ?_⟩
    · intro q hq
      exact free_of_destroyed hd ((h.tree r hr).inUse q hq) (.inl hq)
    · intro f hf hothers
      obtain ⟨hmax, heq⟩ := hsole f hf hothers
      obtain ⟨huse, hne, _, _⟩ := hmap f hf
      have hpos := refs_pos hf
      exact free_of_destroyed hd huse (.inr ⟨hne, hmax, by omega, le_of_eq heq⟩)
    · intro q hq
      exact ((wf_destroyed h hr hd).reserved q hq).1

/-- In every reachable state, destroying an address space frees its tables and
the pages only it maps, and leaves the kernel half alone, exactly when those
pages are below the first gibibyte and counted exactly. -/
theorem destroy_complete_iff (hsane : Sane s₀.machine) (hlive : s₀.live = ∅)
    (hrun : Reachable (Op anyPage) s₀ s) (hr : r ∈ s.live) :
    Reclaimed {q | InUse s₀.machine.pmm q} s.machine s.live r
      (vmmDestroyAddressSpace s.machine (pageAddr r)) ↔ SoleCounted s.machine s.live r := by
  have hwf := run_wf hsane hlive hrun
  exact reclaimed_iff hwf hr (vmmDestroyAddressSpace_destroyed (destroyPre hwf hr))

/-- An address space with one page. -/
theorem destroy_complete_smallMachine : MapsPage pagedMachine 2 3 ∧
    Reachable (Op anyPage) ⟨smallMachine, ∅⟩ ⟨pagedMachine, {2}⟩ ∧
    Reclaimed {q | InUse smallMachine.pmm q} pagedMachine {2} 2
      (vmmDestroyAddressSpace pagedMachine (pageAddr 2)) := by
  obtain ⟨m₁, hopen, -, hmap, -⟩ := paged_ops (P := anyPage) fun _ _ _ => trivial
  have hrun : Reachable (Op anyPage) ⟨smallMachine, ∅⟩ ⟨pagedMachine, {2}⟩ :=
    .tail (.single hopen) hmap
  have hr := Finset.mem_singleton_self 2
  have hsafe := run_safe smallMachine_sane rfl paged_reached
  refine ⟨⟨pathOf 0, pathOf_mem (by decide), by decide +kernel⟩, hrun,
    (destroy_complete_iff smallMachine_sane rfl hrun hr).mpr fun f hf _ => ?_⟩
  have hmany := lt_of_lt_of_le (refs_pos hf) (refs_le_mappings hr f)
  have hlow : f < maxPages :=
    (hsafe.wf.mapped hmany).1.1.trans_le (show pagedMachine.pmm.maxPageIndex.toNat ≤ _ by
      decide +kernel)
  exact ⟨hlow, (hsafe.exactCounts f hlow hmany).trans (refs_eq_users pagedMachine 2 f).symm⟩

def highMachine : Machine where
  ram := fun _ _ => 0
  pmm := {
    bitmap := fun k => if k < 32768 then 0xFF else 0
    bitmapAddr := 0x1000
    maxPageIndex := 262152
    usablePages := 8
    usedPages := 0
    pageRefcount := fun _ => 0
    maxPageIndex_lt := by decide }
  cr3 := 0
  heap := ⟨[], 0, 0, 0, []⟩
  denials := []
  oom := false

theorem highMachine_test (q : ℕ) : Bitmap.bitmapTest highMachine.pmm.bitmap q =
    decide (q < 262144) := Bitmap.test_fullBytes 32768 q

theorem highMachine_sane : Sane highMachine :=
  sane_of_fullBytes rfl (by decide) (by decide) (by decide) (by decide) (by decide)

theorem highMachine_affords : Affords highMachine 5 :=
  (affords_of_fullBytes rfl rfl).mono (by decide)

/-- A user page above the first gibibyte outlives the only address space that maps it. -/
theorem high_page_leaks : ∃ (s : System) (r f : ℕ), Reachable (Op anyPage) ⟨highMachine, ∅⟩ s ∧
    s.live = {r} ∧
    MapsPage s.machine r f ∧ InUse (vmmDestroyAddressSpace s.machine (pageAddr r)).pmm f := by
  obtain ⟨r, f, m₁, m, hopen, -, hmap, -, hwf, hfree, hf, hleaf, -, -⟩ :=
    exists_first_page (P := anyPage) highMachine_sane rfl highMachine_affords
      (show pml4Index 0 < 256 by decide) true (fun _ _ _ => trivial)
  have hr := Finset.mem_singleton_self r
  have hl := pathOf_mem (show pml4Index 0 < 256 by decide)
  obtain ⟨hpres, _, huser, hframe⟩ := PageEntries.leafEntry_spec (pageAddr f) true
  rw [pageAddr_and_addrMask hf, pageOf_pageAddr (by omega)] at hframe
  rw [← hleaf] at hpres huser hframe
  have hmaps : MapsPage m r f :=
    ⟨pathOf 0, hl, by rw [mapsUser, hpres, huser, hframe, beq_self_eq_true]; rfl⟩
  have hhigh : ¬ f < maxPages := by
    have hclear := hfree.2
    rw [highMachine_test, decide_eq_false_iff_not] at hclear
    exact hclear
  obtain ⟨_, huse, _, _, hout⟩ := hwf.leaves r hr _ hl hpres
  rw [hframe] at huse hout
  refine ⟨⟨m, {r}⟩, r, f, (Relation.ReflTransGen.single hopen).tail hmap, rfl, hmaps, ?_⟩
  refine ((vmmDestroyAddressSpace_destroyed (destroyPre hwf hr)).inUse f).mpr
    ⟨huse, hout r hr, fun hrel => hhigh hrel.2.1⟩

end NexusKernel.Reclamation
