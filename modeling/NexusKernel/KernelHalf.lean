import NexusKernel.HeapInvariant
import NexusKernel.DebuggerWalk

/-!
The kernel half in many address spaces. A new root gets copies of entries 256 to 511 of the loaded
one, so a change below an entry that was present at the first copy is seen by all. The tables
below the boot root may hold large pages.
-/

namespace NexusKernel.KernelHalf

open Lib.TableTree Lib.Loops Lib.Runs PhysicalMemory PageAllocation PageEntries
  Hardware Function
open PageSupply Vmm Walks Mapping Destruction AddressSpaces UserPages DebuggerWalk
open KernelHeap HeapGrowth HeapInvariant ProcessTable RunningProcess Machine

variable {m m' : Machine} {b c i j r z : ℕ} {l : List ℕ} {e : UInt64}

abbrev plainTables (m : Machine) (c : ℕ) : Set ℕ := tables plain m.ram 2 512 c

structure Slot (m : Machine) (b i c : ℕ) : Prop where
  low : 256 ≤ i
  high : i < 512
  next : plain.next (m.ram b i) = some c

/-- The kernel tables of the root `b` are in use, and none serves twice. -/
structure KernelTree (m : Machine) (b : ℕ) : Prop where
  root : InUse m.pmm b
  tree : ∀ i c, Slot m b i c → TreeOf plain (fun _ => True) m 2 512 c ∧ b ∉ plainTables m c
  apart : ∀ i j c d, Slot m b i c → Slot m b j d → i ≠ j → Disjoint (plainTables m c)
    (plainTables m d)

def kernelTables (m : Machine) (b : ℕ) : Set ℕ := {q | ∃ i c, Slot m b i c ∧ q ∈ plainTables m c}

variable {q : ℕ}

theorem KernelTree.inUse (h : KernelTree m b) (hq : q ∈ kernelTables m b) : InUse m.pmm q := by
  obtain ⟨i, c, hslot, hq⟩ := hq
  exact (h.tree i c hslot).1.inUse q hq

theorem Slot.congr (h : Slot m b i c) (hroot : m'.ram b = m.ram b) : Slot m' b i c :=
  ⟨h.low, h.high, by rw [hroot]; exact h.next⟩

/-- A kernel address whose entry in the root was filled at boot, and with no large page on its
way. -/
structure Clear (m : Machine) (b : ℕ) (virt : UInt64) : Prop where
  half : 256 ≤ pml4Index virt
  present : present (m.ram b (pml4Index virt)) = true
  unblocked : Unblocked plain x86 m.ram b (pathOf virt)

def lowerPath (virt : UInt64) : List ℕ := [pdptIndex virt, pdIndex virt, ptIndex virt]

theorem clear_iff {virt : UInt64} : Clear m b virt ↔ ∃ c, Slot m b (pml4Index virt) c ∧
    Unblocked plain x86 m.ram c (lowerPath virt) := by
  constructor
  · intro h
    obtain ⟨hstop, hlow⟩ := (unblocked_cons (List.cons_ne_nil _ _)).mp h.unblocked
    cases hc : plain.next (m.ram b (pml4Index virt)) with
    | none => exact absurd (next_eq_none.mp (hstop hc)) (by rw [h.present]; simp)
    | some c => exact ⟨c, ⟨h.half, pml4Index_lt virt, hc⟩, hlow c hc⟩
  · rintro ⟨c, hslot, hlow⟩
    exact ⟨hslot.low, (plain_next_eq_some.mp hslot.next).1,
      (unblocked_cons_some (List.cons_ne_nil _ _) hslot.next).mpr hlow⟩

/-- What leaves the tables of the kernel half alone keeps the tree. -/
theorem KernelTree.keeps (h : KernelTree m b)
    (hkeep : ∀ q, q = b ∨ q ∈ kernelTables m b → InUse m'.pmm q ∧ m'.ram q = m.ram q) :
    KernelTree m' b ∧ kernelTables m' b = kernelTables m b ∧ ∀ virt, Clear m b virt →
      Clear m' b virt := by
  have hroot := (hkeep b (.inl rfl)).2
  have hslot : ∀ {i c}, Slot m' b i c → Slot m b i c := fun h => h.congr hroot.symm
  have hagree : ∀ {i c}, Slot m b i c → Agree plain m.ram m'.ram 2 512 c := fun {i c} hs =>
    agree_of_tables (fun q hq => (hkeep q (.inr ⟨i, c, hs, hq⟩)).2)
  have htabs : ∀ {i c}, Slot m b i c → plainTables m' c = plainTables m c :=
    fun hs => (hagree hs).tables_eq
  refine ⟨⟨(hkeep b (.inl rfl)).1, fun i c hs => ?_, fun i j c d hs hs' hij => ?_⟩, ?_, ?_⟩
  · have hold := hslot hs
    obtain ⟨htree, hout⟩ := h.tree i c hold
    refine ⟨⟨(hagree hold).proper htree.proper,
      fun q hq => (hkeep q (.inr ⟨i, c, hold, (htabs hold).subset hq⟩)).1⟩, ?_⟩
    rw [htabs hold]
    exact hout
  · rw [htabs (hslot hs), htabs (hslot hs')]
    exact h.apart i j c d (hslot hs) (hslot hs') hij
  · ext q
    constructor
    · rintro ⟨i, c, hs, hq⟩
      rw [htabs (hslot hs)] at hq
      exact ⟨i, c, hslot hs, hq⟩
    · rintro ⟨i, c, hs, hq⟩
      rw [← htabs hs] at hq
      exact ⟨i, c, hs.congr hroot, hq⟩
  · intro virt hclear
    obtain ⟨c, hs, hlow⟩ := clear_iff.mp hclear
    exact clear_iff.mpr ⟨c, hs.congr hroot,
      ((hagree hs).unblocked_iff (lowerPath_mem rfl virt)).mpr hlow⟩

theorem KernelTree.mapped (h : KernelTree m b) (hslot : Slot m b i c)
    (hmap : MappedOf plain (fun _ => True) 2 512 m c l e m') :
    KernelTree m' b ∧ (∀ q ∈ kernelTables m' b, q ∈ kernelTables m b ∨ IsFree m.pmm q) ∧
      ∀ virt, Clear m b virt → Clear m' b virt := by
  obtain ⟨htree, hout⟩ := h.tree i c hslot
  have hroot : m'.ram b = m.ram b := hmap.elsewhere b h.root hout
  have hold : ∀ {j d}, Slot m' b j d → Slot m b j d := fun h => h.congr hroot.symm
  have hagree : ∀ {j d}, Slot m b j d → j ≠ i → Agree plain m.ram m'.ram 2 512 d := by
    intro j d hs hji
    apply agree_of_tables
    intro q hq
    apply hmap.elsewhere q ((h.tree j d hs).1.inUse q hq)
    exact Set.disjoint_left.mp (h.apart j i d c hs hslot hji) hq
  have hsame : ∀ {d}, Slot m b i d → d = c :=
    fun hs => Option.some.inj (hs.next.symm.trans hslot.next)
  have hadded : ∀ {j d q}, Slot m b j d → q ∈ plainTables m' d → q ∈ plainTables m d ∨
      IsFree m.pmm q := by
    intro j d q hs hq
    by_cases hji : j = i
    · subst j
      obtain rfl := hsame hs
      exact (hmap.added q hq).imp id And.left
    · exact .inl ((hagree hs hji).tables_eq.subset hq)
  refine ⟨⟨hmap.grows.inUse b h.root, fun j d hs => ⟨?_, fun hb => ?_⟩,
    fun j k d f hs hs' hjk => ?_⟩, ?_, ?_⟩
  · have hs₀ := hold hs
    by_cases hji : j = i
    · subst j
      obtain rfl := hsame hs₀
      exact hmap.treeOf htree
    · exact (h.tree j d hs₀).1.agree (hagree hs₀ hji) hmap.grows.inUse
  · rcases hadded (hold hs) hb with hb | hb
    · exact (h.tree j d (hold hs)).2 hb
    · exact hb.not_inUse h.root
  · rw [Set.disjoint_left]
    intro q hq hq'
    have hused : ∀ {k f}, Slot m b k f → k ≠ i → q ∈ plainTables m' f → InUse m.pmm q :=
      fun hs hki hq => (h.tree _ _ hs).1.inUse q ((hagree hs hki).tables_eq.subset hq)
    rcases hadded (hold hs) hq with hq₁ | hq₁
    · rcases hadded (hold hs') hq' with hq₂ | hq₂
      · exact Set.disjoint_left.mp (h.apart j k d f (hold hs) (hold hs') hjk) hq₁ hq₂
      · exact hq₂.not_inUse ((h.tree j d (hold hs)).1.inUse q hq₁)
    · -- only the branch that was changed has new tables
      by_cases hji : j = i
      · exact hq₁.not_inUse (hused (hold hs') (fun hki => hjk (hji.trans hki.symm)) hq')
      · exact hq₁.not_inUse (hused (hold hs) hji hq)
  · rintro q ⟨j, d, hs, hq⟩
    exact (hadded (hold hs) hq).imp (fun hq => ⟨j, d, hold hs, hq⟩) id
  · intro virt hclear
    obtain ⟨d, hs, hlow⟩ := clear_iff.mp hclear
    have hmem : lowerPath virt ∈ paths plain 2 512 := lowerPath_mem rfl virt
    refine clear_iff.mpr ⟨d, hs.congr hroot, ?_⟩
    by_cases hji : pml4Index virt = i
    · rw [hji] at hs
      obtain rfl := hsame hs
      exact (hmap.opens _ hmem).mpr hlow
    · exact ((hagree hs hji).unblocked_iff hmem).mpr hlow

abbrev BootTree (m : Machine) (b : ℕ) : Prop := TreeOf plain (fun _ => True) m 3 512 b

theorem BootTree.kernelTree (h : BootTree m b) : KernelTree m b := by
  refine ⟨h.root, fun i c hs => ⟨h.child hs.high hs.next, (h.proper.1 i c hs.high hs.next).2.1⟩, ?_⟩
  exact fun i j c d hs hs' hij => h.proper.2 i j c d hs.high hs'.high hij hs.next hs'.next

/-- The tables of the user half are not those of the kernel half. -/
theorem BootTree.userHalf_outside (h : BootTree m b)
    (hq : q ∈ tables plain m.ram 3 256 b) : InUse m.pmm q ∧ q ∉ kernelTables m b := by
  refine ⟨h.inUse q (tables_mono (by omega) hq), ?_⟩
  rintro ⟨j, d, hs, hmem⟩
  rcases hq with rfl | ⟨i, c, hi, hc, hq⟩
  · exact (h.proper.1 j d hs.high hs.next).2.1 hmem
  · have hij : i ≠ j := by
      have := hs.low
      omega
    exact Set.disjoint_left.mp (h.proper.2 i j c d (by omega) hs.high hij hc hs.next) hq hmem

theorem bootTree_of_chain {d e j k : ℕ} (hb : ∀ x r, plain.next (m.ram b x) = some r →
      x = i ∧ r = c) (hc : ∀ x r, plain.next (m.ram c x) = some r → x = j ∧ r = d)
    (hd : ∀ x r, plain.next (m.ram d x) = some r → x = k ∧ r = e)
    (hnodup : [b, c, d, e].Nodup) (huse : ∀ q ∈ [b, c, d, e], InUse m.pmm q) : BootTree m b := by
  simp only [List.nodup_cons, List.mem_cons, List.not_mem_nil, or_false, not_or] at hnodup huse
  have ht₁ : ∀ q ∈ tables plain m.ram 1 512 d, q = d ∨ q = e := fun q hq => tables_only_child hd hq
  have ht₂ : ∀ q ∈ tables plain m.ram 2 512 c, q = c ∨ q = d ∨ q = e :=
    fun q hq => (tables_only_child hc hq).imp id (ht₁ q)
  refine ⟨?_, fun q hq => huse q ((tables_only_child hb hq).imp id (ht₂ q))⟩
  apply proper_only_child hb trivial
  · intro hq
    have := ht₂ b hq
    omega
  · apply proper_only_child hc trivial
    · intro hq
      have := ht₁ c hq
      omega
    · exact proper_only_child hd trivial (fun hq => hnodup.2.2.1 hq) trivial

structure SharedRoot (m : Machine) (b r : ℕ) : Prop where
  inUse : InUse m.pmm r
  nonzero : r ≠ 0
  bitmap : ¬ StoresBitmap m.pmm r
  outside : r ∉ kernelTables m b
  userHalf : ∀ i, i < 256 → m.ram r i = 0
  kernelHalf : ∀ i, 256 ≤ i → i < 512 → m.ram r i = m.ram b i

/-- The state of memory after a run from `start`. The kernel works only through the addresses in
`V` and has left pages in use before alone, except for the tables of its half. -/
structure Coherent (start : Machine) (b : ℕ) (V : Set UInt64) (s : System) : Prop where
  sane : Sane s.machine
  tree : KernelTree s.machine b
  clear : ∀ virt ∈ V, Clear s.machine b virt
  loaded : ∃ r, (r = b ∨ r ∈ s.live) ∧ s.machine.cr3 = pageAddr r
  roots : ∀ r ∈ s.live, SharedRoot s.machine b r
  kept : ∀ q, InUse start.pmm q → q ∉ kernelTables start b →
    InUse s.machine.pmm q ∧ s.machine.ram q = start.ram q ∧
      q ∉ kernelTables s.machine b ∧ q ∉ s.live
  boot : InUse start.pmm b ∧ b ∉ kernelTables start b

variable {start : Machine} {V : Set UInt64} {s s' : System} {live live' : Finset ℕ} {virt : UInt64}

theorem KernelTree.root_outside (h : KernelTree m b) : b ∉ kernelTables m b := by
  rintro ⟨i, c, hs, hb⟩
  exact (h.tree i c hs).2 hb

theorem coherent_start (hs : Sane m) (htree : KernelTree m b) (hclear : ∀ virt ∈ V, Clear m b virt)
    (hcr3 : m.cr3 = pageAddr b) : Coherent m b V ⟨m, ∅⟩ :=
  ⟨hs, htree, hclear, ⟨b, .inl rfl, hcr3⟩, fun r hr => absurd hr (Finset.notMem_empty r),
    fun q hq hout => ⟨hq, rfl, hout, Finset.notMem_empty q⟩, htree.root, htree.root_outside⟩

section

variable (h : Coherent start b V ⟨m, live⟩)
include h

/-- What neither takes back nor writes to pages in use, but for address spaces that end, keeps the
state coherent. -/
theorem Coherent.keeps (hsub : live' ⊆ live) (hlayout : SameLayout m.pmm m'.pmm)
    (hkeep : ∀ q, InUse m.pmm q → (q ∈ live → q ∈ live') → InUse m'.pmm q ∧ m'.ram q = m.ram q)
    (hloaded : ∃ r, (r = b ∨ r ∈ live') ∧ m'.cr3 = pageAddr r) :
    Coherent start b V ⟨m', live'⟩ := by
  have hb : b ∉ live := (h.kept b h.boot.1 h.boot.2).2.2.2
  have hkernel : ∀ q, q = b ∨ q ∈ kernelTables m b → InUse m'.pmm q ∧ m'.ram q = m.ram q := by
    rintro q (rfl | hq)
    · exact hkeep q h.tree.root fun hmem => absurd hmem hb
    · exact hkeep q (h.tree.inUse hq) fun hmem => absurd hq (h.roots q hmem).outside
  obtain ⟨htree, htabs, hclear⟩ := h.tree.keeps hkernel
  refine ⟨h.sane.keeps hlayout.bitmapAddr hlayout.maxPageIndex ?_ fun q hq => ?_, htree,
    fun v hv => hclear v (h.clear v hv), hloaded, fun r hr => ?_, fun q hq hout => ?_, h.boot⟩
  · exact (hkeep 0 h.sane.zero (fun hmem => absurd rfl (h.roots 0 hmem).nonzero)).1
  · exact (hkeep q (h.sane.kept.inUse q hq) (fun hmem => absurd hq (h.roots q hmem).bitmap)).1
  · have hroot := h.roots r (hsub hr)
    obtain ⟨huse, hram⟩ := hkeep r hroot.inUse fun _ => hr
    refine ⟨huse, hroot.nonzero, fun hstore => hroot.bitmap ?_, ?_, ?_, ?_⟩
    · exact (storesBitmap_congr hlayout.bitmapAddr hlayout.maxPageIndex).mp hstore
    · rw [htabs]
      exact hroot.outside
    · rw [hram]
      exact hroot.userHalf
    · rw [hram, (hkernel b (.inl rfl)).2]
      exact hroot.kernelHalf
  · obtain ⟨huse, hsame, hout', hlive⟩ := h.kept q hq hout
    obtain ⟨hinUse', hram⟩ := hkeep q huse fun hmem => absurd hmem hlive
    exact ⟨hinUse', hram.trans hsame, by rw [htabs]; exact hout', fun hmem => hlive (hsub hmem)⟩

theorem Coherent.grows (hgrows : Grows m m')
    (hram : ∀ q, InUse m.pmm q → m'.ram q = m.ram q) : Coherent start b V ⟨m', live⟩ := by
  apply h.keeps subset_rfl ⟨hgrows.bitmapAddr, hgrows.maxPageIndex⟩
  · exact fun q hq _ => ⟨hgrows.inUse q hq, hram q hq⟩
  · rw [hgrows.cr3]
    exact h.loaded

theorem Coherent.of_eq (hram : m'.ram = m.ram)
    (hpmm : m'.pmm = m.pmm) (hcr3 : m'.cr3 = m.cr3) : Coherent start b V ⟨m', live⟩ := by
  apply h.keeps subset_rfl ⟨by rw [hpmm], by rw [hpmm]⟩
  · intro q hq _
    rw [hpmm, hram]
    exact ⟨hq, rfl⟩
  · rw [hcr3]
    exact h.loaded

end

theorem Coherent.loaded_half (h : Coherent start b V s) :
    InUse s.machine.pmm (frame s.machine.cr3) ∧ s.machine.currentPml4 =
      pageAddr (frame s.machine.cr3) ∧
      ∀ i, 256 ≤ i → i < 512 → s.machine.ram (frame s.machine.cr3) i = s.machine.ram b i := by
  obtain ⟨r, hr, hcr3⟩ := h.loaded
  have huse : InUse s.machine.pmm r := by
    rcases hr with rfl | hr
    · exact h.tree.root
    · exact (h.roots r hr).inUse
  have hlt := h.sane.lt_of_inUse huse
  have hroot : frame s.machine.cr3 = r := by rw [hcr3, CopyOnWrite.frame_pageAddr hlt]
  rw [hroot]
  refine ⟨huse, currentPml4_eq hlt hcr3, ?_⟩
  rcases hr with rfl | hr
  · exact fun _ _ _ => rfl
  · exact (h.roots r hr).kernelHalf

/-- A new address space is a copy in the kernel half. -/
theorem Coherent.created (h : Coherent start b V ⟨m, live⟩) (hc : Created m z m') :
    Coherent start b V ⟨m', insert z live⟩ := by
  have hold : ∀ q, InUse m.pmm q → q ≠ z := fun _ => hc.free.ne
  have hnext : Coherent start b V ⟨m', live⟩ := h.grows hc.grows fun q hq => hc.other q (hold q hq)
  have hb : m'.ram b = m.ram b := hc.other b (hold b h.tree.root)
  obtain ⟨hloaded, _, hhalf⟩ := h.loaded_half
  have hz : SharedRoot m' b z := by
    refine ⟨(hc.inUse_iff z).mpr (.inr rfl), h.sane.ne_zero_of_isFree hc.free, ?_, ?_,
      hc.userHalf, ?_⟩
    · exact fun hstore => hc.free.not_inUse
        (h.sane.kept.inUse z (stores_of_grows hc.grows hstore))
    · have hkernel : ∀ q, q = b ∨ q ∈ kernelTables m b → InUse m'.pmm q ∧ m'.ram q = m.ram q := by
        intro q hq
        have hu : InUse m.pmm q := hq.elim (· ▸ h.tree.root) h.tree.inUse
        exact ⟨hc.grows.inUse q hu, hc.other q (hold q hu)⟩
      rw [(h.tree.keeps hkernel).2.1]
      exact fun hmem => hc.free.not_inUse (h.tree.inUse hmem)
    · intro i hlow hhigh
      rw [hc.kernelHalf (hold _ hloaded) i hlow hhigh, hb]
      exact hhalf i hlow hhigh
  refine ⟨hnext.sane, hnext.tree, hnext.clear, ?_, fun r hr => ?_, fun q hq hout => ?_, h.boot⟩
  · obtain ⟨r, hr, hcr3⟩ := hnext.loaded
    exact ⟨r, hr.imp id (Finset.mem_insert_of_mem ·), hcr3⟩
  · rcases Finset.mem_insert.mp hr with rfl | hr
    · exact hz
    · exact hnext.roots r hr
  · obtain ⟨huse, hram, hout', hlive⟩ := hnext.kept q hq hout
    refine ⟨huse, hram, hout', fun hmem => ?_⟩
    rcases Finset.mem_insert.mp hmem with rfl | hmem
    · exact hold q (h.kept q hq hout).1 rfl
    · exact hlive hmem

/-- A leaf of the kernel half is set under the loaded root. -/
theorem Coherent.mapped (h : Coherent start b V ⟨m, live⟩) (hvirt : virt ∈ V) (e : UInt64) :
    Coherent start b V ⟨mapAt e (pathOf virt) m m.currentPml4, live⟩ := by
  obtain ⟨c, hslot, hopen⟩ := clear_iff.mp (h.clear virt hvirt)
  obtain ⟨huse, hcur, hhalf⟩ := h.loaded_half
  have hnext : x86.next (m.ram (frame m.cr3) (pml4Index virt)) = some c := by
    rw [hhalf _ hslot.low hslot.high]
    exact reads_plain.next hslot.next
  have hmap : MappedOf plain (fun _ => True) 2 512 m c (lowerPath virt) e
      (mapAt e (pathOf virt) m m.currentPml4) := by
    rw [hcur, pathOf, mapAt_cons (List.cons_ne_nil _ _)]
    rcases vmmGetNextLevel_cases h.sane huse (pml4Index virt) with ⟨d, hd, heq⟩ | ⟨hnone, _⟩
    · obtain rfl : c = d := Option.some.inj (hnext.symm.trans hd)
      rw [heq]
      exact mapAt_mappedOf reads_plain (fun _ _ => trivial) e h.sane (h.tree.tree _ c hslot).1
        (lowerPath_mem rfl virt) hopen
    · cases hnext.symm.trans hnone
  generalize mapAt e (pathOf virt) m m.currentPml4 = m' at hmap
  obtain ⟨htree, htabs, hclear⟩ := h.tree.mapped hslot hmap
  have hsame : ∀ q, InUse m.pmm q → q ∉ kernelTables m b → m'.ram q = m.ram q ∧
      q ∉ kernelTables m' b := by
    intro q hq hout
    refine ⟨hmap.elsewhere q hq (fun hmem => hout ⟨_, c, hslot, hmem⟩), fun hmem => ?_⟩
    rcases htabs q hmem with hold | hfree
    · exact hout hold
    · exact hfree.not_inUse hq
  have hb : m'.ram b = m.ram b := (hsame b h.tree.root h.tree.root_outside).1
  refine ⟨h.sane.grows hmap.grows, htree, fun v hv => hclear v (h.clear v hv), ?_, fun r hr => ?_,
    fun q hq hout => ?_, h.boot⟩
  · rw [hmap.grows.cr3]
    exact h.loaded
  · have hroot := h.roots r hr
    obtain ⟨hram, hout⟩ := hsame r hroot.inUse hroot.outside
    refine ⟨hmap.grows.inUse r hroot.inUse, hroot.nonzero,
      fun hstore => hroot.bitmap (stores_of_grows hmap.grows hstore), hout, ?_, ?_⟩
    · rw [hram]
      exact hroot.userHalf
    · rw [hram, hb]
      exact hroot.kernelHalf
  · obtain ⟨huse, hram, hout', hlive⟩ := h.kept q hq hout
    obtain ⟨hram', hout''⟩ := hsame q huse hout'
    exact ⟨hmap.grows.inUse q huse, hram'.trans hram, hout'', hlive⟩

/-- An empty user half has nothing to give back but its root. -/
theorem vmmDestroyAddressSpace_blank (hr : r ≠ 0) (hlt : r < 2 ^ 52)
    (hblank : ∀ i < 256, m.ram r i = 0) :
    vmmDestroyAddressSpace m (pageAddr r) = m.pmmFreePage (pageAddr r) := by
  have hloop : destroyTable present destroyPdpt 256 m (pageAddr r) = m := by
    apply forUpTo_invariant (fun _ t => t = m) rfl
    rintro i t hi rfl
    have hentry : t.entry (pageAddr r) i = 0 := by
      rw [entry, pageOf_pageAddr hlt]
      exact hblank i hi
    simp [destroyEntry, hentry]
  rw [vmmDestroyAddressSpace, if_neg (pageAddr_ne_zero (Nat.pos_of_ne_zero hr) hlt), hloop]

theorem vmmCowClone_blank (hs : Sane m) (hr : InUse m.pmm r) (hblank : ∀ i < 256, m.ram r i = 0) :
    vmmCowClone m (pageAddr r) = vmmCloneKernelSpace m := by
  have hlt := hs.lt_of_inUse hr
  unfold vmmCowClone
  rcases vmmCloneKernelSpace_cases hs with ⟨hz, _⟩ | ⟨z, haddr, hne, hmade⟩
  · generalize vmmCloneKernelSpace m = out at hz ⊢
    obtain ⟨m₁, addr⟩ := out
    dsimp only at hz ⊢
    rw [if_pos hz, hz]
  · generalize vmmCloneKernelSpace m = out at haddr hmade ⊢
    obtain ⟨m₁, addr⟩ := out
    dsimp only at haddr hmade ⊢
    have hloop : cloneTable vmmClonePdpt 256 m₁ (pageAddr r) addr = m₁ := by
      apply forUpTo_invariant (fun _ t => t = m₁) rfl
      rintro i t hi rfl
      have hentry : t.entry (pageAddr r) i = 0 := by
        rw [entry, pageOf_pageAddr (by omega), hmade.other r ?_]
        · exact hblank i hi
        · intro heq
          subst r
          exact hmade.free.not_inUse hr
      simp [cloneEntry, hentry]
    rw [if_neg (haddr ▸ hne), hloop]

/-- The operations of the kernel on its half. It maps through the addresses in `V`, unmaps these
and what lies under an empty entry of the root, and destroys no loaded address space. -/
inductive Step (b : ℕ) (V : Set UInt64) (s : System) : System → Prop where
  | cloneKernelSpace : Step b V s (s.opened (vmmCloneKernelSpace s.machine))
  | processCreate (k : Kernel) (ppid : Int32) (hk : k.machine = s.machine)
      (hheap : ∀ j < 4, k.machine.heap.virtEnd + UInt64.ofNat j * 4096 ∈ V) :
      Step b V s (s.opened ((processCreate k ppid).1.machine,
        ((processCreate k ppid).2.map Processes.Process.cr3).getD 0))
  | cowClone (r : ℕ) (hr : r ∈ s.live) : Step b V s (s.opened (vmmCowClone s.machine (pageAddr r)))
  | mapPage (virt phys flags : UInt64) (hvirt : virt ∈ V) :
      Step b V s ⟨vmmMapPage s.machine virt phys flags, s.live⟩
  | unmapPage (virt : UInt64) (hhalf : 256 ≤ pml4Index virt)
      (hvirt : present (s.machine.ram b (pml4Index virt)) = true → virt ∈ V) :
      Step b V s ⟨vmmUnmapPage s.machine virt, s.live⟩
  | destroyAddressSpace (r : ℕ) (hr : r ∈ s.live) (hloaded : s.machine.cr3 ≠ pageAddr r) :
      Step b V s ⟨vmmDestroyAddressSpace s.machine (pageAddr r), s.live.erase r⟩
  | writeCr3 (r : ℕ) (hr : r = b ∨ r ∈ s.live) :
      Step b V s ⟨s.machine.writeCr3 (pageAddr r), s.live⟩
  | takePage : Step b V s ⟨s.machine.pmmAllocPage.1, s.live⟩
  | refuse (ds : List Bool) : Step b V s ⟨denying s.machine ds, s.live⟩

theorem Coherent.opened (h : Coherent start b V s) :
    Coherent start b V (s.opened (vmmCloneKernelSpace s.machine)) := by
  rcases vmmCloneKernelSpace_cases h.sane with ⟨hz, href⟩ | ⟨z, haddr, hne, hmade⟩
  · rw [opened_refused hz]
    exact h.of_eq href.ram href.pmm href.cr3
  · rw [opened_new haddr hne (h.sane.lt_of_isFree hmade.free)]
    exact h.created hmade

section

variable (h : Coherent start b V ⟨m, live⟩)
include h

theorem Coherent.allocated : Coherent start b V ⟨m.pmmAllocPage.1, live⟩ := by
  rcases pmmAllocPage_cases h.sane with ⟨_, href⟩ | ⟨f, _, _, hnew⟩
  · exact h.of_eq href.ram href.pmm href.cr3
  · exact h.grows hnew.grows fun q hq => hnew.ram_of_ne (hnew.ne_of_inUse hq)

theorem Coherent.growPages {n : ℕ} (hheap : ∀ j < n, m.heap.virtEnd + UInt64.ofNat j * 4096 ∈ V) :
    Coherent start b V ⟨(forWhile (fun _ => growPage) n m).1, live⟩ := by
  induction n with
  | zero => exact h
  | succ n ih =>
    have hprefix := ih fun j hj => hheap j (by omega)
    obtain ⟨j, _, hdone, hend⟩ := growPages_heap m n
    rw [forWhile]
    split
    · rename_i hgoing
      -- the page that is mapped now is the one behind those mapped before
      have hvirt : (forWhile (fun _ => growPage) n m).1.heap.virtEnd ∈ V := by
        rw [hend, hdone hgoing]
        exact hheap n (Nat.lt_succ_self n)
      generalize (forWhile (fun _ => growPage) n m).1 = m₁ at hprefix hvirt
      unfold growPage
      split
      · exact hprefix.allocated
      · have hmap := hprefix.allocated.mapped hvirt (leafEntry m₁.pmmAllocPage.2 heapFlags)
        exact hmap.of_eq rfl rfl rfl
    · exact hprefix

theorem Coherent.kmalloc (hheap : ∀ j < 4, m.heap.virtEnd + UInt64.ofNat j * 4096 ∈ V) :
    Coherent start b V ⟨(kmalloc m sizeofProcess).1, live⟩ := by
  have hgrow : Coherent start b V ⟨(heapGrow m (growthFor (rounded sizeofProcess))).1, live⟩ := by
    have hfour : (growthFor (rounded sizeofProcess)).toNat = 4 := by decide
    simp only [heapGrow, hfour]
    exact (h.growPages hheap).of_eq rfl rfl rfl
  rcases kmalloc_cases m (show sizeofProcess ≠ 0 by decide) (by decide) (by decide) with
    ⟨ptr, blocks, _, heq⟩ | ⟨_, _, heq⟩ | ⟨_, _, ptr, blocks, _, heq⟩
  · rw [heq]
    exact h.of_eq rfl rfl rfl
  · rw [heq]
    exact hgrow
  · rw [heq]
    exact hgrow.of_eq rfl rfl rfl

end

theorem Coherent.processCreate {k : Kernel} (h : Coherent start b V ⟨k.machine, live⟩)
    (ppid : Int32) (hheap : ∀ j < 4, k.machine.heap.virtEnd + UInt64.ofNat j * 4096 ∈ V) :
    Coherent start b V (System.opened ⟨k.machine, live⟩ ((processCreate k ppid).1.machine,
      ((processCreate k ppid).2.map Processes.Process.cr3).getD 0)) := by
  have hrec := h.kmalloc hheap
  unfold ProcessTable.processCreate
  simp only [processAllocAddressSpace_eq]
  generalize KernelHeap.kmalloc k.machine sizeofProcess = out at hrec
  obtain ⟨m₁, p⟩ := out
  have hopened : Coherent start b V (System.opened ⟨m₁, live⟩ (vmmCloneKernelSpace m₁)) :=
    hrec.opened
  generalize vmmCloneKernelSpace m₁ = space at hopened
  obtain ⟨m₂, cr3⟩ := space
  split
  · exact hrec
  · split
    · rename_i hz
      have href : Coherent start b V ⟨m₂, live⟩ := by
        rw [opened_refused (hz)] at hopened
        exact hopened
      unfold kfree
      split
      · exact href
      · exact href.of_eq rfl rfl rfl
    · exact hopened

theorem Coherent.destroyed (h : Coherent start b V ⟨m, live⟩) (hr : r ∈ live)
    (hloaded : m.cr3 ≠ pageAddr r) :
    Coherent start b V ⟨vmmDestroyAddressSpace m (pageAddr r), live.erase r⟩ := by
  have hroot := h.roots r hr
  have hlt : r < 2 ^ 52 := by
    have := h.sane.lt_of_inUse hroot.inUse
    omega
  rw [vmmDestroyAddressSpace_blank hroot.nonzero hlt hroot.userHalf]
  obtain ⟨hlayout, huse, _⟩ := freePage_spec hroot.nonzero hlt hroot.inUse
  apply h.keeps (Finset.erase_subset r live) hlayout
  · intro q hq hstays
    have hqr : q ≠ r := by
      intro heq
      subst q
      exact Finset.notMem_erase r live (hstays hr)
    exact ⟨(huse q).mpr ⟨hq, hqr⟩, rfl⟩
  · obtain ⟨t, ht, hcr3⟩ := h.loaded
    refine ⟨t, ht.imp id (fun hmem => Finset.mem_erase.mpr ⟨?_, hmem⟩), hcr3⟩
    intro heq
    exact hloaded (heq ▸ hcr3)

theorem Coherent.unmapped (h : Coherent start b V ⟨m, live⟩) (hhalf : 256 ≤ pml4Index virt)
    (hvirt : present (m.ram b (pml4Index virt)) = true → virt ∈ V) :
    Coherent start b V ⟨vmmUnmapPage m virt, live⟩ := by
  cases hpt : vmmFindPt m virt with
  | none =>
    rw [vmmUnmapPage, hpt]
    exact h
  | some pt =>
    rw [vmmUnmapPage_eq hpt]
    refine h.mapped (hvirt ?_) 0
    obtain ⟨huse, hcur, hsame⟩ := h.loaded_half
    cases hpres : present (m.ram b (pml4Index virt)) with
    | true => rfl
    | false =>
      have hentry : m.entry m.currentPml4 (pml4Index virt) = m.ram b (pml4Index virt) := by
        exact hsame _ hhalf (pml4Index_lt virt)
      rw [vmmFindPt, vmmGetNextLevel, hentry, hpres] at hpt
      simp at hpt

theorem step_coherent (h : Coherent start b V s) (hstep : Step b V s s') :
    Coherent start b V s' := by
  cases hstep with
  | cloneKernelSpace => exact h.opened
  | processCreate k ppid hk hheap =>
    obtain ⟨machine, live⟩ := s
    subst hk
    exact h.processCreate ppid hheap
  | cowClone r hr =>
    rw [vmmCowClone_blank h.sane (h.roots r hr).inUse (h.roots r hr).userHalf]
    exact h.opened
  | mapPage virt phys flags hvirt => exact h.mapped hvirt _
  | unmapPage virt hhalf hvirt => exact h.unmapped hhalf hvirt
  | destroyAddressSpace r hr hloaded => exact h.destroyed hr hloaded
  | writeCr3 r hr =>
    exact h.keeps subset_rfl ⟨rfl, rfl⟩ (fun q hq _ => ⟨hq, rfl⟩) ⟨r, hr, rfl⟩
  | takePage => exact h.allocated
  | refuse ds => exact h.of_eq rfl rfl rfl

theorem reachable_coherent (h : Coherent start b V s) (hrun : Reachable (Step b V) s s') :
    Coherent start b V s' :=
  hrun.invariant (Coherent start b V) (fun _ _ h hstep => step_coherent h hstep) h

def translation (m : Machine) (r : ℕ) (addr : UInt64) : Option UInt64 × UInt64 :=
  (mmuWalk (m.writeCr3 (pageAddr r)) addr, vmmGetPhys (m.writeCr3 (pageAddr r)) addr)

theorem ram_writeCr3 (m : Machine) (value : UInt64) : (m.writeCr3 value).ram = m.ram := rfl

theorem entry_writeCr3 (m : Machine) (value table : UInt64) (index : ℕ) :
    (m.writeCr3 value).entry table index = m.entry table index := rfl

theorem pml4e_writeCr3 (hr : r < 2 ^ 40) (addr : UInt64) :
    pml4e (m.writeCr3 (pageAddr r)) addr = m.ram r (pml4Index addr) := by
  rw [pml4e, currentPml4_eq hr rfl, entry_writeCr3, entry, pageOf_pageAddr (by omega)]

/-- A walk depends on the root only through its first word. -/
theorem translation_congr {t : ℕ} {addr : UInt64} (hr : r < 2 ^ 40) (ht : t < 2 ^ 40)
    (hentry : m.ram r (pml4Index addr) = m.ram t (pml4Index addr)) :
    translation m r addr = translation m t addr := by
  have hfirst : pml4e (m.writeCr3 (pageAddr r)) addr = pml4e (m.writeCr3 (pageAddr t)) addr := by
    rw [pml4e_writeCr3 hr, pml4e_writeCr3 ht, hentry]
  have hram : (m.writeCr3 (pageAddr r)).ram = (m.writeCr3 (pageAddr t)).ram :=
    (ram_writeCr3 m _).trans (ram_writeCr3 m _).symm
  obtain ⟨hwalk, hphys⟩ := walks_congr hram hfirst
  rw [translation, translation, hwalk, hphys]

/-- From boot on, all address spaces translate kernel addresses alike, if the kernel only maps and
unmaps where its entry in the root was filled at boot and no large page is on the way. -/
theorem kernel_half_coherent (hs : Sane m) (htree : KernelTree m b) (hcr3 : m.cr3 = pageAddr b)
    (hclear : ∀ virt ∈ V, Clear m b virt) (hrun : Reachable (Step b V) ⟨m, ∅⟩ s)
    (hr : r = b ∨ r ∈ s.live) {addr : UInt64} (haddr : 256 ≤ pml4Index addr) :
    translation s.machine r addr = translation s.machine b addr := by
  have h := reachable_coherent (coherent_start hs htree hclear hcr3) hrun
  rcases hr with rfl | hr
  · rfl
  · exact translation_congr (h.sane.lt_of_inUse (h.roots r hr).inUse)
      (h.sane.lt_of_inUse h.tree.root) ((h.roots r hr).kernelHalf _ haddr (pml4Index_lt addr))

def crowdedMachine : Machine :=
  { directMap with
    pmm := {
      bitmap := Bitmap.fullBytes 64
      bitmapAddr := 0x1000
      maxPageIndex := 513
      usablePages := 513
      usedPages := 512
      pageRefcount := fun _ => 0
      maxPageIndex_lt := by decide } }

theorem crowded_sane : Sane crowdedMachine :=
  sane_of_fullBytes rfl (by decide) (by decide) (by decide) (by decide) (by decide)

theorem crowded_inUse (hq : q < 512) : InUse crowdedMachine.pmm q :=
  ⟨show q < 513 by omega, (Bitmap.test_fullBytes 64 q).trans (decide_eq_true hq)⟩

theorem crowded_free (hq : IsFree crowdedMachine.pmm q) : q = 512 := by
  have hlt : q < 513 := hq.1
  by_contra hne
  exact hq.not_inUse (crowded_inUse (by omega))

theorem directMap_next {p : ℕ} (h : plain.next (directMap.ram p i) = some c) :
    (p = 200 ∧ i = 256 ∧ c = 201) ∨ (p = 201 ∧ i = 0 ∧ c = 202) ∨ (p = 202 ∧ i = 0 ∧ c = 203) ∨
      (p = 203 ∧ i = 300 ∧ c = 300) := by
  simp only [directMap] at h
  split_ifs at h with h₀ h₁ h₂ h₃ h₄
  · exact .inl ⟨h₀.1, h₀.2, (Option.some.inj h).symm⟩
  · exact .inr (.inl ⟨h₁.1, h₁.2, (Option.some.inj h).symm⟩)
  · exact .inr (.inr (.inl ⟨h₂.1, h₂.2, (Option.some.inj h).symm⟩))
  · cases h
  · exact .inr (.inr (.inr ⟨h₄.1, h₄.2, (Option.some.inj h).symm⟩))
  · cases h

theorem directMap_tree (hram : m.ram = directMap.ram) (huse : ∀ q < 512, InUse m.pmm q) :
    BootTree m 200 := by
  have hnext : ∀ {p i c}, plain.next (m.ram p i) = some c → _ := fun {p i c} h =>
    directMap_next (by rwa [hram] at h)
  refine bootTree_of_chain (i := 256) (j := 0) (k := 0) (c := 201) (d := 202) (e := 203) ?_ ?_ ?_
    (by decide) (fun q hq => huse q (by simp at hq; omega))
  all_goals
    intro x r hr
    have := hnext hr
    omega

theorem crowded_tree : BootTree crowdedMachine 200 :=
    directMap_tree rfl (fun _ hq => crowded_inUse hq)

/-- The first clone from the direct map has its root in page 512. -/
theorem crowded_clone : ∃ m', Created crowdedMachine 512 m' ∧ ∀ b V,
    Step b V ⟨crowdedMachine, ∅⟩ ⟨m', {512}⟩ := by
  have haff : Affords crowdedMachine 1 := (affords_of_fullBytes rfl rfl).mono (by decide)
  rcases vmmCloneKernelSpace_cases crowded_sane with ⟨_, href⟩ | ⟨z, haddr, hne, hmade⟩
  · exact absurd href haff.not_refused
  · obtain rfl := crowded_free hmade.free
    refine ⟨_, hmade, fun b V => ?_⟩
    have hstep := Step.cloneKernelSpace (b := b) (V := V) (s := ⟨crowdedMachine, ∅⟩)
    rw [opened_new haddr hne (by decide)] at hstep
    exact hstep

theorem kernel_half_coherent_direct :
    ∃ s, Reachable (Step 200 {0xFFFF80000012D000}) ⟨crowdedMachine, ∅⟩ s ∧ 512 ∈ s.live ∧
      translation s.machine 512 0xFFFF80000012D010 =
        translation s.machine 200 0xFFFF80000012D010 := by
  obtain ⟨m', hmade, hclone⟩ := crowded_clone
  have hmap := Step.mapPage (b := 200) (V := {0xFFFF80000012D000}) (s := ⟨m', {512}⟩)
    0xFFFF80000012D000 0x12D000 3 rfl
  have hrun : Reachable (Step 200 {0xFFFF80000012D000}) ⟨crowdedMachine, ∅⟩ _ :=
    (Relation.ReflTransGen.single (hclone _ _)).tail hmap
  refine ⟨_, hrun, Finset.mem_singleton_self 512, ?_⟩
  apply kernel_half_coherent crowded_sane crowded_tree.kernelTree rfl _ hrun
    (Or.inr (Finset.mem_singleton_self 512)) (by decide)
  rintro virt rfl
  refine ⟨by decide, by decide, ?_⟩
  decide

/-- The walk for 0xFFFF800000300000 takes the large page, where the new root lies, for a table,
and the entry is written into this root. -/
theorem large_page_breaks_root :
    let V : Set UInt64 := {0xFFFF800000300000}
    (∀ virt ∈ V, 256 ≤ pml4Index virt ∧ present (crowdedMachine.ram 200 (pml4Index virt)) = true) ∧
      Sane crowdedMachine ∧ KernelTree crowdedMachine 200 ∧ crowdedMachine.cr3 = pageAddr 200 ∧
      ∃ s, Reachable (Step 200 V) ⟨crowdedMachine, ∅⟩ s ∧ 512 ∈ s.live ∧
        (translation s.machine 200 0xFFFF800000200010).1 = some 0x200010 ∧
        (translation s.machine 512 0xFFFF800000200010).1 = none := by
  intro V
  refine ⟨?_, crowded_sane, crowded_tree.kernelTree, rfl, ?_⟩
  · rintro virt rfl
    decide
  obtain ⟨m', hmade, hclone⟩ := crowded_clone
  have hmap := Step.mapPage (b := 200) (V := V) (s := ⟨m', {512}⟩) 0xFFFF800000300000 0x12C000 3 rfl
  refine ⟨_, (Relation.ReflTransGen.single (hclone 200 V)).tail hmap,
    Finset.mem_singleton_self 512, ?_⟩
  have hold : ∀ q, q < 512 → m'.ram q = directMap.ram q := fun q hq =>
    hmade.other q (by omega)
  have hmapped : (vmmMapPage m' 0xFFFF800000300000 0x12C000 3).ram =
      update m'.ram 512 (update (m'.ram 512) 256 0x12C003) := by
    have hcr3 : m'.cr3 = 0xC8000 := hmade.grows.cr3
    have h₄ : m'.entry m'.currentPml4 256 = 0xC9003 := by
      rw [currentPml4, hcr3]
      exact congrFun (hold 200 (by decide)) 256
    have h₃ : m'.entry 0xC9000 0 = 0xCA003 := congrFun (hold 201 (by decide)) 0
    have h₂ : m'.entry 0xCA000 1 = 0x200083 := congrFun (hold 202 (by decide)) 1
    have hlevel : ∀ {table e : UInt64} {i : ℕ}, m'.entry table i = e → present e = true →
        vmmGetNextLevel m' table i true = (m', some (e &&& addrMask)) := by
      intro table e i he hpres
      rw [vmmGetNextLevel, he, if_pos hpres]
    have hwalk : vmmMapPage m' 0xFFFF800000300000 0x12C000 3 =
        m'.setEntry 0x200000 256 0x12C003 := by
      have hpath : pathOf 0xFFFF800000300000 = [256, 0, 1, 256] := by decide
      have h₄' : vmmGetNextLevel m' m'.currentPml4 256 true = (m', some 0xC9000) :=
        hlevel h₄ (by decide)
      have h₃' : vmmGetNextLevel m' 0xC9000 0 true = (m', some 0xCA000) := hlevel h₃ (by decide)
      have h₂' : vmmGetNextLevel m' 0xCA000 1 true = (m', some 0x200000) := hlevel h₂ (by decide)
      rw [vmmMapPage_eq, hpath]
      simp only [mapAt, h₄', h₃', h₂']
      rfl
    rw [hwalk]
    rfl
  generalize vmmMapPage m' 0xFFFF800000300000 0x12C000 3 = m'' at hmapped
  have hrest : ∀ q, q < 512 → m''.ram q = directMap.ram q := by
    intro q hq
    rw [hmapped, update_of_ne (by omega)]
    exact hold q hq
  have hroot : m''.ram 512 256 = 0x12C003 := by
    rw [hmapped, update_self, update_self]
  constructor
  · have h₄ : pml4e (m''.writeCr3 (pageAddr 200)) 0xFFFF800000200010 = 0xC9003 :=
      (pml4e_writeCr3 (by decide) _).trans (congrFun (hrest 200 (by decide)) 256)
    have h₃ : pdpte (m''.writeCr3 (pageAddr 200)) 0xFFFF800000200010 = 0xCA003 := by
      rw [pdpte, h₄]
      exact congrFun (hrest 201 (by decide)) 0
    have h₂ : pde (m''.writeCr3 (pageAddr 200)) 0xFFFF800000200010 = 0x200083 := by
      rw [pde, h₃]
      exact congrFun (hrest 202 (by decide)) 1
    rw [translation, mmuWalk, h₄, h₃, h₂]
    rfl
  · have h₄ : pml4e (m''.writeCr3 (pageAddr 512)) 0xFFFF800000200010 = 0x12C003 :=
      (pml4e_writeCr3 (by decide) _).trans hroot
    have h₃ : pdpte (m''.writeCr3 (pageAddr 512)) 0xFFFF800000200010 = 0 := by
      rw [pdpte, h₄]
      exact congrFun (hrest 300 (by decide)) 0
    rw [translation, mmuWalk, h₄, h₃]
    rfl

end NexusKernel.KernelHalf
