import NexusKernel.KernelHeap
import NexusKernel.AddressSpaces

/-!
The page tables of the kernel half, shared by all address spaces and perhaps with large pages. All
that is known is a set of pages with every table on the way to the kernel heap. Growing the heap
writes only to these pages, to the kernel half of the loaded root and to fresh pages, and extends
the set.
-/

namespace NexusKernel.KernelTables

open Lib.TableTree PhysicalMemory PageAllocation PageEntries Hardware PageSupply Vmm Walks
open Mapping Destruction AddressSpaces KernelHeap Function

def WalkIn (K : Set ℕ) (ram : Store UInt64) : ℕ → List ℕ → Prop
  | _, [] => True
  | p, [_] => p ∈ K
  | p, i :: j :: rest =>
      p ∈ K ∧ ∀ c, x86.next (ram p i) = some c → WalkIn K ram c (j :: rest)

def taken (m m' : Machine) : Set ℕ := {q | IsFree m.pmm q ∧ InUse m'.pmm q}

variable {K : Set ℕ} {ram ram' : Store UInt64} {m m₁ m₂ : Machine} {p r : ℕ}
  {l : List ℕ} {e : UInt64}

variable {m' : Machine} {i t : ℕ}

theorem walkIn_cons (hl : l ≠ []) :
    WalkIn K ram p (i :: l) ↔ p ∈ K ∧ ∀ c, x86.next (ram p i) = some c → WalkIn K ram c l := by
  cases l with
  | nil => exact absurd rfl hl
  | cons j rest => rfl

theorem WalkIn.mem (hl : l ≠ []) (h : WalkIn K ram p l) : p ∈ K := by
  cases l with
  | nil => exact absurd rfl hl
  | cons i rest =>
    cases rest with
    | nil => exact h
    | cons j rest => exact h.1

/-- A walk in a set stays in a larger one if every changed entry of its tables leads into a part
`T` of it that no walk leaves. -/
theorem WalkIn.extend {K' T : Set ℕ} (hK : K ⊆ K') (hT : T ⊆ K')
    (hclosed : ∀ q ∈ T, ∀ i c, x86.next (ram' q i) = some c → c ∈ T)
    (hkept : ∀ q ∈ K, ∀ i c, x86.next (ram' q i) = some c → ram' q i = ram q i ∨ c ∈ T)
    (h : WalkIn K ram p l ∨ p ∈ T) : WalkIn K' ram' p l := by
  induction l generalizing p with
  | nil => exact trivial
  | cons i rest ih =>
    have hp : p ∈ K' := by
      rcases h with h | h
      · exact hK (h.mem (by simp))
      · exact hT h
    by_cases hrest : rest = []
    · subst rest
      exact hp
    · rw [walkIn_cons hrest]
      refine ⟨hp, fun c hc => ih ?_⟩
      rcases h with h | h
      · rw [walkIn_cons hrest] at h
        rcases hkept p h.1 i c hc with hsame | hc'
        · rw [hsame] at hc
          exact .inl (h.2 c hc)
        · exact .inr hc'
      · exact .inr (hclosed p h i c hc)

theorem WalkIn.congr {K' : Set ℕ} (hK : K ⊆ K') (hsame : ∀ q ∈ K, ram' q = ram q)
    (h : WalkIn K ram p l) : WalkIn K' ram' p l :=
  WalkIn.extend hK (Set.empty_subset K') nofun
    (fun q hq i _ _ => .inl (congrFun (hsame q hq) i)) (.inl h)

theorem taken_subset {m : Machine} (h : Grows m m') (m'' : Machine) : taken m' m'' ⊆ taken m m'' :=
  fun _ hq => ⟨h.isFree hq.1, hq.2⟩

theorem taken_later {m m'' : Machine} {q t : ℕ} (h : Grows m m') (honly : InUse m'.pmm q →
      InUse m.pmm q ∨ q = t) (hq : q ∈ taken m m'') (hne : q ≠ t) : q ∈ taken m' m'' := by
  refine ⟨isFree_of_not_inUse ?_ fun huse => (honly huse).elim hq.1.not_inUse hne, hq.2⟩
  rw [h.maxPageIndex]
  exact hq.1.1

structure Extended (K : Set ℕ) (e : UInt64) (m m' : Machine) : Prop where
  grows : Grows m m'
  elsewhere : ∀ q, InUse m.pmm q → q ∉ K → m'.ram q = m.ram q
  refcount : ∀ q, InUse m.pmm q → m'.pmm.pageRefcount q = m.pmm.pageRefcount q
  kept : ∀ q ∈ K, ∀ i c, x86.next (m'.ram q i) = some c →
    m'.ram q i = m.ram q i ∨ m'.ram q i = e ∨ c ∈ taken m m'
  fresh : ∀ q ∈ taken m m', ∀ i c, x86.next (m'.ram q i) = some c → m'.ram q i = e ∨ c ∈ taken m m'

private theorem not_taken_of_pmm (hpmm : m'.pmm = m.pmm) (q : ℕ) : q ∉ taken m m' := by
  intro hq
  have huse := hq.2
  rw [hpmm] at huse
  exact hq.1.not_inUse huse

theorem extended_leaf (hp : p ∈ K) (hlt : p < 2 ^ 52) (i : ℕ) :
    Extended K e m (m.setEntry (pageAddr p) i e) := by
  have hram := setEntry_ram (m := m) (i := i) (e := e) hlt
  refine ⟨(Grows.refl m).write _, ?_, fun _ _ => rfl, ?_, ?_⟩
  · intro q _ hq
    have hqp : q ≠ p := fun heq => hq (heq ▸ hp)
    rw [hram, update_of_ne hqp]
  · intro q _ j c _
    rw [hram]
    by_cases hqp : q = p
    · subst q
      by_cases hji : j = i
      · subst j
        exact .inr (.inl (by simp))
      · exact .inl (by simp [hji])
    · exact .inl (by rw [update_of_ne hqp])
  · exact fun q hq => absurd hq (not_taken_of_pmm rfl q)

theorem extended_refused (h : Refused m m₁) : Extended K e m m₁ := by
  refine ⟨h.grows, fun q _ _ => by rw [h.ram], fun q _ => by rw [h.pmm], ?_,
    fun q hq => absurd hq (not_taken_of_pmm h.pmm q)⟩
  intro q _ i c _
  rw [h.ram]
  exact .inl rfl

/-- A new table in entry `i` of a table in `K`, filled afterwards. -/
theorem extended_installed (h : Installed m p i t m₁) (hp : p ∈ K)
    (hK : ∀ q ∈ K, InUse m.pmm q) (hrest : Extended (insert t K) e m₁ m₂) : Extended K e m m₂ := by
  have htaken := taken_subset h.grows m₂
  have hne : ∀ q, InUse m.pmm q → q ≠ t := fun _ => h.free.ne
  have ht : t ∈ taken m m₂ := ⟨h.free, hrest.grows.inUse t ((h.inUse_iff t).mpr (.inr rfl))⟩
  refine ⟨h.grows.trans hrest.grows, ?_, ?_, ?_, ?_⟩
  · intro q hq hqK
    have hqt := hne q hq
    rw [hrest.elsewhere q (h.grows.inUse q hq) (by simp [hqt, hqK])]
    exact h.other q (fun heq => hqK (heq ▸ hp)) hqt
  · intro q hq
    rw [hrest.refcount q (h.grows.inUse q hq), h.refcount q (hne q hq)]
  · intro q hq j c hc
    rcases hrest.kept q (Set.mem_insert_of_mem t hq) j c hc with hsame | he | hc'
    · by_cases hqp : q = p
      · subst q
        by_cases hji : j = i
        · subst j
          rw [hsame, h.linkOf reads_x86] at hc
          cases hc
          exact .inr (.inr ht)
        · refine .inl (hsame.trans ?_)
          rw [h.parent, update_of_ne hji]
      · exact .inl (hsame.trans (congrFun (h.other q hqp (hne q (hK q hq))) j))
    · exact .inr (.inl he)
    · exact .inr (.inr (htaken hc'))
  · intro q hq j c hc
    by_cases hqt : q = t
    · subst q
      rcases hrest.kept t (Set.mem_insert t K) j c hc with hsame | he | hc'
      · rw [hsame, h.child] at hc
        cases hc
      · exact .inl he
      · exact .inr (htaken hc')
    · have hq₁ := taken_later h.grows (h.inUse_iff q).mp hq hqt
      rcases hrest.fresh q hq₁ j c hc with he | hc'
      · exact .inl he
      · exact .inr (htaken hc')

/-- The part of a walk below a new table, which is empty. -/
private theorem walkIn_blank (ht : t ∈ K) (hblank : ∀ k, ram t k = 0) : WalkIn K ram t l := by
  cases l with
  | nil => exact trivial
  | cons j tail =>
    by_cases htail : tail = []
    · subst tail
      exact ht
    · rw [walkIn_cons htail]
      refine ⟨ht, fun c hc => ?_⟩
      rw [hblank j] at hc
      cases hc

private theorem inUse_installed (h : Installed m p i t m₁) (hK : ∀ q ∈ K, InUse m.pmm q) :
    ∀ q ∈ insert t K, InUse m₁.pmm q := by
  rintro q (rfl | hq)
  · exact (h.inUse_iff q).mpr (.inr rfl)
  · exact h.grows.inUse q (hK q hq)

theorem mapAt_extended (hs : Sane m) (hK : ∀ q ∈ K, InUse m.pmm q) (hl : l ≠ [])
    (hwalk : WalkIn K m.ram p l) : Extended K e m (mapAt e l m (pageAddr p)) := by
  induction l generalizing m p K with
  | nil => exact absurd rfl hl
  | cons i rest ih =>
    have hp := hwalk.mem hl
    have huse := hK p hp
    by_cases hrest : rest = []
    · subst rest
      have hlt := hs.lt_of_inUse huse
      exact extended_leaf hp (by omega) i
    · rw [mapAt_cons hrest]
      rw [walkIn_cons hrest] at hwalk
      rcases vmmGetNextLevel_cases hs huse i with
        ⟨c, hc, heq⟩ | ⟨hnone, ⟨m₁, heq, href⟩ | ⟨t, m₁, heq, hinst⟩⟩
      · rw [heq]
        exact ih hs hK hrest (hwalk.2 c hc)
      · rw [heq]
        exact extended_refused href
      · rw [heq]
        exact extended_installed hinst hp hK
          (ih (hs.grows hinst.grows) (inUse_installed hinst hK) hrest
            (walkIn_blank (Set.mem_insert t K) hinst.child))

def HeapWalk (K : Set ℕ) (ram : Store UInt64) (t : ℕ) : Prop :=
  ∀ virt, heapVirtStart ≤ virt → ∀ c, x86.next (ram t (pml4Index virt)) = some c →
    WalkIn K ram c [pdptIndex virt, pdIndex virt, ptIndex virt]

theorem pml4Index_heap {virt : UInt64} (hvirt : heapVirtStart ≤ virt) : 256 ≤ pml4Index virt := by
  have hlow : 0xFFFFFFFF90000000 ≤ virt.toNat := UInt64.le_iff_toNat_le.mp hvirt
  have hhigh := virt.toNat_lt
  rw [pml4Index_eq]
  omega

theorem HeapWalk.congr (hroot : ∀ i, 256 ≤ i → ram' t i = ram t i)
    (hsame : ∀ q ∈ K, ram' q = ram q) (h : HeapWalk K ram t) : HeapWalk K ram' t := by
  intro virt hvirt c hc
  rw [hroot _ (pml4Index_heap hvirt)] at hc
  exact (h virt hvirt c hc).congr subset_rfl hsame

structure HeapReady (K : Set ℕ) (r : ℕ) (m : Machine) : Prop where
  sane : Sane m
  inUse : ∀ q ∈ K, InUse m.pmm q
  root : InUse m.pmm r
  apart : r ∉ K
  cr3 : m.cr3 = pageAddr r
  walk : HeapWalk K m.ram r

structure Growth (K : Set ℕ) (r : ℕ) (m m' : Machine) : Prop where
  layout : SameLayout m.pmm m'.pmm
  inUse : ∀ q, InUse m.pmm q → InUse m'.pmm q
  cr3 : m'.cr3 = m.cr3
  elsewhere : ∀ q, InUse m.pmm q → q ∉ K → q ≠ r → m'.ram q = m.ram q
  userHalf : ∀ i, i < 256 → m'.ram r i = m.ram r i
  refcount : ∀ q, InUse m.pmm q → m'.pmm.pageRefcount q = m.pmm.pageRefcount q
  kept : ∀ q, q ∈ K ∨ q = r → ∀ i c, x86.next (m'.ram q i) = some c →
    m'.ram q i = m.ram q i ∨ c ∈ taken m m'
  fresh : ∀ q ∈ taken m m', ∀ i c, x86.next (m'.ram q i) = some c → c ∈ taken m m'

theorem Growth.of_eq (hram : m'.ram = m.ram) (hpmm : m'.pmm = m.pmm) (hcr3 : m'.cr3 = m.cr3) :
    Growth K r m m' := by
  refine ⟨⟨by rw [hpmm], by rw [hpmm]⟩, fun q hq => hpmm ▸ hq, hcr3, fun q _ _ _ => by rw [hram],
    fun i _ => by rw [hram], fun q _ => by rw [hpmm], ?_,
    fun q hq => absurd hq (not_taken_of_pmm hpmm q)⟩
  intro q _ i c _
  rw [hram]
  exact .inl rfl

section

variable (h : Growth K r m m₁)
include h

theorem Growth.isFree {q : ℕ} (hq : IsFree m₁.pmm q) : IsFree m.pmm q := by
  apply isFree_of_not_inUse
  · rw [← h.layout.maxPageIndex]
    exact hq.1
  · exact fun hu => hq.not_inUse (h.inUse q hu)

theorem Growth.taken_iff (huse : ∀ q, InUse m₁.pmm q → InUse m₂.pmm q)
    (q : ℕ) : q ∈ taken m m₂ ↔ q ∈ taken m m₁ ∨ q ∈ taken m₁ m₂ := by
  constructor
  · intro hq
    by_cases hq₁ : InUse m₁.pmm q
    · exact .inl ⟨hq.1, hq₁⟩
    · refine .inr ⟨isFree_of_not_inUse ?_ hq₁, hq.2⟩
      rw [h.layout.maxPageIndex]
      exact hq.1.1
  · intro hq
    rcases hq with hq | hq
    · exact ⟨hq.1, huse q hq.2⟩
    · exact ⟨h.isFree hq.1, hq.2⟩

theorem Growth.trans (h' : Growth (K ∪ taken m m₁) r m₁ m₂) : Growth K r m m₂ := by
  have htaken := h.taken_iff h'.inUse
  refine ⟨h.layout.trans h'.layout, fun q hq => h'.inUse q (h.inUse q hq), h'.cr3.trans h.cr3, ?_,
    ?_, ?_, ?_, ?_⟩
  · intro q hq hqK hqr
    have hout : q ∉ K ∪ taken m m₁ := by
      rintro (hmem | hmem)
      · exact hqK hmem
      · exact hmem.1.not_inUse hq
    rw [h'.elsewhere q (h.inUse q hq) hout hqr, h.elsewhere q hq hqK hqr]
  · exact fun i hi => (h'.userHalf i hi).trans (h.userHalf i hi)
  · exact fun q hq => (h'.refcount q (h.inUse q hq)).trans (h.refcount q hq)
  · intro q hq i c hc
    rcases h'.kept q (hq.imp Or.inl id) i c hc with hsame | hc'
    · rw [hsame] at hc ⊢
      exact (h.kept q hq i c hc).imp id (fun hc' => (htaken c).mpr (Or.inl hc'))
    · exact Or.inr ((htaken c).mpr (Or.inr hc'))
  · intro q hq i c hc
    rcases (htaken q).mp hq with hq | hq
    · rcases h'.kept q (Or.inl (Or.inr hq)) i c hc with hsame | hc'
      · rw [hsame] at hc
        exact (htaken c).mpr (Or.inl (h.fresh q hq i c hc))
      · exact (htaken c).mpr (Or.inr hc')
    · exact (htaken c).mpr (Or.inr (h'.fresh q hq i c hc))

theorem Growth.heapWalk (ht : InUse m.pmm t)
    (hwalk : HeapWalk K m.ram t) : HeapWalk (K ∪ taken m m₁) m₁.ram t := by
  intro virt hvirt c hc
  have hst : m₁.ram t (pml4Index virt) = m.ram t (pml4Index virt) ∨ c ∈ taken m m₁ := by
    by_cases hmem : t ∈ K ∨ t = r
    · exact h.kept t hmem _ c hc
    · push Not at hmem
      exact Or.inl (congrFun (h.elsewhere t ht hmem.1 hmem.2) _)
  apply WalkIn.extend Set.subset_union_left Set.subset_union_right h.fresh
    (fun q hq => h.kept q (Or.inl hq))
  rcases hst with hsame | hc'
  · rw [hsame] at hc
    exact Or.inl (hwalk virt hvirt c hc)
  · exact Or.inr hc'

theorem Growth.ready (hready : HeapReady K r m) : HeapReady (K ∪ taken m m₁) r m₁ := by
  refine ⟨?_, ?_, h.inUse r hready.root, ?_, h.cr3.trans hready.cr3,
    h.heapWalk hready.root hready.walk⟩
  · apply hready.sane.keeps h.layout.bitmapAddr h.layout.maxPageIndex (h.inUse 0 hready.sane.zero)
    exact fun q hq => h.inUse q (hready.sane.kept.inUse q hq)
  · rintro q (hq | hq)
    · exact h.inUse q (hready.inUse q hq)
    · exact hq.2
  · rintro (hr | hr)
    · exact hready.apart hr
    · exact hr.1.not_inUse hready.root

end

/-- Of the first table only the entry the walk uses may change. -/
theorem mapAt_row (hs : Sane m) (hK : ∀ q ∈ K, InUse m.pmm q) (hp : InUse m.pmm p)
    (hout : p ∉ K) (hl : l ≠ [])
    (hwalk : ∀ c, x86.next (m.ram p i) = some c → WalkIn K m.ram c l) {j : ℕ} (hj : j ≠ i) :
    (mapAt e (i :: l) m (pageAddr p)).ram p j = m.ram p j := by
  rw [mapAt_cons hl]
  rcases vmmGetNextLevel_cases hs hp i with
    ⟨c, hc, heq⟩ | ⟨_, ⟨m₁, heq, href⟩ | ⟨t, m₁, heq, hinst⟩⟩
  · rw [heq]
    exact congrFun ((mapAt_extended hs hK hl (hwalk c hc)).elsewhere p hp hout) j
  · rw [heq]
    exact congrFun (congrFun href.ram p) j
  · rw [heq]
    have hpt : p ≠ t := by
      intro hpt
      subst p
      exact hinst.free.not_inUse hp
    have hext : Extended (insert t K) e m₁ (mapAt e l m₁ (pageAddr t)) :=
      mapAt_extended (hs.grows hinst.grows) (inUse_installed hinst hK) hl
        (walkIn_blank (Set.mem_insert t K) hinst.child)
    refine (congrFun (hext.elsewhere p (hinst.grows.inUse p hp) (by simp [hpt, hout])) j).trans ?_
    rw [hinst.parent, update_of_ne hj]

theorem growth_of_extended {f : ℕ} (h : HeapReady K r m) (hnew : Fresh m f m₁)
    (hext : Extended (insert r K) e m₁ m₂) (he : ∀ c, x86.next e = some c → c = f)
    (hrow : ∀ i < 256, m₂.ram r i = m₁.ram r i) : Growth K r m m₂ := by
  have hold : ∀ q, InUse m.pmm q → m₁.ram q = m.ram q := fun q hq =>
    hnew.ram_of_ne (hnew.ne_of_inUse hq)
  have hgrows := hnew.grows.trans hext.grows
  have hf : f ∈ taken m m₂ := ⟨hnew.free, hext.grows.inUse f hnew.inUse⟩
  have htaken := taken_subset hnew.grows m₂
  refine ⟨⟨hgrows.bitmapAddr, hgrows.maxPageIndex⟩, hgrows.inUse, hgrows.cr3, ?_, ?_, ?_, ?_, ?_⟩
  · intro q hq hqK hqr
    rw [hext.elsewhere q (hnew.grows.inUse q hq) (by simp [hqr, hqK]), hold q hq]
  · intro i hi
    rw [hrow i hi, hold r h.root]
  · intro q hq
    rw [hext.refcount q (hnew.grows.inUse q hq), hnew.refcount_of_ne (hnew.ne_of_inUse hq)]
  · intro q hq i c hc
    have huse : InUse m.pmm q := by
      rcases hq with hq | rfl
      · exact h.inUse q hq
      · exact h.root
    rcases hext.kept q (hq.elim (Set.mem_insert_of_mem r)
      (fun heq => heq ▸ Set.mem_insert r K)) i c hc with hsame | hleaf | hc'
    · exact .inl (hsame.trans (congrFun (hold q huse) i))
    · rw [hleaf] at hc
      exact .inr (he c hc ▸ hf)
    · exact .inr (htaken hc')
  · intro q hq i c hc
    by_cases hqf : q = f
    · subst q
      have hout : f ∉ insert r K := by
        rintro (hfr | hfK)
        · exact hnew.ne_of_inUse h.root hfr.symm
        · exact hnew.ne_of_inUse (h.inUse f hfK) rfl
      rw [hext.elsewhere f hnew.inUse hout, hnew.ram_self] at hc
      cases hc
    · have hq₁ := taken_later hnew.grows hnew.inUse_iff.mp hq hqf
      rcases hext.fresh q hq₁ i c hc with hleaf | hc'
      · rw [hleaf] at hc
        exact he c hc ▸ hf
      · exact htaken hc'

theorem Growth.withHeap (h : Growth K r m m₁) (heap : HeapState) :
    Growth K r m { m₁ with heap := heap } :=
  ⟨h.layout, h.inUse, h.cr3, h.elsewhere, h.userHalf, h.refcount, h.kept, h.fresh⟩

theorem growPage_growth (h : HeapReady K r m) (hend : heapVirtStart ≤ m.heap.virtEnd) :
    Growth K r m (growPage m).1 := by
  unfold growPage
  rcases pmmAllocPage_cases h.sane with ⟨hz, href⟩ | ⟨f, haddr, hne, hnew⟩
  · rw [if_pos hz]
    exact Growth.of_eq href.ram href.pmm href.cr3
  · rw [if_neg (by rw [haddr]; exact hne), vmmMapPage_eq,
      currentPml4_eq (h.sane.lt_of_inUse h.root) (hnew.cr3.trans h.cr3), haddr]
    have hflt := h.sane.lt_of_isFree hnew.free
    have hleaf : ∀ c, x86.next (leafEntry (pageAddr f) heapFlags) = some c → c = f := by
      intro c hc
      have hframe : frame (leafEntry (pageAddr f) heapFlags) = pageOf (pageAddr f &&& addrMask) :=
        frame_or_flags (by rw [UInt64.and_assoc, UInt64.and_self]) (by decide)
      rw [pageAddr_and_addrMask hflt, pageOf_pageAddr (by omega)] at hframe
      exact (next_eq_some.mp hc).2.symm.trans hframe
    generalize m.pmmAllocPage.1 = m₁ at hnew ⊢
    have hgrows := hnew.grows
    have hold : ∀ q, InUse m.pmm q → m₁.ram q = m.ram q := fun q hq =>
      hnew.ram_of_ne (hnew.ne_of_inUse hq)
    have hs₁ := h.sane.grows hgrows
    have hr₁ := hgrows.inUse r h.root
    have hK₁ : ∀ q ∈ K, InUse m₁.pmm q := fun q hq => hgrows.inUse q (h.inUse q hq)
    have hwalk₁ : ∀ c, x86.next (m₁.ram r (pml4Index m.heap.virtEnd)) = some c →
        WalkIn K m₁.ram c [pdptIndex m.heap.virtEnd, pdIndex m.heap.virtEnd,
          ptIndex m.heap.virtEnd] := by
      intro c hc
      rw [hold r h.root] at hc
      exact (h.walk _ hend c hc).congr subset_rfl fun q hq => hold q (h.inUse q hq)
    have hfull : WalkIn (insert r K) m₁.ram r (pathOf m.heap.virtEnd) := by
      exact ⟨Set.mem_insert r K, fun c hc => (hwalk₁ c hc).congr (Set.subset_insert r K)
        (fun _ _ => rfl)⟩
    refine (growth_of_extended h hnew (mapAt_extended hs₁ ?_ (by simp [pathOf]) hfull) hleaf
      ?_).withHeap _
    · rintro q (rfl | hq)
      · exact hr₁
      · exact hK₁ q hq
    · intro i hi
      have hheap := pml4Index_heap hend
      exact mapAt_row hs₁ hK₁ hr₁ h.apart (by simp) hwalk₁ (by omega)

end NexusKernel.KernelTables
