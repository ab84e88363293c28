import NexusKernel.Walks

/-!
What `vmm_map_page` does to a page-table tree. Missing tables on the way are made from fresh
pages; no other leaf changes. If one cannot be allocated the leaf stays as it was, and the tables
made so far remain.
-/

namespace NexusKernel.Mapping

open Lib.TableTree PhysicalMemory PageAllocation PageEntries Hardware PageSupply Vmm Walks
  Function Budget

/-- Writing the entry at the end of a path, with a creating call of `vmm_get_next_level` for each
index but the last. -/
def mapAt (e : UInt64) : List ℕ → Machine → UInt64 → Machine
  | [], m, _ => m
  | [i], m, table => m.setEntry table i e
  | i :: j :: rest, m, table =>
      match vmmGetNextLevel m table i true with
      | (m, none) => m
      | (m, some next) => mapAt e (j :: rest) m next

theorem vmmMapPage_eq (m : Machine) (virt phys flags : UInt64) : vmmMapPage m virt phys flags =
    mapAt (leafEntry phys flags) (pathOf virt) m m.currentPml4 := rfl

private theorem vmmGetNextLevel_found {m : Machine} {table next : UInt64} {i : ℕ} (create : Bool)
    (h : (vmmGetNextLevel m table i false).2 = some next) :
    vmmGetNextLevel m table i create = (m, some next) := by
  unfold vmmGetNextLevel at h ⊢
  by_cases hpres : present (m.entry table i) = true
  · simp only [hpres, if_true, Option.some.injEq] at h ⊢
    rw [h]
  · simp [hpres] at h

variable {m : Machine}

/-- Where the walk finds a page table, its entry is the end of the path. -/
theorem setEntry_eq_mapAt {virt pt : UInt64} (h : vmmFindPt m virt = some pt) (e : UInt64) :
    m.setEntry pt (ptIndex virt) e = mapAt e (pathOf virt) m m.currentPml4 := by
  unfold vmmFindPt at h
  cases hpdpt : (vmmGetNextLevel m m.currentPml4 (pml4Index virt) false).2 with
  | none => simp [hpdpt] at h
  | some pdpt =>
    cases hpd : (vmmGetNextLevel m pdpt (pdptIndex virt) false).2 with
    | none => simp [hpdpt, hpd] at h
    | some pd =>
      simp only [hpdpt, hpd] at h
      simp only [pathOf, mapAt, vmmGetNextLevel_found true hpdpt, vmmGetNextLevel_found true hpd,
        vmmGetNextLevel_found true h]

theorem vmmUnmapPage_eq {virt pt : UInt64} (h : vmmFindPt m virt = some pt) :
    vmmUnmapPage m virt = mapAt 0 (pathOf virt) m m.currentPml4 := by
  rw [vmmUnmapPage, h]
  exact setEntry_eq_mapAt h 0

variable {F : Format UInt64} {Good : UInt64 → Prop} {m m' : Machine} {n w p i t : ℕ} {l : List ℕ}
  {e : UInt64}

theorem setEntry_ram (hp : p < 2 ^ 52) : (m.setEntry (pageAddr p) i e).ram =
    update m.ram p (update (m.ram p) i e) := by
  simp only [Machine.setEntry, pageOf_pageAddr hp]

structure Installed (m : Machine) (p i t : ℕ) (m' : Machine) : Prop where
  free : IsFree m.pmm t
  lt : t < 2 ^ 40
  grows : Grows m m'
  inUse_iff : ∀ q, InUse m'.pmm q ↔ InUse m.pmm q ∨ q = t
  refcount : ∀ q, q ≠ t → m'.pmm.pageRefcount q = m.pmm.pageRefcount q
  child : ∀ k, m'.ram t k = 0
  parent : m'.ram p = update (m.ram p) i (tableEntry (pageAddr t))
  other : ∀ q, q ≠ p → q ≠ t → m'.ram q = m.ram q
  granted : (budget m).granted = true
  budget : budget m' = (budget m).spend

/-- A creating call of `vmm_get_next_level` follows the entry, hangs in a new table, or finds no
page. -/
theorem vmmGetNextLevel_cases (hs : Sane m) (hp : InUse m.pmm p) (i : ℕ) :
    (∃ c, x86.next (m.ram p i) = some c ∧ vmmGetNextLevel m (pageAddr p) i true =
      (m, some (pageAddr c))) ∨ (x86.next (m.ram p i) = none ∧
      ((∃ m', vmmGetNextLevel m (pageAddr p) i true = (m', none) ∧ Refused m m') ∨
        ∃ t m', vmmGetNextLevel m (pageAddr p) i true = (m', some (pageAddr t)) ∧
          Installed m p i t m')) := by
  have hplt : p < 2 ^ 52 := by
    have := hs.lt_of_inUse hp
    omega
  have hentry : m.entry (pageAddr p) i = m.ram p i := by
    simp only [Machine.entry, pageOf_pageAddr hplt]
  unfold vmmGetNextLevel
  rw [hentry]
  cases hpres : present (m.ram p i) with
  | true =>
    refine .inl ⟨frame (m.ram p i), next_eq_some.mpr ⟨hpres, rfl⟩, ?_⟩
    simp [and_addrMask]
  | false =>
    refine .inr ⟨next_eq_none.mpr hpres, ?_⟩
    rcases pmmAllocPage_cases hs with ⟨hz, href⟩ | ⟨t, haddr, hne, hnew⟩
    · exact .inl ⟨m.pmmAllocPage.1, by simp [hz], href⟩
    · have htlt := hs.lt_of_isFree hnew.free
      have hpt : p ≠ t := hnew.ne_of_inUse hp
      refine .inr ⟨t, _, by simp only [Bool.false_eq_true, if_false, if_true, haddr, hne]; rfl, ?_⟩
      have hram : ((m.pmmAllocPage.1.zeroPage (pageAddr t)).setEntry (pageAddr p) i
          (tableEntry (pageAddr t))).ram = update (update m.ram t (fun _ => 0)) p
            (update (m.ram p) i (tableEntry (pageAddr t))) := by
        rw [setEntry_ram hplt]
        simp only [Machine.zeroPage, pageOf_pageAddr (show t < 2 ^ 52 by omega), hnew.ram,
          update_idem, update_of_ne hpt]
      refine ⟨hnew.free, htlt, (hnew.grows.write _).write _,
        fun q => hnew.inUse_iff, fun q hq => hnew.refcount_of_ne hq, ?_, ?_, ?_,
        hnew.granted, hnew.budget⟩
      · intro k
        rw [hram, update_of_ne hpt.symm, update_self]
      · rw [hram, update_self]
      · intro q hqp hqt
        rw [hram, update_of_ne hqp, update_of_ne hqt]

structure MappedOf (F : Format UInt64) (Good : UInt64 → Prop) (n w : ℕ) (m : Machine) (p : ℕ)
    (l : List ℕ) (e : UInt64) (m' : Machine) : Prop where
  grows : Grows m m'
  elsewhere : ∀ q, InUse m.pmm q → q ∉ tables F m.ram n w p → m'.ram q = m.ram q
  rest : ∀ i, w ≤ i → m'.ram p i = m.ram p i
  kept : tables F m.ram n w p ⊆ tables F m'.ram n w p
  added : ∀ q ∈ tables F m'.ram n w p, q ∈ tables F m.ram n w p ∨ (IsFree m.pmm q ∧ InUse m'.pmm q)
  proper : Proper F Good m'.ram n w p
  leaves : ∀ k ∈ paths F n w, k ≠ l → leafAt F m'.ram p k = leafAt F m.ram p k
  opens : ∀ k ∈ paths F n w, Unblocked F x86 m'.ram p k ↔ Unblocked F x86 m.ram p k
  mapped : leafAt F m'.ram p l = e ∨ (m'.oom = true ∧ leafAt F m.ram p l = 0 ∧
    leafAt F m'.ram p l = 0)
  refcount : ∀ f, InUse m.pmm f → m'.pmm.pageRefcount f = m.pmm.pageRefcount f
  taken : ∀ q, InUse m'.pmm q → InUse m.pmm q ∨ q ∈ tables F m'.ram n w p

abbrev Mapped (n w : ℕ) (m : Machine) (p : ℕ) (l : List ℕ) (e : UInt64) (m' : Machine) : Prop :=
  MappedOf x86 UpperGood n w m p l e m'

theorem MappedOf.done (h : MappedOf F Good n w m p l e m')
    (hpres : present (leafAt F m.ram p l) = true) : leafAt F m'.ram p l = e := by
  rcases h.mapped with hdone | ⟨_, hz, _⟩
  · exact hdone
  · rw [hz] at hpres
    simp at hpres

theorem Mapped.done (h : Mapped n w m p l e m') (hpres : present (leaf m p l) = true) :
    leaf m' p l = e := MappedOf.done h hpres

theorem MappedOf.treeOf (h : MappedOf F Good n w m p l e m') (htree : TreeOf F Good m n w p) :
    TreeOf F Good m' n w p := by
  refine ⟨h.proper, fun q hq => ?_⟩
  rcases h.added q hq with hold | ⟨_, hnew⟩
  · exact h.grows.inUse q (htree.inUse q hold)
  · exact hnew

theorem mapped_of_refused (htree : TreeOf F Good m n w p) (h : Refused m m')
    (hleaf₀ : leafAt F m.ram p l = 0) : MappedOf F Good n w m p l e m' := by
  have hleaf : ∀ k, leafAt F m'.ram p k = leafAt F m.ram p k := by
    intro k
    rw [h.ram]
  refine ⟨h.grows, ?_, ?_, ?_, ?_, ?_, fun k _ _ => hleaf k, fun k _ => by rw [h.ram],
    .inr ⟨h.oom, hleaf₀, (hleaf l).trans hleaf₀⟩, ?_, ?_⟩
  · intro q _ _
    rw [h.ram]
  · intro i _
    rw [h.ram]
  · rw [h.ram]
  · intro q hq
    rw [h.ram] at hq
    exact .inl hq
  · rw [h.ram]
    exact htree.proper
  · intro f _
    rw [h.pmm]
  · intro q hq
    rw [h.pmm] at hq
    exact .inl hq

theorem mapped_leaf (hs : Sane m) (htree : TreeOf F Good m 0 w p) (hi : i < w) :
    MappedOf F Good 0 w m p [i] e (m.setEntry (pageAddr p) i e) := by
  have hplt : p < 2 ^ 52 := by
    have := hs.lt_of_inUse htree.root
    omega
  have hroot : (m.setEntry (pageAddr p) i e).ram p = update (m.ram p) i e := by
    rw [setEntry_ram hplt, update_self]
  refine ⟨(Grows.refl m).write _, ?_, ?_, subset_rfl, fun q hq => .inl hq, trivial, ?_, ?_,
    .inl ?_, fun f _ => rfl, fun q hq => .inl hq⟩
  · intro q _ hq
    have hne : q ≠ p := hq
    rw [setEntry_ram hplt, update_of_ne hne]
  · intro k hk
    rw [hroot, update_of_ne (by omega)]
  · intro k hk hne
    obtain ⟨j, hj, rfl⟩ := mem_paths_zero.mp hk
    have hji : j ≠ i := by
      intro h
      exact hne (by rw [h])
    change (m.setEntry (pageAddr p) i e).ram p j = m.ram p j
    rw [hroot, update_of_ne hji]
  · intro k hk
    obtain ⟨j, _, rfl⟩ := mem_paths_zero.mp hk
    rfl
  · change (m.setEntry (pageAddr p) i e).ram p i = e
    rw [hroot, update_self]

/-- Mapping below entry `i` leaves the table's other branches alone. -/
theorem MappedOf.sameOutside (h : MappedOf F Good n F.fanout m t l e m')
    (htree : TreeOf F Good m (n + 1) w p) (hi : i < w) (ht : F.next (m.ram p i) = some t) :
    m'.ram p = m.ram p ∧ SameOutside F m.ram m'.ram n w p i := by
  have houtside : ∀ q ∈ outside F m.ram n w p i, m'.ram q = m.ram q := fun q hq =>
    h.elsewhere q (htree.inUse q (outside_subset_tables hq))
      (Set.disjoint_left.mp (htree.proper.disjoint_branch hi ht) hq)
  have hroot : m'.ram p = m.ram p := houtside p (.inl rfl)
  exact ⟨hroot,
    fun j _ _ => by rw [hroot], fun j d hj hji hd q hq => houtside q (.inr ⟨j, d, hj, hji, hd, hq⟩)⟩

/-- Mapping below one entry of a table maps in the whole tree. -/
theorem mapped_child (htree : TreeOf F Good m (n + 1) w p) {c : ℕ} (hi : i < w)
    (hc : F.next (m.ram p i) = some c) (hl : l ∈ paths F n F.fanout)
    (h : MappedOf F Good n F.fanout m c l e m') : MappedOf F Good (n + 1) w m p (i :: l) e m' := by
  have hapart := htree.proper.disjoint_branch hi hc
  obtain ⟨hroot, hsame⟩ := h.sameOutside htree hi hc
  have hchild : F.next (m'.ram p i) = some c := by rwa [hroot]
  have htabs : ∀ q, q ∈ tables F m'.ram (n + 1) w p ↔
      q ∈ outside F m.ram n w p i ∨ q ∈ tables F m'.ram n F.fanout c := by
    intro q
    rw [mem_tables_branch hi hchild, hsame.outside_eq]
  refine ⟨h.grows, ?_, ?_, ?_, ?_, ?_, ?_, ?_, ?_, h.refcount, ?_⟩
  · intro q hq hqp
    exact h.elsewhere q hq fun hqc => hqp (child_tables_subset hi hc hqc)
  · intro k _
    rw [hroot]
  · intro q hq
    rcases (mem_tables_branch hi hc).mp hq with hq | hq
    · exact (htabs q).mpr (.inl hq)
    · exact (htabs q).mpr (.inr (h.kept hq))
  · intro q hq
    rcases (htabs q).mp hq with hq | hq
    · exact .inl (outside_subset_tables hq)
    · rcases h.added q hq with hq | hq
      · exact .inl (child_tables_subset hi hc hq)
      · exact .inr hq
  · apply hsame.proper htree.proper
    intro d hd
    obtain rfl : c = d := Option.some.inj (hchild.symm.trans hd)
    refine ⟨?_, h.proper, ?_⟩
    · rw [hroot]
      exact (htree.proper.1 i c hi hc).1
    · -- Pages added to the branch were free, so the rest of the tree does not use them.
      rw [Set.disjoint_left]
      intro q hq hqc
      rcases h.added q hqc with hqc | hqc
      · exact Set.disjoint_left.mp hapart hq hqc
      · exact hqc.1.not_inUse (htree.inUse q (outside_subset_tables hq))
  · intro k hk hne
    obtain ⟨j, s, hj, hs, rfl⟩ := mem_paths_succ.mp hk
    by_cases hji : j = i
    · subst j
      have hsl : s ≠ l := by
        intro heq
        exact hne (by rw [heq])
      have hsne := paths_ne_nil hs
      rw [leafAt_cons_some hsne hchild, leafAt_cons_some hsne hc]
      exact h.leaves s hs hsl
    · exact hsame.leafAt_eq hj hji hs
  · intro k hk
    obtain ⟨j, s, hj, hs, rfl⟩ := mem_paths_succ.mp hk
    by_cases hji : j = i
    · subst j
      have hsne := paths_ne_nil hs
      rw [unblocked_cons_some hsne hchild, unblocked_cons_some hsne hc]
      exact h.opens s hs
    · exact hsame.unblocked_iff hj hji hs
  · have hlne := paths_ne_nil hl
    rw [leafAt_cons_some hlne hchild, leafAt_cons_some hlne hc]
    exact h.mapped
  · intro q hq
    rcases h.taken q hq with hq | hq
    · exact .inl hq
    · exact .inr (child_tables_subset hi hchild hq)

theorem Installed.linkOf (hF : Reads F) (h : Installed m p i t m') :
    F.next (m'.ram p i) = some t := by
  rw [h.parent, update_self]
  exact hF.table h.lt

theorem Installed.blankOf (hF : Reads F) (h : Installed m p i t m') :
    ∀ k < F.fanout, m'.ram t k = F.blank := fun k _ => (h.child k).trans hF.blank.symm

theorem Installed.opens (hF : Reads F) (h : Installed m p i t m') (hl : l ∈ paths F n F.fanout) :
    Unblocked F x86 m'.ram t l := unblocked_of_blank (h.blankOf hF) (by rw [hF.blank]; rfl) hl

def TableGood (Good : UInt64 → Prop) : Prop := ∀ q, q < 2 ^ 40 → Good (tableEntry (pageAddr q))

theorem upperGood_table : TableGood UpperGood := by
  intro q hq
  obtain ⟨-, hwr, huser, -⟩ := tableEntry_spec hq
  exact ⟨huser, hwr⟩

theorem Installed.sameOutside (h : Installed m p i t m') (htree : TreeOf F Good m (n + 1) w p) :
    SameOutside F m.ram m'.ram n w p i := by
  constructor
  · intro j _ hji
    rw [h.parent, update_of_ne hji]
  · intro j d hj _ hd q hq
    have hqt : q ≠ t := by
      intro heq
      subst q
      exact h.free.not_inUse ((htree.child hj hd).inUse t hq)
    apply h.other q _ hqt
    intro heq
    subst q
    exact (htree.proper.1 j d hj hd).2.1 hq

/-- A new table without entries adds its page to the tree and changes no leaf. -/
theorem Installed.tree (hF : Reads F) (hgood : TableGood Good) (h : Installed m p i t m')
    (htree : TreeOf F Good m (n + 1) w p) (hi : i < w) (hnone : x86.next (m.ram p i) = none) :
    TreeOf F Good m' (n + 1) w p ∧ (∀ q, q ∈ tables F m'.ram (n + 1) w p ↔
      q ∈ tables F m.ram (n + 1) w p ∨ q = t) ∧
      ∀ k ∈ paths F (n + 1) w, leafAt F m'.ram p k = leafAt F m.ram p k ∧
        (Unblocked F x86 m'.ram p k ↔ Unblocked F x86 m.ram p k) := by
  have hnoneF := hF.next_none hnone
  have hself : m'.ram p i = tableEntry (pageAddr t) := by rw [h.parent, update_self]
  have hchild := h.linkOf hF
  have hblank : ∀ k < F.fanout, m'.ram t k = F.blank := fun k _ => (h.child k).trans hF.blank.symm
  have hnew : ∀ q, InUse m.pmm q → q ≠ t := fun _ => h.free.ne
  have hsame := h.sameOutside htree
  have htabs : ∀ q, q ∈ tables F m'.ram (n + 1) w p ↔ q ∈ tables F m.ram (n + 1) w p ∨ q = t := by
    intro q
    rw [mem_tables_branch hi hchild, hsame.outside_eq, tables_of_blank hblank,
      tables_eq_outside hnoneF]
    rfl
  refine ⟨⟨?_, ?_⟩, htabs, ?_⟩
  · apply hsame.proper htree.proper
    intro d hd
    obtain rfl : t = d := Option.some.inj (hchild.symm.trans hd)
    refine ⟨?_, proper_of_blank hblank, ?_⟩
    · rw [hself]
      exact hgood t h.lt
    · rw [tables_of_blank hblank, Set.disjoint_singleton_right]
      exact fun ht => hnew t (htree.inUse t (outside_subset_tables ht)) rfl
  · intro q hq
    rcases (htabs q).mp hq with hq | rfl
    · exact h.grows.inUse q (htree.inUse q hq)
    · exact (h.inUse_iff q).mpr (.inr rfl)
  · intro k hk
    obtain ⟨j, s, hj, hs, rfl⟩ := mem_paths_succ.mp hk
    by_cases hji : j = i
    · subst j
      have hsne := paths_ne_nil hs
      rw [leafAt_cons_some hsne hchild, leafAt_cons_none hsne hnoneF,
        unblocked_cons_some hsne hchild]
      refine ⟨leafAt_of_blank hblank hs, iff_of_true ?_ (unblocked_cons_none hnoneF hnone)⟩
      exact unblocked_of_blank hblank (by rw [hF.blank]; rfl) hs
    · exact ⟨hsame.leafAt_eq hj hji hs, hsame.unblocked_iff hj hji hs⟩

variable {m₁ : Machine}

/-- What is mapped after a table was hung in counts from before. -/
theorem Installed.mapped (hF : Reads F) (hgood : TableGood Good)
    (h : Installed m p i t m₁) (htree : TreeOf F Good m (n + 1) w p) (hi : i < w)
    (hnone : x86.next (m.ram p i) = none) (hl : l ∈ paths F (n + 1) w)
    (hmap : MappedOf F Good (n + 1) w m₁ p l e m') : MappedOf F Good (n + 1) w m p l e m' := by
  obtain ⟨_, htabs, hleaves⟩ := h.tree hF hgood htree hi hnone
  have hnew : ∀ q, InUse m.pmm q → q ≠ t := fun _ => h.free.ne
  have ht : IsFree m.pmm t ∧ InUse m'.pmm t :=
    ⟨h.free, hmap.grows.inUse t ((h.inUse_iff t).mpr (.inr rfl))⟩
  refine ⟨h.grows.trans hmap.grows, ?_, ?_, ?_, ?_, hmap.proper, ?_,
    fun k hk => (hmap.opens k hk).trans (hleaves k hk).2, ?_, ?_, ?_⟩
  · intro q hq hqp
    have hqt := hnew q hq
    have hqp' : q ∉ tables F m₁.ram (n + 1) w p := by
      rw [htabs]
      exact fun hor => hor.elim hqp hqt
    rw [hmap.elsewhere q (h.grows.inUse q hq) hqp']
    apply h.other q _ hqt
    intro heq
    subst q
    exact hqp root_mem_tables
  · intro k hk
    rw [hmap.rest k hk, h.parent, update_of_ne (by omega)]
  · intro q hq
    exact hmap.kept ((htabs q).mpr (.inl hq))
  · intro q hq
    rcases hmap.added q hq with hq | ⟨hfree, huse⟩
    · rcases (htabs q).mp hq with hq | rfl
      · exact .inl hq
      · exact .inr ht
    · exact .inr ⟨h.grows.isFree hfree, huse⟩
  · intro k hk hne
    exact (hmap.leaves k hk hne).trans (hleaves k hk).1
  · rcases hmap.mapped with hdone | ⟨hoom, hpre, hafter⟩
    · exact .inl hdone
    · exact .inr ⟨hoom, (hleaves l hl).1.symm.trans hpre, hafter⟩
  · intro f hf
    rw [hmap.refcount f (h.grows.inUse f hf), h.refcount f (hnew f hf)]
  · intro q hq
    rcases hmap.taken q hq with hq | hq
    · rcases (h.inUse_iff q).mp hq with hq | rfl
      · exact .inl hq
      · exact .inr (hmap.kept ((htabs q).mpr (.inr rfl)))
    · exact .inr hq

theorem mapAt_cons {s : List ℕ} (hs : s ≠ []) (e : UInt64) (i : ℕ) (m : Machine) (table : UInt64) :
    mapAt e (i :: s) m table =
      match vmmGetNextLevel m table i true with
      | (m, none) => m
      | (m, some next) => mapAt e s m next := by
  cases s with
  | nil => exact absurd rfl hs
  | cons j rest => rfl

section

variable {P : Machine → Prop} (halloc : ∀ m, P m → P m.pmmAllocPage.1)
variable (hram : ∀ m ram, P m → P { m with ram := ram })
include halloc hram

theorem getNextLevel_invariant (h : P m) (table : UInt64) (i : ℕ) (create : Bool) :
    P (vmmGetNextLevel m table i create).1 := by
  unfold vmmGetNextLevel
  split
  · exact h
  · split
    · split
      · exact halloc m h
      · exact hram _ _ (hram _ _ (halloc m h))
    · exact h

/-- Mapping a page keeps what every allocation keeps and what does not depend on memory contents. -/
theorem mapAt_invariant (h : P m) (e : UInt64) (l : List ℕ) (table : UInt64) :
    P (mapAt e l m table) := by
  fun_induction mapAt e l m table with
  | case1 => exact h
  | case2 => exact hram _ _ h
  | case3 i j rest m table m₁ heq =>
    have hnext := getNextLevel_invariant halloc hram h table i true
    rwa [heq] at hnext
  | case4 i j rest m table m₁ next heq ih =>
    have hnext := getNextLevel_invariant halloc hram h table i true
    rw [heq] at hnext
    exact ih hnext

end

/-- `vmm_map_page` on a tree of any height, by induction on it. Entries that are not followed may
exist, if none is on the way. -/
theorem mapAt_mappedOf (hF : Reads F) (hgood : TableGood Good) (e : UInt64) (hs : Sane m)
    (htree : TreeOf F Good m n w p) (hl : l ∈ paths F n w) (hopen : Unblocked F x86 m.ram p l) :
    MappedOf F Good n w m p l e (mapAt e l m (pageAddr p)) := by
  induction n generalizing m w p l with
  | zero =>
    obtain ⟨i, hi, rfl⟩ := mem_paths_zero.mp hl
    exact mapped_leaf hs htree hi
  | succ n ih =>
    obtain ⟨i, s, hi, hsp, rfl⟩ := mem_paths_succ.mp hl
    have hne := paths_ne_nil hsp
    rw [unblocked_cons hne] at hopen
    rw [mapAt_cons hne]
    rcases vmmGetNextLevel_cases hs htree.root i with
      ⟨c, hc, heq⟩ | ⟨hnone, ⟨m₁, heq, href⟩ | ⟨t, m₁, heq, hinst⟩⟩
    · have hcF := hF.next_some hopen.1 hc
      rw [heq]
      exact mapped_child htree hi hcF hsp (ih hs (htree.child hi hcF) hsp (hopen.2 c hcF))
    · have hnoneF := hF.next_none hnone
      rw [heq]
      exact mapped_of_refused htree href ((leafAt_cons_none hne hnoneF).trans hF.blank)
    · rw [heq]
      obtain ⟨htree₁, _, _⟩ := hinst.tree hF hgood htree hi hnone
      apply hinst.mapped hF hgood htree hi hnone hl
      exact mapped_child htree₁ hi (hinst.linkOf hF) hsp
        (ih (hs.grows hinst.grows) (htree₁.child hi (hinst.linkOf hF)) hsp (hinst.opens hF hsp))

theorem mapAt_mapped (e : UInt64) (hs : Sane m) (htree : TreeOk m n w p)
    (hl : l ∈ paths x86 n w) : Mapped n w m p l e (mapAt e l m (pageAddr p)) :=
  mapAt_mappedOf reads_x86 upperGood_table e hs htree hl (unblocked_refl l)

/-- When nothing is denied an attempt to set a leaf ends with it and all tables on its way, or
without any free page. -/
inductive Attempt (F : Format UInt64) (n w : ℕ) (m : Machine) (p : ℕ) (l : List ℕ) (e : UInt64)
    (m' : Machine) : Prop where
  | filled (henough : missing F m.ram p l ≤ (budget m).free) (hleaf : leafAt F m'.ram p l = e)
      (hfree : (budget m').free + missing F m.ram p l = (budget m).free)
      (hlack : ∀ k ∈ paths F n w, lacking F m'.ram p k = lacking F m.ram p k \ lacking F m.ram p l)
  | exhausted (hshort : (budget m).free < missing F m.ram p l) (hleaf : leafAt F m'.ram p l = 0)
      (hfree : (budget m').free = 0)

/-- An attempt that starts with a present entry goes on below it. -/
theorem attempt_child (htree : TreeOf F Good m (n + 1) w p) (hi : i < w)
    (ht : F.next (m.ram p i) = some t) (hl : l ∈ paths F n F.fanout)
    (hmap : MappedOf F Good n F.fanout m t l e m') (h : Attempt F n F.fanout m t l e m') :
    Attempt F (n + 1) w m p (i :: l) e m' := by
  obtain ⟨hroot, hsame⟩ := hmap.sameOutside htree hi ht
  have hne := paths_ne_nil hl
  have ht' : F.next (m'.ram p i) = some t := by rwa [hroot]
  have hleaf' := leafAt_cons_some hne ht'
  cases h with
  | filled henough hleaf hfree hlack =>
    refine Attempt.filled ?_ (hleaf'.trans hleaf) ?_ ?_
    · rwa [missing_cons_some hne ht]
    · rwa [missing_cons_some hne ht]
    · exact fun k hk => hsame.lacking_fill hl ht' (by rw [ht]; exact hlack) hk
  | exhausted hshort hleaf hfree =>
    refine Attempt.exhausted ?_ (hleaf'.trans hleaf) hfree
    rwa [missing_cons_some hne ht]

theorem attempt_installed (hF : Reads F) (hinst : Installed m p i t m₁)
    (htree : TreeOf F Good m (n + 1) w p) (htree₁ : TreeOf F Good m₁ (n + 1) w p) (hi : i < w)
    (hnone : F.next (m.ram p i) = none) (hl : l ∈ paths F n F.fanout)
    (hmap : MappedOf F Good n F.fanout m₁ t l e m') (h : Attempt F n F.fanout m₁ t l e m') :
    Attempt F (n + 1) w m p (i :: l) e m' := by
  have ht := hinst.linkOf hF
  obtain ⟨hroot, hsame⟩ := hmap.sameOutside htree₁ hi ht
  have hne := paths_ne_nil hl
  have ht' : F.next (m'.ram p i) = some t := by rwa [hroot]
  have hleaf' := leafAt_cons_some hne ht'
  have hblank := hinst.blankOf hF
  have hmissing : missing F m.ram p (i :: l) = missing F m₁.ram t l + 1 := by
    rw [missing_cons_none hne hnone, missing_of_blank hblank hl, length_of_mem_paths hl]
  obtain ⟨hspent, _⟩ := free_of_granted hinst.granted hinst.budget
  cases h with
  | filled henough hleaf hfree hlack =>
    refine Attempt.filled (by omega) (hleaf'.trans hleaf) (by omega) ?_
    intro k hk
    apply ((hinst.sameOutside htree).trans hsame).lacking_fill hl ht' _ hk
    intro k' hk'
    rw [hlack k' hk', lacking_of_blank hblank hk', lacking_of_blank hblank hl, hnone]
  | exhausted hshort hleaf hfree => exact Attempt.exhausted (by omega) (hleaf'.trans hleaf) hfree

theorem mapAt_attempt (hF : Reads F) (hgood : TableGood Good) (e : UInt64) (hs : Sane m)
    (htree : TreeOf F Good m n w p) (hl : l ∈ paths F n w)
    (hopen : Unblocked F x86 m.ram p l) (hden : m.denials = []) :
    (mapAt e l m (pageAddr p)).denials = [] ∧ Attempt F n w m p l e (mapAt e l m (pageAddr p)) := by
  induction n generalizing m w p l with
  | zero =>
    obtain ⟨i, hi, rfl⟩ := mem_paths_zero.mp hl
    have hlt := hs.lt_of_inUse htree.root
    refine ⟨hden, Attempt.filled (Nat.zero_le _) ?_ rfl ?_⟩
    · change (m.setEntry (pageAddr p) i e).ram p i = e
      rw [setEntry_ram (by omega), update_self, update_self]
    · intro k hk
      obtain ⟨j, _, rfl⟩ := mem_paths_zero.mp hk
      rfl
  | succ n ih =>
    obtain ⟨i, s, hi, hsp, rfl⟩ := mem_paths_succ.mp hl
    have hne := paths_ne_nil hsp
    rw [unblocked_cons hne] at hopen
    rw [mapAt_cons hne]
    rcases vmmGetNextLevel_cases hs htree.root i with
      ⟨c, hc, heq⟩ | ⟨hnone, ⟨m₁, heq, href⟩ | ⟨t, m₁, heq, hinst⟩⟩
    · have hcF := hF.next_some hopen.1 hc
      have hmap := mapAt_mappedOf hF hgood e hs (htree.child hi hcF) hsp (hopen.2 c hcF)
      obtain ⟨hdone, hlow⟩ := ih hs (htree.child hi hcF) hsp (hopen.2 c hcF) hden
      rw [heq]
      exact ⟨hdone, attempt_child htree hi hcF hsp hmap hlow⟩
    · have hnoneF := hF.next_none hnone
      have hfree := href.free_eq_zero hden
      have hrest : (budget m₁).free = (budget m).free ∧ m₁.denials = m.denials.tail := by
        have hspend := href.budget
        simp only [spend, href.denied, Bool.false_eq_true, if_false] at hspend
        rw [hspend]
        exact ⟨rfl, congrArg denials hspend⟩
      have hlen := length_of_mem_paths hsp
      rw [heq]
      refine ⟨by rw [hrest.2, hden, List.tail_nil], Attempt.exhausted ?_ ?_ (hrest.1.trans hfree)⟩
      · rw [missing_cons_none hne hnoneF]
        omega
      · rw [href.ram]
        exact (leafAt_cons_none hne hnoneF).trans hF.blank
    · obtain ⟨htree₁, _, _⟩ := hinst.tree hF hgood htree hi hnone
      have hs₁ := hs.grows hinst.grows
      have hchild := htree₁.child hi (hinst.linkOf hF)
      have hopen₁ := hinst.opens hF hsp
      have hden₁ : m₁.denials = [] := by
        have htail := (free_of_granted hinst.granted hinst.budget).2
        rw [show m₁.denials = m.denials.tail from htail, hden, List.tail_nil]
      have hmap := mapAt_mappedOf hF hgood e hs₁ hchild hsp hopen₁
      obtain ⟨hdone, hlow⟩ := ih hs₁ hchild hsp hopen₁ hden₁
      rw [heq]
      exact ⟨hdone, attempt_installed hF hinst htree htree₁ hi (hF.next_none hnone) hsp hmap hlow⟩

/-- The leaf is set when the pages left suffice for the missing tables, and is not there
otherwise. -/
theorem mapAt_leaf (e : UInt64) (hs : Sane m) (htree : TreeOk m n w p)
    (hl : l ∈ paths x86 n w) (hden : m.denials = []) : leaf (mapAt e l m (pageAddr p)) p l =
    if missing x86 m.ram p l ≤ (budget m).free then e else 0 := by
  obtain ⟨_, hattempt⟩ := mapAt_attempt reads_x86 upperGood_table e hs htree hl
    (unblocked_refl l) hden
  cases hattempt with
  | filled henough hleaf => exact hleaf.trans (if_pos henough).symm
  | exhausted hshort hleaf => exact hleaf.trans (if_neg (by omega)).symm

/-- A leaf that got set had a page for every missing table, whatever was denied. -/
theorem mapAt_needs (e : UInt64) (hs : Sane m) (htree : TreeOk m n w p)
    (hl : l ∈ paths x86 n w) (hpres : present (leaf (mapAt e l m (pageAddr p)) p l) = true) :
    missing x86 m.ram p l ≤ (budget m).free := by
  induction n generalizing m w p l with
  | zero =>
    obtain ⟨i, _, rfl⟩ := mem_paths_zero.mp hl
    exact Nat.zero_le _
  | succ n ih =>
    obtain ⟨i, s, hi, hsp, rfl⟩ := mem_paths_succ.mp hl
    have hne := paths_ne_nil hsp
    rw [mapAt_cons hne] at hpres
    -- the walk goes on below a table `t` that is there or was just made
    have hlow : ∀ {m₁ t}, Sane m₁ → TreeOk m₁ (n + 1) w p → x86.next (m₁.ram p i) = some t →
        present (leaf (mapAt e s m₁ (pageAddr t)) p (i :: s)) = true →
        missing x86 m₁.ram t s ≤ (budget m₁).free := by
      intro m₁ t hs₁ htree₁ ht hleaf
      have hchild := htree₁.child hi ht
      obtain ⟨hroot, _⟩ := (mapAt_mapped e hs₁ hchild hsp).sameOutside htree₁ hi ht
      rw [leaf, leafAt_cons_some hne (by rwa [hroot])] at hleaf
      exact ih hs₁ hchild hsp hleaf
    rcases vmmGetNextLevel_cases hs htree.root i with
      ⟨c, hc, heq⟩ | ⟨hnone, ⟨m₁, heq, href⟩ | ⟨t, m₁, heq, hinst⟩⟩
    · rw [heq] at hpres
      rw [missing_cons_some hne hc]
      exact hlow hs htree hc hpres
    · rw [heq] at hpres
      rw [leaf, href.ram, leafAt_cons_none hne hnone] at hpres
      cases hpres
    · rw [heq] at hpres
      obtain ⟨htree₁, _, _⟩ := hinst.tree reads_x86 upperGood_table htree hi hnone
      have hrest := hlow (hs.grows hinst.grows) htree₁ (hinst.linkOf reads_x86) hpres
      obtain ⟨hspent, _⟩ := free_of_granted hinst.granted hinst.budget
      have hlen := length_of_mem_paths hsp
      rw [missing_of_blank (hinst.blankOf reads_x86) hsp] at hrest
      rw [missing_cons_none hne hnone]
      omega

theorem vmmGetNextLevel_affords (hs : Sane m) {k : ℕ} (h : Affords m (k + 1))
    (table : UInt64) (i : ℕ) :
    ∃ m₁ next, vmmGetNextLevel m table i true = (m₁, some next) ∧ Grows m m₁ ∧ m₁.oom = m.oom ∧
      Affords m₁ k := by
  unfold vmmGetNextLevel
  by_cases hpres : present (m.entry table i) = true
  · rw [if_pos hpres]
    exact ⟨m, _, rfl, Grows.refl m, rfl, h.mono (Nat.le_succ k)⟩
  · rw [if_neg hpres, if_pos rfl]
    rcases pmmAllocPage_cases hs with ⟨_, href⟩ | ⟨t, haddr, hne, hnew⟩
    · exact absurd href h.not_refused
    · rw [if_neg (by rw [haddr]; exact hne)]
      have hrest := h.of_spend hnew.granted hnew.budget
      exact ⟨_, _, rfl, (hnew.grows.write _).write _, hnew.oom, hrest.denials, hrest.free⟩

/-- With a page for each level nothing is refused. -/
theorem mapAt_affords (e : UInt64) (i : ℕ) (hs : Sane m) (table : UInt64) {k : ℕ}
    (h : Affords m (l.length + k)) :
    Grows m (mapAt e (i :: l) m table) ∧ (mapAt e (i :: l) m table).oom = m.oom ∧
      Affords (mapAt e (i :: l) m table) k := by
  induction l generalizing m i table with
  | nil =>
    rw [List.length_nil, Nat.zero_add] at h
    exact ⟨(Grows.refl m).write _, rfl, h.denials, h.free⟩
  | cons j rest ih =>
    rw [List.length_cons, Nat.succ_add] at h
    obtain ⟨m₁, next, heq, hgrows, hoom, haff⟩ := vmmGetNextLevel_affords hs h table i
    rw [mapAt_cons (List.cons_ne_nil j rest), heq]
    obtain ⟨hgrows', hoom', hrest⟩ := ih j (hs.grows hgrows) next haff
    exact ⟨hgrows.trans hgrows', hoom'.trans hoom, hrest⟩

end NexusKernel.Mapping
