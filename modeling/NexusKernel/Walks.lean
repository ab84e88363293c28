import NexusKernel.PageSupply
import NexusKernel.Vmm

/-!
Virtual addresses as paths through the page tables. `vmm_get_phys` and `is_cow_page` are expressed
through the leaf entry at the end of the path. `TreeOk` is the condition under which the writing
functions work on a tree, and `refs` counts the user leaves that map a page.
-/

namespace NexusKernel.Walks

open Lib.TableTree PhysicalMemory PageAllocation PageEntries Hardware PageSupply Vmm

abbrev leaf (m : Machine) (p : ℕ) (l : List ℕ) : UInt64 := leafAt x86 m.ram p l

variable {l : List ℕ} {ram : Store UInt64} {i : ℕ}

theorem leaf_cons_some {m : Machine} {p q : ℕ} (hl : l ≠ [])
    (hq : x86.next (m.ram p i) = some q) : leaf m p (i :: l) = leaf m q l := leafAt_cons_some hl hq

theorem leaf_cons_none {m : Machine} {p : ℕ} (hl : l ≠ [])
    (hq : x86.next (m.ram p i) = none) : leaf m p (i :: l) = 0 := leafAt_cons_none hl hq

def pathOf (virt : UInt64) : List ℕ := [pml4Index virt, pdptIndex virt, pdIndex virt, ptIndex virt]

abbrev userPaths : Finset (List ℕ) := paths x86 3 256

private theorem index_lt (a : UInt64) : (a &&& 0x1FF).toNat < 512 := by
  exact Nat.and_lt_two_pow _ (show (0x1FF : UInt64).toNat < 2 ^ 9 by decide)

theorem pml4Index_lt (virt : UInt64) : pml4Index virt < 512 := index_lt _
theorem pdptIndex_lt (virt : UInt64) : pdptIndex virt < x86.fanout := index_lt _
theorem pdIndex_lt (virt : UInt64) : pdIndex virt < x86.fanout := index_lt _
section

variable {F : Format UInt64} (hF : F.fanout = 512)

include hF

theorem lowerPath_mem (virt : UInt64) :
    [pdptIndex virt, pdIndex virt, ptIndex virt] ∈ paths F 2 F.fanout := by
  have hpt : [ptIndex virt] ∈ paths F 0 F.fanout := by
    rw [mem_paths_zero, hF]
    exact ⟨ptIndex virt, index_lt _, rfl⟩
  have hpd : [pdIndex virt, ptIndex virt] ∈ paths F 1 F.fanout := by
    rw [mem_paths_succ]
    exact ⟨pdIndex virt, [ptIndex virt], by rw [hF]; exact pdIndex_lt virt, hpt, rfl⟩
  rw [mem_paths_succ]
  exact ⟨pdptIndex virt,
    [pdIndex virt, ptIndex virt], by rw [hF]; exact pdptIndex_lt virt, hpd, rfl⟩

variable {virt : UInt64}

theorem pathOf_mem_paths {w : ℕ} (h : pml4Index virt < w) : pathOf virt ∈ paths F 3 w := by
  rw [mem_paths_succ]
  exact ⟨pml4Index virt, _, h, lowerPath_mem hF virt, rfl⟩

end

theorem pathOf_mem (h : pml4Index virt < 256) : pathOf virt ∈ userPaths := pathOf_mem_paths rfl h

private theorem index_eq (virt s : UInt64) (hs : s.toNat < 64) :
    ((virt >>> s) &&& 0x1FF).toNat = virt.toNat / 2 ^ s.toNat % 512 := by
  have hand := Nat.and_two_pow_sub_one_eq_mod (virt.toNat / 2 ^ s.toNat) 9
  rw [UInt64.toNat_and, UInt64.toNat_shiftRight, Nat.mod_eq_of_lt hs, Nat.shiftRight_eq_div_pow]
  exact hand

theorem pml4Index_eq (virt : UInt64) : pml4Index virt = virt.toNat / 2 ^ 39 % 512 :=
  index_eq virt 39 (by decide)

theorem pdptIndex_eq (virt : UInt64) : pdptIndex virt = virt.toNat / 2 ^ 30 % 512 :=
  index_eq virt 30 (by decide)

theorem pdIndex_eq (virt : UInt64) : pdIndex virt = virt.toNat / 2 ^ 21 % 512 :=
  index_eq virt 21 (by decide)

theorem ptIndex_eq (virt : UInt64) : ptIndex virt = virt.toNat / 2 ^ 12 % 512 :=
  index_eq virt 12 (by decide)

def pageNumber (virt : UInt64) : ℕ := virt.toNat / 4096 % 2 ^ 36

theorem pathOf_eq_iff {v w : UInt64} : pathOf w = pathOf v ↔ pageNumber w = pageNumber v := by
  simp only [pathOf, List.cons.injEq, and_true, pageNumber, pml4Index_eq, pdptIndex_eq,
    pdIndex_eq, ptIndex_eq]
  omega

/-- Every path of the user half is that of an address, with any offset. -/
theorem exists_pathOf (hl : l ∈ userPaths) {offset : ℕ} (hoff : offset < 4096) :
    ∃ virt : UInt64, pml4Index virt < 256 ∧ pathOf virt = l ∧ virt.toNat % 4096 = offset := by
  obtain ⟨a, s₂, ha, hs₂, rfl⟩ := mem_paths_succ.mp hl
  obtain ⟨b, s₁, hb, hs₁, rfl⟩ := mem_paths_succ.mp hs₂
  obtain ⟨c, s₀, hc, hs₀, rfl⟩ := mem_paths_succ.mp hs₁
  obtain ⟨d, hd, rfl⟩ := mem_paths_zero.mp hs₀
  change b < 512 at hb
  change c < 512 at hc
  change d < 512 at hd
  have hnat : (UInt64.ofNat (a * 2 ^ 39 + b * 2 ^ 30 + c * 2 ^ 21 + d * 2 ^ 12 + offset)).toNat =
      a * 2 ^ 39 + b * 2 ^ 30 + c * 2 ^ 21 + d * 2 ^ 12 + offset :=
    UInt64.toNat_ofNat_of_lt' (by grind)
  generalize UInt64.ofNat (a * 2 ^ 39 + b * 2 ^ 30 + c * 2 ^ 21 + d * 2 ^ 12 + offset) =
    virt at hnat
  have h39 : pml4Index virt = a := by
    rw [pml4Index_eq]
    omega
  have h30 : pdptIndex virt = b := by
    rw [pdptIndex_eq]
    omega
  have h21 : pdIndex virt = c := by
    rw [pdIndex_eq]
    omega
  have h12 : ptIndex virt = d := by
    rw [ptIndex_eq]
    omega
  exact ⟨virt, by omega, by rw [pathOf, h39, h30, h21, h12], by omega⟩

theorem pageBase_toNat (virt : UInt64) : (pageBase virt).toNat = virt.toNat / 4096 * 4096 :=
  and_not_page virt

/-- Rounding down to the page does not change the path. -/
theorem pathOf_pageBase (virt : UInt64) : pathOf (pageBase virt) = pathOf virt := by
  have h39 : pml4Index (pageBase virt) = pml4Index virt := by
    rw [pml4Index_eq, pml4Index_eq, pageBase_toNat]
    omega
  have h30 : pdptIndex (pageBase virt) = pdptIndex virt := by
    rw [pdptIndex_eq, pdptIndex_eq, pageBase_toNat]
    omega
  have h21 : pdIndex (pageBase virt) = pdIndex virt := by
    rw [pdIndex_eq, pdIndex_eq, pageBase_toNat]
    omega
  have h12 : ptIndex (pageBase virt) = ptIndex virt := by
    rw [ptIndex_eq, ptIndex_eq, pageBase_toNat]
    omega
  rw [pathOf, pathOf, h39, h30, h21, h12]

theorem pageBase_offset (virt : UInt64) : pageBase virt &&& 0xFFF = 0 := by
  rw [pageBase, UInt64.and_assoc, show ~~~(0xFFF : UInt64) &&& 0xFFF = 0 by decide, UInt64.and_zero]

theorem vmmGetNextLevel_false (m : Machine) (table : UInt64) (i : ℕ) :
    (vmmGetNextLevel m table i false).2 = (x86.next (m.ram (pageOf table) i)).map pageAddr := by
  unfold vmmGetNextLevel
  cases h : present (m.entry table i) with
  | true =>
    have hnext : x86.next (m.ram (pageOf table) i) = some (frame (m.entry table i)) :=
      next_eq_some.mpr ⟨h, rfl⟩
    simp [hnext, and_addrMask]
  | false =>
    have hnext : x86.next (m.ram (pageOf table) i) = none := next_eq_none.mpr h
    simp [hnext]

private theorem pageOf_next {e : UInt64} {q : ℕ} (h : x86.next e = some q) :
    pageOf (pageAddr q) = q := by
  have hlt := frame_lt e
  rw [(next_eq_some.mp h).2] at hlt
  exact pageOf_pageAddr (by omega)

section

variable (m : Machine) (virt : UInt64)
include m virt

/-- The walk of the reading functions ends at the leaf of the address. -/
theorem leaf_pathOf : leaf m (frame m.cr3) (pathOf virt) = match vmmFindPt m virt with
    | none => 0
    | some pt => m.entry pt (ptIndex virt) := by
  unfold vmmFindPt
  simp only [vmmGetNextLevel_false]
  change leafAt x86 m.ram (pageOf m.currentPml4) _ = _
  cases hpdpt : x86.next (m.ram (pageOf m.currentPml4) (pml4Index virt)) with
  | none => simp [pathOf, leafAt, hpdpt]
  | some q =>
    cases hpd : x86.next (m.ram q (pdptIndex virt)) with
    | none => simp [pathOf, leafAt, hpdpt, hpd, pageOf_next hpdpt]
    | some r =>
      cases hpt : x86.next (m.ram r (pdIndex virt)) with
      | none =>
        simp [pathOf, leafAt, hpdpt, hpd, hpt, pageOf_next hpdpt, pageOf_next hpd]
      | some t =>
        simp [pathOf, leafAt, hpdpt, hpd, hpt, Machine.entry, pageOf_next hpdpt, pageOf_next hpd,
          pageOf_next hpt]

theorem vmmGetPhys_eq : vmmGetPhys m virt = if present (leaf m (frame m.cr3) (pathOf virt)) then
      (leaf m (frame m.cr3) (pathOf virt) &&& addrMask) ||| (virt &&& 0xFFF)
    else 0 := by
  rw [leaf_pathOf, vmmGetPhys]
  cases vmmFindPt m virt with
  | none => simp
  | some pt => rfl

theorem isCowPage_eq : isCowPage m virt =
    (present (leaf m (frame m.cr3) (pathOf virt)) && user (leaf m (frame m.cr3)
      (pathOf virt)) && !writable (leaf m (frame m.cr3) (pathOf virt))) := by
  rw [leaf_pathOf, isCowPage]
  cases vmmFindPt m virt with
  | none => simp
  | some pt => rfl

end

structure TreeOf (F : Format UInt64) (Good : UInt64 → Prop) (m : Machine) (n w p : ℕ) : Prop where
  proper : Proper F Good m.ram n w p
  inUse : ∀ q ∈ tables F m.ram n w p, InUse m.pmm q

abbrev TreeIn (Good : UInt64 → Prop) (m : Machine) (n w p : ℕ) : Prop := TreeOf x86 Good m n w p

abbrev TreeOk (m : Machine) (n w p : ℕ) : Prop := TreeIn UpperGood m n w p

variable {F : Format UInt64} {Good : UInt64 → Prop} {m m' : Machine} {n w p : ℕ}

theorem TreeOf.root (h : TreeOf F Good m n w p) : InUse m.pmm p := h.inUse p root_mem_tables

theorem TreeOf.child (h : TreeOf F Good m (n + 1) w p) {r : ℕ} (hi : i < w)
    (hr : F.next (m.ram p i) = some r) : TreeOf F Good m n F.fanout r :=
  ⟨(h.proper.1 i r hi hr).2.2, fun q hq => h.inUse q (child_tables_subset hi hr hq)⟩

/-- What leaves the tables alone and takes no page back keeps the tree. -/
theorem TreeOf.agree (h : TreeOf F Good m n w p) (hagree : Agree F m.ram m'.ram n w p)
    (huse : ∀ q, InUse m.pmm q → InUse m'.pmm q) : TreeOf F Good m' n w p := by
  refine ⟨hagree.proper h.proper, ?_⟩
  intro q hq
  rw [hagree.tables_eq] at hq
  exact huse q (h.inUse q hq)

/-- A page that is taken is part of no tree. -/
theorem fresh_tree {m₀ : Machine} {f : ℕ} (hnew : Fresh m₀ f m') (h : TreeOf F Good m n w p)
    (hpmm : m₀.pmm = m.pmm) (hram : m₀.ram = m.ram) : Agree F m.ram m'.ram n w p ∧
    TreeOf F Good m' n w p := by
  have hagree : Agree F m.ram m'.ram n w p := agree_of_tables fun q hq => by
    rw [hnew.ram_of_ne (hnew.ne_of_inUse (hpmm ▸ h.inUse q hq)), hram]
  exact ⟨hagree, h.agree hagree fun q hq => hnew.grows.inUse q (hpmm ▸ hq)⟩

def mapsUser (e : UInt64) (f : ℕ) : Bool := present e && user e && frame e == f

/-- How many user leaves of a tree map page `f`. -/
def refs (ram : Store UInt64) (n w p f : ℕ) : ℕ :=
  ∑ l ∈ paths x86 n w, (mapsUser (leafAt x86 ram p l) f).toNat

theorem refs_congr {ram' : Store UInt64} (h : Agree x86 ram ram' n w p) (f : ℕ) :
    refs ram' n w p f = refs ram n w p f := Finset.sum_congr rfl fun _ hl => by rw [h.leafAt_eq hl]

theorem refs_of_blank (h : ∀ i < w, ram p i = 0) (f : ℕ) : refs ram n w p f = 0 := by
  apply Finset.sum_eq_zero
  intro l hl
  rw [leafAt_of_blank h hl]
  rfl

/-- One more root entry adds the references below it. -/
theorem refs_width_some {r : ℕ} (hr : x86.next (ram p w) = some r) (f : ℕ) :
    refs ram (n + 1) (w + 1) p f = refs ram (n + 1) w p f + refs ram n x86.fanout r f := by
  simp only [refs, sum_paths_succ, Finset.sum_range_succ]
  congr 1
  apply Finset.sum_congr rfl
  intro l hl
  rw [leafAt_cons_some (paths_ne_nil hl) hr]

theorem refs_width_none (hr : x86.next (ram p w) = none) (f : ℕ) :
    refs ram (n + 1) (w + 1) p f = refs ram (n + 1) w p f := by
  simp only [refs, sum_paths_succ, Finset.sum_range_succ]
  apply Nat.add_eq_left.mpr
  apply Finset.sum_eq_zero
  intro l hl
  rw [leafAt_cons_none (paths_ne_nil hl) hr]
  rfl

theorem refs_zero_width (f : ℕ) :
    refs ram 0 (w + 1) p f = refs ram 0 w p f + (mapsUser (ram p w) f).toNat := by
  simp only [refs, sum_paths_zero, Finset.sum_range_succ]
  rfl

end NexusKernel.Walks
