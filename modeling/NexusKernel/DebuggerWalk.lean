import NexusKernel.PageMap

/-!
The page walk of the debugger (debugger/src/dbg_memory.c) beside `vmm_get_phys` and the walk of
the processor. The first and the last stop at an entry for a large page, as the boot loader's
direct map has; `vmm_get_phys` takes the large page for a table.
-/

namespace NexusKernel.DebuggerWalk

open Lib.TableTree PageEntries Hardware Vmm Walks PageMap

variable {m : Machine} {addr : UInt64}

def pml4e (m : Machine) (addr : UInt64) : UInt64 := m.entry m.currentPml4 (pml4Index addr)
def pdpte (m : Machine) (addr : UInt64) : UInt64 := m.entry (pml4e m addr &&& addrMask)
    (pdptIndex addr)
def pde (m : Machine) (addr : UInt64) : UInt64 := m.entry (pdpte m addr &&& addrMask) (pdIndex addr)
def pte (m : Machine) (addr : UInt64) : UInt64 := m.entry (pde m addr &&& addrMask) (ptIndex addr)

def dbgIsAddrMapped (m : Machine) (addr : UInt64) : Bool :=
  let cr3 := m.cr3 &&& ~~~0xFFF
  let pml4e := m.entry cr3 (pml4Index addr)
  if !present pml4e then false
  else
    let pdpte := m.entry (pml4e &&& addrMask) (pdptIndex addr)
    if !present pdpte then false
    else if huge pdpte then true
    else
      let pde := m.entry (pdpte &&& addrMask) (pdIndex addr)
      if !present pde then false
      else if huge pde then true
      else present (m.entry (pde &&& addrMask) (ptIndex addr))

/-- The offset bits and the address bits of a page of 1 GiB and of 2 MiB. Bit 12 is the memory
type. -/
def giantOffset : UInt64 := 0x3FFFFFFF
def giantMask : UInt64 := 0x000FFFFFC0000000
def largeOffset : UInt64 := 0x1FFFFF
def largeMask : UInt64 := 0x000FFFFFFFE00000

/-- The physical address the processor finds for a canonical address. Bit 7 is clear in the PML4. -/
def mmuWalk (m : Machine) (addr : UInt64) : Option UInt64 :=
  if !present (pml4e m addr) then none
  else if !present (pdpte m addr) then none
  else if huge (pdpte m addr) then some ((pdpte m addr &&& giantMask) ||| (addr &&& giantOffset))
  else if !present (pde m addr) then none
  else if huge (pde m addr) then some ((pde m addr &&& largeMask) ||| (addr &&& largeOffset))
  else if present (pte m addr) then some ((pte m addr &&& addrMask) ||| (addr &&& 0xFFF))
  else none

theorem vmmGetPhys_words (m : Machine) (addr : UInt64) : vmmGetPhys m addr =
    if present (pml4e m addr) && present (pdpte m addr) && present (pde m addr) && present
      (pte m addr) then
      (pte m addr &&& addrMask) ||| (addr &&& 0xFFF)
    else 0 := by
  have hlevel : ∀ table i, (vmmGetNextLevel m table i false).2 =
      if present (m.entry table i) then some (m.entry table i &&& addrMask) else none := by
    intro table i
    simp only [vmmGetNextLevel]
    split
    · rfl
    · rfl
  simp only [vmmGetPhys, vmmFindPt, hlevel]
  rw [← pml4e]
  cases present (pml4e m addr) with
  | false => rfl
  | true =>
    simp only [if_true]
    rw [← pdpte]
    cases present (pdpte m addr) with
    | false => rfl
    | true =>
      simp only [if_true]
      rw [← pde]
      cases present (pde m addr) with
      | false => rfl
      | true => rfl

/-- In one memory the walks depend on the root only through the first word. -/
theorem walks_congr {m' : Machine} (hram : m'.ram = m.ram) (h₄ : pml4e m' addr = pml4e m addr) :
    mmuWalk m' addr = mmuWalk m addr ∧ vmmGetPhys m' addr = vmmGetPhys m addr := by
  have hentry : ∀ table index, m'.entry table index = m.entry table index := by
    intro table index
    rw [Machine.entry, Machine.entry, hram]
  have h₃ : pdpte m' addr = pdpte m addr := by
    rw [pdpte, pdpte, h₄, hentry]
  have h₂ : pde m' addr = pde m addr := by
    rw [pde, pde, h₃, hentry]
  have h₁ : pte m' addr = pte m addr := by
    rw [pte, pte, h₂, hentry]
  constructor
  · simp only [mmuWalk, h₄, h₃, h₂, h₁]
  · simp only [vmmGetPhys_words, h₄, h₃, h₂, h₁]

theorem and_not_offset {a : UInt64} (h : a.toNat < 2 ^ 52) : a &&& ~~~0xFFF = a &&& addrMask := by
  apply UInt64.toNat_inj.mp
  apply Nat.eq_of_testBit_eq
  intro i
  have hmasks : ∀ j < 52, (~~~(0xFFF : UInt64)).toNat.testBit j = addrMask.toNat.testBit j := by
    decide
  rw [UInt64.toNat_and, UInt64.toNat_and, Nat.testBit_and, Nat.testBit_and]
  by_cases hi : i < 52
  · rw [hmasks i hi]
  · have hz : a.toNat.testBit i = false :=
      Nat.testBit_lt_two_pow (h.trans_le (Nat.pow_le_pow_right (by omega) (by omega)))
    rw [hz, Bool.false_and, Bool.false_and]

theorem dbgIsAddrMapped_words (hcr3 : m.cr3.toNat < 2 ^ 52) (addr : UInt64) :
    dbgIsAddrMapped m addr =
    (present (pml4e m addr) && (present (pdpte m addr) && (huge (pdpte m addr) ||
      (present (pde m addr) && (huge (pde m addr) || present (pte m addr)))))) := by
  have hroot : m.cr3 &&& ~~~0xFFF = m.currentPml4 := and_not_offset hcr3
  simp only [dbgIsAddrMapped, hroot]
  change (if !present (pml4e m addr) then false else if !present (pdpte m addr) then false
    else if huge (pdpte m addr) then true else if !present (pde m addr) then false
    else if huge (pde m addr) then true else present (pte m addr)) = _
  cases present (pml4e m addr) <;> cases present (pdpte m addr) <;> cases huge (pdpte m addr) <;>
    cases present (pde m addr) <;> cases huge (pde m addr) <;> rfl

/-- The words of a large page that `vmm_get_phys` takes for entries happen to name the right page
inside it. -/
def Aliased (m : Machine) (addr : UInt64) : Prop :=
  present (pml4e m addr) = true → present (pdpte m addr) = true → (huge (pdpte m addr) = true →
      present (pde m addr) = true ∧ present (pte m addr) = true ∧
        pte m addr &&& addrMask = (pdpte m addr &&& giantMask) ||| (addr &&& 0x3FFFF000)) ∧
    (huge (pdpte m addr) = false → present (pde m addr) = true → huge (pde m addr) = true →
      present (pte m addr) = true ∧ pte m addr &&& addrMask =
        (pde m addr &&& largeMask) ||| (addr &&& 0x1FF000))

theorem word_and_or (a b c : UInt64) : a &&& (b ||| c) = (a &&& b) ||| (a &&& c) := by
  rw [UInt64.and_comm, word_or_and, UInt64.and_comm b, UInt64.and_comm c]

/-- An offset does not hide a difference of page addresses. -/
theorem or_offset_inj {u v : UInt64} (hu : u &&& 0xFFF = 0) (hv : v &&& 0xFFF = 0) (addr : UInt64) :
    u ||| (addr &&& 0xFFF) = v ||| (addr &&& 0xFFF) ↔ u = v := by
  have hkeep : ∀ {x : UInt64}, x &&& 0xFFF = 0 → (x ||| (addr &&& 0xFFF)) &&& ~~~0xFFF = x := by
    intro x hx
    have hsplit : x = (x &&& 0xFFF) ||| (x &&& ~~~0xFFF) := by
      rw [← word_and_or, show (0xFFF : UInt64) ||| ~~~0xFFF = -1 by decide, UInt64.and_neg_one]
    rw [hx, UInt64.zero_or] at hsplit
    rw [word_or_and, UInt64.and_assoc, show (0xFFF : UInt64) &&& ~~~0xFFF = 0 by decide,
      UInt64.and_zero, UInt64.or_zero, ← hsplit]
  constructor
  · intro h
    rw [← hkeep hu, h, hkeep hv]
  · exact fun h => h ▸ rfl

/-- A large page as pages: its address for `addr` is that of the page in it and the offset there. -/
theorem large_eq_iff {mask pages offset e word : UInt64} (hoff : offset = pages ||| 0xFFF)
    (hmask : mask &&& 0xFFF = 0) (hpages : pages &&& 0xFFF = 0) (addr : UInt64) :
    (e &&& mask) ||| (addr &&& offset) = (word &&& addrMask) ||| (addr &&& 0xFFF) ↔
      word &&& addrMask = (e &&& mask) ||| (addr &&& pages) := by
  have hlow : ∀ {a b : UInt64}, b &&& 0xFFF = 0 → (a &&& b) &&& 0xFFF = 0 := by
    intro a b hb
    rw [UInt64.and_assoc, hb, UInt64.and_zero]
  have hpage : ((e &&& mask) ||| (addr &&& pages)) &&& 0xFFF = 0 := by
    rw [word_or_and, hlow hmask, hlow hpages]
    rfl
  rw [hoff, word_and_or, ← UInt64.or_assoc, or_offset_inj hpage (hlow (by decide)) addr, eq_comm]

def WalksAgree (m : Machine) (addr : UInt64) : Prop :=
  (vmmGetPhys m addr ≠ 0 ↔ dbgIsAddrMapped m addr = true) ∧
    (dbgIsAddrMapped m addr = true → mmuWalk m addr = some (vmmGetPhys m addr))

/-- `vmm_get_phys` finds a mapped address only through four present words. -/
theorem walksAgree_of_mapped {phys : UInt64} (hnonzero : mmuWalk m addr ≠ some 0)
    (hdbg : dbgIsAddrMapped m addr = true) (hwalk : mmuWalk m addr = some phys) :
    WalksAgree m addr ↔
    (present (pml4e m addr) = true ∧ present (pdpte m addr) = true ∧ present (pde m addr) = true ∧
      present (pte m addr) = true) ∧ phys = (pte m addr &&& addrMask) ||| (addr &&& 0xFFF) := by
  have hphys : phys ≠ 0 := fun hz => hnonzero (hz ▸ hwalk)
  rw [WalksAgree, vmmGetPhys_words]
  constructor
  · intro h
    have hget := Option.some.inj (hwalk.symm.trans (h.2 hdbg))
    split at hget
    · rename_i hpres
      simp only [Bool.and_eq_true, and_assoc] at hpres
      exact ⟨hpres, hget⟩
    · exact absurd hget hphys
  · rintro ⟨⟨h₄, h₃, h₂, h₁⟩, rfl⟩
    simp [h₄, h₃, h₂, h₁, hdbg, hwalk, hphys]

theorem walksAgree_of_unmapped (hdbg : dbgIsAddrMapped m addr = false)
    (hphys : vmmGetPhys m addr = 0) : WalksAgree m addr := by
  refine ⟨?_, fun h => absurd (hdbg.symm.trans h) (by simp)⟩
  rw [hphys, hdbg]
  simp

/-- On an address not mapped to physical 0 the walks agree exactly if the contents of a large page
on the way pass for the right entries. -/
theorem walks_agree_iff (hcr3 : m.cr3.toNat < 2 ^ 52) (hnonzero : mmuWalk m addr ≠ some 0) :
    WalksAgree m addr ↔ Aliased m addr := by
  have hdbg := dbgIsAddrMapped_words hcr3 addr
  have hvmm := vmmGetPhys_words m addr
  cases h₄ : present (pml4e m addr) with
  | false =>
    simp only [h₄, Bool.false_and, Bool.false_eq_true, if_false] at hdbg hvmm
    exact iff_of_true (walksAgree_of_unmapped hdbg hvmm) fun h => absurd (h₄.symm.trans h) (by simp)
  | true =>
  cases h₃ : present (pdpte m addr) with
  | false =>
    simp only [h₃, Bool.false_and, Bool.and_false, Bool.false_eq_true, if_false] at hdbg hvmm
    exact iff_of_true (walksAgree_of_unmapped hdbg hvmm) fun _ h => absurd
      (h₃.symm.trans h) (by simp)
  | true =>
  cases hgiant : huge (pdpte m addr) with
  | true =>
    have hwalk :
        mmuWalk m addr = some ((pdpte m addr &&& giantMask) ||| (addr &&& giantOffset)) := by
      simp [mmuWalk, h₄, h₃, hgiant]
    rw [walksAgree_of_mapped hnonzero (by simp [hdbg, h₄, h₃, hgiant]) hwalk,
      large_eq_iff (show giantOffset = 0x3FFFF000 ||| 0xFFF by decide) (by decide) (by decide)]
    simp [Aliased, h₄, h₃, hgiant, and_assoc]
  | false =>
  cases h₂ : present (pde m addr) with
  | false =>
    simp only [h₂, hgiant, Bool.false_and, Bool.and_false, Bool.or_false, Bool.false_eq_true,
      if_false] at hdbg hvmm
    exact iff_of_true (walksAgree_of_unmapped hdbg hvmm) (fun _ _ =>
      ⟨fun h => absurd (hgiant.symm.trans h) (by simp),
        fun _ h => absurd (h₂.symm.trans h) (by simp)⟩)
  | true =>
  cases hlarge : huge (pde m addr) with
  | true =>
    have hwalk : mmuWalk m addr = some ((pde m addr &&& largeMask) ||| (addr &&& largeOffset)) := by
      simp [mmuWalk, h₄, h₃, hgiant, h₂, hlarge]
    rw [walksAgree_of_mapped hnonzero (by simp [hdbg, h₄, h₃, hgiant, h₂, hlarge]) hwalk,
      large_eq_iff (show largeOffset = 0x1FF000 ||| 0xFFF by decide) (by decide) (by decide)]
    simp [Aliased, h₄, h₃, hgiant, h₂, hlarge]
  | false =>
    have haliased : Aliased m addr := by simp [Aliased, hgiant, hlarge]
    refine iff_of_true ?_ haliased
    cases h₁ : present (pte m addr) with
    | false =>
      exact walksAgree_of_unmapped (by simp [hdbg, hgiant, hlarge, h₁]) (by simp [hvmm, h₁])
    | true =>
      have hwalk : mmuWalk m addr = some ((pte m addr &&& addrMask) ||| (addr &&& 0xFFF)) := by
        simp [mmuWalk, h₄, h₃, hgiant, h₂, hlarge, h₁]
      rw [walksAgree_of_mapped hnonzero (by simp [hdbg, h₄, h₃, h₂, h₁]) hwalk]
      exact ⟨⟨h₄, h₃, h₂, h₁⟩, rfl⟩

theorem plain_level {ram : Store UInt64} {p i : ℕ} {l : List ℕ} (hl : l ≠ [])
    (h : Unblocked plain x86 ram p (i :: l)) :
    (present (ram p i) = false ∧ leafAt plain ram p (i :: l) = 0) ∨
      (present (ram p i) = true ∧ huge (ram p i) = false ∧
        leafAt plain ram p (i :: l) = leafAt plain ram (frame (ram p i)) l ∧
        Unblocked plain x86 ram (frame (ram p i)) l) := by
  obtain ⟨hstop, hlow⟩ := (unblocked_cons hl).mp h
  cases hnext : plain.next (ram p i) with
  | none => exact .inl ⟨next_eq_none.mp (hstop hnext), leafAt_cons_none hl hnext⟩
  | some q =>
    obtain ⟨hpres, hhuge, rfl⟩ := plain_next_eq_some.mp hnext
    exact .inr ⟨hpres, hhuge, leafAt_cons_some hl hnext, hlow _ hnext⟩

/-- Without a large page on the way, the processor finds the leaf. -/
theorem mmuWalk_leaf {a : UInt64} (h : Unblocked plain x86 m.ram (frame m.cr3) (pathOf a)) :
    mmuWalk m a =
    if present (leafAt plain m.ram (frame m.cr3) (pathOf a)) then
      some ((leafAt plain m.ram (frame m.cr3) (pathOf a) &&& addrMask) ||| (a &&& 0xFFF))
    else none := by
  have h₄ : pml4e m a = m.ram (frame m.cr3) (pml4Index a) := rfl
  have h₃ : pdpte m a = m.ram (frame (m.ram (frame m.cr3) (pml4Index a))) (pdptIndex a) := rfl
  have h₂ : pde m a = m.ram (frame (m.ram (frame (m.ram (frame m.cr3) (pml4Index a)))
    (pdptIndex a))) (pdIndex a) := rfl
  rw [pathOf] at h ⊢
  rcases plain_level (List.cons_ne_nil _ _) h with ⟨hnone, hleaf⟩ | ⟨hsome₄, _, hleaf₄, hopen₄⟩
  · simp [mmuWalk, h₄, hnone, hleaf]
  rcases plain_level (List.cons_ne_nil _ _) hopen₄
    with ⟨hnone, hleaf⟩ | ⟨hsome₃, hplain₃, hleaf₃, hopen₃⟩
  · simp [mmuWalk, h₄, hsome₄, h₃, hnone, hleaf₄, hleaf]
  rcases plain_level (List.cons_ne_nil _ _) hopen₃
    with ⟨hnone, hleaf⟩ | ⟨hsome₂, hplain₂, hleaf₂, _⟩
  · simp [mmuWalk, h₄, hsome₄, h₃, hsome₃, hplain₃, h₂, hnone, hleaf₄, hleaf₃, hleaf]
  · rw [mmuWalk, h₄, h₃, h₂, hsome₄, hsome₃, hplain₃, hsome₂, hplain₂, hleaf₄, hleaf₃, hleaf₂]
    rfl

/-- What is not mapped for the processor is not for `vmm_get_phys`. -/
theorem vmmGetPhys_of_none (h : mmuWalk m addr = none) : vmmGetPhys m addr = 0 := by
  rw [vmmGetPhys_words, if_neg]
  intro hpres
  simp only [Bool.and_eq_true] at hpres
  obtain ⟨⟨⟨h₄, h₃⟩, h₂⟩, h₁⟩ := hpres
  grind [mmuWalk]

def directMap : Machine :=
  { blankMachine with
    ram := fun p i =>
      if p = 200 ∧ i = 256 then 0xC9003
      else if p = 201 ∧ i = 0 then 0xCA003
      else if p = 202 ∧ i = 0 then 0xCB003
      else if p = 202 ∧ i = 1 then 0x200083
      else if p = 203 ∧ i = 300 then 0x12C003
      else 0 }

theorem walks_agree_page : mmuWalk directMap 0xFFFF80000012C010 = some 0x12C010 ∧
    WalksAgree directMap 0xFFFF80000012C010 := by
  have hwalk : mmuWalk directMap 0xFFFF80000012C010 = some 0x12C010 := by decide
  refine ⟨hwalk, (walks_agree_iff (by decide) ?_).mpr ?_⟩
  · decide
  · unfold Aliased
    decide

/-- The large page is mapped for processor and debugger, but `vmm_get_phys` reads its first words,
0, as a table. -/
theorem large_page_not_found : mmuWalk directMap 0xFFFF800000200010 = some 0x200010 ∧
    dbgIsAddrMapped directMap 0xFFFF800000200010 = true ∧
    vmmGetPhys directMap 0xFFFF800000200010 = 0 ∧ ¬ WalksAgree directMap 0xFFFF800000200010 := by
  have hdbg : dbgIsAddrMapped directMap 0xFFFF800000200010 = true := by decide
  have hphys : vmmGetPhys directMap 0xFFFF800000200010 = 0 := by decide
  exact ⟨by decide, hdbg, hphys, fun h => h.1.mpr hdbg hphys⟩

end NexusKernel.DebuggerWalk
