import NexusKernel.HeapRegions
import NexusKernel.SegmentLoading

/-!
The bytes of a loaded segment: those of the file, with zeros before and behind them; a page
without data is added, all zero, when first used. But a segment that shares a page with an earlier
one replaces it, with zeros where the other had its bytes. So the bytes of a segment are right
exactly if those that another one puts over them are.
-/

namespace NexusKernel.SegmentBytes

open Lib.TableTree PhysicalMemory PageEntries Hardware Vmm
open Walks AddressSpaces KernelTables HeapGrowth Processes RunningProcess FirstProcess
open UserAccess ForkValidity HeapRegions ElfLoader SegmentLoading ElfPhdr
open UInt64 (le_iff_toNat_le lt_iff_toNat_lt toNat_add toNat_div toNat_sub_of_le toNat_zero)

def wordByte (page : ℕ → UInt64) (k : ℕ) : UInt8 :=
  (page (k / 8) >>> UInt64.ofNat (8 * (k % 8))).toUInt8

theorem shift_eq {i : ℕ} (hi : i < 8) : (UInt64.ofNat (8 * i)).toBitVec % 64 =
    BitVec.ofNat 64 (8 * i) := by
  apply BitVec.eq_of_toNat_eq
  simp
  omega

theorem shift_toNat {i : ℕ} (hi : i < 8) : (BitVec.ofNat 64 (8 * i)).toNat = 8 * i := by
  rw [BitVec.toNat_ofNat]
  omega

theorem byte_of_replaced (w : UInt64) (b : UInt8) {i j : ℕ} (hi : i < 8) (hj : j < 8) :
    (((w &&& ~~~(0xFF <<< UInt64.ofNat (8 * i))) ||| (b.toUInt64 <<< UInt64.ofNat (8 * i))) >>>
      UInt64.ofNat (8 * j)).toUInt8 = if j = i then b
        else (w >>> UInt64.ofNat (8 * j)).toUInt8 := by
  apply UInt8.toBitVec_inj.mp
  apply BitVec.eq_of_getLsbD_eq
  intro t ht
  have hone : (255#64).getLsbD t = true := by
    interval_cases t <;> rfl
  have hz : ∀ k, 8 ≤ k → (255#64).getLsbD k = false := by
    intro k hk
    have hbit : Nat.testBit 255 k = false :=
      Nat.testBit_lt_two_pow (lt_of_lt_of_le (by decide : 255 < 2 ^ 8)
        (Nat.pow_le_pow_right (by decide) hk))
    rw [BitVec.getLsbD_ofNat, hbit, Bool.and_false]
  split <;>
  · simp only [UInt64.toBitVec_toUInt8, UInt64.toBitVec_shiftRight, UInt64.toBitVec_or,
      UInt64.toBitVec_and, UInt64.toBitVec_not, UInt64.toBitVec_shiftLeft, UInt8.toBitVec_toUInt64,
      shift_eq hi, shift_eq hj, UInt64.toBitVec_ofNat, BitVec.ushiftRight_eq', BitVec.shiftLeft_eq',
      shift_toNat hi, shift_toNat hj, BitVec.getLsbD_setWidth, BitVec.getLsbD_ushiftRight,
      BitVec.getLsbD_or, BitVec.getLsbD_and, BitVec.getLsbD_not, BitVec.getLsbD_shiftLeft]
    grind

theorem wordByte_storeByte (page : ℕ → UInt64) (k : ℕ) (b : UInt8) (i : ℕ) :
    wordByte (storeByte page k b) i = if i = k then b else wordByte page i := by
  unfold wordByte storeByte
  by_cases hword : i / 8 = k / 8
  · rw [hword, Function.update_self, byte_of_replaced _ _ (Nat.mod_lt _ (by decide))
      (Nat.mod_lt _ (by decide))]
    have hsame : i % 8 = k % 8 ↔ i = k := by omega
    simp only [hsame]
  · have hne : i ≠ k := fun heq => hword (by rw [heq])
    rw [Function.update_of_ne hword, if_neg hne]

theorem wordByte_storeBytes (bytes : List UInt8) (page : ℕ → UInt64) (k i : ℕ) :
    wordByte (storeBytes page k bytes) i =
      if k ≤ i ∧ i < k + bytes.length then bytes.getD (i - k) 0 else wordByte page i := by
  induction bytes generalizing page k with
  | nil =>
    rw [if_neg (by simp)]
    rfl
  | cons b rest ih =>
    rw [storeBytes, ih, wordByte_storeByte, List.length_cons]
    by_cases hat : i = k
    · subst i
      rw [if_neg (by omega), if_pos rfl, if_pos (by omega), Nat.sub_self]
      rfl
    · rw [if_neg hat]
      by_cases hin : k ≤ i ∧ i < k + (rest.length + 1)
      · obtain ⟨t, ht⟩ : ∃ t, i - k = t + 1 := ⟨i - k - 1, by omega⟩
        rw [if_pos (by omega), if_pos hin, ht, List.getD_cons_succ]
        congr 1
        omega
      · rw [if_neg (by omega), if_neg hin]

structure UserSegment (p : ElfPhdr) : Prop where
  sizes : p.filesz.toNat ≤ p.memsz.toNat
  top : p.vaddr.toNat + p.memsz.toNat ≤ 2 ^ 47

structure Holds (file : VfsNode) (p : ElfPhdr) (content : ℕ → UInt8) : Prop where
  fits : p.offset.toNat + p.filesz.toNat ≤ 2 ^ 64
  read : ∀ offset size : UInt64, p.offset.toNat ≤ offset.toNat →
    offset.toNat + size.toNat ≤ p.offset.toNat + p.filesz.toNat →
    (vfsRead file offset size).bytes = (List.range size.toNat).map
      (fun i => content (offset.toNat + i))

def segmentByte (p : ElfPhdr) (content : ℕ → UInt8) (k : ℕ) : UInt8 :=
  if k < p.filesz.toNat then content (p.offset.toNat + k) else 0

def byteAddr (p : ElfPhdr) (k : ℕ) : UInt64 := p.vaddr + UInt64.ofNat k

variable {file : VfsNode} {p : ElfPhdr} {content : ℕ → UInt8} {j k : ℕ}

theorem inPage_toNat (x : UInt64) : (x &&& 0xFFF).toNat = x.toNat % 4096 := by
  exact Nat.and_two_pow_sub_one_eq_mod x.toNat 12

theorem page_toNat : (4096 : UInt64).toNat = 4096 := rfl

theorem virtStart_toNat (p : ElfPhdr) : p.virtStart.toNat = p.vaddr.toNat / 4096 * 4096 :=
  and_not_page p.vaddr

theorem virtEnd_toNat (htop : p.vaddr.toNat + p.memsz.toNat ≤ 2 ^ 47) :
    p.virtEnd.toNat = (p.vaddr.toNat + p.memsz.toNat + 4095) / 4096 * 4096 := by
  have hsum : (p.vaddr + p.memsz + 0xFFF).toNat = p.vaddr.toNat + p.memsz.toNat + 4095 := by
    simp only [toNat_add, UInt64.reduceToNat]
    omega
  rw [virtEnd, and_not_page, hsum]

theorem numPages_toNat (htop : p.vaddr.toNat + p.memsz.toNat ≤ 2 ^ 47) :
    p.numPages.toNat = (p.vaddr.toNat % 4096 + p.memsz.toNat + 4095) / 4096 := by
  have hend := virtEnd_toNat htop
  have hst := virtStart_toNat p
  have hle : p.virtStart ≤ p.virtEnd := by
    rw [le_iff_toNat_le]
    omega
  rw [numPages, toNat_div, toNat_sub_of_le _ _ hle, page_toNat]
  omega

namespace UserSegment

theorem filePages_toNat (h : UserSegment p) :
    p.filePages.toNat = (p.vaddr.toNat % 4096 + p.filesz.toNat + 4095) / 4096 := by
  have htop := h.top
  have hsizes := h.sizes
  have hnum := numPages_toNat h.top
  have hpages : ((p.filesz + (p.vaddr &&& 0xFFF) + 0xFFF) / 4096).toNat =
      (p.vaddr.toNat % 4096 + p.filesz.toNat + 4095) / 4096 := by
    simp only [toNat_div, toNat_add, inPage_toNat, UInt64.reduceToNat]
    omega
  unfold filePages
  rw [if_neg, hpages]
  rw [gt_iff_lt, lt_iff_toNat_lt, hpages]
  omega

theorem pageVirt_toNat (h : UserSegment p) (hj : j < p.filePages.toNat) :
    (p.pageVirt j).toNat = p.vaddr.toNat / 4096 * 4096 + 4096 * j := by
  have htop := h.top
  have hsizes := h.sizes
  rw [h.filePages_toNat] at hj
  have hj' : (UInt64.ofNat j).toNat = j := UInt64.toNat_ofNat_of_lt' (by grind)
  simp only [pageVirt, toNat_add, UInt64.toNat_mul, virtStart_toNat, hj', UInt64.reduceToNat]
  omega

/-- The first page begins before the segment or with it; others are behind. -/
theorem pageSkip_toNat (h : UserSegment p) (hj : j < p.filePages.toNat) :
    (p.pageSkip j).toNat = 4096 * j - p.vaddr.toNat % 4096 := by
  have hvirt := h.pageVirt_toNat hj
  unfold pageSkip
  split
  · rename_i hbehind
    have hle : p.vaddr ≤ p.pageVirt j := UInt64.le_of_lt hbehind
    rw [toNat_sub_of_le _ _ hle]
    omega
  · rename_i hpre
    rw [gt_iff_lt, lt_iff_toNat_lt] at hpre
    rw [toNat_zero]
    omega

theorem pageDest_toNat (p : ElfPhdr) (j : ℕ) :
    (p.pageDest j).toNat = p.vaddr.toNat % 4096 - 4096 * j := by
  unfold pageDest
  split
  · rename_i hfirst
    rw [inPage_toNat, hfirst, Nat.sub_zero]
  · rw [toNat_zero]
    omega

theorem pageSize_toNat (h : UserSegment p) (hj : j < p.filePages.toNat) :
    (p.pageSize j).toNat = min (4096 - (p.vaddr.toNat % 4096 - 4096 * j))
      (p.filesz.toNat - (4096 * j - p.vaddr.toNat % 4096)) := by
  have htop := h.top
  have hsizes := h.sizes
  have hskip := h.pageSkip_toNat hj
  have hdest := pageDest_toNat p j
  have hroom : (4096 - p.pageDest j).toNat = 4096 - (p.vaddr.toNat % 4096 - 4096 * j) := by
    have hle : p.pageDest j ≤ 4096 := by
      rw [le_iff_toNat_le, page_toNat]
      omega
    rw [toNat_sub_of_le _ _ hle, hdest, page_toNat]
  rw [h.filePages_toNat] at hj
  have hsum : (p.pageSkip j + (4096 - p.pageDest j)).toNat =
      (4096 * j - p.vaddr.toNat % 4096) + (4096 - (p.vaddr.toNat % 4096 - 4096 * j)) := by
    rw [toNat_add]
    omega
  unfold pageSize
  split
  · rename_i hover
    rw [gt_iff_lt, lt_iff_toNat_lt] at hover
    split
    · rename_i hsome
      have hle : p.pageSkip j ≤ p.filesz := UInt64.le_of_lt hsome
      rw [toNat_sub_of_le _ _ hle]
      omega
    · rename_i hnone
      rw [gt_iff_lt, lt_iff_toNat_lt] at hnone
      rw [toNat_zero]
      omega
  · rename_i hwhole
    rw [gt_iff_lt, lt_iff_toNat_lt] at hwhole
    omega

end UserSegment

section

variable (h : UserSegment p) (hfile : Holds file p content) (hj : j < p.filePages.toNat)
include h hfile hj

theorem pageBytes_eq : (vfsRead file (p.offset + p.pageSkip j) (p.pageSize j)).bytes =
      (List.range (p.pageSize j).toNat).map
        (fun i => content (p.offset.toNat + (4096 * j - p.vaddr.toNat % 4096) + i)) := by
  have hfits := hfile.fits
  have hskip := h.pageSkip_toNat hj
  have hsize := h.pageSize_toNat hj
  by_cases hnone : (p.pageSize j).toNat = 0
  · simp [vfsRead, hnone]
  · have hoff :
        (p.offset + p.pageSkip j).toNat = p.offset.toNat + (4096 * j - p.vaddr.toNat % 4096) := by
      rw [toNat_add]
      omega
    rw [hfile.read _ _ (by omega) (by omega), hoff]

/-- A loaded page holds the bytes of its segment, and zeros elsewhere. -/
theorem wordByte_pageWords {o : ℕ} (ho : o < 4096) : wordByte (pageWords file p j) o =
    if p.vaddr.toNat % 4096 ≤ 4096 * j + o then
      segmentByte p content (4096 * j + o - p.vaddr.toNat % 4096)
    else 0 := by
  have hsize := h.pageSize_toNat hj
  have hblank : wordByte (fun _ => 0) o = 0 := by simp [wordByte]
  rw [pageWords, wordByte_storeBytes, pageBytes_eq h hfile hj, UserSegment.pageDest_toNat, hblank,
    List.length_map, List.length_range]
  unfold segmentByte
  by_cases hin : p.vaddr.toNat % 4096 - 4096 * j ≤ o ∧
    o < p.vaddr.toNat % 4096 - 4096 * j + (p.pageSize j).toNat
  · rw [if_pos hin, if_pos (by omega), if_pos (by omega), List.getD_eq_getElem?_getD,
      List.getElem?_map, List.getElem?_range (by omega), Option.map_some]
    exact congrArg content (by omega)
  · rw [if_neg hin]
    by_cases hbegun : p.vaddr.toNat % 4096 ≤ 4096 * j + o
    · rw [if_pos hbegun, if_neg (by omega)]
    · rw [if_neg hbegun]

end

section

variable (htop : p.vaddr.toNat + p.memsz.toNat ≤ 2 ^ 47) (hk : k < p.memsz.toNat)
include htop hk

theorem byteAddr_toNat : (byteAddr p k).toNat = p.vaddr.toNat + k := by
  have hk' : (UInt64.ofNat k).toNat = k := UInt64.toNat_ofNat_of_lt' (by grind)
  rw [byteAddr, toNat_add]
  omega

theorem byteAddr_half : pml4Index (byteAddr p k) < 256 := by
  rw [pml4Index_eq, byteAddr_toNat htop hk]
  omega

end

/-- Where the byte at an offset of the segment is to be found. -/
theorem byteAddr_page (h : UserSegment p) (hk : k < p.memsz.toNat) :
    pathOf (byteAddr p k) = pathOf (p.pageVirt ((p.vaddr.toNat % 4096 + k) / 4096)) ∧
      (byteAddr p k).toNat % 4096 = (p.vaddr.toNat % 4096 + k) % 4096 := by
  have htop := h.top
  have haddr := byteAddr_toNat h.top hk
  refine ⟨?_, by omega⟩
  rw [pathOf_eq_iff, pageVirt_number p (by omega), virtStart_toNat, pageNumber]
  omega

theorem pageAt_byteAddr (h : UserSegment p) (hlow : FileBelow p) (hk : k < p.memsz.toNat) :
    pageAt p (pathOf (byteAddr p k)) =
      if (p.vaddr.toNat % 4096 + k) / 4096 < p.filePages.toNat then
        some ((p.vaddr.toNat % 4096 + k) / 4096)
      else none := by
  have htop := h.top
  rw [(byteAddr_page h hk).1]
  split
  · rename_i hin
    exact (pageAt_eq_some hlow).mpr ⟨hin, rfl⟩
  · apply pageAt_eq_none.mpr
    intro i hi heq
    rw [pathOf_eq_iff, pageVirt_number p (by omega), pageVirt_number p (by omega)] at heq
    omega

variable {m : Machine} {live : Finset ℕ} {resv K : Set ℕ} {r : ℕ} {proc : Process} {addr : UInt64}

theorem fault_cleared (hwf : Wf m live resv) (hr : r ∈ live) (hcr3 : m.cr3 = pageAddr r)
    (hproc : proc.cr3 = pageAddr r) (hhalf : pml4Index addr < 256)
    (habs : present (leaf m r (pathOf addr)) = false) (haccepts : accepts proc addr = true)
    (write : Bool) (hoom : (fault m proc addr write).1.oom = false) :
    (fault m proc addr write).2.2 = .resumed ∧
    seen (fault m proc addr write).1 r (pathOf addr) = some (fun _ => 0) := by
  have hroot : frame m.cr3 = r := by
    rw [hcr3, CopyOnWrite.frame_pageAddr (hwf.sane.lt_of_inUse (hwf.tree r hr).root)]
  have hresumed := (fault_resumed_iff (by rw [hroot]; exact habs) write).mpr haccepts
  refine ⟨hresumed, ?_⟩
  obtain ⟨w, hplan⟩ : ∃ w, absentPlan proc addr = .map w := by
    cases hcase : absentPlan proc addr with
    | cow => exact absurd hcase (absentPlan_ne_cow proc addr)
    | map w => exact ⟨w, rfl⟩
    | kill => exact Bool.noConfusion ((absentPlan_kill_iff.mp hcase).symm.trans haccepts)
  have hfault : (fault m proc addr write).1 = mapUserPage m (pageAddr r) (pageBase addr)
      (userFlags w) := by
    rw [fault, pageFaultHandler_eq, faultPlan_absent hroot habs, hplan, hproc]
  rw [hfault] at hoom ⊢
  rcases mapUserPage_cleared hwf.sane (hwf.tree r hr) (pml4Index_pageBase addr ▸ hhalf) w with
    href | ⟨f, hmap, hz⟩
  · cases hoom.symm.trans href.oom
  · rw [pathOf_pageBase] at hmap
    rcases hmap.mapped with hdone | ⟨hfull, _⟩
    · obtain ⟨hpres, _, _, hframe⟩ := hmap.leafEntry_spec hwf.sane
      rw [seen, hdone, if_pos hpres, hframe, hz]
    · cases hoom.symm.trans hfull

theorem elfLoad_registered {image : Image} (hregions : (elfLoad m proc image).2.1.vmas.length =
      proc.vmas.length + image.segments.length) :
    ∀ p ∈ image.segments, ∃ v ∈ (elfLoad m proc image).2.1.vmas,
      v.virtStart = p.vaddr ∧ v.virtEnd = p.vaddr + p.memsz := by
  cases hacc : image.accepted with
  | false =>
    rw [elfLoad_rejected hacc] at hregions
    dsimp only at hregions
    have hnone : image.segments = [] := List.length_eq_zero_iff.mp (by omega)
    rw [hnone]
    exact fun p hp => absurd hp List.not_mem_nil
  | true =>
    rw [elfLoad_accepted hacc] at hregions ⊢
    exact (loads_registered image.file image.segments (m.writeCr3 proc.cr3,
      { proc with heapBase := 0 })).2.2 hregions

theorem accepts_of_vma {v : Vma} (hv : v ∈ proc.vmas) (hst : v.virtStart ≤ addr)
    (hend : addr < v.virtEnd) : accepts proc addr = true := by
  have hfound : (processFindVma proc addr).isSome = true := by
    rw [processFindVma, List.find?_isSome]
    exact ⟨v, hv, by simp [hst, hend]⟩
  rw [accepts, elsewhere, hfound, Bool.or_true, Bool.true_or]

theorem UserSegment.accepts {v : Vma} (h : UserSegment p) (hv : v ∈ proc.vmas)
    (hst : v.virtStart = p.vaddr) (hend : v.virtEnd = p.vaddr + p.memsz)
    (hk : k < p.memsz.toNat) : accepts proc (byteAddr p k) = true := by
  have htop := h.top
  have haddr := byteAddr_toNat h.top hk
  apply accepts_of_vma hv
  · rw [hst, le_iff_toNat_le]
    omega
  · rw [hend, lt_iff_toNat_lt, toNat_add]
    omega

/-- What the process finds at an address: the byte of the page mapped there, or else that of the
page the handler adds. -/
def Finds (m : Machine) (proc : Process) (r : ℕ) (addr : UInt64) (b : UInt8) : Prop :=
  match seen m r (pathOf addr) with
  | some page => wordByte page (addr.toNat % 4096) = b
  | none =>
      ∀ ds write,
        let out := fault ((denying m ds).writeCr3 (pageAddr r)) proc addr write
        out.1.oom = false → out.2.2 = .resumed ∧
          ∃ page, seen out.1 r (pathOf addr) = some page ∧ wordByte page (addr.toNat % 4096) = b

/-- The other segment whose page is found where a segment has its own: one behind it, or one
before it if it loads no page there. -/
def other (before : List ElfPhdr) (p : ElfPhdr) (after : List ElfPhdr) (l : List ℕ) :
    Option (ElfPhdr × ℕ) :=
  (lastAt after l).or (if (pageAt p l).isSome then none else lastAt before l)

/-- What other segments put over the bytes of a segment are these bytes. -/
def Spared (file : VfsNode) (before : List ElfPhdr) (p : ElfPhdr) (after : List ElfPhdr)
    (content : ℕ → UInt8) : Prop :=
  ∀ k < p.memsz.toNat, ∀ q j, other before p after (pathOf (byteAddr p k)) = some (q, j) →
    wordByte (pageWords file q j) ((byteAddr p k).toNat % 4096) = segmentByte p content k

theorem lastAt_append (as bs : List ElfPhdr) (l : List ℕ) :
    lastAt (as ++ bs) l = (lastAt bs l).or (lastAt as l) := by
  induction as with
  | nil => rw [List.nil_append, lastAt, Option.or_none]
  | cons a as ih => rw [List.cons_append, lastAt, lastAt, ih, Option.or_assoc]

variable {before after : List ElfPhdr} {image : Image}

theorem lastAt_split (l : List ℕ) : lastAt (before ++ p :: after) l =
    (other before p after l).or ((pageAt p l).map (fun j => (p, j))) := by
  rw [lastAt_append, lastAt, other]
  cases lastAt after l with
  | some w => rfl
  | none =>
    cases pageAt p l with
    | some j => rfl
    | none => simp

theorem finds_of_seen {page : ℕ → UInt64} {b : UInt8} (h : seen m r (pathOf addr) = some page) :
    Finds m proc r addr b ↔ wordByte page (addr.toNat % 4096) = b := by
  rw [Finds, h]

theorem finds_zero (hwf : Wf m live resv) (hr : r ∈ live) (hproc : proc.cr3 = pageAddr r)
    (hhalf : pml4Index addr < 256) (habs : present (leaf m r (pathOf addr)) = false)
    (haccepts : accepts proc addr = true) : Finds m proc r addr 0 := by
  have hnone : seen m r (pathOf addr) = none := by simp [seen, habs]
  rw [Finds, hnone]
  intro ds write out hoom
  obtain ⟨hresumed, hz⟩ := fault_cleared (m := (denying m ds).writeCr3 (pageAddr r))
    (hwf.of_eq rfl rfl) hr rfl hproc hhalf habs haccepts write hoom
  exact ⟨hresumed, _, hz, by simp [wordByte]⟩

theorem finds_iff {m₁ : Machine} (hwf : Wf m₁ live resv) (hr : r ∈ live)
    (hproc : proc.cr3 = pageAddr r)
    (hp : UserSegment p) (hlow : FileBelow p) (hfile : Holds file p content)
    (hloads : Loads file (before ++ p :: after) r m m₁) (hk : k < p.memsz.toNat)
    (habs : present (leaf m r (pathOf (byteAddr p k))) = false)
    (haccepts : accepts proc (byteAddr p k) = true) (hhalf : pml4Index (byteAddr p k) < 256) :
    Finds m₁ proc r (byteAddr p k) (segmentByte p content k) ↔
      ∀ q j, other before p after (pathOf (byteAddr p k)) = some (q, j) →
        wordByte (pageWords file q j) ((byteAddr p k).toNat % 4096) = segmentByte p content k := by
  obtain ⟨hpath, hoff⟩ := byteAddr_page hp hk
  have hpages := hp.filePages_toNat
  rcases hloads.pages _ (pathOf_mem hhalf) with ⟨hlast, hsame⟩ | ⟨q, j, hlast, hplaced, _⟩
  · rw [lastAt_split, Option.or_eq_none_iff, pageAt_byteAddr hp hlow hk] at hlast
    obtain ⟨hother, hbss⟩ := hlast
    have hz : segmentByte p content k = 0 := by
      rw [segmentByte, if_neg]
      intro hlt
      rw [if_pos (by omega)] at hbss
      simp at hbss
    rw [hother, hz]
    refine ⟨nofun, fun _ => ?_⟩
    exact finds_zero hwf hr hproc hhalf (by rw [hsame.leaf]; exact habs) haccepts
  · rw [finds_of_seen hplaced.seen]
    rw [lastAt_split] at hlast
    cases hother : other before p after (pathOf (byteAddr p k)) with
    | some w =>
      rw [hother, Option.some_or, Option.some.injEq] at hlast
      subst w
      refine ⟨fun hbyte q' j' hsome => ?_, fun hall => hall q j rfl⟩
      obtain ⟨rfl, rfl⟩ := Prod.mk.inj (Option.some.inj hsome)
      exact hbyte
    | none =>
      -- the page is the segment's own
      rw [hother, pageAt_byteAddr hp hlow hk] at hlast
      split at hlast
      · rename_i hin
        cases hlast
        refine ⟨fun _ q' j' hsome => absurd hsome (by simp), fun _ => ?_⟩
        rw [wordByte_pageWords hp hfile hin (Nat.mod_lt _ (by decide)), if_pos (by omega)]
        exact congrArg (segmentByte p content) (by omega)
      · simp at hlast

/-- After a load without refusals, the bytes of a segment are those of the file, and zeros behind
them, exactly if no other segment puts another byte over them. -/
theorem segment_bytes (hsplit : image.segments = before ++ p :: after)
    (hlow : ∀ q ∈ image.segments, FileBelow q) (hp : UserSegment p)
    (hfile : Holds image.file p content) (h : Wf m live resv) (hr : r ∈ live)
    (hproc : proc.cr3 = pageAddr r) (hK : K ⊆ resv) (hwalk : HeapWalk K m.ram r)
    (hroom : HeapRoom m (4 * image.segments.length))
    (hunmapped : ∀ k < p.memsz.toNat, present (leaf m r (pathOf (byteAddr p k))) = false)
    (hresult : (elfLoad m proc image).2.2.2 = 0) (hoom : (elfLoad m proc image).1.oom = false)
    (hregions : (elfLoad m proc image).2.1.vmas.length = proc.vmas.length + image.segments.length) :
    (∀ k < p.memsz.toNat, Finds (elfLoad m proc image).1 (elfLoad m proc image).2.1 r (byteAddr p k)
        (segmentByte p content k)) ↔ Spared image.file before p after content := by
  obtain ⟨⟨resv', hwf⟩, hloads⟩ := elfLoad_loads hlow h hr hproc hK hwalk hroom hresult hoom
  have hmem : p ∈ image.segments := by
    rw [hsplit]
    exact List.mem_append_right before List.mem_cons_self
  obtain ⟨v, hv, hst, hfin⟩ := elfLoad_registered hregions p hmem
  rw [hsplit] at hloads
  refine forall₂_congr fun k hk => ?_
  exact finds_iff hwf hr ((elfLoad_cr3 m proc image).trans hproc) hp (hlow p hmem) hfile hloads hk
    (hunmapped k hk) (hp.accepts hv hst hfin hk) (byteAddr_half hp.top hk)

theorem holds_ofBytes {bytes : List UInt8} (h : p.offset.toNat + p.filesz.toNat ≤ bytes.length)
    (hsmall : bytes.length ≤ 2 ^ 64) :
    Holds (VfsNode.ofBytes bytes) p (fun i => bytes.getD i 0) := by
  refine ⟨by omega, fun offset size _ hend => ?_⟩
  apply List.ext_getElem?
  intro i
  simp only [vfsRead, VfsNode.ofBytes, List.take_take, Nat.min_self, List.getElem?_take,
    List.getElem?_drop, List.getElem?_map]
  by_cases hi : i < size.toNat
  · rw [if_pos hi, List.getElem?_range hi, Option.map_some, List.getD_eq_getElem?_getD,
      List.getElem?_eq_getElem (by omega), Option.getD_some]
  · rw [if_neg hi, List.getElem?_eq_none (by rw [List.length_range]; omega), Option.map_none]

/-- The first process, with blocks for records and with pages. -/
theorem exists_stocked_process {n : ℕ} (hstock : Stock n firstBlocks) :
    ∃ K m z resv, Running m {z} resv K z ∧ (∀ i < 256, m.ram z i = 0) ∧
      Stocked {z} resv z n 254 (m.writeCr3 (pageAddr z)) := by
  obtain ⟨K, m, z, resv, _, h, haff, hoom, hblks, hblank⟩ := exists_first_process
  exact ⟨K, m.writeCr3 (pageAddr z), z, resv, h, hblank, h.wf.of_eq rfl rfl, rfl,
    haff.congr rfl rfl, hoom, hblks.symm ▸ hstock⟩

def dataSegment : ElfPhdr := ⟨1, 6, 120, 0x400123, 8, 0x2000⟩

def dataImage : Image := Image.ofSegments [dataSegment] [1, 2, 3, 4, 5, 6, 7, 8]

def dataBytes : List UInt8 :=
  headerBytes 1 ++ [dataSegment].flatMap ElfPhdr.bytes ++ [1, 2, 3, 4, 5, 6, 7, 8]

theorem dataBytes_length : dataBytes.length = 128 := by
  simp [dataBytes, headerBytes, bytes, leBytes]

theorem dataImage_segments : dataImage.segments = [dataSegment] := by decide

theorem dataImage_below : ∀ q ∈ dataImage.segments, FileBelow q := by
  intro q hq j hj
  obtain rfl := List.mem_singleton.mp hq
  have hj' : j < 1 := hj
  interval_cases j
  decide

theorem segment_bytes_data : ∃ m z, (elfLoad m (newProcess z 0 0) dataImage).2.2.2 = 0 ∧
    ∀ k < dataSegment.memsz.toNat, Finds (elfLoad m (newProcess z 0 0) dataImage).1
      (elfLoad m (newProcess z 0 0) dataImage).2.1 z (byteAddr dataSegment k)
      (segmentByte dataSegment (fun i => dataBytes.getD i 0) k) := by
  obtain ⟨K, m, z, resv, h, hblank, hstocked⟩ :=
    exists_stocked_process (n := 1) ⟨_, _, rfl, by decide, trivial⟩
  obtain ⟨hresult, hoom, hregions⟩ := elfLoad_succeeds m (newProcess z 0 0) (k := 250)
    (Finset.mem_singleton_self z) (by decide) dataImage_below
    (by rw [dataImage_segments]; exact hstocked)
  have hp : UserSegment dataSegment := ⟨by decide, by decide⟩
  have hfile : Holds dataImage.file dataSegment (fun i => dataBytes.getD i 0) :=
    holds_ofBytes (le_trans (by decide) dataBytes_length.ge) (dataBytes_length.trans_le (by decide))
  refine ⟨m, z, hresult, (segment_bytes (show dataImage.segments = [] ++ dataSegment :: []
    from dataImage_segments) dataImage_below hp hfile h.wf (Finset.mem_singleton_self z) rfl
      h.tables h.walk (h.room.mono (by rw [dataImage_segments]; decide))
      (fun k hk => ?_) hresult hoom hregions).mpr ?_⟩
  · have hz : leaf m z (pathOf (byteAddr dataSegment k)) = 0 :=
      leafAt_of_blank hblank (pathOf_mem (byteAddr_half hp.top hk))
    rw [hz]
    decide
  · intro k _ q j hother
    simp [other, lastAt] at hother

def headSegment : ElfPhdr := ⟨1, 4, 176, 0x400000, 4, 4⟩
def tailSegment : ElfPhdr := ⟨1, 4, 180, 0x400800, 4, 4⟩

def sharedImage : Image := Image.ofSegments [headSegment, tailSegment] [1, 2, 3, 4, 5, 6, 7, 8]

def sharedBytes : List UInt8 :=
  headerBytes 2 ++ [headSegment, tailSegment].flatMap ElfPhdr.bytes ++ [1, 2, 3, 4, 5, 6, 7, 8]

theorem sharedBytes_length : sharedBytes.length = 184 := by
  simp [sharedBytes, headerBytes, bytes, leBytes]

theorem sharedImage_holds {p : ElfPhdr} (h : p.offset.toNat + p.filesz.toNat ≤ 184) :
    Holds sharedImage.file p (fun i => sharedBytes.getD i 0) :=
  holds_ofBytes (h.trans_eq sharedBytes_length.symm) (sharedBytes_length.trans_le (by decide))

theorem sharedImage_segments : sharedImage.segments = [headSegment, tailSegment] := by decide

theorem sharedImage_below : ∀ q ∈ sharedImage.segments, FileBelow q := by
  rw [sharedImage_segments]
  intro q hq j hj
  simp only [List.mem_cons, List.not_mem_nil, or_false] at hq
  rcases hq with rfl | rfl
  · have hj' : j < 1 := hj
    interval_cases j
    decide
  · have hj' : j < 1 := hj
    interval_cases j
    decide

/-- Behind it, the second segment leaves zeros over the first's bytes. -/
theorem shared_page_loses_bytes : ∃ K m z resv, Running m {z} resv K z ∧
    (∀ i, i < 256 → m.ram z i = 0) ∧
    sharedImage.segments = [] ++ headSegment :: [tailSegment] ∧ UserSegment headSegment ∧
    Holds sharedImage.file headSegment (fun i => sharedBytes.getD i 0) ∧
    let out := elfLoad m (newProcess z 0 0) sharedImage
    out.2.2.2 = 0 ∧ out.1.oom = false ∧
      out.2.1.vmas.length = (newProcess z 0 0).vmas.length + sharedImage.segments.length ∧
      segmentByte headSegment (fun i => sharedBytes.getD i 0) 0 = 1 ∧
      Finds out.1 out.2.1 z (byteAddr headSegment 0) 0 := by
  obtain ⟨K, m, z, resv, h, hblank, hstocked⟩ :=
    exists_stocked_process (n := 2) ⟨_, _, rfl, by decide, _, _, rfl, by decide, trivial⟩
  have hz := Finset.mem_singleton_self z
  obtain ⟨hresult, hoom, hregions⟩ := elfLoad_succeeds m (newProcess z 0 0) (k := 246)
    hz (by decide) sharedImage_below (by rw [sharedImage_segments]; exact hstocked)
  obtain ⟨_, hloads⟩ := elfLoad_loads sharedImage_below h.wf hz (rfl) h.tables h.walk
    (h.room.mono (by rw [sharedImage_segments]; decide)) hresult hoom
  refine ⟨K, m, z, resv, h, hblank, sharedImage_segments, ⟨by decide, by decide⟩,
    sharedImage_holds (by decide), hresult, hoom, hregions, by decide, ?_⟩
  have hlast : lastAt sharedImage.segments (pathOf (byteAddr headSegment 0)) =
      some (tailSegment, 0) := by
    decide
  rcases hloads.pages _ (pathOf_mem (show pml4Index (byteAddr headSegment 0) < 256 by decide)) with
    ⟨hnone, _⟩ | ⟨q, j, hsome, hplaced, _⟩
  · cases hlast.symm.trans hnone
  · obtain ⟨rfl, rfl⟩ := Prod.mk.inj (Option.some.inj (hlast.symm.trans hsome))
    rw [finds_of_seen hplaced.seen]
    rfl

end NexusKernel.SegmentBytes
