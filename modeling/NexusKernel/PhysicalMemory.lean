import NexusKernel.Bitmap
import NexusKernel.Lib.Loops

/-!
The physical memory manager of mm/pmm.c: the three passes of `pmm_init` over the bootloader's
memory map, and the page allocator on the bitmap they build.

The bitmap lies in the memory the allocator hands out. Physical memory belongs to a later module;
here clearing a page also clears the part of the bitmap stored in it, the only way the allocator
can damage it. The direct map is one-to-one and never null, so addresses are physical.
-/

namespace NexusKernel.PhysicalMemory

open Bitmap Lib.Loops

inductive MemmapType where
  | usable
  | other
  deriving DecidableEq, Repr

structure MemmapEntry where
  base : UInt64
  length : UInt64
  type : MemmapType
  deriving DecidableEq, Repr

def pmmPageSize : UInt64 := 4096

/-- `MAX_PAGES`: the reference counts cover the first gibibyte only. -/
def maxPages : ℕ := 262144

/-- The static variables of pmm.c; `bitmapAddr` is physical. The last field holds of any quotient
of a 64-bit address. -/
structure Pmm where
  bitmap : Bytes
  bitmapAddr : UInt64
  maxPageIndex : UInt64
  usablePages : UInt64
  usedPages : UInt64
  pageRefcount : ℕ → UInt16
  maxPageIndex_lt : maxPageIndex.toNat < 2 ^ 52

def pageOf (phys : UInt64) : ℕ := (phys / pmmPageSize).toNat

def highestAddress (memmap : List MemmapEntry) : UInt64 :=
  memmap.foldl (fun highest entry =>
    let top := entry.base + entry.length
    if top > highest then top else highest) 0

def maxPageIndexOf (memmap : List MemmapEntry) : UInt64 := highestAddress memmap / pmmPageSize

def bitmapSizeOf (maxPageIndex : UInt64) : UInt64 := (maxPageIndex + 7) / 8

def bitmapPagesOf (maxPageIndex : UInt64) : UInt64 :=
  (bitmapSizeOf maxPageIndex + pmmPageSize - 1) / pmmPageSize

/-- Pass 2: the first usable entry that can hold the bitmap gives up its first pages. The result
is the bitmap's address and the new map. -/
def placeBitmap (maxPageIndex : UInt64) : List MemmapEntry → Option (UInt64 × List MemmapEntry)
  | [] => none
  | entry :: rest =>
      if entry.type = .usable ∧ entry.length ≥ bitmapSizeOf maxPageIndex then
        some (entry.base, { entry with
            base := entry.base + bitmapPagesOf maxPageIndex * pmmPageSize
            length := entry.length - bitmapPagesOf maxPageIndex * pmmPageSize } :: rest)
      else
        (placeBitmap maxPageIndex rest).map (fun placed => (placed.1, entry :: placed.2))

def freeEntry (s : Pmm) (entry : MemmapEntry) : Pmm :=
  if entry.type = .usable then
    let startPage := entry.base / pmmPageSize
    let pageCount := entry.length / pmmPageSize
    { s with
      usablePages := s.usablePages + pageCount
      bitmap := forUpTo (fun p bitmap => bitmapClear bitmap (startPage + UInt64.ofNat p).toNat)
        pageCount.toNat s.bitmap }
  else s

private theorem div_pageSize_lt (a : UInt64) : (a / pmmPageSize).toNat < 2 ^ 52 := by
  have h := a.toNat_lt
  exact Nat.div_lt_of_lt_mul (by simpa [pmmPageSize] using h)

/-- Between passes 2 and 3 every page of the bitmap is marked used. Bytes after it keep what
`memory` held. -/
def blankPmm (memory : Bytes) (memmap : List MemmapEntry) (addr : UInt64) : Pmm where
  bitmap := fun k =>
    if k < (bitmapSizeOf (maxPageIndexOf memmap)).toNat then 0xFF else memory (addr.toNat + k)
  bitmapAddr := addr
  maxPageIndex := maxPageIndexOf memmap
  usablePages := 0
  usedPages := 0
  pageRefcount := fun _ => 0
  maxPageIndex_lt := div_pageSize_lt _

def guardPageZero (s : Pmm) : Pmm :=
  if bitmapTest s.bitmap 0 then { s with usedPages := 0 }
  else { s with bitmap := bitmapSet s.bitmap 0, usedPages := 1 }

def pmmInit (memory : Bytes) (memmap : List MemmapEntry) : Option Pmm :=
  match placeBitmap (maxPageIndexOf memmap) memmap with
  | none => none
  | some (addr, adjusted) =>
      some (guardPageZero (adjusted.foldl freeEntry (blankPmm memory memmap addr)))

/-- `memset(phys_to_virt(addr), 0, len)` as far as the bitmap can see it. -/
def zeroBytes (s : Pmm) (addr : UInt64) (len : ℕ) : Pmm :=
  { s with bitmap := fun k =>
      if addr.toNat ≤ s.bitmapAddr.toNat + k ∧ s.bitmapAddr.toNat + k < addr.toNat + len then 0
      else s.bitmap k }

def takePage (s : Pmm) (i : ℕ) : Pmm :=
  { s with
    bitmap := bitmapSet s.bitmap i
    usedPages := s.usedPages + 1
    pageRefcount := if i < maxPages then Function.update s.pageRefcount i 1 else s.pageRefcount }

def pageAddr (i : ℕ) : UInt64 := UInt64.ofNat i * pmmPageSize

def pmmAllocPage (s : Pmm) : Pmm × UInt64 :=
  match (List.range' 1 (s.maxPageIndex.toNat - 1)).find? (fun i => !bitmapTest s.bitmap i) with
  | some i => (zeroBytes (takePage s i) (pageAddr i) 4096, pageAddr i)
  | none => (s, 0)

def pmmFreePage (s : Pmm) (phys : UInt64) : Pmm :=
  let page := pageOf phys
  if page = 0 ∨ page ≥ s.maxPageIndex.toNat then s
  else if bitmapTest s.bitmap page then
    { s with
      bitmap := bitmapClear s.bitmap page
      usedPages := s.usedPages - 1
      pageRefcount :=
        if page < maxPages then Function.update s.pageRefcount page 0 else s.pageRefcount }
  else s

def firstUsed (s : Pmm) (count : UInt64) (i : ℕ) : Option ℕ :=
  (List.range (min count.toNat (s.maxPageIndex.toNat - i))).find?
    (fun j => bitmapTest s.bitmap (i + j))

/-- The outer loop from `i` on. A page in use at offset `j` moves the counter past it. -/
def findBlock (s : Pmm) (count : UInt64) (i : ℕ) : Option ℕ :=
  if i < s.maxPageIndex.toNat then
    match firstUsed s count i with
    | some j => findBlock s count (i + j + 1)
    | none =>
        if UInt64.ofNat i + count ≤ s.maxPageIndex then some i
        else findBlock s count (i + 1)
  else none
termination_by s.maxPageIndex.toNat - i

def pmmAllocPages (s : Pmm) (count : UInt64) : Pmm × UInt64 :=
  if count = 0 then (s, 0)
  else if count = 1 then pmmAllocPage s
  else
    match findBlock s count 1 with
    | some i =>
        (zeroBytes (forUpTo (fun j s => takePage s (i + j)) count.toNat s) (pageAddr i)
          (count * pmmPageSize).toNat, pageAddr i)
    | none => (s, 0)

def pmmFreePages (s : Pmm) (phys count : UInt64) : Pmm :=
  forUpTo (fun i s => pmmFreePage s (phys + UInt64.ofNat i * pmmPageSize)) count.toNat s

def pmmPageRef (s : Pmm) (phys : UInt64) : Pmm :=
  let page := pageOf phys
  if page ≥ maxPages then s
  else { s with pageRefcount := Function.update s.pageRefcount page (s.pageRefcount page + 1) }

def pmmPageUnref (s : Pmm) (phys : UInt64) : Pmm :=
  let page := pageOf phys
  if page ≥ maxPages ∨ page = 0 then s
  else if s.pageRefcount page > 0 then
    let s := { s with
      pageRefcount := Function.update s.pageRefcount page (s.pageRefcount page - 1) }
    if s.pageRefcount page = 0 ∧ bitmapTest s.bitmap page then
      { s with bitmap := bitmapClear s.bitmap page, usedPages := s.usedPages - 1 }
    else s
  else s

def pmmPageRefcount (s : Pmm) (phys : UInt64) : UInt16 :=
  if pageOf phys ≥ maxPages then 0 else s.pageRefcount (pageOf phys)

end NexusKernel.PhysicalMemory
