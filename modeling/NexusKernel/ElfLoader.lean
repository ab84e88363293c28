import NexusKernel.Processes
import NexusKernel.AddressSpaces

/-!
`elf_load` of syscall/elf_loader.c. A file is what its driver answers to reads. For each segment a
region is registered and pages are mapped and filled as far as the file has data; the rest is left
to page faults. To memory a load is a sequence of heap calls and of pages mapped into the process;
`elfLoad_invariant` is the rule for it.
-/

namespace NexusKernel.ElfLoader

open Lib.Loops Lib.TableTree PhysicalMemory PageAllocation PageEntries Hardware
  PageSupply Vmm Function
open Walks Mapping AddressSpaces KernelHeap Processes

/-- The answer of a driver to a read: the number it returns, and the bytes at the beginning of the
buffer. -/
structure VfsAnswer where
  count : UInt64
  bytes : List UInt8

structure VfsNode where
  read : UInt64 → UInt64 → VfsAnswer

/-- `vfs_read`; a driver writes no more than it was asked for. -/
def vfsRead (file : VfsNode) (offset size : UInt64) : VfsAnswer :=
  { file.read offset size with bytes := (file.read offset size).bytes.take size.toNat }

abbrev Buffer := ℕ → UInt8

def Buffer.fill (stale : Buffer) (bytes : List UInt8) : Buffer := fun k => bytes.getD k (stale k)

def Buffer.u16 (b : Buffer) (k : ℕ) : UInt16 := (b k).toUInt16 ||| ((b (k + 1)).toUInt16 <<< 8)
def Buffer.u32 (b : Buffer) (k : ℕ) : UInt32 :=
    (b.u16 k).toUInt32 ||| ((b.u16 (k + 2)).toUInt32 <<< 16)
def Buffer.u64 (b : Buffer) (k : ℕ) : UInt64 :=
    (b.u32 k).toUInt64 ||| ((b.u32 (k + 4)).toUInt64 <<< 32)

structure ElfHdr where
  identMagic : UInt32
  identClass : UInt8
  machine : UInt16
  entry : UInt64
  phoff : UInt64
  phentsize : UInt16
  phnum : UInt16
  deriving DecidableEq, Repr

def sizeofHdr : UInt64 := 64

def ElfHdr.parse (b : Buffer) : ElfHdr where
  identMagic := b.u32 0
  identClass := b 4
  machine := b.u16 18
  entry := b.u64 24
  phoff := b.u64 32
  phentsize := b.u16 54
  phnum := b.u16 56

structure ElfPhdr where
  type : UInt32
  flags : UInt32
  offset : UInt64
  vaddr : UInt64
  filesz : UInt64
  memsz : UInt64
  deriving DecidableEq, Repr

def sizeofPhdr : UInt64 := 56

def ElfPhdr.parse (b : Buffer) : ElfPhdr where
  type := b.u32 0
  flags := b.u32 4
  offset := b.u64 8
  vaddr := b.u64 16
  filesz := b.u64 32
  memsz := b.u64 40

def elfMagic : UInt32 := 0x464C457F
def ptLoad : UInt32 := 1
def pfW : UInt32 := 2

/-- An image: a file, and what the variables of the loader hold before they are read into, header
first. -/
structure Image where
  file : VfsNode
  staleHdr : Buffer
  stalePhdr : ℕ → Buffer

namespace Image

def hdr (image : Image) : ElfHdr :=
  ElfHdr.parse (image.staleHdr.fill (vfsRead image.file 0 sizeofHdr).bytes)

def accepted (image : Image) : Bool :=
  (vfsRead image.file 0 sizeofHdr).count ≥ sizeofHdr && image.hdr.identMagic == elfMagic &&
    image.hdr.identClass == 2 && image.hdr.machine == 0x3E

/-- `hdr.e_phoff + i * hdr.e_phentsize`, the product of 32 bits. -/
def phdrOffset (image : Image) (i : ℕ) : UInt64 :=
  image.hdr.phoff + ((UInt32.ofNat i * image.hdr.phentsize.toUInt32).toInt32.toInt64).toUInt64

def phdr (image : Image) (i : ℕ) : ElfPhdr :=
  ElfPhdr.parse
    ((image.stalePhdr i).fill (vfsRead image.file (image.phdrOffset i) sizeofPhdr).bytes)

end Image

namespace ElfPhdr

def loadable (p : ElfPhdr) : Bool := p.type == ptLoad && p.memsz != 0

def writes (p : ElfPhdr) : Bool := p.flags &&& pfW != 0

def virtStart (p : ElfPhdr) : UInt64 := p.vaddr &&& ~~~0xFFF
def virtEnd (p : ElfPhdr) : UInt64 := (p.vaddr + p.memsz + 0xFFF) &&& ~~~0xFFF
def numPages (p : ElfPhdr) : UInt64 := (p.virtEnd - p.virtStart) / 4096

def filePages (p : ElfPhdr) : UInt64 :=
  let filePages := (p.filesz + (p.vaddr &&& 0xFFF) + 0xFFF) / 4096
  if filePages > p.numPages then p.numPages else filePages

def pageVirt (p : ElfPhdr) (j : ℕ) : UInt64 := p.virtStart + UInt64.ofNat j * 4096

end ElfPhdr

def storeByte (page : ℕ → UInt64) (k : ℕ) (b : UInt8) : ℕ → UInt64 :=
  let shift := UInt64.ofNat (8 * (k % 8))
  update page (k / 8) ((page (k / 8) &&& ~~~(0xFF <<< shift)) ||| (b.toUInt64 <<< shift))

def storeBytes (page : ℕ → UInt64) (k : ℕ) : List UInt8 → ℕ → UInt64
  | [] => page
  | b :: rest => storeBytes (storeByte page k b) (k + 1) rest

def writeBytes (m : Machine) (phys offset : UInt64) (bytes : List UInt8) : Machine :=
  { m with
    ram := update m.ram (pageOf phys) (storeBytes (m.ram (pageOf phys)) offset.toNat bytes) }

def fillPage (file : VfsNode) (p : ElfPhdr) (j : ℕ) (phys : UInt64) (m : Machine) : Machine :=
  let virt := p.pageVirt j
  let pageOffsetInSegment := if virt > p.vaddr then virt - p.vaddr else 0
  let readOffset := p.offset + pageOffsetInSegment
  let destOffsetInPage := if j = 0 then p.vaddr &&& 0xFFF else 0
  let bytesToRead := 4096 - destOffsetInPage
  let bytesToRead :=
    if pageOffsetInSegment + bytesToRead > p.filesz then
      if p.filesz > pageOffsetInSegment then p.filesz - pageOffsetInSegment else 0
    else bytesToRead
  if bytesToRead > 0 then
    writeBytes m phys destOffsetInPage (vfsRead file readOffset bytesToRead).bytes
  else m

def loadPage (file : VfsNode) (p : ElfPhdr) (j : ℕ) (m : Machine) : Machine × Bool :=
  let (m, phys) := m.pmmAllocPage
  if phys = 0 then (m, false)
  else
    let m := vmmMapPage m (p.pageVirt j) phys (userFlags p.writes)
    (fillPage file p j phys (m.zeroPage phys), true)

def loadSegment (image : Image) (i : ℕ) (s : Machine × Process) : (Machine × Process) × Bool :=
  let (m, proc) := s
  let p := image.phdr i
  if !p.loadable then ((m, proc), true)
  else
    let (m, proc) := processAddVma m proc p.vaddr (p.vaddr + p.memsz) (userFlags p.writes).toUInt32
    let proc := { proc with
      heapBase := if p.virtEnd > proc.heapBase then p.virtEnd else proc.heapBase
      heapEnd := if p.virtEnd > proc.heapEnd then p.virtEnd else proc.heapEnd }
    let (m, done) := forWhile (loadPage image.file p) p.filePages.toNat m
    ((m, proc), done)

/-- `elf_load`: machine, process, `*entry_out` if written, and result. -/
def elfLoad (m : Machine) (proc : Process) (image : Image) :
    Machine × Process × Option UInt64 × Int32 :=
  if !image.accepted then (m, proc, none, -1)
  else
    let savedCr3 := m.cr3
    let proc := { proc with heapBase := 0 }
    let ((m, proc), done) :=
      forWhile (loadSegment image) image.hdr.phnum.toNat (m.writeCr3 proc.cr3, proc)
    (m.writeCr3 savedCr3, proc, some image.hdr.entry, if done then 0 else -1)

variable {m m' : Machine} {r f : ℕ} {l : List ℕ} {w : Bool}

structure Filled (m : Machine) (f : ℕ) (m' : Machine) : Prop where
  ram : ∀ q, q ≠ f → m'.ram q = m.ram q
  pmm : m'.pmm = m.pmm
  oom : m'.oom = m.oom
  cr3 : m'.cr3 = m.cr3
  heap : m'.heap = m.heap
  denials : m'.denials = m.denials

theorem Filled.eq_write (h : Filled m f m') : m' = { m with ram := m'.ram } := by
  rw [← h.pmm, ← h.oom, ← h.cr3, ← h.heap, ← h.denials]

theorem Filled.trans {m₁ m₂ : Machine} (h : Filled m f m₁) (h' : Filled m₁ f m₂) : Filled m f m₂ :=
  ⟨fun q hq => (h'.ram q hq).trans (h.ram q hq), h'.pmm.trans h.pmm, h'.oom.trans h.oom,
    h'.cr3.trans h.cr3, h'.heap.trans h.heap, h'.denials.trans h.denials⟩

theorem zeroPage_filled (hf : f < 2 ^ 52) (m : Machine) : Filled m f (m.zeroPage (pageAddr f)) := by
  refine ⟨fun q hq => ?_, rfl, rfl, rfl, rfl, rfl⟩
  rw [Machine.zeroPage, pageOf_pageAddr hf]
  exact update_of_ne hq _ _

theorem writeBytes_filled (hf : f < 2 ^ 52) (m : Machine) (offset : UInt64) (bytes : List UInt8) :
    Filled m f (writeBytes m (pageAddr f) offset bytes) := by
  refine ⟨fun q hq => ?_, rfl, rfl, rfl, rfl, rfl⟩
  rw [writeBytes, pageOf_pageAddr hf]
  exact update_of_ne hq _ _

namespace ElfPhdr

def pageSkip (p : ElfPhdr) (j : ℕ) : UInt64 :=
  if p.pageVirt j > p.vaddr then p.pageVirt j - p.vaddr else 0

def pageDest (p : ElfPhdr) (j : ℕ) : UInt64 := if j = 0 then p.vaddr &&& 0xFFF else 0

def pageSize (p : ElfPhdr) (j : ℕ) : UInt64 :=
  if p.pageSkip j + (4096 - p.pageDest j) > p.filesz then
    if p.filesz > p.pageSkip j then p.filesz - p.pageSkip j else 0
  else 4096 - p.pageDest j

end ElfPhdr

def pageWords (file : VfsNode) (p : ElfPhdr) (j : ℕ) : ℕ → UInt64 :=
  storeBytes (fun _ => 0) (p.pageDest j).toNat (vfsRead file (p.offset + p.pageSkip j)
    (p.pageSize j)).bytes

theorem fillPage_eq (file : VfsNode) (p : ElfPhdr) (j : ℕ) (phys : UInt64) (m : Machine) :
    fillPage file p j phys m =
    if p.pageSize j > 0 then
      writeBytes m phys (p.pageDest j) (vfsRead file (p.offset + p.pageSkip j) (p.pageSize j)).bytes
    else m := by
  rfl

theorem fillPage_filled (hf : f < 2 ^ 52) (file : VfsNode) (p : ElfPhdr) (j : ℕ) (m : Machine) :
    Filled m f (fillPage file p j (pageAddr f) m) := by
  rw [fillPage_eq]
  split
  · exact writeBytes_filled hf m _ _
  · exact ⟨fun _ _ => rfl, rfl, rfl, rfl, rfl, rfl⟩

theorem fillPage_words (hf : f < 2 ^ 52) (file : VfsNode) (p : ElfPhdr) (j : ℕ) (m : Machine) :
    (fillPage file p j (pageAddr f) (m.zeroPage (pageAddr f))).ram f = pageWords file p j := by
  have hz : (m.zeroPage (pageAddr f)).ram f = fun _ => 0 := by
    rw [Machine.zeroPage, pageOf_pageAddr hf]
    exact update_self _ _ _
  rw [fillPage_eq]
  split
  · simp [writeBytes, pageOf_pageAddr hf, hz, pageWords]
  · rename_i hnone
    have hsize : (p.pageSize j).toNat = 0 := by
      have := UInt64.le_iff_toNat_le.mp (UInt64.not_lt.mp hnone)
      simpa using this
    simp [hz, pageWords, vfsRead, hsize, storeBytes]

/-- The mapped page is no table, so filling it changes nothing else. -/
theorem PageMapped.filled {m₁ : Machine} (h : PageMapped m r l f w m₁) (htree : TreeOk m 3 256 r)
    (hl : l ∈ userPaths) (hfill : Filled m₁ f m') : PageMapped m r l f w m' := by
  have hout : ∀ q ∈ userTables m₁ r, q ≠ f := by
    intro q hq heq
    subst q
    rcases h.added f hq with hold | ⟨_, _, hne⟩
    · exact h.free.not_inUse (htree.inUse f hold)
    · exact hne rfl
  have hagree : Agree x86 m₁.ram m'.ram 3 256 r :=
    agree_of_tables fun q hq => hfill.ram q (hout q hq)
  have hroot : m'.ram r = m₁.ram r := hfill.ram r (hout r root_mem_tables)
  have hleaf : ∀ k ∈ userPaths, leaf m' r k = leaf m₁ r k := fun k hk => hagree.leafAt_eq hk
  have helsewhere : ∀ q, InUse m.pmm q → q ∉ userTables m r → m'.ram q = m.ram q := fun q hq hq' =>
    (hfill.ram q (h.free.ne hq)).trans (h.elsewhere q hq hq')
  -- only memory differs
  have heq := hfill.eq_write
  generalize m'.ram = ram at heq
  subst m'
  refine ⟨h.free, h.inUse, h.grows.write ram, helsewhere, fun i hi => (congrFun hroot i).trans
    (h.kernelHalf i hi), fun q hq => h.added q (hagree.tables_eq.subset hq), hagree.proper h.proper,
    fun k hk hkl => (hleaf k hk).trans (h.leaves k hk hkl), ?_, h.refcount, h.counted⟩
  rw [hleaf l hl]
  exact h.mapped

section

variable (hs : Sane m) (htree : TreeOk m 3 256 r) (hcr3 : m.cr3 = pageAddr r) (file : VfsNode)
  (p : ElfPhdr) (j : ℕ) (hvirt : pml4Index (p.pageVirt j) < 256)
include hs htree hcr3 hvirt

/-- Loading a page of the user half finds no page, or maps a new one with the bytes of the file in
it. -/
theorem loadPage_loaded : ((loadPage file p j m).2 = false ∧ Refused m (loadPage file p j m).1) ∨
      ((loadPage file p j m).2 = true ∧
        ∃ f, PageMapped m r (pathOf (p.pageVirt j)) f p.writes (loadPage file p j m).1 ∧
          (loadPage file p j m).1.ram f = pageWords file p j) := by
  have hl := pathOf_mem hvirt
  unfold loadPage
  rcases pmmAllocPage_cases hs with ⟨hz, href⟩ | ⟨f, haddr, hne, hnew⟩
  · simp only [hz, if_true]
    exact .inl ⟨trivial, href⟩
  · have hf := hs.lt_of_isFree hnew.free
    have hcur := currentPml4_eq (hs.lt_of_inUse htree.root) (hnew.cr3.trans hcr3)
    obtain ⟨hmap, _⟩ := mapAt_pageMapped hs htree hl p.writes hnew hnew.grows rfl fun _ _ => rfl
    simp only [haddr, hne, if_false, vmmMapPage_eq, hcur]
    exact .inr ⟨trivial, f, PageMapped.filled hmap htree hl
      ((zeroPage_filled (by omega) _).trans (fillPage_filled (by omega) file p j _)),
      fillPage_words (by omega) file p j _⟩

theorem loadPage_cases : Refused m (loadPage file p j m).1 ∨
    ∃ f, PageMapped m r (pathOf (p.pageVirt j)) f p.writes (loadPage file p j m).1 := by
  rcases loadPage_loaded hs htree hcr3 file p j hvirt with ⟨_, href⟩ | ⟨_, f, hmap, _⟩
  · exact .inl href
  · exact .inr ⟨f, hmap⟩

/-- With pages for the leaf and for every level, the page gets loaded. -/
theorem loadPage_affords (hoom : m.oom = false) {k : ℕ} (h : Affords m (k + 4)) :
    let m' := (loadPage file p j m).1
    ∃ f, PageMapped m r (pathOf (p.pageVirt j)) f p.writes m' ∧
      leaf m' r (pathOf (p.pageVirt j)) = leafEntry (pageAddr f) (userFlags p.writes) ∧
      Affords m' k ∧ m'.oom = false := by
  intro m'
  rcases loadPage_cases hs htree hcr3 file p j hvirt with href | ⟨f, hmap⟩
  · exact absurd href h.not_refused
  · rcases pmmAllocPage_cases hs with ⟨_, href⟩ | ⟨g, haddr, hne, hnew⟩
    · exact absurd href h.not_refused
    · have hg := hs.lt_of_isFree hnew.free
      have hcur := currentPml4_eq (hs.lt_of_inUse htree.root) (hnew.cr3.trans hcr3)
      have hrest : Affords m.pmmAllocPage.1 (3 + k) :=
        (h.of_spend hnew.granted hnew.budget).mono (by omega)
      obtain ⟨_, hoom', haff⟩ := mapAt_affords (leafEntry (pageAddr g) (userFlags p.writes))
        (pml4Index (p.pageVirt j)) (hs.grows hnew.grows) (pageAddr r)
        (l := [pdptIndex (p.pageVirt j), pdIndex (p.pageVirt j), ptIndex (p.pageVirt j)]) hrest
      obtain ⟨m₁, heq, hfill⟩ : ∃ m₁, m' = m₁ ∧ Filled (mapAt (leafEntry (pageAddr g)
          (userFlags p.writes)) (pathOf (p.pageVirt j)) m.pmmAllocPage.1 (pageAddr r)) g m₁ := by
        refine ⟨_, rfl, ?_⟩
        simp only [m', loadPage, haddr, hne, if_false, vmmMapPage_eq, hcur]
        exact (zeroPage_filled (by omega) _).trans (fillPage_filled (by omega) file p j _)
      have hnot : m'.oom = false := by
        rw [heq, hfill.oom]
        exact hoom'.trans (hnew.oom.trans hoom)
      refine ⟨f, hmap, ?_, ⟨?_, ?_⟩, hnot⟩
      · rcases hmap.mapped with hdone | ⟨hfull, _⟩
        · exact hdone
        · cases hnot.symm.trans hfull
      · rw [heq, hfill.denials]
        exact haff.denials
      · rw [heq, budget, hfill.pmm]
        exact haff.free

end

def Image.segmentsFrom (image : Image) (i : ℕ) : List ElfPhdr :=
  ((List.range' i (image.hdr.phnum.toNat - i)).map image.phdr).filter ElfPhdr.loadable

abbrev Image.segments (image : Image) : List ElfPhdr := image.segmentsFrom 0

variable {image : Image} {proc : Process}

theorem filePages_le (p : ElfPhdr) : p.filePages.toNat ≤ p.numPages.toNat := by
  unfold ElfPhdr.filePages
  dsimp only
  split
  · exact le_rfl
  · rename_i hle
    exact UInt64.le_iff_toNat_le.mp (UInt64.not_lt.mp hle)

theorem processAddVma_machine (m : Machine) (proc : Process) (start fin : UInt64) (flags : UInt32) :
    (processAddVma m proc start fin flags).1 = (kmalloc m 32).1 := by
  unfold processAddVma
  dsimp only
  split
  · rfl
  · rfl

def raiseHeap (proc : Process) (virtEnd : UInt64) : Process :=
  { proc with
    heapBase := if virtEnd > proc.heapBase then virtEnd else proc.heapBase
    heapEnd := if virtEnd > proc.heapEnd then virtEnd else proc.heapEnd }

def loadPhdr (file : VfsNode) (p : ElfPhdr) (s : Machine × Process) : (Machine × Process) × Bool :=
  let (m, proc) := processAddVma s.1 s.2 p.vaddr (p.vaddr + p.memsz) (userFlags p.writes).toUInt32
  let out := forWhile (loadPage file p) p.filePages.toNat m
  ((out.1, raiseHeap proc p.virtEnd), out.2)

theorem loadSegment_eq (image : Image) (i : ℕ) : loadSegment image i =
    fun s => if (image.phdr i).loadable then loadPhdr image.file (image.phdr i) s
      else (s, true) := by
  funext s
  unfold loadSegment
  cases hload : (image.phdr i).loadable with
  | false => simp [hload]
  | true =>
    simp only [hload, Bool.not_true, Bool.false_eq_true, if_false, if_true]
    rfl

/-- The rounds that count are those for the segments. -/
theorem elfLoad_accepted (h : image.accepted = true) (m : Machine) (proc : Process) :
    elfLoad m proc image =
    let out := forEachWhile (loadPhdr image.file) image.segments (m.writeCr3 proc.cr3,
      { proc with heapBase := 0 })
    (out.1.1.writeCr3 m.cr3, out.1.2, some image.hdr.entry, if out.2 then 0 else -1) := by
  have hloop : forWhile (loadSegment image) image.hdr.phnum.toNat =
      forEachWhile (loadPhdr image.file) image.segments := by
    funext s
    rw [Image.segments, Image.segmentsFrom, ← List.range_eq_range', ← forEachWhile_filter,
      ← forWhile_eq_forEachWhile]
    exact congrArg (fun body => forWhile body _ s) (funext (loadSegment_eq image))
  simp [elfLoad, h, hloop]

theorem elfLoad_rejected (h : image.accepted = false) (m : Machine) (proc : Process) :
    elfLoad m proc image = (m, proc, none, -1) := by
  simp [elfLoad, h]

theorem loadPhdr_machine (file : VfsNode) (p : ElfPhdr) (s : Machine × Process) :
    (loadPhdr file p s).1.1 =
    (forWhile (loadPage file p) p.filePages.toNat (kmalloc s.1 32).1).1 := by
  simp only [loadPhdr, processAddVma_machine]

section

variable (P : ℕ → Machine → Prop) (hrec : ∀ n m, P (n + 1) m → P n (kmalloc m 32).1)
variable (hpage : ∀ n m p j, p ∈ image.segments → j < p.filePages.toNat → P n m →
  P n (loadPage image.file p j m).1)
include hrec hpage

/-- What every heap call and every page of a load keeps, the load keeps. The number counts the
segments, and so the heap calls, to come. -/
theorem elfLoad_invariant (hst : P image.segments.length (m.writeCr3 proc.cr3)) :
    ∃ n m', P n m' ∧ (elfLoad m proc image).1 = m'.writeCr3 m.cr3 := by
  cases hacc : image.accepted with
  | false =>
    rw [elfLoad_rejected hacc]
    exact ⟨_, _, hst, rfl⟩
  | true =>
    rw [elfLoad_accepted hacc]
    obtain ⟨n, hend⟩ := forEachWhile_invariant (loadPhdr image.file)
      (fun n (s : Machine × Process) => P n s.1) image.segments
      (s := (m.writeCr3 proc.cr3, { proc with heapBase := 0 })) hst (fun n p s hp hs => by
        rw [loadPhdr_machine]
        exact forWhile_invariant (P n) (hrec n s.1 hs) (fun j t hj ht => hpage n t p j hp hj ht))
    exact ⟨n, _, hend, rfl⟩

end

theorem loadPhdr_cr3 (file : VfsNode) (p : ElfPhdr) (s : Machine × Process) :
    (loadPhdr file p s).1.2.cr3 = s.2.cr3 := by
  unfold loadPhdr raiseHeap processAddVma
  dsimp only
  split
  · rfl
  · rfl

theorem elfLoad_cr3 (m : Machine) (proc : Process) (image : Image) :
    (elfLoad m proc image).2.1.cr3 = proc.cr3 := by
  cases hacc : image.accepted with
  | false => rw [elfLoad_rejected hacc]
  | true =>
    rw [elfLoad_accepted hacc]
    obtain ⟨_, hend⟩ := forEachWhile_invariant (loadPhdr image.file)
      (fun _ (s : Machine × Process) => s.2.cr3 = proc.cr3) image.segments
      (s := (m.writeCr3 proc.cr3, { proc with heapBase := 0 })) rfl
      (fun _ p s _ hs => (loadPhdr_cr3 image.file p s).trans hs)
    exact hend

theorem elfLoad_single (hacc : image.accepted = true) (hphnum : image.hdr.phnum = 1)
    (hload : (image.phdr 0).loadable = true) : (elfLoad m proc image).1 =
    (forWhile (loadPage image.file (image.phdr 0)) (image.phdr 0).filePages.toNat
      (kmalloc (m.writeCr3 proc.cr3) 32).1).1.writeCr3 m.cr3 := by
  have hsegments : image.segments = [image.phdr 0] := by
    simp [Image.segments, Image.segmentsFrom, hphnum, hload]
  simp only [elfLoad_accepted hacc, hsegments, forEachWhile_singleton, loadPhdr_machine]

def VfsNode.ofBytes (bytes : List UInt8) : VfsNode where
  read offset size :=
    let found := (bytes.drop offset.toNat).take size.toNat
    ⟨UInt64.ofNat found.length, found⟩

def leBytes (n v : ℕ) : List UInt8 := (List.range n).map (fun i => UInt8.ofNat (v / 256 ^ i))

def headerBytes (phnum : ℕ) : List UInt8 :=
  [0x7F, 0x45, 0x4C, 0x46, 2, 1, 1, 0] ++ leBytes 8 0 ++ leBytes 2 2 ++ leBytes 2 0x3E ++
    leBytes 4 1 ++
    leBytes 8 0x400000 ++ leBytes 8 64 ++ leBytes 8 0 ++ leBytes 4 0 ++ leBytes 2 64 ++
      leBytes 2 56 ++ leBytes 2 phnum ++ leBytes 6 0

def ElfPhdr.bytes (p : ElfPhdr) : List UInt8 :=
  leBytes 4 p.type.toNat ++ leBytes 4 p.flags.toNat ++ leBytes 8 p.offset.toNat ++
    leBytes 8 p.vaddr.toNat ++ leBytes 8 0 ++ leBytes 8 p.filesz.toNat ++ leBytes 8 p.memsz.toNat ++
    leBytes 8 4096

def Image.ofSegments (phdrs : List ElfPhdr) (data : List UInt8) : Image where
  file := VfsNode.ofBytes (headerBytes phdrs.length ++ phdrs.flatMap ElfPhdr.bytes ++ data)
  staleHdr := fun _ => 0
  stalePhdr := fun _ _ => 0

end NexusKernel.ElfLoader
