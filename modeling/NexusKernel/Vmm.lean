import NexusKernel.Hardware

/-!
The functions of mm/vmm.c on page tables. Table pointers are physical addresses; `none` is a null
pointer. The nested clone functions and the nested loops of `vmm_destroy_address_space` are
instances of one loop over a table each. Flushing the TLB has no counterpart: every walk reads the
tables.
-/

namespace NexusKernel.Vmm

open Lib.Loops PageEntries Hardware

def pml4Index (addr : UInt64) : ℕ := ((addr >>> 39) &&& 0x1FF).toNat
def pdptIndex (addr : UInt64) : ℕ := ((addr >>> 30) &&& 0x1FF).toNat
def pdIndex (addr : UInt64) : ℕ := ((addr >>> 21) &&& 0x1FF).toNat
def ptIndex (addr : UInt64) : ℕ := ((addr >>> 12) &&& 0x1FF).toNat

def pageBase (addr : UInt64) : UInt64 := addr &&& ~~~0xFFF

def vmmGetNextLevel (m : Machine) (table : UInt64) (index : ℕ) (create : Bool) :
    Machine × Option UInt64 :=
  if present (m.entry table index) then (m, some (m.entry table index &&& addrMask))
  else if create then
    if m.pmmAllocPage.2 = 0 then (m.pmmAllocPage.1, none)
    else
      let newPage := m.pmmAllocPage.2
      ((m.pmmAllocPage.1.zeroPage newPage).setEntry table index (tableEntry newPage), some newPage)
  else (m, none)

def vmmMapPage (m : Machine) (virt phys flags : UInt64) : Machine :=
  match vmmGetNextLevel m m.currentPml4 (pml4Index virt) true with
  | (m, none) => m
  | (m, some pdpt) =>
    match vmmGetNextLevel m pdpt (pdptIndex virt) true with
    | (m, none) => m
    | (m, some pd) =>
      match vmmGetNextLevel m pd (pdIndex virt) true with
      | (m, none) => m
      | (m, some pt) => m.setEntry pt (ptIndex virt) (leafEntry phys flags)

def vmmFindPt (m : Machine) (virt : UInt64) : Option UInt64 :=
  match (vmmGetNextLevel m m.currentPml4 (pml4Index virt) false).2 with
  | none => none
  | some pdpt =>
    match (vmmGetNextLevel m pdpt (pdptIndex virt) false).2 with
    | none => none
    | some pd => (vmmGetNextLevel m pd (pdIndex virt) false).2

def vmmUnmapPage (m : Machine) (virt : UInt64) : Machine :=
  match vmmFindPt m virt with
  | none => m
  | some pt => m.setEntry pt (ptIndex virt) 0

def vmmGetPhys (m : Machine) (virt : UInt64) : UInt64 :=
  match vmmFindPt m virt with
  | none => 0
  | some pt =>
      if present (m.entry pt (ptIndex virt)) then
        (m.entry pt (ptIndex virt) &&& addrMask) ||| (virt &&& 0xFFF)
      else 0

def copyKernelHalf (m : Machine) (newPml4 curPml4 : UInt64) : Machine :=
  forUpTo (fun k m => m.setEntry newPml4 (256 + k) (m.entry curPml4 (256 + k))) 256 m

def vmmCloneKernelSpace (m : Machine) : Machine × UInt64 :=
  let (m, newPml4) := m.pmmAllocPage
  if newPml4 = 0 then (m, 0)
  else (copyKernelHalf m newPml4 m.currentPml4, newPml4)

/-- One entry of `vmm_clone_pt`: a writable user page loses its write permission
in both tables, and every user page gains a reference. -/
def clonePte (oldPt newPt : UInt64) (i : ℕ) (m : Machine) : Machine :=
  let e := m.entry oldPt i
  if present e then
    let phys := e &&& addrMask
    if user e && writable e then
      ((m.setEntry oldPt i (withoutWrite e)).setEntry newPt i (withoutWrite e)).pmmPageRef phys
    else if user e then (m.setEntry newPt i e).pmmPageRef phys
    else m.setEntry newPt i e
  else m

def vmmClonePt (m : Machine) (oldPt newPt : UInt64) : Machine :=
  forUpTo (clonePte oldPt newPt) 512 m

/-- One entry of an upper table: a present user entry gets a table in the clone, filled by
`cloneChild`, or is skipped when no page is left. -/
def cloneEntry (cloneChild : Machine → UInt64 → UInt64 → Machine) (oldTable newTable : UInt64)
    (i : ℕ) (m : Machine) : Machine :=
  if present (m.entry oldTable i) && user (m.entry oldTable i) then
    let (m, phys) := m.pmmAllocPage
    if phys = 0 then m
    else
      (cloneChild m (m.entry oldTable i &&& addrMask) phys).setEntry newTable i (tableEntry phys)
  else m

def cloneTable (cloneChild : Machine → UInt64 → UInt64 → Machine) (width : ℕ) (m : Machine)
    (oldTable newTable : UInt64) : Machine :=
  forUpTo (cloneEntry cloneChild oldTable newTable) width m

def vmmClonePd (m : Machine) (oldPd newPd : UInt64) : Machine :=
  cloneTable vmmClonePt 512 m oldPd newPd

def vmmClonePdpt (m : Machine) (oldPdpt newPdpt : UInt64) : Machine :=
  cloneTable vmmClonePd 512 m oldPdpt newPdpt

def vmmCowClone (m : Machine) (parentCr3 : UInt64) : Machine × UInt64 :=
  let (m, newPml4) := vmmCloneKernelSpace m
  if newPml4 = 0 then (m, 0)
  else (cloneTable vmmClonePdpt 256 m parentCr3 newPml4, newPml4)

def isCowPage (m : Machine) (faultAddr : UInt64) : Bool :=
  match vmmFindPt m faultAddr with
  | none => false
  | some pt =>
      present (m.entry pt (ptIndex faultAddr)) && user (m.entry pt (ptIndex faultAddr)) &&
        !writable (m.entry pt (ptIndex faultAddr))

def mapUserPage (m : Machine) (procCr3 virt flags : UInt64) : Machine :=
  let savedCr3 := m.cr3
  let m := m.writeCr3 procCr3
  let (m, phys) := m.pmmAllocPage
  let m := if phys = 0 then m else vmmMapPage m virt phys flags
  m.writeCr3 savedCr3

def cowHandleFault (m : Machine) (procCr3 faultAddr : UInt64) : Machine :=
  let phys := vmmGetPhys m (pageBase faultAddr)
  if phys = 0 then m
  else
    let refcount := m.pmmPageRefcount phys
    let savedCr3 := m.cr3
    let m := m.writeCr3 procCr3
    let m :=
      if refcount = 1 then
        match vmmFindPt m faultAddr with
        | none => m
        | some pt => m.setEntry pt (ptIndex faultAddr) (withWrite (m.entry pt (ptIndex faultAddr)))
      else
        let (m, newPhys) := m.pmmAllocPage
        if newPhys = 0 then m
        else
          (vmmMapPage (m.copyPage newPhys phys) (pageBase faultAddr) newPhys
            (userFlags true)).pmmPageUnref phys
    m.writeCr3 savedCr3

def destroyPte (pt : UInt64) (l : ℕ) (m : Machine) : Machine :=
  if present (m.entry pt l) && user (m.entry pt l) then
    m.pmmPageUnref (m.entry pt l &&& addrMask)
  else m

def destroyPt (m : Machine) (pt : UInt64) : Machine := forUpTo (destroyPte pt) 512 m

/-- The other loops: an entry that `follow` accepts has its table emptied and freed. -/
def destroyEntry (follow : UInt64 → Bool) (destroyChild : Machine → UInt64 → Machine)
    (table : UInt64) (i : ℕ) (m : Machine) : Machine :=
  if follow (m.entry table i) then
    let child := m.entry table i &&& addrMask
    (destroyChild m child).pmmFreePage child
  else m

def destroyTable (follow : UInt64 → Bool) (destroyChild : Machine → UInt64 → Machine)
    (width : ℕ) (m : Machine) (table : UInt64) : Machine :=
  forUpTo (destroyEntry follow destroyChild table) width m

def presentUser (e : UInt64) : Bool := present e && user e

def destroyPd (m : Machine) (pd : UInt64) : Machine := destroyTable presentUser destroyPt 512 m pd

def destroyPdpt (m : Machine) (pdpt : UInt64) : Machine :=
  destroyTable presentUser destroyPd 512 m pdpt

/-- The outermost loop tests only that the entry is present. -/
def vmmDestroyAddressSpace (m : Machine) (cr3 : UInt64) : Machine :=
  if cr3 = 0 then m
  else (destroyTable present destroyPdpt 256 m cr3).pmmFreePage cr3

end NexusKernel.Vmm
