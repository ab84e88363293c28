import NexusKernel.PageEntries
import NexusKernel.Lib.TableTree

/-!
The machine the memory code runs on: physical memory in pages of 512 words, the page allocator,
the loaded page-table root and the kernel heap.

Three fields are not state of the kernel. `denials` lists answers forced upon the coming
allocations, so that every pattern of failures is covered; with the empty list an allocation fails
only when no page is free. `oom` remembers whether an allocation has failed, `grown` which pages
the heap took.
-/

namespace NexusKernel.Hardware

open Lib.TableTree PhysicalMemory PageEntries Function

structure HeapBlock where
  addr : UInt64
  size : UInt64
  free : Bool
  deriving DecidableEq, Repr

structure HeapState where
  blocks : List HeapBlock
  virtBase : UInt64
  virtEnd : UInt64
  totalSize : UInt64
  grown : List ℕ

structure Machine where
  ram : Store UInt64
  pmm : Pmm
  cr3 : UInt64
  heap : HeapState
  denials : List Bool
  oom : Bool

namespace Machine

def entry (m : Machine) (table : UInt64) (index : ℕ) : UInt64 := m.ram (pageOf table) index

def setEntry (m : Machine) (table : UInt64) (index : ℕ) (e : UInt64) : Machine :=
  { m with
    ram := update m.ram (pageOf table) (update (m.ram (pageOf table)) index e) }

def zeroPage (m : Machine) (phys : UInt64) : Machine :=
  { m with ram := update m.ram (pageOf phys) (fun _ => 0) }

def copyPage (m : Machine) (dst src : UInt64) : Machine :=
  { m with ram := update m.ram (pageOf dst) (m.ram (pageOf src)) }

def writeCr3 (m : Machine) (value : UInt64) : Machine := { m with cr3 := value }

/-- `pmm_alloc_page`, which clears the page it returns. -/
def pmmAllocPage (m : Machine) : Machine × UInt64 :=
  if m.denials.head? = some true ∨ (PhysicalMemory.pmmAllocPage m.pmm).2 = 0 then
    ({ m with denials := m.denials.tail, oom := true }, 0)
  else
    ({ m with
        denials := m.denials.tail
        pmm := (PhysicalMemory.pmmAllocPage m.pmm).1
        ram := update m.ram (pageOf (PhysicalMemory.pmmAllocPage m.pmm).2) (fun _ => 0) },
      (PhysicalMemory.pmmAllocPage m.pmm).2)

def pmmFreePage (m : Machine) (phys : UInt64) : Machine :=
  { m with pmm := PhysicalMemory.pmmFreePage m.pmm phys }

def pmmPageRef (m : Machine) (phys : UInt64) : Machine :=
  { m with pmm := PhysicalMemory.pmmPageRef m.pmm phys }

def pmmPageUnref (m : Machine) (phys : UInt64) : Machine :=
  { m with pmm := PhysicalMemory.pmmPageUnref m.pmm phys }

def pmmPageRefcount (m : Machine) (phys : UInt64) : UInt16 :=
  PhysicalMemory.pmmPageRefcount m.pmm phys

def currentPml4 (m : Machine) : UInt64 := m.cr3 &&& addrMask

end Machine

/-- The machine before an operation whose allocations are refused as `ds` says, besides for
lack of pages. -/
def denying (m : Machine) (ds : List Bool) : Machine :=
  { m with denials := ds, oom := false }

theorem denying_self {m : Machine} (hden : m.denials = []) (hoom : m.oom = false) :
    denying m [] = m := by
  rw [denying, ← hden, ← hoom]

/-- Page tables as the paging code walks them: a present entry leads to the page it names. -/
def x86 : Format UInt64 where
  fanout := 512
  blank := 0
  next := fun e => if present e then some (frame e) else none
  next_blank := rfl

@[simp] theorem blank_eq : x86.blank = 0 := rfl

variable {e : UInt64} {q : ℕ}

theorem next_eq_some : x86.next e = some q ↔ present e = true ∧ frame e = q := by
  cases h : present e <;> simp [x86, h]

theorem next_eq_none : x86.next e = none ↔ present e = false := by
  cases h : present e <;> simp [x86, h]

/-- A way of reading tables that follows the entries the kernel writes for new tables, and none it
does not follow. -/
structure Reads (F : Format UInt64) : Prop where
  blank : F.blank = 0
  next : ∀ {e q}, F.next e = some q → x86.next e = some q
  table : ∀ {q}, q < 2 ^ 40 → F.next (tableEntry (pageAddr q)) = some q

theorem Reads.next_none {F : Format UInt64} (hF : Reads F)
    (h : x86.next e = none) : F.next e = none := by
  cases hnext : F.next e with
  | none => rfl
  | some q => exact absurd ((hF.next hnext).symm.trans h) (by simp)

theorem Reads.next_some {F : Format UInt64} (hF : Reads F) {q : ℕ}
    (hopen : F.next e = none → x86.next e = none) (h : x86.next e = some q) :
    F.next e = some q := by
  cases hnext : F.next e with
  | none => exact absurd (h.symm.trans (hopen hnext)) (by simp)
  | some d => exact (hF.next hnext).symm.trans h

theorem reads_x86 : Reads x86 := by
  refine ⟨rfl, id, fun hq => ?_⟩
  obtain ⟨hpres, _, _, hframe⟩ := tableEntry_spec hq
  exact next_eq_some.mpr ⟨hpres, hframe⟩

def plain : Format UInt64 where
  fanout := 512
  blank := 0
  next := fun e => if present e && !huge e then some (frame e) else none
  next_blank := rfl

theorem plain_next_eq_some : plain.next e = some q ↔ present e = true ∧ huge e = false ∧
    frame e = q := by
  cases h : present e <;> cases hh : huge e <;> simp [plain, h, hh]

theorem reads_plain : Reads plain := by
  refine ⟨rfl, fun hq => ?_, fun hq => ?_⟩
  · obtain ⟨hpres, _, hframe⟩ := plain_next_eq_some.mp hq
    exact next_eq_some.mpr ⟨hpres, hframe⟩
  · obtain ⟨hpres, _, _, hframe⟩ := tableEntry_spec hq
    exact plain_next_eq_some.mpr ⟨hpres, huge_tableEntry hq, hframe⟩

def UpperGood (e : UInt64) : Prop := user e = true ∧ writable e = true

end NexusKernel.Hardware
