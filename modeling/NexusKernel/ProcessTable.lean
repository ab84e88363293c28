import NexusKernel.Processes

/-!
The life of a process in sched/process.c, as far as memory goes, and `sys_fork`. Processes have no
threads here: `sys_fork` makes none.
-/

namespace NexusKernel.ProcessTable

open Hardware Vmm KernelHeap Processes

structure Kernel where
  machine : Machine
  procTable : List Process
  nextPid : Int32

/-- `process_alloc_address_space`: as `vmm_clone_kernel_space`, but the new root is cleared once
more. -/
def processAllocAddressSpace (m : Machine) : Machine × UInt64 :=
  let (m, newPml4) := m.pmmAllocPage
  if newPml4 = 0 then (m, 0)
  else
    let m := m.zeroPage newPml4
    (copyKernelHalf m newPml4 m.currentPml4, newPml4)

def sizeofProcess : UInt64 := 128
def sizeofFdTable : UInt64 := 520

def processCreate (k : Kernel) (ppid : Int32) : Kernel × Option Process :=
  let (m, p) := kmalloc k.machine sizeofProcess
  if p = 0 then ({ k with machine := m }, none)
  else
    let (m, cr3) := processAllocAddressSpace m
    if cr3 = 0 then ({ k with machine := kfree m p, nextPid := k.nextPid + 1 }, none)
    else
      let proc : Process := {
        addr := p
        pid := k.nextPid
        ppid := ppid
        state := .alive
        cr3 := cr3
        fdTable := 0
        exitCode := 0
        heapBase := 0
        heapEnd := 0
        stackTopVirt := 0
        stackLimitVirt := 0
        vmas := [] }
      (⟨m, proc :: k.procTable, k.nextPid + 1⟩, some proc)

def processDestroy (k : Kernel) (proc : Process) : Kernel :=
  let m := proc.vmas.foldl (fun m vma => kfree m vma.addr) k.machine
  let m := if proc.cr3 = 0 then m else vmmDestroyAddressSpace m proc.cr3
  let m := if proc.fdTable = 0 then m else kfree m proc.fdTable
  { k with
    machine := kfree m proc.addr
    procTable := k.procTable.eraseP (fun p => p.addr = proc.addr) }

def Kernel.store (k : Kernel) (proc : Process) : Kernel :=
  { k with procTable := k.procTable.map (fun p => if p.addr = proc.addr then proc else p) }

/-- `sys_fork`; `none` is `-ENOMEM`, a child its process number. The child gets the bounds of heap
and stack and no regions. -/
def sysFork (k : Kernel) (current : Process) : Kernel × Option Process :=
  match processCreate k current.pid with
  | (k, none) => (k, none)
  | (k, some child) =>
      let (m, fdTable) :=
        if current.fdTable = 0 then (k.machine, child.fdTable)
          else kcalloc k.machine 1 sizeofFdTable
      let (m, cr3) := vmmCowClone m current.cr3
      let k := { k with machine := m }
      let child := { child with fdTable := fdTable, cr3 := cr3 }
      if cr3 = 0 then (processDestroy (k.store child) child, none)
      else
        let child := { child with
          heapBase := current.heapBase
          heapEnd := current.heapEnd
          stackTopVirt := current.stackTopVirt
          stackLimitVirt := current.stackLimitVirt }
        (k.store child, some child)

end NexusKernel.ProcessTable
