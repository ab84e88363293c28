import NexusKernel.KernelHeap

/-!
Processes as the memory code sees them: the regions of sched/vma.c, `sys_brk`, `sys_mmap`, and
`page_fault_handler` of mm/vmm.c, which decides by page tables, stack window, regions and heap
bounds. Scheduling is not modelled; a killed process ends as a zombie.
-/

namespace NexusKernel.Processes

open PageEntries Hardware Vmm KernelHeap

structure Vma where
  addr : UInt64
  virtStart : UInt64
  virtEnd : UInt64
  flags : UInt32
  deriving DecidableEq, Repr

inductive ProcState where
  | alive
  | zombie
  | dead
  deriving DecidableEq, Repr

/-- The fields of `process_t` used below. `addr` is the heap address of the record, `fdTable` that
of the descriptor table or 0. -/
structure Process where
  addr : UInt64
  pid : Int32
  ppid : Int32
  state : ProcState
  cr3 : UInt64
  fdTable : UInt64
  exitCode : Int32
  heapBase : UInt64
  heapEnd : UInt64
  stackTopVirt : UInt64
  stackLimitVirt : UInt64
  vmas : List Vma
  deriving DecidableEq, Repr

def procUserStackMax : UInt64 := 8 * 1024 * 1024

def mapAnonymous : UInt64 := 0x20
def einval : UInt64 := 22
def enosys : UInt64 := 38

def processFindVma (proc : Process) (addr : UInt64) : Option Vma :=
  proc.vmas.find? (fun vma => addr ≥ vma.virtStart && addr < vma.virtEnd)

/-- `process_add_vma`; without memory the region is dropped. -/
def processAddVma (m : Machine) (proc : Process) (start fin : UInt64) (flags : UInt32) :
    Machine × Process :=
  let (m, ptr) := kmalloc m 32
  if ptr = 0 then (m, proc)
  else (m, { proc with vmas := ⟨ptr, start, fin, flags⟩ :: proc.vmas })

def processExit (proc : Process) (code : Int32) : Process :=
  { proc with exitCode := code, state := .zombie }

def sysBrk (proc : Process) (newBrk : UInt64) : Process × UInt64 :=
  if newBrk = 0 then (proc, proc.heapEnd)
  else if newBrk < proc.heapBase then (proc, -einval)
  else
    let heapEnd := (newBrk + 0xFFF) &&& ~~~0xFFF
    ({ proc with heapEnd := heapEnd }, heapEnd)

def sysMmap (proc : Process) (addr length flags : UInt64) : Process × UInt64 :=
  if flags &&& mapAnonymous = 0 then (proc, -enosys)
  else
    let numPages := (length + 0xFFF) / 4096
    let virt := if addr ≠ 0 then addr else proc.heapEnd
    ({ proc with heapEnd := virt + numPages * 4096 }, virt)

inductive FaultOutcome where
  | panicked
  | resumed
  | killed
  deriving DecidableEq, Repr

/-- The window `[stack_top - 8 MiB, stack_top]`, computed with wrap-around. -/
def inStackWindow (proc : Process) (addr : UInt64) : Bool :=
  addr ≤ proc.stackTopVirt && addr ≥ proc.stackTopVirt - procUserStackMax

def inHeap (proc : Process) (addr : UInt64) : Bool := addr ≥ proc.heapBase && addr < proc.heapEnd

def Vma.writable (vma : Vma) : Bool := vma.flags &&& 2 != 0

def faultInRegions (m : Machine) (proc : Process) (faultAddr : UInt64) :
    Machine × Process × FaultOutcome :=
  match processFindVma proc faultAddr with
  | some vma =>
      (mapUserPage m proc.cr3 (pageBase faultAddr) (userFlags vma.writable), proc, .resumed)
  | none =>
      if inHeap proc faultAddr then
        (mapUserPage m proc.cr3 (pageBase faultAddr) (userFlags true), proc, .resumed)
      else (m, processExit proc 139, .killed)

/-- `page_fault_handler` for the current process; bits 1 and 2 of the error code mean a write and
user mode. -/
def pageFaultHandler (m : Machine) (proc : Process) (faultAddr : UInt64) (errCode : UInt32) :
    Machine × Process × FaultOutcome :=
  let write := (errCode >>> 1) &&& 1 != 0
  let user := (errCode >>> 2) &&& 1 != 0
  if !user then (m, proc, .panicked)
  else if write && isCowPage m faultAddr then (cowHandleFault m proc.cr3 faultAddr, proc, .resumed)
  else if inStackWindow proc faultAddr then
    if faultAddr < proc.stackLimitVirt then
      (mapUserPage m proc.cr3 (pageBase faultAddr) (userFlags true),
        { proc with stackLimitVirt := pageBase faultAddr }, .resumed)
    else if vmmGetPhys m (pageBase faultAddr) = 0 then
      (mapUserPage m proc.cr3 (pageBase faultAddr) (userFlags true), proc, .resumed)
    else faultInRegions m proc faultAddr
  else faultInRegions m proc faultAddr

def userError (present write : Bool) : UInt32 :=
  (if present then 1 else 0) ||| (if write then 2 else 0) ||| 4

inductive Plan where
  | cow
  | map (write : Bool)
  | kill
  deriving DecidableEq, Repr

def regionPlan (proc : Process) (addr : UInt64) : Plan :=
  match processFindVma proc addr with
  | some vma => .map vma.writable
  | none => if inHeap proc addr then .map true else .kill

def growsStack (proc : Process) (addr : UInt64) : Bool :=
  inStackWindow proc addr && addr < proc.stackLimitVirt

def faultPlan (m : Machine) (proc : Process) (addr : UInt64) (write : Bool) : Plan :=
  if write && isCowPage m addr then .cow
  else if growsStack proc addr || (inStackWindow proc addr && vmmGetPhys m (pageBase addr) == 0)
    then
    .map true
  else regionPlan proc addr

def afterMap (proc : Process) (addr : UInt64) : Process :=
  if growsStack proc addr then { proc with stackLimitVirt := pageBase addr } else proc

theorem faultInRegions_eq (m : Machine) (proc : Process) (addr : UInt64)
    (hgrow : growsStack proc addr = false) : faultInRegions m proc addr =
      match regionPlan proc addr with
      | .cow => (cowHandleFault m proc.cr3 addr, proc, .resumed)
      | .map w =>
          (mapUserPage m proc.cr3 (pageBase addr) (userFlags w), afterMap proc addr, .resumed)
      | .kill => (m, processExit proc 139, .killed) := by
  have hsame : afterMap proc addr = proc := by simp [afterMap, hgrow]
  unfold faultInRegions regionPlan
  rw [hsame]
  cases processFindVma proc addr with
  | some vma => rfl
  | none => cases hheap : inHeap proc addr <;> simp

theorem pageFaultHandler_eq (m : Machine) (proc : Process) (addr : UInt64) (present write : Bool) :
    pageFaultHandler m proc addr (userError present write) =
      match faultPlan m proc addr write with
      | .cow => (cowHandleFault m proc.cr3 addr, proc, .resumed)
      | .map w =>
          (mapUserPage m proc.cr3 (pageBase addr) (userFlags w), afterMap proc addr, .resumed)
      | .kill => (m, processExit proc 139, .killed) := by
  have hw : ((userError present write >>> 1) &&& 1 != 0) = write := by
    cases present <;> cases write <;> decide
  have hu : ((userError present write >>> 2) &&& 1 != 0) = true := by
    cases present <;> cases write <;> decide
  simp only [pageFaultHandler, faultPlan, hw, hu, Bool.not_true, Bool.false_eq_true, if_false]
  by_cases hcow : (write && isCowPage m addr) = true
  · simp only [hcow, if_true]
  · simp only [hcow]
    cases hstack : inStackWindow proc addr with
    | false =>
      have hgrow : growsStack proc addr = false := by simp [growsStack, hstack]
      simpa [hgrow] using faultInRegions_eq m proc addr hgrow
    | true =>
      by_cases hlimit : addr < proc.stackLimitVirt
      · have hgrow : growsStack proc addr = true := by simp [growsStack, hstack, hlimit]
        simp [hgrow, hlimit, afterMap]
      · have hgrow : growsStack proc addr = false := by simp [growsStack, hlimit]
        by_cases hphys : vmmGetPhys m (pageBase addr) = 0
        · simp [hgrow, hlimit, hphys, afterMap]
        · simpa [hgrow, hlimit, hphys] using faultInRegions_eq m proc addr hgrow

/-- Nothing covers the address: neither a page to be copied, nor the stack, nor a region, nor the
heap. -/
structure Fatal (m : Machine) (proc : Process) (addr : UInt64) (write : Bool) : Prop where
  cow : (write && isCowPage m addr) = false
  stack : inStackWindow proc addr = true → proc.stackLimitVirt ≤ addr ∧
    vmmGetPhys m (pageBase addr) ≠ 0
  region : processFindVma proc addr = none
  heap : inHeap proc addr = false

theorem regionPlan_ne_cow (proc : Process) (addr : UInt64) : regionPlan proc addr ≠ .cow := by
  unfold regionPlan
  cases processFindVma proc addr with
  | some vma => exact Plan.noConfusion
  | none => cases inHeap proc addr <;> exact Plan.noConfusion

theorem faultPlan_cow_iff (m : Machine) (proc : Process) (addr : UInt64) (write : Bool) :
    faultPlan m proc addr write = .cow ↔ (write && isCowPage m addr) = true := by
  unfold faultPlan
  cases (write && isCowPage m addr) with
  | true => simp
  | false =>
    simp only [Bool.false_eq_true, if_false, iff_false]
    split
    · exact Plan.noConfusion
    · exact regionPlan_ne_cow proc addr

theorem regionPlan_kill_iff (proc : Process) (addr : UInt64) :
    regionPlan proc addr = .kill ↔ processFindVma proc addr = none ∧ inHeap proc addr = false := by
  unfold regionPlan
  cases processFindVma proc addr with
  | some vma => simp
  | none => cases inHeap proc addr <;> simp

theorem faultPlan_kill_iff (m : Machine) (proc : Process) (addr : UInt64) (write : Bool) :
    faultPlan m proc addr write = .kill ↔ Fatal m proc addr write := by
  have hstack : (growsStack proc addr || (inStackWindow proc addr && vmmGetPhys m
    (pageBase addr) == 0)) = false ↔ (inStackWindow proc addr = true → proc.stackLimitVirt ≤ addr ∧
        vmmGetPhys m (pageBase addr) ≠ 0) := by
    cases hwindow : inStackWindow proc addr with
    | false | true => simp [growsStack, hwindow]
  unfold faultPlan
  cases hcow : (write && isCowPage m addr) with
  | true => exact iff_of_false (by simp) fun h => Bool.noConfusion (h.cow.symm.trans hcow)
  | false =>
    cases hgrow :
      (growsStack proc addr || (inStackWindow proc addr && vmmGetPhys m (pageBase addr) == 0)) with
    | true =>
      refine iff_of_false (by simp) fun h => ?_
      exact Bool.noConfusion ((hstack.mpr h.stack).symm.trans hgrow)
    | false =>
      simp only [Bool.false_eq_true, if_false, regionPlan_kill_iff]
      constructor
      · exact fun h => ⟨hcow, hstack.mp hgrow, h.1, h.2⟩
      · exact fun h => ⟨h.region, h.heap⟩

end NexusKernel.Processes
