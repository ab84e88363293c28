import NexusKernel.HeapInvariant
import NexusKernel.SegmentBytes
import NexusKernel.SyscallBuffers

/-!
`sys_execve`. Every way through it ends in an error, and from the checks of the header on it works
on the running process: each segment registers a region and moves the heap bounds before its pages
are loaded, and nothing is undone. So the process is as before only if the file is not accepted,
or if there was no memory for anything and the bounds are right already.
-/

namespace NexusKernel.Execve

open Lib.Loops Lib.TableTree PhysicalMemory PageEntries Hardware PageSupply
open Walks AddressSpaces KernelHeap KernelTables HeapGrowth Processes RunningProcess FirstProcess
open Exhaustion HeapInvariant ElfLoader SegmentLoading SegmentBytes

def enoent : UInt64 := 2
def enoexec : UInt64 := 8

def userStackTop : UInt64 := 0x00007FFFFFFFF000

def sysExecve (m : Machine) (proc : Process) (file : Option Image) : Machine × Process × UInt64 :=
  match file with
  | none => (m, proc, -enoent)
  | some image =>
      let (m, proc, _, r) := elfLoad m proc image
      if r ≠ 0 then (m, proc, -enoexec)
      else
        (m, { proc with stackTopVirt := userStackTop, stackLimitVirt := userStackTop }, -enosys)

/-- The process is as it was: its user half, the contents of its pages, its regions and the bounds
of its heap and stack. -/
structure Intact (r : ℕ) (m : Machine) (proc : Process) (m' : Machine)
    (proc' : Process) : Prop where
  tables : Agree x86 m.ram m'.ram 3 256 r
  pages : ∀ l ∈ userPaths, present (leaf m r l) = true → m'.ram (frame (leaf m r l)) =
    m.ram (frame (leaf m r l))
  vmas : proc'.vmas = proc.vmas
  heapBase : proc'.heapBase = proc.heapBase
  heapEnd : proc'.heapEnd = proc.heapEnd
  stackTop : proc'.stackTopVirt = proc.stackTopVirt
  stackLimit : proc'.stackLimitVirt = proc.stackLimitVirt

/-- A process in its address space, a heap in order and allocations that fail only for lack of
pages. -/
structure Executing (m : Machine) (proc : Process) (live : Finset ℕ) (resv K : Set ℕ)
    (r : ℕ) : Prop where
  wf : Wf m live resv
  mem : r ∈ live
  proc : proc.cr3 = pageAddr r
  tables : K ⊆ resv
  walk : HeapWalk K m.ram r
  room : HeapRoom m 4
  supply : Undenied m
  blocks : ∀ b ∈ m.heap.blocks, b.addr + headerSize ≠ 0

/-- The process after a load without memory, and whether it ran to its end: it gets over segments
without pages to load. -/
def starvedLoad : List ElfPhdr → Process → Process × Bool
  | [], proc => (proc, true)
  | p :: rest, proc =>
      if p.filePages = 0 then starvedLoad rest (raiseHeap proc p.virtEnd)
      else (raiseHeap proc p.virtEnd, false)

structure Starved (m₁ m : Machine) : Prop where
  sane : Sane m₁
  free : (budget m₁).free = 0
  ram : m.ram = m₁.ram
  pmm : m.pmm = m₁.pmm
  blocks : takeBlock (rounded 32) m.heap.blocks = none

variable {m m₁ : Machine} {live : Finset ℕ} {resv K : Set ℕ} {r : ℕ} {proc : Process}
variable {q : Process} {file : VfsNode} {p : ElfPhdr} {image : Image}

/-- The answer is the one of the call with its accesses to the path. -/
theorem sysExecve_answer {c : SyscallBuffers.Caller} {vfs : SyscallBuffers.Vfs} {steps : ℕ}
    {path : UInt64} {mem : UInt64 → UInt8} {node}
    (hfound : ((SyscallBuffers.vfsResolvePath vfs steps path).run mem).1 = some (some node))
    (hloads : vfs.elfLoads node = ((elfLoad m proc image).2.2.2 = 0)) :
    ((SyscallBuffers.sysExecve c vfs steps path).run mem).1.result =
      some (sysExecve m proc (some image)).2.2.toInt64 := by
  rw [SyscallBuffers.sysExecve, Lib.MemoryTasks.Task.run_bind, hfound]
  by_cases hload : (elfLoad m proc image).2.2.2 = 0 <;>
    simp [sysExecve, hloads, hload, SyscallBuffers.Caller.answer] <;> rfl

section

variable (h : Starved m₁ m)
include h

theorem Starved.alloc : m.pmmAllocPage.2 = 0 ∧ Starved m₁ m.pmmAllocPage.1 := by
  have hs : Sane m := ⟨h.pmm ▸ h.sane.kept, h.pmm ▸ h.sane.zero, h.pmm ▸ h.sane.width⟩
  have hfree : (budget m).free = 0 := by
    rw [budget, h.pmm]
    exact h.free
  obtain ⟨hz, href⟩ := pmmAllocPage_dry hs hfree
  refine ⟨hz, h.sane, h.free, href.ram.trans h.ram, href.pmm.trans h.pmm, ?_⟩
  rw [href.heap]
  exact h.blocks

variable {pages : UInt64}

theorem Starved.heapGrow (hpages : pages.toNat ≠ 0) :
    (heapGrow m pages).2 = false ∧ Starved m₁ (heapGrow m pages).1 := by
  obtain ⟨hz, hnext⟩ := h.alloc
  have hgrow : growPage m = (m.pmmAllocPage.1, false) := by rw [growPage, if_pos hz]
  obtain ⟨n, hn⟩ : ∃ n, pages.toNat = n + 1 := ⟨pages.toNat - 1, by omega⟩
  have hloop : forWhile (fun _ => growPage) (n + 1) m = growPage m :=
    forWhile_first (by rw [hgrow]) n
  simp only [KernelHeap.heapGrow, hn, hloop, hgrow]
  exact ⟨trivial, hnext.sane, hnext.free, hnext.ram, hnext.pmm, hnext.blocks⟩

theorem Starved.kmalloc : (kmalloc m 32).2 = 0 ∧ Starved m₁ (kmalloc m 32).1 := by
  obtain ⟨hfailed, hnext⟩ := h.heapGrow (show (growthFor (rounded 32)).toNat ≠ 0 by decide)
  rcases kmalloc_cases m (show (32 : UInt64) ≠ 0 by decide) (by decide) (by decide) with
    ⟨_, _, hsome, _⟩ | ⟨_, _, heq⟩ | ⟨_, hgrown, _⟩
  · cases h.blocks.symm.trans hsome
  · rw [heq]
    exact ⟨rfl, hnext⟩
  · cases hfailed.symm.trans hgrown

theorem Starved.loadPage (file : VfsNode) (p : ElfPhdr) (j : ℕ) :
    (loadPage file p j m).2 = false ∧ Starved m₁ (loadPage file p j m).1 := by
  obtain ⟨hz, hnext⟩ := h.alloc
  simp only [ElfLoader.loadPage, hz, if_true]
  exact ⟨trivial, hnext⟩

end

section

variable (hnull : (KernelHeap.kmalloc m 32).2 = 0) (h : Starved m₁ (KernelHeap.kmalloc m 32).1)
include hnull h

theorem Starved.segment (file : VfsNode) (p : ElfPhdr) (proc : Process) :
    let out := loadPhdr file p (m, proc)
    out.1.2 = raiseHeap proc p.virtEnd ∧ (out.2 = true ↔ p.filePages = 0) ∧ Starved m₁ out.1.1 := by
  have hproc : (loadPhdr file p (m, proc)).1.2 = raiseHeap proc p.virtEnd := by
    simp only [loadPhdr, processAddVma, hnull, if_true]
  refine ⟨hproc, ?_⟩
  simp only [loadPhdr, processAddVma_machine]
  by_cases hnone : p.filePages = 0
  · have hz : p.filePages.toNat = 0 := by rw [hnone]; rfl
    rw [hz]
    exact ⟨⟨fun _ => hnone, fun _ => rfl⟩, h⟩
  · obtain ⟨n, hn⟩ : ∃ n, p.filePages.toNat = n + 1 := ⟨p.filePages.toNat - 1, by
      have hpos : p.filePages.toNat ≠ 0 := fun hz => hnone (UInt64.toNat_inj.mp hz)
      omega⟩
    obtain ⟨hfailed, hnext⟩ := h.loadPage file p 0
    rw [hn, forWhile_first hfailed]
    exact ⟨⟨fun hdone => Bool.noConfusion (hfailed.symm.trans hdone),
      fun hz => absurd hz hnone⟩, hnext⟩

/-- A load without memory does what `starvedLoad` says, and nothing else. -/
theorem starved_loads (file : VfsNode) (p : ElfPhdr) (rest : List ElfPhdr) (proc : Process) :
    let out := forEachWhile (loadPhdr file) (p :: rest) (m, proc)
    (out.1.2, out.2) = starvedLoad (p :: rest) proc ∧ Starved m₁ out.1.1 := by
  induction rest generalizing m p proc with
  | nil =>
    obtain ⟨hproc, hdone, hend⟩ := Starved.segment hnull h file p proc
    simp only [forEachWhile_singleton, starvedLoad]
    refine ⟨?_, hend⟩
    split
    · rename_i hnone
      rw [hproc, hdone.mpr hnone]
    · rename_i hsome
      rw [hproc]
      exact Prod.ext rfl (by simpa using fun hd => hsome (hdone.mp hd))
  | cons q rest ih =>
    obtain ⟨hproc, hdone, hend⟩ := Starved.segment hnull h file p proc
    rw [starvedLoad]
    unfold forEachWhile
    dsimp only
    by_cases hnone : p.filePages = 0
    · rw [if_pos (hdone.mpr hnone), if_pos hnone]
      obtain ⟨hnull', hnext⟩ := hend.kmalloc
      have hrest := ih hnull' hnext q (loadPhdr file p (m, proc)).1.2
      rw [← hproc]
      exact hrest
    · rw [if_neg (fun hd => hnone (hdone.mp hd)), if_neg hnone, hproc]
      exact ⟨Prod.ext rfl (by simpa using fun hd => hnone (hdone.mp hd)), hend⟩

end

theorem takeBlock_ptr {size ptr : UInt64} {blocks rest : List HeapBlock}
    (h : takeBlock size blocks = some (ptr, rest)) : ∃ b ∈ blocks, ptr = b.addr + headerSize := by
  obtain ⟨before, b, after, rfl, -, hptr, -⟩ := takeBlock_eq_some h
  exact ⟨b, by simp, hptr⟩

theorem growPage_oom (h : (growPage m).2 = false) : (growPage m).1.oom = true := by
  unfold growPage at h ⊢
  split at h
  · rename_i hz
    rw [if_pos hz]
    unfold Machine.pmmAllocPage at hz ⊢
    split at hz
    · rename_i href
      rw [if_pos href]
    · rename_i hgrant
      exact absurd (.inr hz) hgrant
  · exact Bool.noConfusion h

theorem heapGrow_oom (h : (heapGrow m pages).2 = false) : (heapGrow m pages).1.oom = true :=
  forWhile_left (fun t => t.oom = true) (fun _ _ hstop => growPage_oom hstop) h

theorem starved_of_null (h : Undenied m) (hroom : HeapRoom m 4)
    (hblks : ∀ b ∈ m.heap.blocks, b.addr + headerSize ≠ 0) (hnull : (kmalloc m 32).2 = 0) :
    Starved (kmalloc m 32).1 (kmalloc m 32).1 := by
  have hsupply := h.kmalloc 32
  have hend : m.heap.virtEnd + headerSize ≠ 0 := by
    have hfits := hroom.fits
    intro hz
    have hnat := congrArg UInt64.toNat hz
    simp only [UInt64.toNat_add, headerSize, UInt64.reduceToNat] at hnat
    omega
  rcases kmalloc_cases m (show (32 : UInt64) ≠ 0 by decide) (by decide) (by decide) with
    ⟨ptr, rest, hsome, heq⟩ | ⟨hnone, hfailed, heq⟩ | ⟨_, _, ptr, rest, hsome, heq⟩
  · obtain ⟨b, hb, hptr⟩ := takeBlock_ptr hsome
    rw [heq] at hnull
    exact absurd (hptr.symm.trans hnull) (hblks b hb)
  · have hoom : (kmalloc m 32).1.oom = true := by
      rw [heq]
      exact heapGrow_oom hfailed
    refine ⟨hsupply.sane, hsupply.dry hoom, rfl, rfl, ?_⟩
    rw [heq, heapGrow_blocks]
    exact hnone
  · obtain ⟨b, hb, hptr⟩ := takeBlock_ptr hsome
    rw [heq] at hnull
    rcases List.mem_append.mp hb with hb | hb
    · exact absurd (hptr.symm.trans hnull) (hblks b hb)
    · rw [List.mem_singleton.mp hb] at hptr
      exact absurd (hptr.symm.trans hnull) hend

structure SameBounds (proc : Process) (out : Process × Bool) : Prop where
  heapBase : out.1.heapBase = proc.heapBase
  heapEnd : out.1.heapEnd = proc.heapEnd
  stack : out.2 = true → proc.stackTopVirt = userStackTop ∧ proc.stackLimitVirt = userStackTop

/-- The file is not accepted; or no record can be allocated for any segment, and the load leaves
the bounds of the process. -/
def Unnoticed (m : Machine) (proc : Process) : Option Image → Prop
  | none => True
  | some image =>
      image.accepted = false ∨ ((image.segments = [] ∨ (kmalloc (m.writeCr3 proc.cr3) 32).2 = 0) ∧
          SameBounds proc (starvedLoad image.segments { proc with heapBase := 0 }))

theorem starvedLoad_kept (segments : List ElfPhdr) (proc : Process) :
    (starvedLoad segments proc).1.vmas = proc.vmas ∧
    (starvedLoad segments proc).1.stackTopVirt = proc.stackTopVirt ∧
    (starvedLoad segments proc).1.stackLimitVirt = proc.stackLimitVirt := by
  induction segments generalizing proc with
  | nil => exact ⟨rfl, rfl, rfl⟩
  | cons p rest ih =>
    rw [starvedLoad]
    split
    · exact ih (raiseHeap proc p.virtEnd)
    · exact ⟨rfl, rfl, rfl⟩

def finish (out : Process × Bool) : Process × UInt64 :=
  if out.2 then
    ({ out.1 with stackTopVirt := userStackTop, stackLimitVirt := userStackTop }, -enosys)
  else (out.1, -enoexec)

def loadLoop (m : Machine) (proc : Process) (image : Image) : (Machine × Process) × Bool :=
  forEachWhile (loadPhdr image.file) image.segments (m.writeCr3 proc.cr3,
    { proc with heapBase := 0 })

def outcome (m : Machine) (proc : Process) (image : Image) : Machine × Process × UInt64 :=
  ((loadLoop m proc image).1.1.writeCr3 m.cr3, finish ((loadLoop m proc image).1.2,
    (loadLoop m proc image).2))

theorem sysExecve_accepted (h : image.accepted = true) (m : Machine) (proc : Process) :
    sysExecve m proc (some image) = outcome m proc image := by
  rw [sysExecve, elfLoad_accepted h, outcome, loadLoop]
  dsimp only
  generalize forEachWhile (loadPhdr image.file) image.segments
    (m.writeCr3 proc.cr3, { proc with heapBase := 0 }) = out
  cases out.2 with
  | true => rfl
  | false => rfl

theorem sysExecve_rejected (h : image.accepted = false) (m : Machine) (proc : Process) :
    sysExecve m proc (some image) = (m, proc, -enoexec) := by
  rw [sysExecve, elfLoad_rejected h]
  rfl

theorem Intact.refl (r : ℕ) (m : Machine) (proc : Process) : Intact r m proc m proc :=
  ⟨⟨fun _ _ => rfl, fun _ _ _ _ _ _ => rfl⟩, fun _ _ _ => rfl, rfl, rfl, rfl, rfl, rfl⟩

/-- Where memory is as before, it depends on the bounds. -/
theorem intact_iff {m' : Machine} {out : Process × Bool} (proc : Process)
    (htabs : Agree x86 m.ram m'.ram 3 256 r) (hpages : ∀ l ∈ userPaths,
      present (leaf m r l) = true → m'.ram (frame (leaf m r l)) = m.ram (frame (leaf m r l)))
    (hvmas : out.1.vmas = proc.vmas) (htop : out.1.stackTopVirt = proc.stackTopVirt)
    (hlimit : out.1.stackLimitVirt = proc.stackLimitVirt) :
    Intact r m proc m' (finish out).1 ↔ SameBounds proc out := by
  obtain ⟨q, done⟩ := out
  cases done with
  | true =>
    constructor
    · intro h
      exact ⟨h.heapBase, h.heapEnd, fun _ => ⟨h.stackTop.symm, h.stackLimit.symm⟩⟩
    · rintro ⟨hbase, hend, hstack⟩
      obtain ⟨hstop, hslimit⟩ := hstack rfl
      exact ⟨htabs, hpages, hvmas, hbase, hend, hstop.symm, hslimit.symm⟩
  | false =>
    constructor
    · intro h
      exact ⟨h.heapBase, h.heapEnd, fun hdone => Bool.noConfusion hdone⟩
    · rintro ⟨hbase, hend, _⟩
      exact ⟨htabs, hpages, hvmas, hbase, hend, htop, hlimit⟩

/-- An allocated record stays in the list of regions. -/
theorem loads_longer {rest : List ElfPhdr} (hne : (kmalloc m 32).2 ≠ 0) :
    proc.vmas.length < (forEachWhile (loadPhdr file) (p :: rest) (m, proc)).1.2.vmas.length := by
  have hfirst := loadPhdr_vmas file p (m, proc)
  rw [if_neg hne] at hfirst
  unfold forEachWhile
  split
  · have hkept := (loads_registered file rest (loadPhdr file p (m, proc)).1).1.length_le
    rw [hfirst] at hkept
    exact hkept
  · rw [hfirst]
    exact Nat.lt_succ_self _

theorem finish_vmas (out : Process × Bool) : (finish out).1.vmas = out.1.vmas := by
  unfold finish
  split
  · rfl
  · rfl

theorem intact_of_empty (h : image.segments = []) (r : ℕ) (m : Machine) (proc : Process) :
    Intact r m proc (outcome m proc image).1 (outcome m proc image).2.1 ↔
      SameBounds proc (starvedLoad image.segments { proc with heapBase := 0 }) := by
  have hsame := Intact.refl r m proc
  have hiff : Intact r m proc m (finish ({ proc with heapBase := 0 }, true)).1 ↔
      SameBounds proc ({ proc with heapBase := 0 }, true) :=
    intact_iff proc hsame.tables hsame.pages rfl rfl rfl
  rw [outcome, loadLoop, h]
  exact hiff

theorem Executing.intact_of_null (h : Executing m proc live resv K r) (hne : image.segments ≠ [])
    (hnull : (kmalloc (m.writeCr3 proc.cr3) 32).2 = 0) :
    Intact r m proc (outcome m proc image).1 (outcome m proc image).2.1 ↔
      SameBounds proc (starvedLoad image.segments { proc with heapBase := 0 }) := by
  obtain ⟨p, rest, hsegments⟩ := List.exists_cons_of_ne_nil hne
  have hwf : Wf (m.writeCr3 proc.cr3) live resv := h.wf.of_eq rfl rfl
  have hroom : HeapRoom (m.writeCr3 proc.cr3) (4 + 0) := ⟨h.room.start, h.room.fits⟩
  obtain ⟨hcall, _⟩ :=
    kmalloc_call (heapReady_of_wf hwf h.mem h.proc h.tables h.walk) hroom 32 (by decide)
  have hsupply : Undenied (m.writeCr3 proc.cr3) := h.supply.congr rfl rfl rfl rfl rfl
  have hstarved := starved_of_null hsupply hroom h.blocks hnull
  obtain ⟨hout, hend⟩ := starved_loads hnull hstarved image.file p rest { proc with heapBase := 0 }
  obtain ⟨hvmas, htop, hlimit⟩ := starvedLoad_kept (p :: rest) { proc with heapBase := 0 }
  have hagree := Growth.agree hcall.growth hwf h.mem h.tables h.mem
  rw [outcome, loadLoop, hsegments, hout]
  apply intact_iff proc _ _ hvmas htop hlimit
  · rw [← hend.ram] at hagree
    exact hagree
  · intro l hl hpres
    obtain ⟨_, huse, _, hresv, hout⟩ := h.wf.leaves r h.mem l hl hpres
    have hroot := hout r h.mem
    refine (congrFun hend.ram _).trans (hcall.growth.elsewhere _ huse
      (fun hmem => hresv (h.tables hmem)) ?_)
    intro heq
    rw [heq] at hroot
    exact hroot root_mem_tables

theorem not_intact_of_record (hne : image.segments ≠ [])
    (hsome : (kmalloc (m.writeCr3 proc.cr3) 32).2 ≠ 0) :
    ¬ Intact r m proc (outcome m proc image).1 (outcome m proc image).2.1 := by
  obtain ⟨p, rest, hsegments⟩ := List.exists_cons_of_ne_nil hne
  intro h
  have hvmas := h.vmas
  have hlonger : ({ proc with heapBase := 0 } : Process).vmas.length <
    (forEachWhile (loadPhdr image.file) (p :: rest)
      (m.writeCr3 proc.cr3, { proc with heapBase := 0 })).1.2.vmas.length := loads_longer hsome
  rw [outcome, finish_vmas, loadLoop, hsegments] at hvmas
  rw [hvmas] at hlonger
  exact Nat.lt_irrefl _ hlonger

/-- Every call of `sys_execve` returns an error, and leaves the process as it was exactly if it
goes unnoticed. -/
theorem failed_execve_intact (h : Executing m proc live resv K r) (file : Option Image) :
    let out := sysExecve m proc file
    (out.2.2 = -enoent ∨ out.2.2 = -enoexec ∨ out.2.2 = -enosys) ∧
      (Intact r m proc out.1 out.2.1 ↔ Unnoticed m proc file) := by
  cases file with
  | none => exact ⟨.inl rfl, fun _ => trivial, fun _ => Intact.refl r m proc⟩
  | some image =>
    cases hacc : image.accepted with
    | false =>
      rw [sysExecve_rejected hacc]
      exact ⟨.inr (.inl rfl), fun _ => .inl hacc, fun _ => Intact.refl r m proc⟩
    | true =>
      rw [sysExecve_accepted hacc]
      constructor
      · unfold outcome finish
        split
        · exact .inr (.inr rfl)
        · exact .inr (.inl rfl)
      · rw [Unnoticed, or_iff_right (fun hno => Bool.noConfusion (hno.symm.trans hacc))]
        by_cases hnil : image.segments = []
        · rw [intact_of_empty hnil]
          exact ⟨fun hbounds => ⟨.inl hnil, hbounds⟩, fun hboth => hboth.2⟩
        · by_cases hnull : (kmalloc (m.writeCr3 proc.cr3) 32).2 = 0
          · rw [h.intact_of_null hnil hnull]
            exact ⟨fun hbounds => ⟨.inr hnull, hbounds⟩, fun hboth => hboth.2⟩
          · exact ⟨fun hintact => absurd hintact (not_intact_of_record hnil hnull),
              fun hboth => absurd hboth.1 (not_or.mpr ⟨hnil, hnull⟩)⟩

theorem exists_executing_process : ∃ K m z resv, Executing m (newProcess z 0 0) {z} resv K z ∧
    Stocked {z} resv z 1 254 (m.writeCr3 (pageAddr z)) := by
  obtain ⟨K, m, z, resv, _, h, haff, hoom, hblks, _⟩ := exists_first_process
  refine ⟨K, m.writeCr3 (pageAddr z), z, resv, ?_, h.wf.of_eq rfl rfl, rfl,
    haff.congr rfl rfl, hoom, ?_⟩
  · refine ⟨h.wf, Finset.mem_singleton_self z, rfl, h.tables, h.walk,
      h.room.mono (by decide), ?_, ?_⟩
    · exact ⟨h.wf.sane, haff.denials, fun hfull => Bool.noConfusion (hoom.symm.trans hfull)⟩
    · rw [show (m.writeCr3 (pageAddr z)).heap.blocks = firstBlocks from hblks]
      decide
  · exact hblks.symm ▸ ⟨_, _, rfl, by decide, trivial⟩

/-- A process that has loaded a program with one region. -/
def loadedProcess (z : ℕ) : Process :=
  { newProcess z 0 0 with
    stackTopVirt := userStackTop
    stackLimitVirt := userStackTop
    vmas := [⟨0xFFFFFFFF90000400, 0x400000, 0x401000, 7⟩] }

/-- The file has an ELF header and nothing to load. -/
def bareImage : Image := Image.ofSegments [] [1, 2, 3]

theorem failed_execve_intact_bare : bareImage.accepted = true ∧
    ∃ m z, Intact z m (loadedProcess z) (sysExecve m (loadedProcess z) (some bareImage)).1
      (sysExecve m (loadedProcess z) (some bareImage)).2.1 := by
  obtain ⟨K, m, z, resv, h, _⟩ := exists_executing_process
  have h' : Executing m (loadedProcess z) {z} resv K z :=
    ⟨h.wf, h.mem, rfl, h.tables, h.walk, h.room, h.supply, h.blocks⟩
  have hsegments : bareImage.segments = [] := by decide
  refine ⟨by decide, m, z, (failed_execve_intact h' (some bareImage)).2.mpr
    (.inr ⟨.inl hsegments, ?_⟩)⟩
  rw [hsegments]
  exact ⟨rfl, rfl, fun _ => ⟨rfl, rfl⟩⟩

/-- With a loadable file the call fails and the process has a region more. -/
theorem execve_changes_caller : ∃ K m z resv, Executing m (newProcess z 0 0) {z} resv K z ∧
    (sysExecve m (newProcess z 0 0) (some dataImage)).2.2 = -enosys ∧
    ¬ Intact z m (newProcess z 0 0) (sysExecve m (newProcess z 0 0) (some dataImage)).1
      (sysExecve m (newProcess z 0 0) (some dataImage)).2.1 := by
  obtain ⟨K, m, z, resv, h, hstocked⟩ := exists_executing_process
  have hdone : (loadLoop m (newProcess z 0 0) dataImage).2 = true := by
    exact (Stocked.loads (k := 250) hstocked (Finset.mem_singleton_self z) dataImage.file
      { newProcess z 0 0 with heapBase := 0 }
      (fun p hp => dataImage_below p (dataImage_segments ▸ hp))).1
  refine ⟨K, m, z, resv, h, ?_⟩
  rw [sysExecve_accepted (by decide)]
  refine ⟨?_, not_intact_of_record (by rw [dataImage_segments]; exact List.cons_ne_nil _ _)
    hstocked.record.1⟩
  rw [outcome, hdone]
  rfl

end NexusKernel.Execve
