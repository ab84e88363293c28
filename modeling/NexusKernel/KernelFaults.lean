import NexusKernel.ForkRefinement
import NexusKernel.SegmentOverlap
import NexusKernel.UserPointers

/-!
System calls that copy to and from user memory behind page tables. The kernel uses the caller's
tables, in kernel mode and with write protection, and the handler panics on a fault from there. So
a call ends only if every page it uses is already mapped as it needs it, and then computes what it
does over a flat memory. Other processes map no pages of the caller, so their turns are left out.
-/

namespace NexusKernel.KernelFaults

open Lib.TableTree Lib.MemoryTasks PhysicalMemory PageEntries Hardware Function
open PageSupply Vmm Walks AddressSpaces Processes
open UserAccess ElfLoader SegmentLoading SegmentBytes SegmentOverlap SyscallBuffers UserPointers

/-- What an entry allows in kernel mode with `CR0.WP` set. -/
def kernelPermits (write : Bool) (e : UInt64) : Bool := present e && (!write || writable e)

def kernelTranslate (m : Machine) (virt : UInt64) (write : Bool) : Option ℕ :=
  walkAt (kernelPermits write) m.ram (frame m.cr3) (pathOf virt)

def kernelError (present write : Bool) : UInt32 :=
  (if present then 1 else 0) ||| (if write then 2 else 0)

def kernelAccess (proc : Process) (m : Machine) (virt : UInt64) (write : Bool) :
    Option (ℕ × Machine) :=
  match kernelTranslate m virt write with
  | some f => some (f, m)
  | none =>
      match pageFaultHandler m proc virt (kernelError (kernelTranslate m virt false).isSome write)
        with
      | (m, _, .resumed) => (kernelTranslate m virt write).map (·, m)
      | _ => none

def kernelLoad (proc : Process) (m : Machine) (virt : UInt64) : Option (UInt8 × Machine) :=
  (kernelAccess proc m virt false).map (fun out => (wordByte (out.2.ram out.1)
    (virt.toNat % 4096), out.2))

def storeByteAt (m : Machine) (f k : ℕ) (b : UInt8) : Machine :=
  { m with ram := update m.ram f (storeByte (m.ram f) k b) }

def kernelStore (proc : Process) (m : Machine) (virt : UInt64) (b : UInt8) : Option Machine :=
  (kernelAccess proc m virt true).map (fun out => storeByteAt out.2 out.1 (virt.toNat % 4096) b)

/-- A system call of the running process; `none` is a panic. -/
def runCall (k : Kernel) (c : Call) (proc : Process) (m : Machine) : Option (Outcome × Machine) :=
  (c.task k).attempt (kernelLoad proc) (kernelStore proc) m

def touch (s : Machine × Process) (x : UInt64 × Bool) : Machine × Process :=
  if (userTranslate s.1 x.1 x.2).isSome then s
  else ((fault s.1 s.2 x.1 x.2).1, (fault s.1 s.2 x.1 x.2).2.1)

/-- The call ends, as after user code has touched each byte it uses. -/
def Completes (k : Kernel) (c : Call) (proc : Process) (m : Machine) (r : ℕ) : Prop :=
  ∃ out, runCall k c proc m = some out ∧
    ∀ m' proc', (m', proc') = ((c.task k).accesses (visible m r)).foldl touch (m, proc) →
      runCall k c proc' m' = some out

def Mapped (m : Machine) (r : ℕ) (x : UInt64 × Bool) : Prop :=
  kernelPermits x.2 (leaf m r (pathOf x.1)) = true

variable {m m₁ : Machine} {live : Finset ℕ} {resv : Set ℕ} {r n w p : ℕ} {l : List ℕ}
variable {proc : Process} {virt : UInt64} {write : Bool}

/-- The handler does not return from a fault of the kernel. -/
theorem kernel_fault_panics (m : Machine) (proc : Process) (virt : UInt64) (present write : Bool) :
    (pageFaultHandler m proc virt (kernelError present write)).2.2 = .panicked := by
  have huser : ((kernelError present write >>> 2) &&& 1 != 0) = false := by
    cases present <;> cases write <;> decide
  simp [pageFaultHandler, huser]

theorem kernelAccess_eq (proc : Process) (m : Machine) (virt : UInt64) (write : Bool) :
    kernelAccess proc m virt write = (kernelTranslate m virt write).map (·, m) := by
  unfold kernelAccess
  cases kernelTranslate m virt write with
  | some f => rfl
  | none =>
    have hpanics := kernel_fault_panics m proc virt (kernelTranslate m virt false).isSome write
    dsimp only
    split
    · rename_i m' proc' heq
      rw [heq] at hpanics
      simp at hpanics
    · rfl

theorem kernelTranslateAt_eq (htree : TreeOk m n w p) (hl : l ∈ paths x86 n w)
    (write : Bool) : walkAt (kernelPermits write) m.ram p l =
      if kernelPermits write (leaf m p l) then some (frame (leaf m p l)) else none := by
  apply walkAt_eq _ _ htree hl
  · intro e h
    simp only [kernelPermits, Bool.and_eq_true] at h
    exact h.1
  · intro e hp _ hw
    simp [kernelPermits, hp, hw]

theorem kernelAccess_of_wf (h : Wf m live resv) (hr : r ∈ live) (hcr3 : m.cr3 = pageAddr r)
    (hvirt : pml4Index virt < 256) (proc : Process) (write : Bool) :
    kernelAccess proc m virt write =
    if kernelPermits write (leaf m r (pathOf virt)) then
      some (frame (leaf m r (pathOf virt)), m)
    else none := by
  have hroot : frame m.cr3 = r := by
    rw [hcr3, CopyOnWrite.frame_pageAddr (h.sane.lt_of_inUse (h.tree r hr).root)]
  rw [kernelAccess_eq, kernelTranslate, hroot, kernelTranslateAt_eq (h.tree r hr)
    (pathOf_mem hvirt)]
  split
  · rfl
  · rfl

/-- The state, with the mappings of `m` for `r`, represents a flat memory. -/
structure Represents (m : Machine) (live : Finset ℕ) (resv : Set ℕ) (r : ℕ) (m₁ : Machine)
    (mem : UInt64 → UInt8) : Prop where
  wf : Wf m₁ live resv
  cr3 : m₁.cr3 = pageAddr r
  leaves : ∀ l ∈ userPaths, leaf m₁ r l = leaf m r l
  bytes : ∀ a < userEnd, visible m₁ r a = mem a

theorem pml4Index_lt (hvirt : virt < userEnd) : pml4Index virt < 256 := by
  have hnat : virt.toNat < 2 ^ 47 := hvirt
  rw [pml4Index_eq]
  omega

theorem visible_of_present (hpres : present (leaf m r (pathOf virt)) = true) :
    visible m r virt = wordByte (m.ram (frame (leaf m r (pathOf virt)))) (virt.toNat % 4096) := by
  rw [visible, seen, if_pos hpres]

theorem storeByteAt_eq (m : Machine) (f k : ℕ) (b : UInt8) : storeByteAt m f k b =
    storeWord m f (k / 8) (fun word => storeByte (fun _ => word) k b (k / 8)) := by
  simp [storeByteAt, storeWord, storeByte]

theorem storeByteAt_self (m : Machine) (f k : ℕ) (b : UInt8) :
    (storeByteAt m f k b).ram f = storeByte (m.ram f) k b := update_self _ _ _

theorem storeByteAt_of_ne {f q : ℕ} (hq : q ≠ f) (m : Machine) (k : ℕ) (b : UInt8) :
    (storeByteAt m f k b).ram q = m.ram q := update_of_ne hq _ _

/-- In the user half an address is its page and its offset there. -/
theorem eq_of_page {a : UInt64} (ha : a < userEnd) (hvirt : virt < userEnd)
    (hpath : pathOf a = pathOf virt) (hoff : a.toNat % 4096 = virt.toNat % 4096) : a = virt := by
  have ha' : a.toNat < 2 ^ 47 := ha
  have hvirt' : virt.toNat < 2 ^ 47 := hvirt
  rw [pathOf_eq_iff, pageNumber, pageNumber] at hpath
  exact UInt64.toNat_inj.mp (by omega)

variable {mem : UInt64 → UInt8}

section

variable (h : Represents m live resv r m₁ mem) (hr : r ∈ live) (hvirt : virt < userEnd)
include h hr hvirt

theorem Represents.load (hmap : Mapped m r (virt, false)) :
    kernelLoad proc m₁ virt = some (mem virt, m₁) := by
  have hhalf := pml4Index_lt hvirt
  have hleaf := h.leaves _ (pathOf_mem hhalf)
  have hperm : kernelPermits false (leaf m₁ r (pathOf virt)) = true := by rwa [hleaf]
  have hpres : present (leaf m₁ r (pathOf virt)) = true := by
    simpa [kernelPermits] using hperm
  rw [kernelLoad, kernelAccess_of_wf h.wf hr h.cr3 hhalf, if_pos hperm, ← h.bytes virt hvirt,
    visible_of_present hpres, Option.map_some]

/-- A store through a writable mapping changes one byte. -/
theorem Represents.store (hmap : Mapped m r (virt, true)) (b : UInt8) :
    ∃ m₂, kernelStore proc m₁ virt b = some m₂ ∧
      Represents m live resv r m₂ (update mem virt b) := by
  have hhalf := pml4Index_lt hvirt
  have hl := pathOf_mem hhalf
  have hperm : kernelPermits true (leaf m₁ r (pathOf virt)) = true := by rwa [h.leaves _ hl]
  obtain ⟨hpres, hwrite⟩ : present (leaf m₁ r (pathOf virt)) = true ∧
      writable (leaf m₁ r (pathOf virt)) = true := by simpa [kernelPermits] using hperm
  have hout := (h.wf.leaves r hr _ hl hpres).2.2.2.2
  refine ⟨storeByteAt m₁ (frame (leaf m₁ r (pathOf virt))) (virt.toNat % 4096) b, ?_, ?_⟩
  · rw [kernelStore, kernelAccess_of_wf h.wf hr h.cr3 hhalf, if_pos hperm, Option.map_some]
  have hagree : ∀ t ∈ live, Agree x86 m₁.ram
      (storeByteAt m₁ (frame (leaf m₁ r (pathOf virt))) (virt.toNat % 4096) b).ram 3 256 t := by
    intro t ht
    rw [storeByteAt_eq]
    exact ForkRefinement.store_agree hout _ _ ht
  have hleaf : ∀ k ∈ userPaths, leaf (storeByteAt m₁ (frame (leaf m₁ r (pathOf virt)))
      (virt.toNat % 4096) b) r k = leaf m₁ r k := fun k hk => (hagree r hr).leafAt_eq hk
  refine ⟨?_, h.cr3, fun k hk => (hleaf k hk).trans (h.leaves k hk), fun a ha => ?_⟩
  · exact h.wf.beside ⟨rfl, rfl⟩ (fun _ hq => hq) hagree (fun _ _ _ => rfl)
      (Set.Subset.refl resv) (fun q hq => .inl hq)
  have hk := pathOf_mem (pml4Index_lt ha)
  by_cases hpath : pathOf a = pathOf virt
  · -- the page of the store: its byte is new, the others are kept
    rw [visible_of_present (by rwa [hleaf _ hk, hpath]), hleaf _ hk, hpath, storeByteAt_self,
      wordByte_storeByte]
    split
    · rename_i hoff
      rw [eq_of_page ha hvirt hpath hoff, update_self]
    · rename_i hoff
      have hne : a ≠ virt := fun heq => hoff (by rw [heq])
      rw [update_of_ne hne, ← h.bytes a ha, visible_of_present (hpath ▸ hpres), hpath]
  · have hne : a ≠ virt := fun heq => hpath (by rw [heq])
    rw [update_of_ne hne, ← h.bytes a ha, visible, visible, seen, seen, hleaf _ hk]
    by_cases hpres' : present (leaf m₁ r (pathOf a)) = true
    · have hframe :=
        h.wf.frame_ne hr hl hpres hwrite hr hk hpres' (fun heq => hpath (Prod.mk.inj heq).2)
      rw [storeByteAt_of_ne hframe]
    · simp only [hpres', if_false, Bool.false_eq_true]

end

theorem guarded (hr : r ∈ live) (proc : Process) :
    Task.Guarded (kernelLoad proc) (kernelStore proc) (Represents m live resv r) (· < userEnd)
      (Mapped m r) := by
  refine ⟨fun m₁ mem a h ha hok => h.load hr ha hok, ?_, fun m₁ mem a b h ha hok =>
    h.store hr ha hok b, ?_⟩
  · intro m₁ mem a h ha (hok : ¬kernelPermits false _ = true)
    have hhalf := pml4Index_lt ha
    rw [kernelLoad, kernelAccess_of_wf h.wf hr h.cr3 hhalf, h.leaves _ (pathOf_mem hhalf),
      if_neg hok, Option.map_none]
  · intro m₁ mem a b h ha (hok : ¬kernelPermits true _ = true)
    have hhalf := pml4Index_lt ha
    rw [kernelStore, kernelAccess_of_wf h.wf hr h.cr3 hhalf, h.leaves _ (pathOf_mem hhalf),
      if_neg hok, Option.map_none]

variable {k : Kernel} {c : Call}

/-- Over pages mapped as needed, a call refines the call over a flat memory. -/
theorem runCall_refines (proc : Process) (h : Wf m live resv) (hr : r ∈ live)
    (hcr3 : m.cr3 = pageAddr r) (hhalf : ∀ x ∈ (c.task k).accesses (visible m r), x.1 < userEnd)
    (hmap : ∀ x ∈ (c.task k).accesses (visible m r), Mapped m r x) :
    ∃ m₁, runCall k c proc m = some (((c.task k).run (visible m r)).1, m₁) ∧
      Represents m live resv r m₁ ((c.task k).run (visible m r)).2 :=
  Task.attempt_of_allowed (guarded hr proc) ⟨h, hcr3, fun _ _ => rfl, fun _ _ => rfl⟩
    (fun x hx => ⟨hhalf x hx, hmap x hx⟩)

section

variable (h : Wf m live resv) (hr : r ∈ live) (hcr3 : m.cr3 = pageAddr r)
include h hr hcr3

theorem runCall_panics (hhalf : ∀ x ∈ (c.task k).accesses (visible m r), x.1 < userEnd)
    (hmissing : ∃ x ∈ (c.task k).accesses (visible m r), ¬Mapped m r x) :
    runCall k c proc m = none :=
  Task.attempt_of_refused (guarded hr proc)
    (⟨h, hcr3, fun _ _ => rfl, fun _ _ => rfl⟩ : Represents m live resv r m (visible m r))
    hhalf hmissing

/-- Touching a page that is mapped as needed changes nothing. -/
theorem touch_mapped {x : UInt64 × Bool} (hhalf : x.1 < userEnd) (hmap : Mapped m r x) :
    touch (m, proc) x = (m, proc) := by
  have hindex := pml4Index_lt hhalf
  have hmapped' : kernelPermits x.2 (leaf m r (pathOf x.1)) = true := hmap
  simp only [kernelPermits, Bool.and_eq_true] at hmapped'
  have huser := (h.leaves r hr _ (pathOf_mem hindex) hmapped'.1).1
  have hperm : permits x.2 (leaf m r (pathOf x.1)) = true := by
    simp only [permits, Bool.and_eq_true]
    exact ⟨⟨hmapped'.1, huser⟩, hmapped'.2⟩
  have htrans := userTranslate_eq h hr hcr3 hindex x.2
  rw [if_pos hperm] at htrans
  simp [touch, htrans]

theorem touches_mapped {xs : List (UInt64 × Bool)} (hhalf : ∀ x ∈ xs, x.1 < userEnd)
    (hmap : ∀ x ∈ xs, Mapped m r x) : xs.foldl touch (m, proc) = (m, proc) := by
  induction xs with
  | nil => rfl
  | cons x xs ih =>
    obtain ⟨hx, hxs⟩ := List.forall_mem_cons.mp hhalf
    obtain ⟨hx', hxs'⟩ := List.forall_mem_cons.mp hmap
    rw [List.foldl_cons, touch_mapped h hr hcr3 hx hx']
    exact ih hxs hxs'

end

/-- A call on a buffer in the user half ends as if its pages had been touched before exactly if
all are mapped already, those it stores to as writable. -/
theorem syscall_completes_iff (h : Wf m live resv) (hr : r ∈ live) (hcr3 : m.cr3 = pageAddr r)
    (k : Kernel) (c : Call) (proc : Process)
    (hhalf : Within (fun x => x.1 < userEnd) k (visible m r) c) :
    Completes k c proc m r ↔ Within (Mapped m r) k (visible m r) c := by
  rw [← within_iff] at hhalf ⊢
  constructor
  · rintro ⟨out, hrun, _⟩
    by_contra hmissing
    push Not at hmissing
    rw [runCall_panics h hr hcr3 hhalf hmissing] at hrun
    simp at hrun
  · intro hmap
    obtain ⟨m₁, hrun, _⟩ := runCall_refines proc h hr hcr3 hhalf hmap
    refine ⟨_, hrun, fun m' proc' hsame => ?_⟩
    rw [touches_mapped h hr hcr3 hhalf hmap] at hsame
    cases hsame
    exact hrun

def zeroKernel : Kernel :=
  { caller := ⟨some ⟨fun fd => if fd = 0 then some Driver.zero.node else none, 1⟩, none⟩
    vfs := noFiles
    steps := 0
    waits := [] }

def heapProcess (z : ℕ) : Process :=
  { FirstProcess.newProcess z 0 0 with heapBase := 0x400000, heapEnd := 0x401000 }

theorem read_accesses (mem : UInt64 → UInt8) :
    ((Call.read 0 0x400000 1).task zeroKernel).accesses mem = [(0x400000, true)] := rfl

theorem read_within_half (mem : UInt64 → UInt8) :
    Within (fun x => x.1 < userEnd) zeroKernel mem (.read 0 0x400000 1) := by
  rw [← within_iff, read_accesses, List.forall_mem_singleton]
  decide

theorem exists_lazy_heap : ∃ m z resv, Wf m {z} resv ∧ m.cr3 = pageAddr z ∧ Affords m 254 ∧
    m.oom = false ∧ ∀ l ∈ userPaths, leaf m z l = 0 := by
  obtain ⟨_, m, z, resv, _, h, haff, hoom, _, hblank⟩ := FirstProcess.exists_first_process
  exact ⟨m.writeCr3 (pageAddr z), z, resv, h.wf, rfl, haff, hoom,
    fun l hl => leafAt_of_blank hblank hl⟩

theorem syscall_completes_on_mapped_heap : ∃ m z resv, Wf m {z} resv ∧ m.cr3 = pageAddr z ∧
    Completes zeroKernel (.read 0 0x400000 1) (heapProcess z) m z := by
  obtain ⟨m, z, resv, hwf, hcr3, haff, hoom, _⟩ := exists_lazy_heap
  have hz := Finset.mem_singleton_self z
  have hhalf : pml4Index (0x400000 : UInt64) < 256 := by decide
  obtain ⟨f, hmap, hleaf, _, _⟩ := mapUserPage_affords hwf.sane (hwf.tree z hz) hhalf true hoom
    (haff.mono (show 0 + 4 ≤ 254 by decide))
  have hwf' := hwf.pageMapped hz (pathOf_mem hhalf) hmap
  have hcr3' : (mapUserPage m (pageAddr z) 0x400000 (userFlags true)).cr3 = pageAddr z := hcr3
  refine ⟨_, z, resv, hwf', hcr3', ?_⟩
  rw [syscall_completes_iff hwf' hz hcr3' _ _ _ (read_within_half _), ← within_iff, read_accesses,
    List.forall_mem_singleton, Mapped, hleaf]
  obtain ⟨hpres, hwrite, _, _⟩ := hmap.leafEntry_spec hwf.sane
  simp [kernelPermits, hpres, hwrite]

/-- A user program may use its new heap page; a `read` into it panics. -/
theorem read_into_heap_panics : ∃ m z resv, Wf m {z} resv ∧ m.cr3 = pageAddr z ∧
    (∀ x ∈ ((Call.read 0 0x400000 1).task zeroKernel).accesses (visible m z),
      (fault m (heapProcess z) x.1 x.2).2.2 = .resumed) ∧
    runCall zeroKernel (.read 0 0x400000 1) (heapProcess z) m = none ∧
    ¬Completes zeroKernel (.read 0 0x400000 1) (heapProcess z) m z := by
  obtain ⟨m, z, resv, hwf, hcr3, _, _, hblank⟩ := exists_lazy_heap
  have hz := Finset.mem_singleton_self z
  have hroot : frame m.cr3 = z := by
    rw [hcr3, CopyOnWrite.frame_pageAddr (hwf.sane.lt_of_inUse (hwf.tree z hz).root)]
  have habs : leaf m z (pathOf 0x400000) = 0 := hblank _ (pathOf_mem (by decide))
  have hpanics : runCall zeroKernel (.read 0 0x400000 1) (heapProcess z) m = none := by
    apply runCall_panics hwf hz hcr3 (within_iff _ |>.mpr (read_within_half _))
    refine ⟨(0x400000, true), List.mem_singleton_self _, ?_⟩
    rw [Mapped, habs]
    decide
  refine ⟨m, z, resv, hwf, hcr3, ?_, hpanics, ?_⟩
  · rw [read_accesses, List.forall_mem_singleton]
    refine (HeapRegions.fault_resumed_iff (by rw [hroot, habs]; decide) true).mpr ?_
    simp [HeapRegions.accepts, inHeap, heapProcess]
  · rintro ⟨out, hrun, _⟩
    cases hpanics.symm.trans hrun

end NexusKernel.KernelFaults
