import NexusKernel.Processes
import NexusKernel.UserPages

/-!
Reads and writes of user programs. The hardware lets an access pass if every entry on the way
permits it; otherwise a page fault is raised, and the access is tried again when the handler
returns. The user half has no large pages. A store is a function on one word of a page, since it
may change only some of its bytes.
-/

namespace NexusKernel.UserAccess

open Lib.TableTree PhysicalMemory PageAllocation PageEntries Hardware
open PageSupply Vmm Walks AddressSpaces CopyOnWrite UserPages Processes

def permits (write : Bool) (e : UInt64) : Bool := present e && user e && (!write || writable e)

def translateAt (write : Bool) (ram : Store UInt64) : ℕ → List ℕ → Option ℕ
  | _, [] => none
  | p, [i] => if permits write (ram p i) then some (frame (ram p i)) else none
  | p, i :: j :: rest =>
      if permits write (ram p i) then translateAt write ram (frame (ram p i)) (j :: rest) else none

def userTranslate (m : Machine) (virt : UInt64) (write : Bool) : Option ℕ :=
  translateAt write m.ram (frame m.cr3) (pathOf virt)

def wordIndex (virt : UInt64) : ℕ := ((virt &&& 0xFFF) / 8).toNat

def storeWord (m : Machine) (f i : ℕ) (change : UInt64 → UInt64) : Machine :=
  { m with ram := Function.update m.ram f (Function.update (m.ram f) i (change (m.ram f i))) }

def fault (m : Machine) (proc : Process) (virt : UInt64) (write : Bool) :
    Machine × Process × FaultOutcome :=
  pageFaultHandler m proc virt (userError (userTranslate m virt false).isSome write)

def userRead (m : Machine) (proc : Process) (virt : UInt64) : Machine × Option UInt64 :=
  match userTranslate m virt false with
  | some f => (m, some (m.ram f (wordIndex virt)))
  | none =>
      match fault m proc virt false with
      | (m, _, .resumed) =>
          (m, (userTranslate m virt false).map (fun f => m.ram f (wordIndex virt)))
      | (m, _, _) => (m, none)

def userWrite (m : Machine) (proc : Process) (virt : UInt64) (change : UInt64 → UInt64) : Machine :=
  match userTranslate m virt true with
  | some f => storeWord m f (wordIndex virt) change
  | none =>
      match fault m proc virt true with
      | (m, _, .resumed) =>
          match userTranslate m virt true with
          | some f => storeWord m f (wordIndex virt) change
          | none => m
      | (m, _, _) => m

variable {m m' : Machine} {live : Finset ℕ} {resv : Set ℕ} {s s' : System} {proc : Process}
variable {n w p r t : ℕ} {l : List ℕ} {virt : UInt64} {write : Bool}

def walkAt (check : UInt64 → Bool) (ram : Store UInt64) : ℕ → List ℕ → Option ℕ
  | _, [] => none
  | p, [i] => if check (ram p i) then some (frame (ram p i)) else none
  | p, i :: j :: rest =>
      if check (ram p i) then walkAt check ram (frame (ram p i)) (j :: rest) else none

theorem translateAt_eq_walkAt (write : Bool) (ram : Store UInt64) (p : ℕ) (l : List ℕ) :
    translateAt write ram p l = walkAt (permits write) ram p l := by
  induction l generalizing p with
  | nil => rfl
  | cons i k ih =>
    cases k with
    | nil => rfl
    | cons j rest =>
      rw [translateAt, walkAt, ih]

/-- In a tree of the kernel only the leaf can refuse an access: other entries are writable and for
users. -/
theorem walkAt_eq {check : UInt64 → Bool} (hpres : ∀ e, check e = true → present e = true)
    (hcheck : ∀ e, present e = true → user e = true → writable e = true → check e = true)
    (htree : TreeOk m n w p) (hl : l ∈ paths x86 n w) :
    walkAt check m.ram p l = if check (leaf m p l) then some (frame (leaf m p l)) else none := by
  induction n generalizing w p l with
  | zero =>
    obtain ⟨i, _, rfl⟩ := mem_paths_zero.mp hl
    rfl
  | succ n ih =>
    obtain ⟨i, k, hi, hk, rfl⟩ := mem_paths_succ.mp hl
    have hstep : walkAt check m.ram p (i :: k) =
        if check (m.ram p i) then walkAt check m.ram (frame (m.ram p i)) k else none := by
      cases k with
      | nil => exact absurd rfl (paths_ne_nil hk)
      | cons j rest => rfl
    rw [hstep]
    cases hc : x86.next (m.ram p i) with
    | none =>
      have href : check (m.ram p i) ≠ true := fun h =>
        Bool.noConfusion ((next_eq_none.mp hc).symm.trans (hpres _ h))
      rw [leaf_cons_none (paths_ne_nil hk) hc, if_neg href, if_neg]
      exact fun h => absurd (hpres 0 h) (by decide)
    | some c =>
      obtain ⟨hp, hframe⟩ := next_eq_some.mp hc
      obtain ⟨huser, hwr⟩ := (htree.proper.1 i c hi hc).1
      rw [leaf_cons_some (paths_ne_nil hk) hc, if_pos (hcheck _ hp huser hwr), hframe]
      exact ih (htree.child hi hc) hk

theorem translateAt_eq (htree : TreeOk m n w p) (hl : l ∈ paths x86 n w) (write : Bool) :
    translateAt write m.ram p l =
      if permits write (leaf m p l) then some (frame (leaf m p l)) else none := by
  rw [translateAt_eq_walkAt]
  apply walkAt_eq _ _ htree hl
  · intro e h
    simp only [permits, Bool.and_eq_true] at h
    exact h.1.1
  · intro e hp hu hw
    simp [permits, hp, hu, hw]

theorem userTranslate_of_tree (hs : Sane m) (htree : TreeOk m 3 256 r) (hcr3 : m.cr3 = pageAddr r)
    (hvirt : pml4Index virt < 256) (write : Bool) : userTranslate m virt write =
    if permits write (leaf m r (pathOf virt)) then some (frame (leaf m r (pathOf virt)))
    else none := by
  have hroot : frame m.cr3 = r := by rw [hcr3, frame_pageAddr (hs.lt_of_inUse htree.root)]
  rw [userTranslate, hroot]
  exact translateAt_eq htree (pathOf_mem hvirt) write

section

variable (h : Wf m live resv) (hr : r ∈ live) (hcr3 : m.cr3 = pageAddr r)
  (hvirt : pml4Index virt < 256)
include h hr hcr3 hvirt

theorem userTranslate_eq (write : Bool) : userTranslate m virt write =
    if permits write (leaf m r (pathOf virt)) then some (frame (leaf m r (pathOf virt)))
    else none :=
  userTranslate_of_tree h.sane (h.tree r hr) hcr3 hvirt write

/-- A mapped page that refuses an access is one that copy-on-write would make writable. -/
theorem cow_of_refused (hpres : present (leaf m r (pathOf virt)) = true)
    (href : permits write (leaf m r (pathOf virt)) = false) :
    (write && isCowPage m virt) = true := by
  have huser := (h.leaves r hr _ (pathOf_mem hvirt) hpres).1
  have hroot : frame m.cr3 = r := by
    rw [hcr3, frame_pageAddr (h.sane.lt_of_inUse (h.tree r hr).root)]
  rw [isCowPage_eq, hroot]
  simp only [permits, hpres, huser, Bool.true_and, Bool.or_eq_false_iff, Bool.not_eq_false'] at href
  simp [href, hpres, huser]

end

theorem pml4Index_pageBase (virt : UInt64) : pml4Index (pageBase virt) = pml4Index virt :=
  (List.cons.inj (pathOf_pageBase virt)).1

theorem fault_cr3 (m : Machine) (proc : Process) (virt : UInt64) (write : Bool) :
    (fault m proc virt write).1.cr3 = m.cr3 := by
  unfold fault
  rw [pageFaultHandler_eq]
  cases faultPlan m proc virt write with
  | cow =>
    unfold cowHandleFault
    dsimp only
    split <;> rfl
  | map => rfl
  | kill => rfl

section

variable (h : Wf m live resv) (hr : r ∈ live) (hcr3 : m.cr3 = pageAddr r)
  (hproc : proc.cr3 = pageAddr r) (hvirt : pml4Index virt < 256)
include h hr hcr3 hproc hvirt

/-- The handler kills the process or performs one operation on user pages, and maps pages only
where none is. -/
theorem fault_op (ds : List Bool) (href : permits write (leaf m r (pathOf virt)) = false) :
    (fault (denying m ds) proc virt write).1 = denying m ds ∨
      Op unmappedOnly ⟨m, live⟩ ⟨(fault (denying m ds) proc virt write).1, live⟩ := by
  have h' := h.deny ds
  unfold fault
  rw [pageFaultHandler_eq]
  cases hplan : faultPlan (denying m ds) proc virt write with
  | cow =>
    rw [hproc]
    exact .inr (Op.cowHandleFault ds r virt hr hcr3 hvirt)
  | kill => exact .inl rfl
  | map write' =>
    have habs : present (leaf m r (pathOf virt)) = false := by
      by_contra hpres
      rw [Bool.not_eq_false] at hpres
      have hcow := cow_of_refused h' hr hcr3 hvirt hpres href
      simp [faultPlan, hcow] at hplan
    rw [hproc]
    refine .inr (Op.mapUserPage ds r (pageBase virt) write' hr ?_ ?_)
    · rwa [pml4Index_pageBase]
    · change present (leaf m r (pathOf (pageBase virt))) = false
      rwa [pathOf_pageBase]

/-- Unless memory runs out, a write fault on a mapped page makes it writable. -/
theorem fault_grants (hpres : present (leaf m r (pathOf virt)) = true)
    (href : permits true (leaf m r (pathOf virt)) = false)
    (hoom : (fault m proc virt true).1.oom = false) : (fault m proc virt true).2.2 = .resumed ∧
      permits true (leaf (fault m proc virt true).1 r (pathOf virt)) = true := by
  have hl := pathOf_mem hvirt
  have hcow := cow_of_refused h hr hcr3 hvirt hpres href
  have hplan : faultPlan m proc virt true = .cow := by
    simp [faultPlan, hcow]
  unfold fault at hoom ⊢
  rw [pageFaultHandler_eq, hplan] at hoom ⊢
  refine ⟨rfl, ?_⟩
  rw [hproc] at hoom ⊢
  obtain ⟨_, huse, hne, _⟩ := h.leaves r hr _ hl hpres
  have hout := cowHandleFault_cases h.sane (h.tree r hr) hcr3 hvirt fun _ => ⟨hne, huse⟩
  generalize cowHandleFault m (pageAddr r) virt = m₁ at hoom hout ⊢
  cases hout with
  | absent habs => cases habs.symm.trans hpres
  | granted m' _ _ _ hmap _ =>
    obtain ⟨hp, hw, hu, _⟩ := withWrite_spec (leaf m r (pathOf virt))
    have huser := (h.leaves r hr _ hl hpres).1
    rw [hmap.done hpres]
    simp only [permits, hp, hw, hu, huser, Bool.and_true, Bool.not_true, Bool.or_true]
    exact hpres
  | refused m' _ href => cases hoom.symm.trans href.oom
  | copied m' f _ _ hmap _ =>
    obtain ⟨hp, hw, hu, _⟩ := hmap.leafEntry_spec h.sane
    change permits true (leaf m' r (pathOf virt)) = true
    rw [hmap.done hpres]
    simp [permits, hp, hw, hu]

end

/-- An operation that changes, among pages in use, only tables of `r` leaves every user page
alone. -/
theorem page_kept (h : Wf m live resv) (hr : r ∈ live) (ht : t ∈ live) (hl : l ∈ userPaths)
    (hpres : present (leaf m t l) = true) (helse : ∀ q, InUse m.pmm q → q ∉ userTables m r →
      m'.ram q = m.ram q) : m'.ram (frame (leaf m t l)) = m.ram (frame (leaf m t l)) := by
  obtain ⟨_, huse, _, _, hout⟩ := h.leaves t ht l hl hpres
  exact helse _ huse (hout r hr)

/-- A mapped page keeps its contents in an operation that maps pages only where none is mapped. -/
def Keeps (m : Machine) (t : ℕ) (l : List ℕ) (m' : Machine) : Prop :=
  present (leaf m' t l) = true ∧ m'.ram (frame (leaf m' t l)) = m.ram (frame (leaf m t l))

theorem keeps_of_leaf (hpres : present (leaf m t l) = true) (hleaf : leaf m' t l = leaf m t l)
    (hpage : m'.ram (frame (leaf m t l)) = m.ram (frame (leaf m t l))) : Keeps m t l m' := by
  rw [Keeps, hleaf]
  exact ⟨hpres, hpage⟩

theorem cow_keeps {k : List ℕ} (h : Wf m live resv) (hr : r ∈ live) (ht : t ∈ live)
    (hk : k ∈ userPaths) (hpres : present (leaf m t k) = true) (hcow : CowOutcome m r l m') :
    Keeps m t k m' := by
  cases hcow with
  | absent => exact ⟨hpres, rfl⟩
  | granted _ hold _ _ hmap _ =>
    have hpage := page_kept h hr ht hk hpres hmap.elsewhere
    by_cases hsame : (t, k) = (r, l)
    · obtain ⟨rfl, rfl⟩ := Prod.mk.inj hsame
      obtain ⟨hp, _, _, hf⟩ := withWrite_spec (leaf m t k)
      rw [Keeps, hmap.done hold, hp, hf]
      exact ⟨hpres, hpage⟩
    · exact keeps_of_leaf hpres (h.leaf_other hr hmap.elsewhere hmap.leaves
        (mem_slots.mpr ⟨ht, hk⟩) hsame) hpage
  | refused _ _ href =>
    apply keeps_of_leaf hpres
    · simp only [leaf, href.ram]
    · rw [href.ram]
  | copied m₁ f hold _ hmap hcopy =>
    by_cases hsame : (t, k) = (r, l)
    · obtain ⟨rfl, rfl⟩ := Prod.mk.inj hsame
      obtain ⟨hp, _, _, hf⟩ := hmap.leafEntry_spec h.sane
      have hdone : leaf (m₁.pmmPageUnref (leaf m t k &&& addrMask)) t k =
        leafEntry (pageAddr f) (userFlags true) := hmap.done hold
      rw [Keeps, hdone, hp, hf]
      exact ⟨rfl, hcopy⟩
    · exact keeps_of_leaf hpres (h.leaf_other hr hmap.elsewhere hmap.leaves
        (mem_slots.mpr ⟨ht, hk⟩) hsame) (page_kept h hr ht hk hpres hmap.elsewhere)

theorem effect_keeps (h : Wf s.machine s.live resv) (heff : Effect unmappedOnly s s')
    (ht : t ∈ s.live) (hl : l ∈ userPaths) (hpres : present (leaf s.machine t l) = true) :
    Keeps s.machine t l s'.machine := by
  cases heff with
  | same m' hram _ =>
    apply keeps_of_leaf hpres
    · simp only [leaf, hram]
    · rw [hram]
  | created ds z m' hc =>
    apply keeps_of_leaf hpres
    · exact hc.old_leaf (h.deny ds) ht hl
    · apply hc.other
      intro heq
      have huse := (h.leaves t ht l hl hpres).2.1
      rw [heq] at huse
      exact hc.free.not_inUse huse
  | mapped ds r virt write f m' hr hhalf habs hmap =>
    apply keeps_of_leaf hpres
    · apply (h.deny ds).leaf_other hr hmap.elsewhere hmap.leaves (mem_slots.mpr ⟨ht, hl⟩)
      intro hsame
      cases hsame
      cases hpres.symm.trans habs
    · exact page_kept (m := denying s.machine ds)
        (h.deny ds) hr ht hl hpres hmap.elsewhere
  | cloned ds r z m' hr _ hc =>
    have hpage := page_kept (h.deny ds) hr ht hl hpres hc.elsewhere
    rcases hc.old_leaf (h.deny ds) hr (mem_slots.mpr ⟨ht, hl⟩) with hleaf | hleaf
    · exact keeps_of_leaf hpres hleaf hpage
    · obtain ⟨hp, _, hf, _⟩ := Cloning.cowEntry_spec (leaf s.machine t l)
      change leaf m' t l = Cloning.cowEntry (leaf s.machine t l) at hleaf
      rw [Keeps, hleaf, hp, hf]
      exact ⟨hpres, hpage⟩
  | cow ds r virt m' hr hhalf hcow =>
    exact cow_keeps (m := denying s.machine ds) (h.deny ds) hr ht hl hpres hcow
  | destroyed r m' hr hd =>
    apply keeps_of_leaf hpres
    · simp only [leaf, hd.ram]
    · rw [hd.ram]

/-! ### Growth of the stack -/

structure UserFault where
  machine : Machine
  addr : UInt64
  present : Bool
  write : Bool

def UserFault.after (proc : Process) (f : UserFault) : Process :=
  (pageFaultHandler f.machine proc f.addr (userError f.present f.write)).2.1

/-- The stack reaches down to a page boundary of its window. -/
structure StackBounded (top : UInt64) (proc : Process) : Prop where
  start : proc.stackTopVirt = top
  aligned : proc.stackLimitVirt.toNat % 4096 = 0
  low : top - procUserStackMax ≤ proc.stackLimitVirt

theorem StackBounded.after {top : UInt64} (htop : top.toNat % 4096 = 0)
    (hmax : procUserStackMax ≤ top) (h : StackBounded top proc) (f : UserFault) :
    StackBounded top (f.after proc) ∧ (f.after proc).stackLimitVirt ≤ proc.stackLimitVirt := by
  unfold UserFault.after
  rw [pageFaultHandler_eq]
  cases faultPlan f.machine proc f.addr f.write with
  | cow => exact ⟨h, UInt64.le_refl _⟩
  | kill => exact ⟨⟨h.start, h.aligned, h.low⟩, UInt64.le_refl _⟩
  | map w =>
    dsimp only
    unfold afterMap
    split
    · rename_i hgrow
      simp only [growsStack, inStackWindow, Bool.and_eq_true, decide_eq_true_eq, h.start] at hgrow
      obtain ⟨⟨-, hlow⟩, hlt⟩ := hgrow
      have hbase := pageBase_toNat f.addr
      have hwindow : (top - procUserStackMax).toNat = top.toNat - 8388608 :=
        UInt64.toNat_sub_of_le _ _ hmax
      rw [ge_iff_le, UInt64.le_iff_toNat_le] at hlow
      rw [UInt64.lt_iff_toNat_lt] at hlt
      exact ⟨⟨h.start, by dsimp only; omega, UInt64.le_iff_toNat_le.mpr (by dsimp only; omega)⟩,
        UInt64.le_iff_toNat_le.mpr (by dsimp only; omega)⟩
    · exact ⟨h, UInt64.le_refl _⟩

/-- A fault where nothing is mapped, outside the stack window, the regions and the heap. -/
theorem pageFaultHandler_unmapped (habs : present (leaf m (frame m.cr3) (pathOf virt)) = false)
    (hstack : inStackWindow proc virt = false) (hregions : ∀ vma ∈ proc.vmas,
      ¬ (vma.virtStart ≤ virt ∧ virt < vma.virtEnd))
    (hheap : ¬ (proc.heapBase ≤ virt ∧ virt < proc.heapEnd)) (b write : Bool) :
    pageFaultHandler m proc virt (userError b write) = (m, processExit proc 139, .killed) := by
  have hfatal : Fatal m proc virt write := by
    refine ⟨by simp [isCowPage_eq, habs], fun h => ?_, List.find?_eq_none.mpr ?_, ?_⟩
    · cases hstack.symm.trans h
    · simpa using hregions
    · simpa [inHeap] using hheap
  rw [pageFaultHandler_eq, (faultPlan_kill_iff m proc virt write).mpr hfatal]

/-- Over any faults the end of the stack stays on a page boundary, never rises and never leaves
the window. A fault where nothing is mapped nor may be kills the process and maps nothing. -/
theorem stack_growth_bounded (htop : proc.stackTopVirt.toNat % 4096 = 0)
    (hmax : procUserStackMax ≤ proc.stackTopVirt) (hlimit : proc.stackLimitVirt = proc.stackTopVirt)
    (faults : List UserFault) :
    let now := faults.foldl UserFault.after proc
    now.stackLimitVirt.toNat % 4096 = 0 ∧ proc.stackTopVirt - procUserStackMax ≤
      now.stackLimitVirt ∧
    (∀ f : UserFault, (f.after now).stackLimitVirt ≤ now.stackLimitVirt) ∧
    ∀ (m : Machine) (addr : UInt64) (write : Bool),
      present (leaf m (frame m.cr3) (pathOf addr)) = false → inStackWindow now addr = false →
        (∀ vma ∈ now.vmas, ¬ (vma.virtStart ≤ addr ∧ addr < vma.virtEnd)) →
      ¬ (now.heapBase ≤ addr ∧ addr < now.heapEnd) →
      pageFaultHandler m now addr (userError false write) = (m, processExit now 139, .killed) := by
  intro now
  have hst : StackBounded proc.stackTopVirt proc := by
    refine ⟨rfl, hlimit ▸ htop, ?_⟩
    rw [hlimit, UInt64.le_iff_toNat_le, UInt64.toNat_sub_of_le _ _ hmax]
    omega
  have hnow : StackBounded proc.stackTopVirt now :=
    List.foldlRecOn (motive := StackBounded proc.stackTopVirt) faults _ hst fun _ h f _ =>
      (h.after htop hmax f).1
  exact ⟨hnow.aligned, hnow.low, fun f => (hnow.after htop hmax f).2,
    fun _ _ write habs hstack hregions hheap =>
    pageFaultHandler_unmapped habs hstack hregions hheap false write⟩

def stackProcess : Process := ⟨0, 1, 0, .alive, 0, 0, 0, 0, 0, 0x800000, 0x800000, []⟩

theorem stack_growth_bounded_stackProcess : procUserStackMax ≤ stackProcess.stackTopVirt ∧
    ∀ faults : List UserFault,
    (faults.foldl UserFault.after stackProcess).stackLimitVirt.toNat % 4096 = 0 :=
  ⟨by decide, fun faults => (stack_growth_bounded (by decide) (by decide) rfl faults).1⟩

end NexusKernel.UserAccess
