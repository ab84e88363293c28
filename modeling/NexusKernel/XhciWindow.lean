import NexusKernel.KernelHalf

/-!
The register window of the USB controller (drivers/usb/xhci.c), mapped where the physical address
says, below the kernel half, in the address space loaded at boot. Interrupt handlers use it from
every address space.
-/

namespace NexusKernel.XhciWindow

open Lib.TableTree Lib.Loops Lib.Runs PhysicalMemory PageEntries Hardware
open PageSupply Vmm Walks Mapping AddressSpaces UserPages PageMap DebuggerWalk KernelHalf

variable {m m' : Machine} {b r n : ℕ} {V : Set UInt64} {s : System} {a : UInt64}

structure PciBar where
  address : UInt64
  size : UInt64

structure CapRegs where
  caplength : UInt8
  rtsoff : UInt32
  dboff : UInt32

structure Xhci where
  mmioVirt : UInt64
  mmioSize : UInt64
  capBase : UInt64
  opBase : UInt64
  rtBase : UInt64
  dbBase : UInt64

def mmioSize (bar : PciBar) : UInt64 := if bar.size > 0 then bar.size else 0x10000

def mmioPages (bar : PciBar) : UInt64 := (mmioSize bar + 4095) / 4096

def mmioFlags : UInt64 := pagePresent ||| pageWritable ||| pageNocache

def mmioPage (bar : PciBar) (i : ℕ) : UInt64 := bar.address + UInt64.ofNat i * 4096

/-- `xhci_init_controller` from the mapping to the base addresses. -/
def xhciInitController (m : Machine) (bar : PciBar) (regs : CapRegs) : Machine × Xhci :=
  (forUpTo (fun i m => vmmMapPage m (mmioPage bar i) (mmioPage bar i) mmioFlags)
    (mmioPages bar).toNat m,
    { mmioVirt := bar.address
      mmioSize := mmioSize bar
      capBase := bar.address
      opBase := bar.address + regs.caplength.toUInt64
      rtBase := bar.address + (regs.rtsoff &&& ~~~0x1F).toUInt64
      dbBase := bar.address + (regs.dboff &&& ~~~0x3).toUInt64 })

def xhciPortsc (port : UInt32) : UInt32 := 0x400 + port * 0x10

/-- The registers used by `xhci_irq_handler` and `xhci_process_events`, for any port, and the
doorbells. -/
def Xhci.registers (hc : Xhci) (portId slot : UInt32) : List UInt64 :=
  [hc.opBase + 0x04, hc.opBase + (xhciPortsc (portId - 1)).toUInt64, hc.rtBase + 0x20,
    hc.rtBase + 0x38,
    hc.dbBase + (slot * 4).toUInt64]

def InWindow (bar : PciBar) (a : UInt64) : Prop :=
  ∃ i < (mmioPages bar).toNat, pathOf a = pathOf (mmioPage bar i)

/-- A mapping loop not covered by large pages keeps the tree. -/
theorem mapLoop_tree (virt phys : ℕ → UInt64) (flags : UInt64) (hs : Sane m) (htree : BootTree m b)
    (hcr3 : m.cr3 = pageAddr b)
    (hopen : ∀ i < n, Unblocked plain x86 m.ram b (pathOf (virt i))) :
    let m' := forUpTo (fun i m => vmmMapPage m (virt i) (phys i) flags) n m
    Sane m' ∧ BootTree m' b ∧ m'.cr3 = pageAddr b ∧
      ∀ k ∈ paths plain 3 512, Unblocked plain x86 m'.ram b k ↔
        Unblocked plain x86 m.ram b k := by
  apply forUpTo_invariant (fun _ t => Sane t ∧ BootTree t b ∧ t.cr3 = pageAddr b ∧
    ∀ k ∈ paths plain 3 512, Unblocked plain x86 t.ram b k ↔
      Unblocked plain x86 m.ram b k)
  · exact ⟨hs, htree, hcr3, fun _ _ => Iff.rfl⟩
  · rintro i t hi ⟨hs, htree, hcr3, hsame⟩
    have hpath : pathOf (virt i) ∈ paths plain 3 512 :=
      pathOf_mem_paths rfl (pml4Index_lt _)
    have hmap := mapAt_mappedOf reads_plain (fun _ _ => trivial) (leafEntry (phys i) flags) hs
      htree hpath ((hsame _ hpath).mpr (hopen i hi))
    rw [← currentPml4_eq (hs.lt_of_inUse htree.root) hcr3] at hmap
    exact ⟨hs.grows hmap.grows, hmap.treeOf htree, hmap.grows.cr3.trans hcr3,
      fun k hk => (hmap.opens k hk).trans (hsame k hk)⟩

/-- The user half of the boot tables stays as at the first process. -/
theorem boot_userHalf (htree : BootTree m b) (h : Coherent m b V s) :
    Agree plain m.ram s.machine.ram 3 256 b := by
  apply agree_of_tables
  intro q hq
  obtain ⟨huse, hout⟩ := htree.userHalf_outside hq
  exact (h.kept q huse hout).2.1

section

variable (htree : BootTree m b) (hcr3 : m.cr3 = pageAddr b) (h : Coherent m b V s)
include htree hcr3 h

theorem boot_translation
    (hopen : Unblocked plain x86 m.ram b (pathOf a)) (hhalf : pml4Index a < 256) :
    mmuWalk (s.machine.writeCr3 (pageAddr b)) a = mmuWalk m a := by
  have hlt := h.sane.lt_of_inUse h.tree.root
  have hroot : frame (pageAddr b) = b := CopyOnWrite.frame_pageAddr hlt
  have hpath : pathOf a ∈ paths plain 3 256 := pathOf_mem_paths rfl hhalf
  have hagree := boot_userHalf htree h
  rw [mmuWalk_leaf, mmuWalk_leaf]
  · change (if present (leafAt plain s.machine.ram (frame (pageAddr b)) (pathOf a)) = true
      then some ((leafAt plain s.machine.ram (frame (pageAddr b))
        (pathOf a) &&& addrMask) |||
        (a &&& 0xFFF)) else none) = _
    rw [hcr3, hroot, hagree.leafAt_eq hpath]
  · rw [hcr3, hroot]
    exact hopen
  · change Unblocked plain x86 s.machine.ram (frame (pageAddr b)) (pathOf a)
    rw [hroot]
    exact (hagree.unblocked_iff hpath).mpr hopen

/-- A process reaches an address of the window as boot code does, or neither does, or it is a
kernel address. -/
theorem translation_eq_iff (hr : r ∈ s.live)
    (hopen : Unblocked plain x86 m.ram b (pathOf a)) :
    translation s.machine r a = translation s.machine b a ↔ 256 ≤ pml4Index a ∨
      mmuWalk m a = none := by
  have hlt := h.sane.lt_of_inUse (h.roots r hr).inUse
  by_cases hhalf : pml4Index a < 256
  · have hnone : mmuWalk (s.machine.writeCr3 (pageAddr r)) a = none := by
      rw [mmuWalk, pml4e_writeCr3 hlt, (h.roots r hr).userHalf _ hhalf]
      rfl
    have hboot := boot_translation htree hcr3 h hopen hhalf
    constructor
    · intro heq
      have hfirst := congrArg Prod.fst heq
      simp only [translation, hnone, hboot] at hfirst
      exact .inr hfirst.symm
    · rintro (hhigh | hboot₀)
      · omega
      · rw [hboot₀] at hboot
        simp only [translation, hnone, hboot, vmmGetPhys_of_none hnone, vmmGetPhys_of_none hboot]
  · refine iff_of_true ?_ (.inl (by omega))
    exact translation_congr hlt (h.sane.lt_of_inUse h.tree.root)
      ((h.roots r hr).kernelHalf _ (by omega) (pml4Index_lt a))

end

/-- The state after a run from the end of the driver's initialisation. -/
theorem window_coherent {bar : PciBar} {regs : CapRegs} {hc : Xhci} (hs : Sane m)
    (htree : BootTree m b)
    (hcr3 : m.cr3 = pageAddr b) (hopen : ∀ i < (mmioPages bar).toNat,
      Unblocked plain x86 m.ram b (pathOf (mmioPage bar i)))
    (hinit : xhciInitController m bar regs = (m', hc))
    (hclear : ∀ virt ∈ V, Clear m' b virt) (hrun : Reachable (Step b V) ⟨m', ∅⟩ s) :
    Coherent m' b V s ∧ BootTree m' b ∧ m'.cr3 = pageAddr b ∧
      ∀ a, InWindow bar a → Unblocked plain x86 m'.ram b (pathOf a) := by
  obtain rfl : _ = m' := congrArg Prod.fst hinit
  obtain ⟨hs', htree', hcr3', hsame⟩ :=
    mapLoop_tree (mmioPage bar) (mmioPage bar) mmioFlags hs htree hcr3 hopen
  refine ⟨reachable_coherent (coherent_start hs' htree'.kernelTree hclear hcr3') hrun,
    htree', hcr3', ?_⟩
  rintro a ⟨i, hi, hpath⟩
  rw [hpath]
  exact (hsame _ (pathOf_mem_paths rfl (pml4Index_lt _))).mpr (hopen i hi)

/-- After the driver has been initialised, a process made by any run reaches the
registers exactly as boot code does if each of them lies in the kernel half or is
not mapped at all. -/
theorem xhci_registers_shared_iff {bar : PciBar} {regs : CapRegs} {hc : Xhci} {portId slot : UInt32}
    (hs : Sane m) (htree : BootTree m b) (hcr3 : m.cr3 = pageAddr b)
    (hopen : ∀ i < (mmioPages bar).toNat,
      Unblocked plain x86 m.ram b (pathOf (mmioPage bar i)))
    (hinit : xhciInitController m bar regs = (m', hc)) (hin : ∀ a ∈ hc.registers portId slot,
      InWindow bar a)
    (hclear : ∀ virt ∈ V, Clear m' b virt) (hrun : Reachable (Step b V) ⟨m', ∅⟩ s)
    (hr : r ∈ s.live) :
    (∀ a ∈ hc.registers portId slot, translation s.machine r a = translation s.machine b a) ↔
      ∀ a ∈ hc.registers portId slot, 256 ≤ pml4Index a ∨ mmuWalk m' a = none := by
  obtain ⟨h, htree', hcr3', hwindow⟩ := window_coherent hs htree hcr3 hopen hinit hclear hrun
  exact forall₂_congr fun a ha => translation_eq_iff htree' hcr3' h hr (hwindow a (hin a ha))

def smallBar : PciBar := ⟨0xFEBF0000, 0x1000⟩

def smallRegs : CapRegs := ⟨0x40, 0x200, 0x300⟩

theorem blank_bootTree : BootTree blankMachine 200 := by
  refine ⟨proper_of_blank (fun _ _ => rfl), fun q hq => ?_⟩
  rw [tables_of_blank (fun _ _ => rfl)] at hq
  rw [Set.mem_singleton_iff.mp hq]
  exact ⟨by decide, (Bitmap.test_fullBytes 64 200).trans (by decide)⟩

theorem blank_unblocked (a : UInt64) :
    Unblocked plain x86 blankMachine.ram 200 (pathOf a) :=
  unblocked_of_blank (fun _ _ => rfl) rfl (pathOf_mem_paths rfl (pml4Index_lt a))

/-- With enough memory a page is mapped and a process can be made. -/
theorem mapPage_then_clone {virt phys flags : UInt64} (hs : Sane m) (htree : BootTree m b)
    (hcr3 : m.cr3 = pageAddr b) (hoom : m.oom = false) (haff : Affords m 4)
    (hopen : Unblocked plain x86 m.ram b (pathOf virt))
    (hpres : present (leafEntry phys flags) = true) :
    (∀ a, pathOf a = pathOf virt →
      (mmuWalk (vmmMapPage m virt phys flags) a).isSome = true) ∧
      ∃ z t, ∀ V, Step b V ⟨vmmMapPage m virt phys flags, ∅⟩ ⟨t, {z}⟩ := by
  have hlt := hs.lt_of_inUse htree.root
  have hpath : pathOf virt ∈ paths plain 3 512 := pathOf_mem_paths rfl (pml4Index_lt _)
  have hmap := mapAt_mappedOf reads_plain (fun _ _ => trivial)
    (leafEntry phys flags) hs htree hpath hopen
  rw [← currentPml4_eq hlt hcr3, ← vmmMapPage_eq] at hmap
  have htabs : Affords m ([pdptIndex virt, pdIndex virt, ptIndex virt].length + 1) := haff
  obtain ⟨_, hoom', hrest⟩ := mapAt_affords (leafEntry phys flags)
    (pml4Index virt) hs m.currentPml4 htabs
  change (vmmMapPage m virt phys flags).oom = m.oom at hoom'
  change Affords (vmmMapPage m virt phys flags) 1 at hrest
  generalize vmmMapPage m virt phys flags = m' at hmap hoom' hrest
  have hroot : frame m'.cr3 = b := by
    rw [hmap.grows.cr3, hcr3, CopyOnWrite.frame_pageAddr hlt]
  have hleaf : leafAt plain m'.ram b (pathOf virt) = leafEntry phys flags := by
    rcases hmap.mapped with hdone | ⟨hfailed, _⟩
    · exact hdone
    · rw [hoom', hoom] at hfailed
      exact Bool.noConfusion hfailed
  constructor
  · intro a ha
    rw [mmuWalk_leaf]
    · rw [hroot, ha, hleaf, if_pos hpres]
      rfl
    · rw [hroot, ha]
      exact (hmap.opens _ hpath).mpr hopen
  · have hs' := hs.grows hmap.grows
    rcases vmmCloneKernelSpace_cases hs' with ⟨_, href⟩ | ⟨z, haddr, hne, hmade⟩
    · exact absurd href hrest.not_refused
    · refine ⟨z, (vmmCloneKernelSpace m').1, fun V => ?_⟩
      have hstep := Step.cloneKernelSpace (b := b) (V := V) (s := ⟨m', ∅⟩)
      rw [opened_new haddr hne (hs'.lt_of_isFree hmade.free)] at hstep
      exact hstep

theorem xhciInitController_one {bar : PciBar} (hone : (mmioPages bar).toNat = 1) (m : Machine)
    (regs : CapRegs) :
    (xhciInitController m bar regs).1 = vmmMapPage m (mmioPage bar 0)
      (mmioPage bar 0) mmioFlags := by
  simp only [xhciInitController, hone, forUpTo_succ, forUpTo_zero]

/-- The driver on a machine with an empty boot address space. -/
theorem small_window :
    let m' := (xhciInitController blankMachine smallBar smallRegs).1
    (∀ a, pathOf a = pathOf (mmioPage smallBar 0) → (mmuWalk m' a).isSome = true) ∧ ∃ z t,
      ∀ V, Step 200 V ⟨m', ∅⟩ ⟨t, {z}⟩ := by
  have haff : Affords blankMachine 4 :=
    (affords_of_fullBytes rfl rfl).mono (by decide)
  rw [xhciInitController_one (by decide)]
  exact mapPage_then_clone blankMachine_sane blank_bootTree rfl rfl haff
    (blank_unblocked _) (by decide)

theorem small_registers_inside :
    ∀ a ∈ (xhciInitController blankMachine smallBar smallRegs).2.registers 1 0,
      InWindow smallBar a := by
  intro a ha
  refine ⟨0, by decide, ?_⟩
  simp only [xhciInitController, Xhci.registers, List.mem_cons, List.not_mem_nil, or_false] at ha
  rcases ha with rfl | rfl | rfl | rfl | rfl
  · decide
  · decide
  · decide
  · decide
  · decide

theorem xhci_registers_shared_iff_small : ∃ s : System, ∃ z ∈ s.live,
    ((∀ a ∈ (xhciInitController blankMachine smallBar smallRegs).2.registers 1 0,
        translation s.machine z a = translation s.machine 200 a) ↔
      ∀ a ∈ (xhciInitController blankMachine smallBar smallRegs).2.registers 1 0,
        256 ≤ pml4Index a ∨
          mmuWalk (xhciInitController blankMachine smallBar smallRegs).1 a = none) := by
  obtain ⟨_, z, t, hstep⟩ := small_window
  refine ⟨⟨t, {z}⟩, z, Finset.mem_singleton_self z, ?_⟩
  exact xhci_registers_shared_iff blankMachine_sane blank_bootTree rfl
    (fun i _ => blank_unblocked _)
    Prod.mk.eta.symm small_registers_inside (fun virt hvirt => absurd hvirt (Set.notMem_empty virt))
    (.single (hstep ∅)) (Finset.mem_singleton_self z)

/-- Boot code reaches the status register, the first process does not. -/
theorem status_register_lost :
    let a := (xhciInitController blankMachine smallBar smallRegs).2.opBase + 0x04
    a ∈ (xhciInitController blankMachine smallBar smallRegs).2.registers 1 0 ∧ ∃ s :
      System, ∃ z ∈ s.live,
        Reachable (Step 200 ∅) ⟨(xhciInitController blankMachine smallBar smallRegs).1, ∅⟩ s ∧
          (mmuWalk (s.machine.writeCr3 (pageAddr 200)) a).isSome = true ∧
          mmuWalk (s.machine.writeCr3 (pageAddr z)) a = none := by
  intro a
  have hpath : pathOf a = pathOf (mmioPage smallBar 0) := by decide
  obtain ⟨hmap, z, t, hstep⟩ := small_window
  have hrun := Relation.ReflTransGen.single (hstep ∅)
  obtain ⟨h, htree, hcr3, hwindow⟩ := window_coherent blankMachine_sane blank_bootTree rfl
    (fun i _ => blank_unblocked _) Prod.mk.eta.symm (fun virt hvirt => absurd hvirt
      (Set.notMem_empty virt))
    hrun
  have hz := h.roots z (Finset.mem_singleton_self z)
  refine ⟨List.mem_cons_self, ⟨t, {z}⟩, z, Finset.mem_singleton_self z, hrun, ?_, ?_⟩
  · rw [boot_translation htree hcr3 h (hwindow a ⟨0, by decide, hpath⟩) (by decide)]
    exact hmap a hpath
  · rw [mmuWalk, pml4e_writeCr3 (h.sane.lt_of_inUse hz.inUse), hz.userHalf _ (by decide)]
    rfl

end NexusKernel.XhciWindow
