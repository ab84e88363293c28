import NexusKernel.ForkValidity

/-!
The regions from `sys_mmap`. It and `sys_brk` move the one variable `heap_end` and keep no record
of what was handed out. A region is usable while its bytes lie below `heap_end`, in the stack
window or in a region of the image.
-/

namespace NexusKernel.HeapRegions

open Lib.Runs PageEntries Hardware Walks Processes FirstProcess UserAccess ForkValidity

def elsewhere (proc : Process) (addr : UInt64) : Bool :=
  inStackWindow proc addr || (processFindVma proc addr).isSome

def accepts (proc : Process) (addr : UInt64) : Bool := elsewhere proc addr || inHeap proc addr

variable {m : Machine} {proc : Process} {addr : UInt64}

theorem absentPlan_kill_iff : absentPlan proc addr = .kill ↔ accepts proc addr = false := by
  unfold absentPlan accepts elsewhere regionPlan
  cases inStackWindow proc addr with
  | true => simp
  | false =>
    cases processFindVma proc addr with
    | some vma => simp
    | none => cases inHeap proc addr <;> simp

/-- From a page that is not mapped the handler returns to the program exactly if it accepts the
address. -/
theorem fault_resumed_iff (habs : present (leaf m (frame m.cr3) (pathOf addr)) = false)
    (write : Bool) : (fault m proc addr write).2.2 = .resumed ↔ accepts proc addr = true := by
  have hplan := faultPlan_absent rfl habs proc write
  rw [fault, pageFaultHandler_eq, hplan]
  cases hcase : absentPlan proc addr with
  | cow => exact absurd hcase (absentPlan_ne_cow proc addr)
  | map w =>
    have hyes : accepts proc addr ≠ false := fun hno => by
      rw [absentPlan_kill_iff.mpr hno] at hcase
      cases hcase
    simpa using hyes
  | kill => simp [absentPlan_kill_iff.mp hcase]

structure Region where
  start : ℕ
  length : ℕ

def Region.bytes (g : Region) : Set ℕ := Set.Ico g.start (g.start + g.length)

structure History where
  proc : Process
  regions : List Region

inductive Call where
  | brk (newBrk : UInt64)
  | mmap (addr length flags : UInt64)

def nonNegative (result : UInt64) : Bool := result.toNat < 2 ^ 63

def History.after (s : History) : Call → History
  | .brk newBrk => { s with proc := (sysBrk s.proc newBrk).1 }
  | .mmap addr length flags =>
      let out := sysMmap s.proc addr length flags
      { proc := out.1
        regions :=
          if nonNegative out.2 then ⟨out.2.toNat, length.toNat⟩ :: s.regions else s.regions }

/-- The heap has a size, and every byte of every region is accepted. -/
structure Usable (s : History) : Prop where
  ordered : s.proc.heapBase ≤ s.proc.heapEnd
  accepted : ∀ g ∈ s.regions, ∀ a ∈ g.bytes, a < 2 ^ 64 ∧ accepts s.proc (UInt64.ofNat a) = true

/-- What `sys_mmap(0, length)` returns meets no other region and not the heap. -/
def Separate (s : History) : Call → Prop
  | .brk _ => True
  | .mmap addr length flags =>
      let result := (sysMmap s.proc addr length flags).2
      addr = 0 → nonNegative result = true →
        (∀ g ∈ s.regions, Disjoint (⟨result.toNat, length.toNat⟩ : Region).bytes g.bytes) ∧
          Disjoint (⟨result.toNat, length.toNat⟩ : Region).bytes
            (Set.Ico s.proc.heapBase.toNat s.proc.heapEnd.toNat)

def roundUp (n : ℕ) : ℕ := (n + 4095) / 4096 * 4096

def Call.top (proc : Process) : Call → ℕ
  | .brk newBrk =>
      if newBrk = 0 ∨ newBrk < proc.heapBase then proc.heapEnd.toNat
      else roundUp newBrk.toNat % 2 ^ 64
  | .mmap addr length flags =>
      if flags &&& mapAnonymous = 0 then proc.heapEnd.toNat
      else ((if addr = 0 then proc.heapEnd else addr).toNat + roundUp length.toNat) % 2 ^ 64

def Call.region (proc : Process) : Call → Option Region
  | .brk _ => none
  | .mmap addr length flags =>
      let start := if addr = 0 then proc.heapEnd else addr
      if flags &&& mapAnonymous ≠ 0 ∧ start.toNat < 2 ^ 63 then some ⟨start.toNat, length.toNat⟩
      else none

/-- Every region that has a byte ends at the limit or below. -/
def History.Below (s : History) (limit : ℕ) : Prop :=
  ∀ g ∈ s.regions, g.length ≠ 0 → g.start + g.length ≤ limit

/-- The arguments that take nothing back: neither the rounding of the new end nor the sum wraps
around, the region asked for is not below the base of the heap, and no region handed out reaches
above the new end. -/
def Allowed (s : History) : Call → Prop
  | .brk newBrk => newBrk = 0 ∨ newBrk < s.proc.heapBase ∨
      (newBrk.toNat ≤ 2 ^ 64 - 4096 ∧ s.Below (roundUp newBrk.toNat))
  | .mmap addr length flags =>
      let start := if addr = 0 then s.proc.heapEnd else addr
      flags &&& mapAnonymous = 0 ∨ (s.proc.heapBase ≤ start ∧
        start.toNat + roundUp length.toNat < 2 ^ 64 ∧ s.Below (start.toNat + roundUp length.toNat))

def Step (s s' : History) : Prop := ∃ c, Allowed s c ∧ s' = s.after c

/-- The regions are the heap's own: none has a byte in the stack window or in a region of the
image. The call is not one whose result is a negative number. -/
structure Own (s : History) (c : Call) : Prop where
  base : 0 < s.proc.heapBase
  answered : ∀ addr length flags, c = .mmap addr length flags → flags &&& mapAnonymous ≠ 0 →
    nonNegative (sysMmap s.proc addr length flags).2 = true
  apart : ∀ g ∈ (s.after c).regions, ∀ a ∈ g.bytes, elsewhere s.proc (UInt64.ofNat a) = false

variable {s : History} {c : Call}

theorem roundUp_toNat (x : UInt64) :
    ((x + 0xFFF) &&& ~~~0xFFF).toNat = roundUp x.toNat % 2 ^ 64 := by
  rw [and_not_page, roundUp]
  change (x.toNat + 4095) % 2 ^ 64 / 4096 * 4096 = _
  omega

theorem pages_toNat (virt length : UInt64) : (virt + (length + 0xFFF) / 4096 * 4096).toNat =
      (virt.toNat + roundUp length.toNat) % 2 ^ 64 := by
  rw [UInt64.toNat_add, UInt64.toNat_mul, UInt64.toNat_div, UInt64.toNat_add, roundUp]
  change (virt.toNat + (length.toNat + 4095) % 2 ^ 64 / 4096 * 4096 % 2 ^ 64) % 2 ^ 64 = _
  omega

variable {flags : UInt64}

theorem sysMmap_eq (proc : Process) (addr length : UInt64) (hflags : flags &&& mapAnonymous ≠ 0) :
    sysMmap proc addr length flags =
      let start := if addr = 0 then proc.heapEnd else addr
      ({ proc with heapEnd := start + (length + 0xFFF) / 4096 * 4096 }, start) := by
  by_cases haddr : addr = 0
  · simp [sysMmap, hflags, haddr]
  · simp [sysMmap, hflags, haddr]

theorem sysMmap_error (proc : Process) (addr length : UInt64)
    (hflags : flags &&& mapAnonymous = 0) :
    sysMmap proc addr length flags = (proc, -enosys) ∧ nonNegative (-enosys) = false := by
  exact ⟨if_pos hflags, by decide⟩

/-- A call changes the end of the heap, nothing else of the process. -/
theorem after_proc (s : History) (c : Call) :
    ∃ e : UInt64, (s.after c).proc = { s.proc with heapEnd := e } ∧ e.toNat = c.top s.proc := by
  cases c with
  | brk newBrk =>
    simp only [History.after, sysBrk, Call.top]
    by_cases hz : newBrk = 0
    · exact ⟨s.proc.heapEnd, by simp [hz], by simp [hz]⟩
    · by_cases hlow : newBrk < s.proc.heapBase
      · exact ⟨s.proc.heapEnd, by simp [hz, hlow], by simp [hz, hlow]⟩
      · refine ⟨(newBrk + 0xFFF) &&& ~~~0xFFF, by simp [hz, hlow], ?_⟩
        rw [if_neg (by simp [hz, hlow]), roundUp_toNat]
  | mmap addr length flags =>
    simp only [History.after, Call.top]
    by_cases hflags : flags &&& mapAnonymous = 0
    · rw [(sysMmap_error s.proc addr length hflags).1, if_pos hflags]
      exact ⟨s.proc.heapEnd, rfl, rfl⟩
    · rw [sysMmap_eq s.proc addr length hflags, if_neg hflags]
      exact ⟨_, rfl, pages_toNat _ _⟩

theorem after_regions (s : History) (c : Call) :
    (s.after c).regions = (c.region s.proc).toList ++ s.regions := by
  cases c with
  | brk newBrk => rfl
  | mmap addr length flags =>
    simp only [History.after, Call.region]
    by_cases hflags : flags &&& mapAnonymous = 0
    · obtain ⟨herror, hnegative⟩ := sysMmap_error s.proc addr length hflags
      simp [herror, hnegative, hflags]
    · rw [sysMmap_eq s.proc addr length hflags]
      generalize (if addr = 0 then s.proc.heapEnd else addr) = start
      by_cases hhigh : start.toNat < 2 ^ 63
      · have hpos : nonNegative start = true := decide_eq_true hhigh
        rw [if_pos hpos, if_pos ⟨hflags, hhigh⟩]
        rfl
      · have hneg : nonNegative start = false := decide_eq_false hhigh
        have hnone : ¬ (flags &&& mapAnonymous ≠ 0 ∧ start.toNat < 2 ^ 63) :=
          fun hboth => hhigh hboth.2
        rw [if_neg (by simp [hneg]), if_neg hnone]
        rfl

theorem inHeap_iff (proc : Process) (e : UInt64) {a : ℕ} (ha : a < 2 ^ 64) :
    inHeap { proc with heapEnd := e } (UInt64.ofNat a) = true ↔
      proc.heapBase.toNat ≤ a ∧ a < e.toNat := by
  have hnat : (UInt64.ofNat a).toNat = a := by
    exact Nat.mod_eq_of_lt ha
  simp only [inHeap, Bool.and_eq_true, decide_eq_true_eq, ge_iff_le, UInt64.le_iff_toNat_le,
    UInt64.lt_iff_toNat_lt, hnat]

/-- The regions that have a byte lie in the heap. -/
structure Inside (s : History) : Prop where
  ordered : s.proc.heapBase ≤ s.proc.heapEnd
  region : ∀ g ∈ s.regions, g.length ≠ 0 →
    s.proc.heapBase.toNat ≤ g.start ∧ g.start + g.length ≤ s.proc.heapEnd.toNat

theorem Inside.usable (h : Inside s) : Usable s := by
  refine ⟨h.ordered, fun g hg a ⟨hlow, hhigh⟩ => ?_⟩
  have hregion := h.region g hg (by omega)
  have hlast := s.proc.heapEnd.toNat_lt
  have hheap := (inHeap_iff s.proc s.proc.heapEnd (a := a) (by omega)).mpr ⟨by omega, by omega⟩
  exact ⟨by omega, Bool.or_eq_true_iff.mpr (.inr hheap)⟩

/-- A region that starts at the end of the heap meets neither the heap nor what lies in it. -/
theorem Inside.separate (h : Inside s) (c : Call) : Separate s c := by
  cases c with
  | brk newBrk => trivial
  | mmap addr length flags =>
    intro haddr hpos
    by_cases hflags : flags &&& mapAnonymous = 0
    · obtain ⟨herror, hnegative⟩ := sysMmap_error s.proc addr length hflags
      rw [herror, hnegative] at hpos
      cases hpos
    · rw [sysMmap_eq s.proc addr length hflags]
      simp only [haddr, if_true]
      refine ⟨fun g hg => ?_, ?_⟩
      · rw [Set.disjoint_left]
        rintro a ⟨ha, -⟩ ⟨hlow, hhigh⟩
        have hregion := h.region g hg (by omega)
        dsimp only at ha
        omega
      · rw [Set.disjoint_left]
        rintro a ⟨ha, -⟩ ⟨-, hheap⟩
        exact absurd ha (Nat.not_le.mpr hheap)

theorem le_roundUp (n : ℕ) : n ≤ roundUp n := by
  unfold roundUp
  omega

theorem Inside.top (h : Inside s) (hallowed : Allowed s c) :
    s.proc.heapBase.toNat ≤ c.top s.proc ∧ s.Below (c.top s.proc) ∧
      ∀ g ∈ c.region s.proc, s.proc.heapBase.toNat ≤ g.start ∧
        g.start + g.length ≤ c.top s.proc := by
  have hordered := UInt64.le_iff_toNat_le.mp h.ordered
  have hbelow : s.Below s.proc.heapEnd.toNat := fun g hg hlen => (h.region g hg hlen).2
  cases c with
  | brk newBrk =>
    simp only [Call.top, Call.region]
    refine ⟨?_, ?_, fun g hg => absurd hg (by simp)⟩
    all_goals
      split
      · assumption
      rename_i hserv
      obtain ⟨hz, hlow⟩ := not_or.mp hserv
      obtain ⟨hfits, hends⟩ := (hallowed.resolve_left hz).resolve_left hlow
      have hround : roundUp newBrk.toNat % 2 ^ 64 = roundUp newBrk.toNat := by
        unfold roundUp
        omega
      rw [hround]
    · exact (UInt64.le_iff_toNat_le.mp (UInt64.not_lt.mp hlow)).trans (le_roundUp _)
    · exact hends
  | mmap addr length flags =>
    simp only [Call.top, Call.region]
    by_cases hflags : flags &&& mapAnonymous = 0
    · simp only [hflags, if_true]
      exact ⟨hordered, hbelow, fun g hg => absurd hg (by simp)⟩
    · obtain ⟨hbase, hfits, hends⟩ := hallowed.resolve_left hflags
      rw [if_neg hflags, Nat.mod_eq_of_lt hfits]
      have hround := le_roundUp length.toNat
      have hlow := UInt64.le_iff_toNat_le.mp hbase
      generalize (if addr = 0 then s.proc.heapEnd else addr) = start at *
      refine ⟨hlow.trans (Nat.le_add_right _ _), hends, fun g hg => ?_⟩
      split at hg
      · obtain rfl := Option.mem_some_iff.mp hg
        exact ⟨hlow, Nat.add_le_add_left hround _⟩
      · cases hg

theorem Inside.after (h : Inside s) (hallowed : Allowed s c) : Inside (s.after c) := by
  obtain ⟨e, hproc, hend⟩ := after_proc s c
  obtain ⟨hbase, hlow, hnew⟩ := h.top hallowed
  rw [← hend] at hbase hlow hnew
  constructor
  · rw [hproc]
    exact UInt64.le_iff_toNat_le.mpr hbase
  · intro g hg hlen
    rw [hproc]
    rw [after_regions, List.mem_append, Option.mem_toList] at hg
    rcases hg with hg | hg
    · exact hnew g hg
    · exact ⟨(h.region g hg hlen).1, hlow g hg hlen⟩

/-- Where a region is accepted as part of the heap only, its last byte lies below the new end. -/
theorem Own.inside (hown : Own s c) (h : Usable (s.after c)) : ∀ g ∈ (s.after c).regions,
    g.length ≠ 0 → s.proc.heapBase.toNat ≤ g.start ∧ g.start + g.length ≤ c.top s.proc := by
  obtain ⟨e, hproc, hend⟩ := after_proc s c
  intro g hg hlen
  have hcovered : ∀ a ∈ g.bytes, s.proc.heapBase.toNat ≤ a ∧ a < c.top s.proc := by
    intro a ha
    obtain ⟨hlt, haccepts⟩ := h.accepted g hg a ha
    rw [hproc, accepts, Bool.or_eq_true] at haccepts
    rw [← hend]
    refine (inHeap_iff s.proc e hlt).mp (haccepts.resolve_left fun helse => ?_)
    exact absurd (helse.symm.trans (hown.apart g hg a ha)) (by decide)
  have hfirst := hcovered g.start ⟨le_rfl, by omega⟩
  have hlast := hcovered (g.start + g.length - 1) ⟨by omega, by omega⟩
  omega

theorem Own.allowed (hown : Own s c) (h : Usable (s.after c)) : Allowed s c := by
  obtain ⟨e, hproc, hend⟩ := after_proc s c
  have hin := hown.inside h
  have hordered := h.ordered
  have hpos : 0 < s.proc.heapBase.toNat := UInt64.lt_iff_toNat_lt.mp hown.base
  rw [after_regions] at hin
  rw [hproc, UInt64.le_iff_toNat_le, hend] at hordered
  change s.proc.heapBase.toNat ≤ _ at hordered
  have hlow : s.Below (c.top s.proc) := fun g hg hlen =>
    (hin g (List.mem_append_right _ hg) hlen).2
  cases c with
  | brk newBrk =>
    by_cases hserv : newBrk = 0 ∨ newBrk < s.proc.heapBase
    · exact hserv.imp_right .inl
    · simp only [Call.top, if_neg hserv] at hordered hlow
      have hlt := newBrk.toNat_lt
      have hround : newBrk.toNat ≤ 2 ^ 64 - 4096 ∧
          roundUp newBrk.toNat % 2 ^ 64 = roundUp newBrk.toNat := by
        unfold roundUp at hordered ⊢
        omega
      exact .inr (.inr ⟨hround.1, hround.2 ▸ hlow⟩)
  | mmap addr length flags =>
    by_cases hflags : flags &&& mapAnonymous = 0
    · exact .inl hflags
    refine .inr ?_
    have hpositive := hown.answered addr length flags rfl hflags
    rw [sysMmap_eq s.proc addr length hflags] at hpositive
    simp only [Call.top, Call.region, if_neg hflags] at hordered hlow hin
    generalize (if addr = 0 then s.proc.heapEnd else addr) = start at *
    have hst : start.toNat < 2 ^ 63 := of_decide_eq_true hpositive
    rw [if_pos ⟨hflags, hst⟩] at hin
    have hnew := hin ⟨start.toNat, length.toNat⟩ (List.mem_append_left _ (by simp))
    have hlen := length.toNat_lt
    dsimp only at hnew
    -- a sum that wraps around is not behind a region with a byte
    have hfits : s.proc.heapBase.toNat ≤ start.toNat ∧
        start.toNat + roundUp length.toNat < 2 ^ 64 := by
      unfold roundUp at hordered hnew ⊢
      omega
    exact ⟨UInt64.le_iff_toNat_le.mpr hfits.1, hfits.2, Nat.mod_eq_of_lt hfits.2 ▸ hlow⟩

/-- Over any calls that meet the condition the heap has a size, every region stays usable and a new
one is apart from the others. One more such call leaves all that so, and where the regions are the
heap's own, no other call does. -/
theorem heap_regions_usable (hst : proc.heapBase ≤ proc.heapEnd)
    (hrun : Reachable Step ⟨proc, []⟩ s) :
    Usable s ∧ ∀ c, Separate s c ∧ (Allowed s c → Usable (s.after c)) ∧
      (Own s c → (Usable (s.after c) ↔ Allowed s c)) := by
  have hfirst : Inside ⟨proc, []⟩ := ⟨hst, fun g hg => absurd hg (List.not_mem_nil)⟩
  have hin : Inside s := by
    refine hrun.invariant Inside ?_ hfirst
    rintro a b ha ⟨c, hallowed, rfl⟩
    exact ha.after hallowed
  have hafter : ∀ c, Allowed s c → Usable (s.after c) := fun c hc => (hin.after hc).usable
  exact ⟨hin.usable, fun c => ⟨hin.separate c, hafter c, fun hown => ⟨hown.allowed, hafter c⟩⟩⟩

def heapProcess : Process := { newProcess 200 0 0 with heapBase := 0x402000, heapEnd := 0x402000 }

def mapOne : Call := .mmap 0 0x1000 0x20

def mapAt : Call := .mmap 0x500000 0x1000 0x20

theorem heap_regions_usable_three :
    ∃ s, Reachable Step ⟨heapProcess, []⟩ s ∧ s.proc.heapEnd = 0x501000 ∧
      s.regions = [⟨0x500000, 0x1000⟩, ⟨0x402000, 0x1000⟩] ∧ Usable s := by
  have hrun : Reachable Step ⟨heapProcess, []⟩
      ((⟨heapProcess, []⟩ : History).after mapOne |>.after (.brk 0x403800) |>.after mapAt) := by
    refine .tail (.tail (.single ⟨mapOne, .inr ⟨by decide, by decide, ?_⟩, rfl⟩)
      ⟨.brk 0x403800, .inr (.inr ⟨by decide, ?_⟩), rfl⟩)
      ⟨mapAt, .inr ⟨by decide, by decide, ?_⟩, rfl⟩
    all_goals
      unfold History.Below
      decide
  exact ⟨_, hrun, rfl, rfl, (heap_regions_usable (by decide) hrun).1⟩

/-- `sys_brk` takes a region back, and the next `sys_mmap` returns it again; a region below the
image leaves the heap without a size. -/
theorem brk_takes_region_back :
    let s := (⟨heapProcess, []⟩ : History).after mapOne
    let t := s.after (.brk 0x402000)
    let u := t.after (.mmap 0x1000 0x1000 0x20)
    heapProcess.heapBase ≤ heapProcess.heapEnd ∧ s.regions = [⟨0x402000, 0x1000⟩] ∧
      accepts t.proc 0x402000 = false ∧ ¬ Separate t mapOne ∧
        ¬ u.proc.heapBase ≤ u.proc.heapEnd := by
  refine ⟨by decide, rfl, by decide, fun h => ?_, by decide⟩
  have hdisj := (h rfl (by decide)).1 ⟨0x402000, 0x1000⟩ (List.mem_singleton_self _)
  have hmem : 0x402000 ∈ (⟨0x402000, 0x1000⟩ : Region).bytes := ⟨le_rfl, by decide⟩
  exact Set.disjoint_left.mp hdisj hmem hmem

end NexusKernel.HeapRegions
