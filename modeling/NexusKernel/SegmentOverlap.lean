import NexusKernel.SegmentBytes

/-!
Segments of one image beside each other. Each page that a segment loads is new, also where an
earlier segment has loaded its own, which is then lost. So a segment leaves those before it alone
exactly if it loads none of their pages, and what it puts over bytes of theirs that are not from
the file is what was there.
-/

namespace NexusKernel.SegmentOverlap

open Lib.Loops PhysicalMemory PageAllocation PageEntries Hardware
open Walks AddressSpaces KernelTables HeapGrowth Processes RunningProcess FirstProcess
open ElfLoader SegmentLoading SegmentBytes

def InUserHalf (p : ElfPhdr) : Prop := p.vaddr.toNat + p.memsz.toNat ≤ 2 ^ 47

def visible (m : Machine) (r : ℕ) (addr : UInt64) : UInt8 :=
  match seen m r (pathOf addr) with
  | some page => wordByte page (addr.toNat % 4096)
  | none => 0

/-- No byte of the segments has changed, and each page loaded for them is still mapped somewhere. -/
structure Harmless (before : List ElfPhdr) (r : ℕ) (m m₁ : Machine) : Prop where
  bytes : ∀ p ∈ before, ∀ k < p.memsz.toNat, visible m₁ r (byteAddr p k) =
    visible m r (byteAddr p k)
  pages : ∀ p ∈ before, ∀ i < p.filePages.toNat, present (leaf m r (pathOf (p.pageVirt i))) = true →
    ∃ l ∈ userPaths, present (leaf m₁ r l) = true ∧ frame (leaf m₁ r l) =
      frame (leaf m r (pathOf (p.pageVirt i)))

/-- The pages of `q` are none that the segments before have loaded, and agree with theirs where
they have bytes. -/
structure Spares (file : VfsNode) (before : List ElfPhdr) (q : ElfPhdr) (r : ℕ)
    (m : Machine) : Prop where
  pages : ∀ j < q.filePages.toNat, ∀ p ∈ before, ∀ i < p.filePages.toNat,
    pathOf (p.pageVirt i) ≠ pathOf (q.pageVirt j)
  bytes : ∀ j < q.filePages.toNat, ∀ p ∈ before, ∀ k < p.memsz.toNat,
    pathOf (byteAddr p k) = pathOf (q.pageVirt j) →
    visible m r (byteAddr p k) = wordByte (pageWords file q j) ((byteAddr p k).toNat % 4096)

def reached (image : Image) (before : List ElfPhdr) (m : Machine) (proc : Process) :
    (Machine × Process) × Bool :=
  forEachWhile (loadPhdr image.file) before (m.writeCr3 proc.cr3, { proc with heapBase := 0 })

variable {m m₁ : Machine} {live : Finset ℕ} {resv K : Set ℕ} {r i : ℕ} {l : List ℕ} {proc : Process}
variable {file : VfsNode} {p q : ElfPhdr} {before after : List ElfPhdr} {image : Image}

theorem InUserHalf.fileBelow (h : InUserHalf p) : FileBelow p := by
  intro j hj
  have htop : p.vaddr.toNat + p.memsz.toNat ≤ 2 ^ 47 := h
  have hnum := numPages_toNat htop
  have hpages := filePages_le p
  have hnumber := pageVirt_number p (show j < 2 ^ 64 by omega)
  rw [virtStart_toNat, pageNumber] at hnumber
  rw [pml4Index_eq]
  omega

variable {addr : UInt64}

theorem Untouched.visible (h : Untouched m r (pathOf addr) m₁) :
    visible m₁ r addr = visible m r addr := by
  rw [SegmentOverlap.visible, SegmentOverlap.visible, h.seen]

theorem Placed.visible {j : ℕ} (h : Placed file p j m r (pathOf addr)) :
    visible m r addr = wordByte (pageWords file p j) (addr.toNat % 4096) := by
  rw [SegmentOverlap.visible, h.seen]

/-- A segment that spares those before it is harmless. -/
theorem Spares.harmless (h : Spares file before q r m) (hhalf : ∀ p ∈ before, InUserHalf p)
    (hlow : ∀ p ∈ before, FileBelow p) (hi : i ≤ q.filePages.toNat)
    (hprog : Progress file q r m i m₁) : Harmless before r m m₁ := by
  constructor
  · intro p hp k hk
    rcases hprog.pages _ (pathOf_mem (byteAddr_half (hhalf p hp) hk)) with
      ⟨hsame, _⟩ | ⟨j, hj, hpath, hplaced, _⟩
    · exact Untouched.visible hsame
    · rw [Placed.visible hplaced, h.bytes j (by omega) p hp k hk hpath.symm]
  · intro p hp t ht hpres
    have hl := pathOf_mem (hlow p hp t ht)
    rcases hprog.pages _ hl with ⟨hsame, _⟩ | ⟨j, hj, hpath, _⟩
    · refine ⟨_, hl, ?_, ?_⟩
      · rw [hsame.leaf]
        exact hpres
      · rw [hsame.leaf]
    · exact absurd hpath.symm (h.pages j (by omega) p hp t ht)

theorem lastAt_of_mem (hp : p ∈ before) (hlow : ∀ p ∈ before, FileBelow p)
    (hi : i < p.filePages.toNat) : lastAt before (pathOf (p.pageVirt i)) ≠ none := by
  induction before with
  | nil => exact absurd hp List.not_mem_nil
  | cons a rest ih =>
    rw [lastAt, Ne, Option.or_eq_none_iff]
    rintro ⟨hrest, hhead⟩
    rcases List.mem_cons.mp hp with rfl | hp
    · rw [(pageAt_eq_some (hlow p hp)).mpr ⟨hi, rfl⟩] at hhead
      simp at hhead
    · exact ih hp (fun q hq => hlow q (List.mem_cons_of_mem a hq)) hrest

/-- A page mapped only where a new one is now is mapped nowhere. -/
theorem Progress.lost {n j : ℕ} (h : Progress file q r m n m₁) (hwf : Wf m live resv)
    (hr : r ∈ live)
    (hl : l ∈ userPaths) (hold : Placed file p j m r l) (hnew : ¬ InUse m.pmm (frame (leaf m₁ r l)))
    {k : List ℕ} (hk : k ∈ userPaths) (hpres : present (leaf m₁ r k) = true) :
    frame (leaf m₁ r k) ≠ frame (leaf m r l) := by
  obtain ⟨_, huse, _⟩ := hwf.leaves r hr l hl hold.present
  intro hframe
  by_cases hkl : k = l
  · rw [hkl] at hframe
    exact hnew (hframe ▸ huse)
  · rcases h.pages k hk with ⟨hsame, _⟩ | ⟨_, _, _, _, hfree⟩
    · rw [hsame.leaf] at hpres hframe
      exact hold.sole k hk hkl hpres hframe
    · exact hfree (hframe ▸ huse)

theorem Progress.placed {j : ℕ} (h : Progress file q r m q.filePages.toNat m₁)
    (hoom : m₁.oom = false) (hq : FileBelow q) (hj : j < q.filePages.toNat) :
    Placed file q j m₁ r (pathOf (q.pageVirt j)) ∧
    ¬ InUse m.pmm (frame (leaf m₁ r (pathOf (q.pageVirt j)))) := by
  rcases h.pages _ (pathOf_mem (hq j hj)) with ⟨_, hnone | hfull⟩ | ⟨t, ht, hpath, hplaced, hfree⟩
  · exact absurd rfl (hnone j hj)
  · cases hoom.symm.trans hfull
  · rw [hq.injective ht hj hpath] at hplaced
    exact ⟨hplaced, hfree⟩

/-- A segment loaded to its end without harm had spared those before it. -/
theorem Harmless.spares {m₀ : Machine} (h : Harmless before r m m₁) (hwf : Wf m live resv)
    (hr : r ∈ live) (hlow : ∀ p ∈ before, FileBelow p) (hq : FileBelow q)
    (hloads : Loads file before r m₀ m) (hprog : Progress file q r m q.filePages.toNat m₁)
    (hoom : m₁.oom = false) : Spares file before q r m := by
  constructor
  · intro j hj p hp t ht heq
    obtain ⟨_, hfree⟩ := Progress.placed hprog hoom hq hj
    rw [← heq] at hfree
    have hl := pathOf_mem (hlow p hp t ht)
    obtain ⟨_, _, _, hold, _⟩ :=
      (hloads.pages _ hl).resolve_left fun hnone => lastAt_of_mem hp hlow ht hnone.1
    obtain ⟨k, hk, hpres, hframe⟩ := h.pages p hp t ht hold.present
    exact Progress.lost hprog hwf hr hl hold hfree hk hpres hframe
  · intro j hj p hp k hk heq
    obtain ⟨hplaced, _⟩ := Progress.placed hprog hoom hq hj
    rw [← heq] at hplaced
    rw [← h.bytes p hp k hk, Placed.visible hplaced]

theorem reached_ready {n : ℕ} (h : Wf m live resv) (hr : r ∈ live) (hproc : proc.cr3 = pageAddr r)
    (hK : K ⊆ resv) (hwalk : HeapWalk K m.ram r) (hroom : HeapRoom m (4 * n))
    (hnum : before.length + 1 ≤ n) (image : Image) (hlow : ∀ p ∈ before, FileBelow p)
    (hreach : (reached image before m proc).2 = true) :
    let m' := (reached image before m proc).1.1
    (∃ resv K, Ready live r 1 m' resv K) ∧
      (m'.oom = false → Loads image.file before r (m.writeCr3 proc.cr3) m') := by
  have hready := ready_of_wf h hr hproc hK hwalk (n := before.length + 1) (hroom.mono (by omega))
  exact (hready.loads hr image.file { proc with heapBase := 0 } hlow).2 hreach

/-- In any load, a segment that spares those before it does them no harm; and if every allocation
for it succeeds, only then. -/
theorem segments_apart (hsplit : image.segments = before ++ q :: after)
    (hhalf : ∀ p ∈ image.segments, InUserHalf p) (h : Wf m live resv) (hr : r ∈ live)
    (hproc : proc.cr3 = pageAddr r) (hK : K ⊆ resv) (hwalk : HeapWalk K m.ram r)
    (hroom : HeapRoom m (4 * image.segments.length))
    (hreach : (reached image before m proc).2 = true) :
    let s := (reached image before m proc).1
    let out := loadPhdr image.file q s
    (Spares image.file before q r s.1 → Harmless before r s.1 out.1.1) ∧
      (s.1.oom = false → out.2 = true → out.1.1.oom = false →
        (Harmless before r s.1 out.1.1 ↔ Spares image.file before q r s.1)) := by
  have hlow : ∀ p ∈ image.segments, FileBelow p := fun p hp =>
    (hhalf p hp).fileBelow
  have hmem : ∀ p ∈ before, p ∈ image.segments := fun p hp => by
    rw [hsplit]
    exact List.mem_append_left _ hp
  have hq : q ∈ image.segments := by
    rw [hsplit]
    exact List.mem_append_right _ List.mem_cons_self
  obtain ⟨⟨resv₁, K₁, hready₁⟩, hloads⟩ := reached_ready h hr hproc hK hwalk hroom (by
    rw [hsplit, List.length_append, List.length_cons]
    omega) image (fun p hp => hlow p (hmem p hp)) hreach
  intro s out
  obtain ⟨_, i, hdone, hi, hprog⟩ := hready₁.segment hr image.file s.2 (hlow q hq)
  have hharmless : Spares image.file before q r s.1 → Harmless before r s.1 out.1.1 :=
    fun hspares =>
    hspares.harmless (fun p hp => hhalf p (hmem p hp)) (fun p hp => hlow p (hmem p hp)) hi hprog
  refine ⟨hharmless, fun hoom hlast hoom' => ⟨fun hno => ?_, hharmless⟩⟩
  have hwhole : i = q.filePages.toNat := hdone hlast
  rw [hwhole] at hprog
  exact hno.spares hready₁.wf hr (fun p hp => hlow p (hmem p hp)) (hlow q hq)
    (hloads hoom) hprog hoom'

def farSegment : ElfPhdr := ⟨1, 4, 180, 0x402000, 4, 4⟩

def farImage : Image := Image.ofSegments [headSegment, farSegment] [1, 2, 3, 4, 5, 6, 7, 8]

theorem farImage_segments : farImage.segments = [headSegment, farSegment] := by decide

theorem headSegment_below : FileBelow headSegment := by
  intro j hj
  have hj' : j < 1 := hj
  interval_cases j
  decide

/-- The first process with the first of the two segments loaded. -/
theorem reached_head (image : Image) {z n k : ℕ} (h : Stocked {z} resv z (n + 1) (k + 4)
      (m.writeCr3 (pageAddr z))) : (reached image [headSegment] m (newProcess z 0 0)).2 = true ∧
      Stocked {z} resv z n k (reached image [headSegment] m (newProcess z 0 0)).1.1 := by
  have hpages : headSegment.filePages.toNat = 1 := by decide
  have h' : Stocked {z} resv z (n + 1) (4 * headSegment.filePages.toNat + k)
      (m.writeCr3 (newProcess z 0 0).cr3) := by
    rw [hpages, Nat.add_comm 4 k]
    exact h
  obtain ⟨hdone, hstocked, _⟩ := h'.segment (Finset.mem_singleton_self z) image.file
    { newProcess z 0 0 with heapBase := 0 } headSegment_below
  rw [reached, forEachWhile_singleton]
  exact ⟨hdone, hstocked⟩

theorem segments_apart_far : ∃ m z, (reached farImage [headSegment] m (newProcess z 0 0)).2 = true ∧
    Harmless [headSegment] z (reached farImage [headSegment] m (newProcess z 0 0)).1.1
      (loadPhdr farImage.file farSegment (reached farImage [headSegment] m
        (newProcess z 0 0)).1).1.1 := by
  obtain ⟨K, m, z, resv, h, _, hstocked⟩ :=
    exists_stocked_process (n := 2) ⟨_, _, rfl, by decide, _, _, rfl, by decide, trivial⟩
  obtain ⟨hreach, _⟩ := reached_head farImage hstocked
  have hhalf : ∀ p ∈ farImage.segments, InUserHalf p := by
    rw [farImage_segments]
    intro p hp
    simp only [List.mem_cons, List.not_mem_nil, or_false] at hp
    rcases hp with rfl | rfl
    · exact (by decide : (0x400000 + 4 : ℕ) ≤ 2 ^ 47)
    · exact (by decide : (0x402000 + 4 : ℕ) ≤ 2 ^ 47)
  refine ⟨m, z, hreach,
    (segments_apart (farImage_segments) hhalf h.wf (Finset.mem_singleton_self z) rfl h.tables h.walk
    (h.room.mono (by rw [farImage_segments]; decide)) hreach).1 ⟨?_, ?_⟩⟩
  · intro j hj p hp i hi
    obtain rfl := List.mem_singleton.mp hp
    have hi' : i < 1 := hi
    have hj' : j < 1 := hj
    interval_cases i
    interval_cases j
    decide
  · intro j hj p hp k hk heq
    obtain rfl := List.mem_singleton.mp hp
    have hk' : k < 4 := hk
    have hj' : j < 1 := hj
    interval_cases j
    interval_cases k <;> cases heq

/-- Two segments whose bytes are apart share a page: the second takes the first's bytes away, and
its page is unmapped. -/
theorem shared_page_is_replaced : ∃ K m z resv, Running m {z} resv K z ∧
    (∀ i, i < 256 → m.ram z i = 0) ∧ sharedImage.segments = [headSegment] ++ tailSegment :: [] ∧
    headSegment.vaddr.toNat + headSegment.memsz.toNat ≤ tailSegment.vaddr.toNat ∧
    let s := (reached sharedImage [headSegment] m (newProcess z 0 0)).1
    let out := loadPhdr sharedImage.file tailSegment s
    (reached sharedImage [headSegment] m (newProcess z 0 0)).2 = true ∧ out.2 = true ∧
      visible s.1 z (byteAddr headSegment 0) = 1 ∧ visible out.1.1 z (byteAddr headSegment 0) = 0 ∧
      ∀ l ∈ userPaths, present (leaf out.1.1 z l) = true →
        frame (leaf out.1.1 z l) ≠ frame (leaf s.1 z (pathOf (byteAddr headSegment 0))) := by
  obtain ⟨K, m, z, resv, h, hblank, hstocked⟩ :=
    exists_stocked_process (n := 2) ⟨_, _, rfl, by decide, _, _, rfl, by decide, trivial⟩
  have hz := Finset.mem_singleton_self z
  obtain ⟨hreach, hstocked₁⟩ := reached_head sharedImage hstocked
  refine ⟨K, m, z, resv, h, hblank, sharedImage_segments, by decide, ?_⟩
  have hlow : ∀ p ∈ [headSegment], FileBelow p := fun p hp =>
    List.mem_singleton.mp hp ▸ headSegment_below
  have htail : FileBelow tailSegment :=
    sharedImage_below tailSegment (sharedImage_segments ▸ List.mem_cons_of_mem _ List.mem_cons_self)
  obtain ⟨⟨resv₁, K₁, hready₁⟩, hloads⟩ := reached_ready h.wf hz
    (rfl) h.tables h.walk (n := 2) h.room (by decide) sharedImage hlow hreach
  generalize reached sharedImage [headSegment] m (newProcess z 0 0) =
    t at hreach hstocked₁ hready₁ hloads ⊢
  obtain ⟨⟨m₁, proc₁⟩, going⟩ := t
  obtain ⟨hdone, hstocked₂, _⟩ :=
    Stocked.segment (k := 246) hstocked₁ hz sharedImage.file proc₁ htail
  obtain ⟨_, i, hwhole, _, hprog⟩ := hready₁.segment hz sharedImage.file proc₁ htail
  rw [hwhole hdone] at hprog
  have hl : pathOf (byteAddr headSegment 0) ∈ userPaths := pathOf_mem (by decide)
  have hlast : lastAt [headSegment] (pathOf (byteAddr headSegment 0)) =
    some (headSegment, 0) := by decide
  obtain ⟨p, j, hsome, hold, _⟩ := ((hloads hstocked₁.oom).pages _ hl).resolve_left
    (fun hnone => absurd (hlast.symm.trans hnone.1) (by simp))
  obtain ⟨rfl, rfl⟩ := Prod.mk.inj (Option.some.inj (hlast.symm.trans hsome))
  obtain ⟨hnew, hfree⟩ := Progress.placed hprog hstocked₂.oom htail (show 0 < 1 by decide)
  have hpath : pathOf (tailSegment.pageVirt 0) = pathOf (byteAddr headSegment 0) := by decide
  rw [hpath] at hnew hfree
  refine ⟨hreach, hdone, ?_, ?_, fun l hl' hpres =>
    Progress.lost hprog hready₁.wf hz hl hold hfree hl' hpres⟩
  · rw [Placed.visible hold]
    decide
  · rw [Placed.visible hnew]
    rfl

end NexusKernel.SegmentOverlap
