import NexusKernel.ElfLoader
import NexusKernel.RunningProcess

/-!
What `elf_load` leaves in the address space, page by page. A page of a segment is mapped with the
bytes of the file, whether or not one was mapped there before; no other page changes. So a page
ends with what the last segment that loads it has put there.
-/

namespace NexusKernel.SegmentLoading

open Lib.Loops Lib.TableTree PhysicalMemory PageAllocation PageEntries Hardware
  PageSupply Vmm
open Walks AddressSpaces KernelHeap KernelTables HeapGrowth Processes RunningProcess ElfLoader

def seen (m : Machine) (r : ℕ) (l : List ℕ) : Option (ℕ → UInt64) :=
  if present (leaf m r l) then some (m.ram (frame (leaf m r l))) else none

structure Untouched (m : Machine) (r : ℕ) (l : List ℕ) (m' : Machine) : Prop where
  leaf : leaf m' r l = leaf m r l
  seen : seen m' r l = seen m r l

/-- The page with the path `l` holds page `j` of a segment, and no other page of the process is
the same. -/
structure Placed (file : VfsNode) (p : ElfPhdr) (j : ℕ) (m : Machine) (r : ℕ)
    (l : List ℕ) : Prop where
  present : present (leaf m r l) = true
  seen : seen m r l = some (pageWords file p j)
  sole : ∀ k ∈ userPaths, k ≠ l → PageEntries.present (leaf m r k) = true →
    frame (leaf m r k) ≠ frame (leaf m r l)

variable {m m₁ m₂ : Machine} {live : Finset ℕ} {resv K : Set ℕ} {r n : ℕ} {k l : List ℕ}
variable {file : VfsNode} {p q : ElfPhdr} {i j : ℕ}

theorem Untouched.refl (m : Machine) (r : ℕ) (l : List ℕ) : Untouched m r l m := ⟨rfl, rfl⟩

theorem Untouched.trans (h : Untouched m r l m₁) (h' : Untouched m₁ r l m₂) : Untouched m r l m₂ :=
  ⟨h'.leaf.trans h.leaf, h'.seen.trans h.seen⟩

theorem untouched_of_leaf (hleaf : leaf m₁ r l = leaf m r l)
    (hram : present (leaf m r l) = true → m₁.ram (frame (leaf m r l)) =
      m.ram (frame (leaf m r l))) : Untouched m r l m₁ := by
  refine ⟨hleaf, ?_⟩
  unfold seen
  rw [hleaf]
  split
  · rename_i hpres
    rw [hram hpres]
  · rfl

structure Ready (live : Finset ℕ) (r n : ℕ) (m : Machine) (resv K : Set ℕ) : Prop where
  wf : Wf m live resv
  heap : HeapReady K r m
  tables : K ⊆ resv
  room : HeapRoom m (4 * n)

/-- Registering the region of a segment touches no page of the process. -/
theorem Ready.record (h : Ready live r (n + 1) m resv K) (hr : r ∈ live) :
    (∃ resv K, Ready live r n (kmalloc m 32).1 resv K) ∧
      (∀ q, InUse m.pmm q → InUse (kmalloc m 32).1.pmm q) ∧
      ∀ l ∈ userPaths, Untouched m r l (kmalloc m 32).1 := by
  obtain ⟨hcall, hroom⟩ := kmalloc_call (k := 4 * n) h.heap (h.room.mono (by omega)) 32 (by decide)
  refine ⟨⟨resv ∪ taken m (kmalloc m 32).1, K ∪ taken m (kmalloc m 32).1,
    Growth.wf hcall.growth h.wf hr h.tables, hcall.growth.ready h.heap,
    Set.union_subset_union_left _ h.tables, hroom⟩, hcall.growth.inUse, fun l hl => ?_⟩
  apply untouched_of_leaf ((Growth.agree hcall.growth h.wf hr h.tables hr).leafAt_eq hl)
  intro hpres
  obtain ⟨_, huse, _, hout, htabs⟩ := h.wf.leaves r hr l hl hpres
  apply hcall.growth.elsewhere _ huse fun hmem => hout (h.tables hmem)
  have hroot := htabs r hr
  intro heq
  rw [heq] at hroot
  exact hroot root_mem_tables

theorem Ready.refused (h : Ready live r n m resv K) (hr : r ∈ live) (href : Refused m m₁) :
    Ready live r n m₁ resv K := by
  have hwf := h.wf.of_eq href.ram href.pmm
  refine ⟨hwf, heapReady_of_wf hwf hr (href.cr3.trans h.heap.cr3) h.tables ?_, h.tables, ?_⟩
  · rw [href.ram]
    exact h.heap.walk
  · exact ⟨by rw [href.heap]; exact h.room.start, by rw [href.heap]; exact h.room.fits⟩

theorem Ready.mapped {f : ℕ} {w : Bool} (h : Ready live r n m resv K) (hr : r ∈ live)
    (hl : l ∈ userPaths) (hmap : PageMapped m r l f w m₁) : Ready live r n m₁ resv K := by
  have hwf := h.wf.pageMapped hr hl hmap
  have hheap := hmap.grows.heap
  exact ⟨hwf, heapReady_of_wf hwf hr (hmap.grows.cr3.trans h.heap.cr3) h.tables
    (HeapWalk.pageMapped h.heap.walk h.wf hr h.tables hmap), h.tables,
    ⟨hheap ▸ h.room.start, hheap ▸ h.room.fits⟩⟩

structure PageStep (file : VfsNode) (p : ElfPhdr) (j : ℕ) (r : ℕ) (m m₁ : Machine) : Prop where
  inUse : ∀ q, InUse m.pmm q → InUse m₁.pmm q
  oom : m.oom = true → m₁.oom = true
  others : ∀ k ∈ userPaths, k ≠ pathOf (p.pageVirt j) → Untouched m r k m₁
  page : (Untouched m r (pathOf (p.pageVirt j)) m₁ ∧ m₁.oom = true) ∨
    (Placed file p j m₁ r (pathOf (p.pageVirt j)) ∧
      ¬ InUse m.pmm (frame (leaf m₁ r (pathOf (p.pageVirt j)))))

theorem pageStep_of_refused (h : Refused m m₁) : PageStep file p j r m m₁ := by
  have hsame : ∀ k, Untouched m r k m₁ := fun k => by
    refine untouched_of_leaf ?_ fun _ => congrFun h.ram _
    simp only [leaf, h.ram]
  exact ⟨h.grows.inUse, h.grows.oom, fun k _ _ => hsame k, .inl ⟨hsame _, h.oom⟩⟩

theorem Ready.pageStep {f : ℕ} (h : Ready live r n m resv K) (hr : r ∈ live)
    (hmap : PageMapped m r (pathOf (p.pageVirt j)) f p.writes m₁)
    (hwords : m₁.ram f = pageWords file p j) : PageStep file p j r m m₁ := by
  have hold : ∀ k ∈ userPaths, present (leaf m r k) = true →
      InUse m.pmm (frame (leaf m r k)) ∧ m₁.ram (frame (leaf m r k)) =
        m.ram (frame (leaf m r k)) := by
    intro k hk hpres
    obtain ⟨_, huse, _, _, htabs⟩ := h.wf.leaves r hr k hk hpres
    exact ⟨huse, hmap.elsewhere _ huse (htabs r hr)⟩
  refine ⟨hmap.grows.inUse, hmap.grows.oom, fun k hk hne =>
    untouched_of_leaf (hmap.leaves k hk hne) (fun hpres => (hold k hk hpres).2), ?_⟩
  rcases hmap.mapped with hdone | ⟨hoom, hpre, hafter⟩
  · obtain ⟨hpres, _, _, hframe⟩ := hmap.leafEntry_spec h.wf.sane
    rw [← hdone] at hpres hframe
    refine .inr ⟨⟨hpres, ?_, fun k hk hne hk' => ?_⟩, ?_⟩
    · rw [seen, if_pos hpres, hframe, hwords]
    · rw [hmap.leaves k hk hne] at hk' ⊢
      rw [hframe]
      intro heq
      exact hmap.free.not_inUse (heq ▸ (hold k hk hk').1)
    · rw [hframe]
      exact hmap.free.not_inUse
  · refine .inl ⟨untouched_of_leaf (hafter.trans hpre.symm) (fun hpres => ?_), hoom⟩
    rw [hpre] at hpres
    simp at hpres

theorem Ready.page (h : Ready live r n m resv K) (hr : r ∈ live) (file : VfsNode)
    (hhalf : pml4Index (p.pageVirt j) < 256) : Ready live r n (loadPage file p j m).1 resv K ∧
      PageStep file p j r m (loadPage file p j m).1 := by
  have hl := pathOf_mem hhalf
  rcases loadPage_loaded h.wf.sane (h.wf.tree r hr) h.heap.cr3 file p j hhalf with
    ⟨_, href⟩ | ⟨_, f, hmap, hwords⟩
  · exact ⟨h.refused hr href, pageStep_of_refused href⟩
  · exact ⟨h.mapped hr hl hmap, h.pageStep hr hmap hwords⟩

def FileBelow (p : ElfPhdr) : Prop := ∀ j < p.filePages.toNat, pml4Index (p.pageVirt j) < 256

structure Progress (file : VfsNode) (p : ElfPhdr) (r : ℕ) (m : Machine) (n : ℕ)
    (m₁ : Machine) : Prop where
  inUse : ∀ q, InUse m.pmm q → InUse m₁.pmm q
  oom : m.oom = true → m₁.oom = true
  pages : ∀ k ∈ userPaths, (Untouched m r k m₁ ∧ ((∀ j < n, pathOf (p.pageVirt j) ≠ k) ∨
    m₁.oom = true)) ∨ ∃ j < n, pathOf (p.pageVirt j) = k ∧ Placed file p j m₁ r k ∧
      ¬ InUse m.pmm (frame (leaf m₁ r k))

/-- A page that was placed stays so while another is loaded. -/
theorem Placed.step (h : Placed file q i m r k) (hkeep : Untouched m r k m₁)
    (huse : InUse m.pmm (frame (leaf m r k)))
    (hothers : ∀ k' ∈ userPaths, Untouched m r k' m₁ ∨ ¬ InUse m.pmm (frame (leaf m₁ r k'))) :
    Placed file q i m₁ r k := by
  refine ⟨?_, hkeep.seen.trans h.seen, fun k' hk' hne hpres => ?_⟩
  · rw [hkeep.leaf]
    exact h.present
  · rw [hkeep.leaf]
    rcases hothers k' hk' with hsame | hfree
    · rw [hsame.leaf] at hpres ⊢
      exact h.sole k' hk' hne hpres
    · exact fun heq => hfree (heq ▸ huse)

theorem PageStep.others_or (h : PageStep file p j r m m₁) (hk : k ∈ userPaths) :
    Untouched m r k m₁ ∨ ¬ InUse m.pmm (frame (leaf m₁ r k)) := by
  by_cases heq : k = pathOf (p.pageVirt j)
  · subst k
    exact h.page.imp And.left And.right
  · exact .inl (h.others k hk heq)

theorem Progress.step (h : Progress file p r m n m₁) (hwf : Wf m₁ live resv) (hr : r ∈ live)
    (hstep : PageStep file p n r m₁ m₂) : Progress file p r m (n + 1) m₂ := by
  refine ⟨fun q hq => hstep.inUse q (h.inUse q hq), fun hoom => hstep.oom (h.oom hoom),
    fun k hk => ?_⟩
  -- what page `n` leaves alone is as the pages before have left it
  have hkeep : Untouched m₁ r k m₂ → (pathOf (p.pageVirt n) ≠ k ∨ m₂.oom = true) →
      (Untouched m r k m₂ ∧ ((∀ j < n + 1, pathOf (p.pageVirt j) ≠ k) ∨ m₂.oom = true)) ∨
      ∃ j < n + 1, pathOf (p.pageVirt j) = k ∧ Placed file p j m₂ r k ∧
        ¬ InUse m.pmm (frame (leaf m₂ r k)) := by
    intro hsame hnot
    rcases h.pages k hk with ⟨hold, hwhy⟩ | ⟨j, hj, hpath, hplaced, hfree⟩
    · refine .inl ⟨hold.trans hsame, ?_⟩
      rcases hwhy with hpaths | hoom
      · refine hnot.imp_left (fun hne j hj => ?_)
        rcases Nat.lt_succ_iff_lt_or_eq.mp hj with hj | rfl
        · exact hpaths j hj
        · exact hne
      · exact .inr (hstep.oom hoom)
    · obtain ⟨_, huse, _⟩ := hwf.leaves r hr k hk hplaced.present
      refine .inr ⟨j, Nat.lt_succ_of_lt hj, hpath,
        hplaced.step hsame huse (fun k' hk' => hstep.others_or hk'), ?_⟩
      rw [hsame.leaf]
      exact hfree
  by_cases heq : pathOf (p.pageVirt n) = k
  · subst k
    rcases hstep.page with ⟨hsame, hoom⟩ | ⟨hplaced, hfree⟩
    · exact hkeep hsame (.inr hoom)
    · exact .inr ⟨n, Nat.lt_succ_self n, rfl, hplaced, fun hu => hfree (h.inUse _ hu)⟩
  · exact hkeep (hstep.others k hk (Ne.symm heq)) (.inl heq)

/-- Loading a segment: its region is registered, its pages loaded. -/
theorem Ready.segment (h : Ready live r (n + 1) m resv K) (hr : r ∈ live) (file : VfsNode)
    (proc : Process) (hlow : FileBelow p) :
    (∃ resv K, Ready live r n (loadPhdr file p (m, proc)).1.1 resv K) ∧
    ∃ i, ((loadPhdr file p (m, proc)).2 = true → i = p.filePages.toNat) ∧
      i ≤ p.filePages.toNat ∧ Progress file p r m i (loadPhdr file p (m, proc)).1.1 := by
  obtain ⟨⟨resv₁, K₁, hready⟩, huse, hsame⟩ := h.record hr
  have hst : Progress file p r m 0 (kmalloc m 32).1 := ⟨huse, fun hoom => kmalloc_oom hoom 32,
      fun k hk => .inl ⟨hsame k hk, .inl (fun j hj => absurd hj (Nat.not_lt_zero j))⟩⟩
  obtain ⟨i, hi, hdone, hend⟩ := forWhile_counted
    (fun i t => Ready live r n t resv₁ K₁ ∧ Progress file p r m i t) ⟨hready, hst⟩
    (fun j t hj ht => by
      obtain ⟨hnext, hstep⟩ := ht.1.page hr file (hlow j hj)
      exact ⟨hnext, ht.2.step ht.1.wf hr hstep⟩)
  rw [loadPhdr_machine]
  refine ⟨⟨resv₁, K₁, hend.1⟩, i, fun hgoing => hdone ?_, hi, hend.2⟩
  simpa only [loadPhdr, processAddVma_machine] using hgoing

def pageAt (p : ElfPhdr) (l : List ℕ) : Option ℕ :=
  (List.range p.filePages.toNat).find? (fun j => pathOf (p.pageVirt j) = l)

def lastAt : List ElfPhdr → List ℕ → Option (ElfPhdr × ℕ)
  | [], _ => none
  | p :: rest, l => (lastAt rest l).or ((pageAt p l).map (fun j => (p, j)))

theorem pageVirt_number (p : ElfPhdr) (hj : j < 2 ^ 64) :
    pageNumber (p.pageVirt j) = (p.virtStart.toNat / 4096 + j) % 2 ^ 36 := by
  have hj' : (UInt64.ofNat j).toNat = j := UInt64.toNat_ofNat_of_lt' hj
  simp only [pageNumber, ElfPhdr.pageVirt, UInt64.toNat_add, UInt64.toNat_mul, hj',
    UInt64.reduceToNat]
  omega

/-- The pages of a segment in the user half do not come around. -/
theorem FileBelow.injective (h : FileBelow p) (hi : i < p.filePages.toNat)
    (hj : j < p.filePages.toNat) (heq : pathOf (p.pageVirt i) = pathOf (p.pageVirt j)) : i = j := by
  have hbound := p.filePages.toNat_lt
  have hhalf : ∀ t < p.filePages.toNat, (p.virtStart.toNat / 4096 + t) % 2 ^ 36 < 2 ^ 35 := by
    intro t ht
    have hlow := h t ht
    rw [← pageVirt_number p (by omega), pageNumber]
    rw [pml4Index_eq] at hlow
    omega
  rw [pathOf_eq_iff, pageVirt_number p (by omega), pageVirt_number p (by omega)] at heq
  by_contra hne
  -- two pages of one number are far apart, so that one between them is in the other half
  have h₀ := hhalf 0 (by omega)
  have h₁ := hhalf (2 ^ 35) (by omega)
  omega

theorem pageAt_eq_some (h : FileBelow p) :
    pageAt p l = some j ↔ j < p.filePages.toNat ∧ pathOf (p.pageVirt j) = l := by
  unfold pageAt
  constructor
  · intro hsome
    have hpath := List.find?_some hsome
    have hmem := List.mem_of_find?_eq_some hsome
    exact ⟨List.mem_range.mp hmem, of_decide_eq_true hpath⟩
  · rintro ⟨hj, rfl⟩
    cases hfound : (List.range p.filePages.toNat).find?
        (fun t => pathOf (p.pageVirt t) = pathOf (p.pageVirt j)) with
    | none => exact absurd (List.find?_eq_none.mp hfound j (List.mem_range.mpr hj)) (by simp)
    | some t =>
      have ht := List.mem_range.mp (List.mem_of_find?_eq_some hfound)
      have hpath := List.find?_some hfound
      rw [h.injective ht hj (of_decide_eq_true hpath)]

theorem pageAt_eq_none : pageAt p l = none ↔ ∀ j < p.filePages.toNat,
    pathOf (p.pageVirt j) ≠ l := by
  simp [pageAt]

structure Loads (file : VfsNode) (segments : List ElfPhdr) (r : ℕ) (m m₁ : Machine) : Prop where
  inUse : ∀ q, InUse m.pmm q → InUse m₁.pmm q
  pages : ∀ k ∈ userPaths, (lastAt segments k = none ∧ Untouched m r k m₁) ∨
    ∃ q j, lastAt segments k = some (q, j) ∧ Placed file q j m₁ r k ∧
      ¬ InUse m.pmm (frame (leaf m₁ r k))

variable {segments : List ElfPhdr}

theorem Loads.cons (hlow : FileBelow p) (h : Progress file p r m p.filePages.toNat m₁)
    (hoom : m₁.oom = false) (hwf : Wf m₁ live resv) (hr : r ∈ live)
    (hrest : Loads file segments r m₁ m₂) : Loads file (p :: segments) r m m₂ := by
  refine ⟨fun q hq => hrest.inUse q (h.inUse q hq), fun k hk => ?_⟩
  rcases hrest.pages k hk with ⟨hlast, hsame⟩ | ⟨q, j, hlast, hplaced, hfree⟩
  · rcases h.pages k hk with ⟨hold, hpaths | hfull⟩ | ⟨j, hj, hpath, hplaced, hfree⟩
    · refine .inl ⟨?_, hold.trans hsame⟩
      rw [lastAt, hlast, pageAt_eq_none.mpr hpaths]
      rfl
    · cases hoom.symm.trans hfull
    · obtain ⟨_, huse, _⟩ := hwf.leaves r hr k hk hplaced.present
      refine .inr ⟨p, j, ?_, hplaced.step hsame huse (fun k' hk' => ?_), ?_⟩
      · rw [lastAt, hlast, (pageAt_eq_some hlow).mpr ⟨hj, hpath⟩]
        rfl
      · exact (hrest.pages k' hk').imp And.right fun ⟨_, _, _, _, hnew⟩ => hnew
      · rw [hsame.leaf]
        exact hfree
  · refine .inr ⟨q, j, ?_, hplaced, fun hu => hfree (h.inUse _ hu)⟩
    rw [lastAt, hlast]
    rfl

/-- Loading segments in order, as far as no allocation fails. -/
theorem Ready.loads (h : Ready live r (segments.length + n) m resv K) (hr : r ∈ live)
    (file : VfsNode) (proc : Process) (hlow : ∀ p ∈ segments, FileBelow p) :
    let out := forEachWhile (loadPhdr file) segments (m, proc)
    (m.oom = true → out.1.1.oom = true) ∧
      (out.2 = true → (∃ resv K, Ready live r n out.1.1 resv K) ∧
        (out.1.1.oom = false → Loads file segments r m out.1.1)) := by
  induction segments generalizing m proc resv K with
  | nil =>
    refine ⟨id, fun _ => ⟨⟨resv, K, ?_⟩, fun _ =>
      ⟨fun q hq => hq, fun k _ => .inl ⟨rfl, Untouched.refl m r k⟩⟩⟩⟩
    simp only [List.length_nil, Nat.zero_add] at h
    exact h
  | cons p rest ih =>
    have hp := hlow p List.mem_cons_self
    have hnum : (p :: rest).length + n = (rest.length + n) + 1 := by
      rw [List.length_cons]
      omega
    rw [hnum] at h
    obtain ⟨⟨resv₁, K₁, hready⟩, i, hdone, _, hprog⟩ := h.segment hr file proc hp
    unfold forEachWhile
    split
    · rename_i hgoing
      rw [hdone hgoing] at hprog
      obtain ⟨hoom, hend⟩ := ih hready (loadPhdr file p (m, proc)).1.2
        (fun q hq => hlow q (List.mem_cons_of_mem p hq))
      refine ⟨fun hm => hoom (hprog.oom hm), fun hlast => ⟨(hend hlast).1, fun hnot => ?_⟩⟩
      have hmiddle : (loadPhdr file p (m, proc)).1.1.oom = false := by
        by_contra hfull
        exact absurd (hoom (by simpa using hfull)) (by simp [hnot])
      exact Loads.cons hp hprog hmiddle hready.wf hr ((hend hlast).2 hnot)
    · rename_i hleft
      exact ⟨hprog.oom, fun hlast => absurd hlast hleft⟩

theorem Loads.writeCr3 (h : Loads file segments r m m₁) (cr3 : UInt64) :
    Loads file segments r m (m₁.writeCr3 cr3) := by
  refine ⟨h.inUse, fun k hk => ?_⟩
  rcases h.pages k hk with ⟨hlast, hsame⟩ | ⟨q, j, hlast, hplaced, hfree⟩
  · exact .inl ⟨hlast, hsame.leaf, hsame.seen⟩
  · exact .inr ⟨q, j, hlast, ⟨hplaced.present, hplaced.seen, hplaced.sole⟩, hfree⟩

variable {image : Image} {proc : Process}

theorem ready_of_wf (h : Wf m live resv) (hr : r ∈ live) (hproc : proc.cr3 = pageAddr r)
    (hK : K ⊆ resv) (hwalk : HeapWalk K m.ram r) (hroom : HeapRoom m (4 * n)) :
    Ready live r n (m.writeCr3 proc.cr3) resv K := by
  have hwf : Wf (m.writeCr3 proc.cr3) live resv := h.of_eq rfl rfl
  exact ⟨hwf, heapReady_of_wf hwf hr hproc hK hwalk, hK, ⟨hroom.start, hroom.fits⟩⟩

/-- A load that succeeds, with every page it asked for. -/
theorem elfLoad_loads (hlow : ∀ q ∈ image.segments, FileBelow q) (h : Wf m live resv)
    (hr : r ∈ live) (hproc : proc.cr3 = pageAddr r) (hK : K ⊆ resv) (hwalk : HeapWalk K m.ram r)
    (hroom : HeapRoom m (4 * image.segments.length)) (hresult : (elfLoad m proc image).2.2.2 = 0)
    (hoom : (elfLoad m proc image).1.oom = false) :
    (∃ resv, Wf (elfLoad m proc image).1 live resv) ∧
    Loads image.file image.segments r (m.writeCr3 proc.cr3) (elfLoad m proc image).1 := by
  have hacc : image.accepted = true := by
    by_contra hno
    rw [elfLoad_rejected (by simpa using hno)] at hresult
    exact absurd hresult (show (-1 : Int32) ≠ 0 by decide)
  rw [elfLoad_accepted hacc] at hresult hoom ⊢
  have hready := ready_of_wf h hr hproc hK hwalk (n := image.segments.length + 0) hroom
  obtain ⟨_, hend⟩ := hready.loads hr image.file { proc with heapBase := 0 } hlow
  have hdone := by_contra (fun hno => absurd hresult (by
    dsimp only
    rw [if_neg hno]
    decide))
  obtain ⟨⟨resv', _, hready'⟩, hloads⟩ := hend hdone
  exact ⟨⟨resv', hready'.wf.of_eq rfl rfl⟩, (hloads hoom).writeCr3 m.cr3⟩

theorem loadPhdr_vmas (file : VfsNode) (p : ElfPhdr) (s : Machine × Process) :
    (loadPhdr file p s).1.2.vmas =
    if (kmalloc s.1 32).2 = 0 then s.2.vmas
    else ⟨(kmalloc s.1 32).2, p.vaddr, p.vaddr + p.memsz,
      (userFlags p.writes).toUInt32⟩ :: s.2.vmas := by
  unfold loadPhdr processAddVma raiseHeap
  dsimp only
  split
  · rfl
  · rfl

/-- Regions are only added, and a load that ends has registered one for each segment. -/
theorem loads_registered (file : VfsNode) (segments : List ElfPhdr) (s : Machine × Process) :
    let vmas := (forEachWhile (loadPhdr file) segments s).1.2.vmas
    s.2.vmas <:+ vmas ∧ vmas.length ≤ s.2.vmas.length + segments.length ∧
      (vmas.length = s.2.vmas.length + segments.length →
        ∀ p ∈ segments, ∃ v ∈ vmas, v.virtStart = p.vaddr ∧ v.virtEnd = p.vaddr + p.memsz) := by
  induction segments generalizing s with
  | nil => exact ⟨List.suffix_rfl, Nat.le_refl _, fun _ p hp => absurd hp List.not_mem_nil⟩
  | cons p rest ih =>
    obtain ⟨hkept, hlen, hall⟩ := ih (loadPhdr file p s).1
    have hbody := loadPhdr_vmas file p s
    unfold forEachWhile
    dsimp only
    rw [List.length_cons]
    split at hbody
    · rw [hbody] at hkept hlen
      split
      · exact ⟨hkept, by omega, fun hnum => by omega⟩
      · rw [hbody]
        exact ⟨List.suffix_rfl, by omega, fun hnum => by omega⟩
    · rw [hbody] at hkept hlen hall
      rw [List.length_cons] at hlen hall
      split
      · refine ⟨(List.suffix_cons _ _).trans hkept, by omega, fun hnum q hq => ?_⟩
        rcases List.mem_cons.mp hq with rfl | hq
        · exact ⟨_, hkept.subset List.mem_cons_self, rfl, rfl⟩
        · exact hall (by omega) q hq
      · rw [hbody, List.length_cons]
        refine ⟨List.suffix_cons _ _, by omega, fun hnum q hq => ?_⟩
        have hrest : rest = [] := List.length_eq_zero_iff.mp (by omega)
        rw [hrest, List.mem_singleton] at hq
        subst q
        exact ⟨_, List.mem_cons_self, rfl, rfl⟩

def Stock : ℕ → List HeapBlock → Prop
  | 0, _ => True
  | n + 1, blocks =>
      ∃ ptr rest, takeBlock (rounded 32) blocks = some (ptr, rest) ∧ ptr ≠ 0 ∧ Stock n rest

structure Stocked (live : Finset ℕ) (resv : Set ℕ) (r n k : ℕ) (m : Machine) : Prop where
  wf : Wf m live resv
  cr3 : m.cr3 = pageAddr r
  affords : Affords m k
  oom : m.oom = false
  heap : Stock n m.heap.blocks

variable {k : ℕ}

theorem Stocked.record (h : Stocked live resv r (n + 1) k m) :
    (kmalloc m 32).2 ≠ 0 ∧ Stocked live resv r n k (kmalloc m 32).1 := by
  obtain ⟨ptr, rest, hfound, hne, hstock⟩ := h.heap
  have htake : kmalloc m 32 = ({ m with heap := { m.heap with blocks := rest } }, ptr) :=
    kmallocFuel_take _ (by decide) hfound
  rw [htake]
  exact ⟨hne, h.wf.of_eq rfl rfl, h.cr3, h.affords.congr rfl rfl, h.oom, hstock⟩

theorem Stocked.page (h : Stocked live resv r n (k + 4) m) (hr : r ∈ live) (file : VfsNode)
    (hhalf : pml4Index (p.pageVirt j) < 256) :
    (loadPage file p j m).2 = true ∧ Stocked live resv r n k (loadPage file p j m).1 := by
  have htree := h.wf.tree r hr
  obtain ⟨f, hmap, _, haff, hoom⟩ :=
    loadPage_affords h.wf.sane htree h.cr3 file p j hhalf h.oom h.affords
  refine ⟨?_, h.wf.pageMapped hr (pathOf_mem hhalf) hmap, hmap.grows.cr3.trans h.cr3,
    haff, hoom, ?_⟩
  · rcases loadPage_loaded h.wf.sane htree h.cr3 file p j hhalf with ⟨_, href⟩ | ⟨hdone, _⟩
    · exact absurd href h.affords.not_refused
    · exact hdone
  · rw [hmap.grows.heap]
    exact h.heap

theorem Stocked.segment (h : Stocked live resv r (n + 1) (4 * p.filePages.toNat + k) m)
    (hr : r ∈ live) (file : VfsNode) (proc : Process) (hlow : FileBelow p) :
    (loadPhdr file p (m, proc)).2 = true ∧ Stocked live resv r n k (loadPhdr file p (m, proc)).1.1 ∧
      (loadPhdr file p (m, proc)).1.2.vmas.length = proc.vmas.length + 1 := by
  obtain ⟨hne, hrec⟩ := h.record
  obtain ⟨hdone, hend⟩ := forWhile_complete (loadPage file p) (n := p.filePages.toNat)
    (fun j t => Stocked live resv r n (4 * (p.filePages.toNat - j) + k) t) hrec (fun j t hj ht => by
      have hnum :
        4 * (p.filePages.toNat - j) + k = 4 * (p.filePages.toNat - (j + 1)) + k + 4 := by omega
      rw [hnum] at ht
      exact ht.page hr file (hlow j hj))
  rw [Nat.sub_self, Nat.zero_add] at hend
  simp only [loadPhdr, processAddVma_machine]
  refine ⟨hdone, hend, ?_⟩
  simp only [processAddVma, hne, if_false, raiseHeap, List.length_cons]

/-- With blocks for records and pages for the file, the segments get loaded. -/
theorem Stocked.loads (h : Stocked live resv r segments.length
      (4 * (segments.map (fun p => p.filePages.toNat)).sum + k) m)
    (hr : r ∈ live) (file : VfsNode) (proc : Process) (hlow : ∀ p ∈ segments, FileBelow p) :
    let out := forEachWhile (loadPhdr file) segments (m, proc)
    out.2 = true ∧ Stocked live resv r 0 k out.1.1 ∧ out.1.2.vmas.length =
      proc.vmas.length + segments.length := by
  induction segments generalizing m proc with
  | nil =>
    simp only [List.map_nil, List.sum_nil, Nat.mul_zero, Nat.zero_add] at h
    exact ⟨rfl, h, rfl⟩
  | cons p rest ih =>
    rw [List.map_cons, List.sum_cons, Nat.mul_add, Nat.add_assoc] at h
    obtain ⟨hgoing, hnext, hnum⟩ := h.segment hr file proc (hlow p List.mem_cons_self)
    obtain ⟨hdone, hend, hlen⟩ := ih hnext (loadPhdr file p (m, proc)).1.2
      (fun q hq => hlow q (List.mem_cons_of_mem p hq))
    simp only [forEachWhile, hgoing, if_true]
    refine ⟨hdone, hend, hlen.trans ?_⟩
    rw [List.length_cons]
    omega

theorem elfLoad_succeeds (m : Machine) (proc : Process) (hr : r ∈ live)
    (hacc : image.accepted = true) (hlow : ∀ p ∈ image.segments, FileBelow p)
    (h : Stocked live resv r image.segments.length
      (4 * (image.segments.map (fun p => p.filePages.toNat)).sum + k) (m.writeCr3 proc.cr3)) :
    (elfLoad m proc image).2.2.2 = 0 ∧ (elfLoad m proc image).1.oom = false ∧
      (elfLoad m proc image).2.1.vmas.length = proc.vmas.length + image.segments.length := by
  obtain ⟨hdone, hend, hlen⟩ := h.loads hr image.file { proc with heapBase := 0 } hlow
  rw [elfLoad_accepted hacc]
  exact ⟨if_pos hdone, hend.oom, hlen⟩

end NexusKernel.SegmentLoading
