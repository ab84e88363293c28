import NexusKernel.CloneFailure
import NexusKernel.Exhaustion
import NexusKernel.UserAccess

/-!
Copy-on-write against copying at once. Beside the machine runs an abstract memory in which every
address space has its own pages. Pages writable at the start read the same in both, whatever the
programs do, as long as memory lasts and no page has too many sharers.
-/

namespace NexusKernel.ForkRefinement

open Lib.TableTree Lib.Runs Lib.Sharing PhysicalMemory PageAllocation PageEntries
open Hardware PageSupply Vmm Walks Mapping Cloning AddressSpaces CopyOnWrite UserPages Processes
open UserAccess Function

abbrev Eager := ℕ → List ℕ → ℕ → UInt64

namespace Eager

def store (e : Eager) (t : ℕ) (l : List ℕ) (i : ℕ) (change : UInt64 → UInt64) : Eager :=
  update e t (update (e t) l (update (e t l) i (change (e t l i))))

theorem store_of_ne (e : Eager) {t t' : ℕ} {l l' : List ℕ} (hne : (t', l') ≠ (t, l)) (i : ℕ)
    (change : UInt64 → UInt64) : e.store t l i change t' l' = e t' l' := by
  unfold store
  by_cases htt : t' = t
  · subst t'
    have hll : l' ≠ l := fun heq => hne (by rw [heq])
    rw [update_self, update_of_ne hll]
  · rw [update_of_ne htt]

def copy (e : Eager) (r z : ℕ) : Eager := update e z (e r)

end Eager

/-- The machine with its live address spaces, the eager memory, and the pages of each that descend
from pages writable at the start. -/
structure World where
  machine : Machine
  live : Finset ℕ
  eager : Eager
  tracked : ℕ → Set (List ℕ)

namespace World

def start (s : System) : World where
  machine := s.machine
  live := s.live
  eager := fun t l => s.machine.ram (frame (leaf s.machine t l))
  tracked := fun t =>
    {l | l ∈ userPaths ∧ present (leaf s.machine t l) = true ∧ writable (leaf s.machine t l) = true}

def forked (w : World) (r : ℕ) (result : Machine × UInt64) : World :=
  if result.2 = 0 then { w with machine := result.1 }
  else
    { machine := result.1
      live := insert (pageOf result.2) w.live
      eager := w.eager.copy r (pageOf result.2)
      tracked := update w.tracked (pageOf result.2) (w.tracked r) }

end World

/-- Another address space is loaded, the running program reads or writes, the loaded address space
is cloned, some address space is destroyed. -/
inductive Act (w : World) : World → Prop where
  | switch (t : ℕ) (ht : t ∈ w.live) :
      Act w { w with machine := (denying w.machine []).writeCr3 (pageAddr t) }
  | read (ds : List Bool) (t : ℕ) (proc : Process) (virt : UInt64) (ht : t ∈ w.live)
      (hcr3 : w.machine.cr3 = pageAddr t) (hproc : proc.cr3 = pageAddr t)
      (hvirt : pml4Index virt < 256) :
      Act w { w with machine := (userRead (denying w.machine ds) proc virt).1 }
  | write (ds : List Bool) (t : ℕ) (proc : Process) (virt : UInt64)
      (change : UInt64 → UInt64) (ht : t ∈ w.live) (hcr3 : w.machine.cr3 = pageAddr t)
      (hproc : proc.cr3 = pageAddr t) (hvirt : pml4Index virt < 256) : Act w { w with
        machine := userWrite (denying w.machine ds) proc virt change
        eager := w.eager.store t (pathOf virt) (wordIndex virt) change }
  | clone (ds : List Bool) (r : ℕ) (hr : r ∈ w.live) (hcr3 : w.machine.cr3 = pageAddr r) :
      Act w (w.forked r (vmmCowClone (denying w.machine ds) (pageAddr r)))
  | destroy (t : ℕ) (ht : t ∈ w.live) : Act w { w with
        machine := vmmDestroyAddressSpace (denying w.machine []) (pageAddr t)
        live := w.live.erase t }

/-- An act without failing allocation that leaves no page 65535 sharers. -/
structure WorldStep (w w' : World) : Prop where
  act : Act w w'
  granted : w'.machine.oom = false
  bounded : ∀ f, f < maxPages → mappings w'.machine w'.live f < 65535

structure Agrees (w : World) (resv : Set ℕ) : Prop where
  safe : Safe ⟨w.machine, w.live⟩ resv
  pages : ∀ t ∈ w.live, ∀ l ∈ w.tracked t, l ∈ userPaths ∧ present (leaf w.machine t l) = true ∧
    w.machine.ram (frame (leaf w.machine t l)) = w.eager t l

variable {w w' : World} {resv : Set ℕ} {m m' : Machine} {live live' : Finset ℕ} {s s' s₀ : System}
variable {t : ℕ} {l : List ℕ} {virt : UInt64} {proc : Process}

theorem op_safe (h : Safe s resv) (hop : Op unmappedOnly s s') (hsub : s'.live ⊆ s.live) :
    Safe s' resv := by
  have heff := op_effect h.wf hop
  have hroom : CloneFits unmappedOnly s s' := by
    intro ds r z m' _ _ hc heq
    have hz : z ∈ s.live := by
      apply hsub
      rw [heq]
      exact Finset.mem_insert_self z s.live
    exact absurd hz (h.wf.not_live_of_free hc.free)
  exact ⟨effect_wf h.wf heff hroom, effect_exact h.wf h.exactCounts heff
    (fun _ _ habs => habs) hroom⟩

theorem op_agrees (h : Agrees w resv) (hop : Op unmappedOnly ⟨w.machine, w.live⟩ ⟨m', live'⟩)
    (hsub : live' ⊆ w.live) : Agrees { w with machine := m', live := live' } resv := by
  refine ⟨op_safe h.safe hop hsub, ?_⟩
  intro t ht l hl
  obtain ⟨hpath, hpres, hpage⟩ := h.pages t (hsub ht) l hl
  obtain ⟨hpres', hpage'⟩ := effect_keeps h.safe.wf (op_effect h.safe.wf hop) (hsub ht) hpath hpres
  exact ⟨hpath, hpres', hpage'.trans hpage⟩

theorem agrees_of_eq (h : Agrees w resv) (hram : m'.ram = w.machine.ram)
    (hpmm : m'.pmm = w.machine.pmm) : Agrees { w with machine := m' } resv := by
  refine ⟨⟨h.safe.wf.of_eq hram hpmm, exact_of_eq h.safe.exactCounts hram hpmm⟩, ?_⟩
  intro t ht l hl
  obtain ⟨hpath, hpres, hpage⟩ := h.pages t ht l hl
  simp only [leaf, hram]
  exact ⟨hpath, hpres, hpage⟩

theorem Agrees.deny (h : Agrees w resv) (ds : List Bool) :
    Agrees { w with machine := denying w.machine ds } resv := agrees_of_eq h rfl rfl

/-- A store to a page that is no table leaves trees alone. -/
theorem store_agree {f : ℕ} (hout : ∀ t ∈ live, f ∉ userTables m t) (i : ℕ)
    (change : UInt64 → UInt64) (ht : t ∈ live) :
    Agree x86 m.ram (storeWord m f i change).ram 3 256 t := by
  apply agree_of_tables
  intro q hq
  apply update_of_ne
  intro heq
  subst q
  exact hout t ht hq

theorem store_safe (h : Safe ⟨m, live⟩ resv) {f : ℕ} (hout : ∀ t ∈ live, f ∉ userTables m t) (i : ℕ)
    (change : UInt64 → UInt64) : Safe ⟨storeWord m f i change, live⟩ resv := by
  have hagree := fun t (ht : t ∈ live) => store_agree hout i change ht
  exact ⟨h.wf.beside ⟨rfl, rfl⟩ (fun _ hq => hq) hagree (fun _ _ _ => rfl) (Set.Subset.refl resv)
      (fun q hq => .inl hq), exact_beside h.exactCounts hagree (fun _ _ _ => rfl)⟩

/-- A permitted store changes the same word in both memories: no other mapping leads to its page. -/
theorem store_agrees (h : Agrees w resv) (ht : t ∈ w.live) (hvirt : pml4Index virt < 256)
    (hperm : permits true (leaf w.machine t (pathOf virt)) = true) (change : UInt64 → UInt64) :
    Agrees { w with
    machine := storeWord w.machine (frame (leaf w.machine t (pathOf virt)))
      (wordIndex virt) change
    eager := w.eager.store t (pathOf virt) (wordIndex virt) change } resv := by
  have hl := pathOf_mem hvirt
  have hwf := h.safe.wf
  simp only [permits, Bool.and_eq_true, Bool.not_true, Bool.false_or] at hperm
  obtain ⟨⟨hpres, _⟩, hwrite⟩ := hperm
  have hout := (hwf.leaves t ht _ hl hpres).2.2.2.2
  refine ⟨store_safe h.safe hout (wordIndex virt) change, ?_⟩
  intro t' ht' l' hl'
  obtain ⟨hpath, hpres', hpage⟩ := h.pages t' ht' l' hl'
  have hleaf : leaf (storeWord w.machine (frame (leaf w.machine t (pathOf virt))) (wordIndex virt)
      change) t' l' = leaf w.machine t' l' :=
    (store_agree hout (wordIndex virt) change ht').leafAt_eq hpath
  rw [hleaf]
  refine ⟨hpath, hpres', ?_⟩
  by_cases hsame : (t', l') = (t, pathOf virt)
  · cases hsame
    simp only [storeWord, Eager.store, update_self, hpage]
  · have hne := hwf.frame_ne ht hl hpres hwrite ht' hpath hpres' hsame
    simp only [storeWord, update_of_ne hne, hpage, Eager.store_of_ne w.eager hsame]

theorem agrees_untracked (h : Agrees w resv) (hout : l ∉ w.tracked t) (i : ℕ)
    (change : UInt64 → UInt64) : Agrees { w with eager := w.eager.store t l i change } resv := by
  refine ⟨h.safe, ?_⟩
  intro t' ht' l' hl'
  obtain ⟨hpath, hpres, hpage⟩ := h.pages t' ht' l' hl'
  have hne : (t', l') ≠ (t, l) := by
    intro heq
    cases heq
    exact hout hl'
  exact ⟨hpath, hpres, hpage.trans (Eager.store_of_ne w.eager hne i change).symm⟩

section

variable (h : Agrees w resv) (hdenied : denying w.machine w.machine.denials = w.machine)
  (ht : t ∈ w.live)
  (hcr3 : w.machine.cr3 = pageAddr t) (hproc : proc.cr3 = pageAddr t) (hvirt : pml4Index virt < 256)
include h hdenied ht hcr3 hproc hvirt

theorem fault_agrees {write : Bool}
    (href : permits write (leaf w.machine t (pathOf virt)) = false) :
    Agrees { w with machine := (fault w.machine proc virt write).1 } resv := by
  have hop := fault_op h.safe.wf ht hcr3 hproc hvirt w.machine.denials href
  rw [hdenied] at hop
  rcases hop with heq | hop
  · rw [heq]
    exact h
  · exact op_agrees h hop (Finset.Subset.refl w.live)

theorem read_agrees : Agrees { w with machine := (userRead w.machine proc virt).1 } resv := by
  unfold userRead
  rw [userTranslate_eq h.safe.wf ht hcr3 hvirt]
  cases hperm : permits false (leaf w.machine t (pathOf virt)) with
  | true => exact h
  | false =>
    have hfault := fault_agrees h hdenied ht hcr3 hproc hvirt hperm
    simp only [Bool.false_eq_true, if_false]
    split
    · rename_i m' proc' heq
      rw [heq] at hfault
      exact hfault
    · rename_i m' proc' outcome _ heq
      rw [heq] at hfault
      exact hfault

theorem write_agrees (change : UInt64 → UInt64)
    (hoom : (userWrite w.machine proc virt change).oom = false) : Agrees { w with
    machine := userWrite w.machine proc virt change
    eager := w.eager.store t (pathOf virt) (wordIndex virt) change } resv := by
  unfold userWrite at hoom ⊢
  rw [userTranslate_eq h.safe.wf ht hcr3 hvirt] at hoom ⊢
  cases hperm : permits true (leaf w.machine t (pathOf virt)) with
  | true => exact store_agrees h ht hvirt hperm change
  | false =>
    have hfault := fault_agrees h hdenied ht hcr3 hproc hvirt hperm
    have hgrants : pathOf virt ∈ w.tracked t →
        (fault w.machine proc virt true).1.oom = false → _ := fun htracked =>
      fault_grants h.safe.wf ht hcr3 hproc hvirt (h.pages t ht _ htracked).2.1 hperm
    have hroot : (fault w.machine proc virt true).1.cr3 = pageAddr t :=
      (fault_cr3 _ proc virt true).trans hcr3
    simp only [hperm, Bool.false_eq_true, if_false] at hoom ⊢
    generalize fault w.machine proc virt true = result at *
    obtain ⟨m₁, proc₁, outcome⟩ := result
    cases outcome with
    | resumed =>
      have htrans := userTranslate_eq hfault.safe.wf ht hroot hvirt true
      simp only [htrans] at hoom ⊢
      cases hperm₁ : permits true (leaf m₁ t (pathOf virt)) with
      | true => exact store_agrees hfault ht hvirt hperm₁ change
      | false =>
        simp only [hperm₁, Bool.false_eq_true, if_false] at hoom
        apply agrees_untracked hfault
        intro htracked
        have hyes := (hgrants htracked hoom).2
        rw [hperm₁] at hyes
        cases hyes
    | panicked | killed =>
      apply agrees_untracked hfault
      intro htracked
      cases (hgrants htracked hoom).1

end

theorem clone_agrees (ds : List Bool) {r : ℕ} (h : Agrees w resv) (hr : r ∈ w.live)
    (heq : w' = w.forked r (vmmCowClone (denying w.machine ds) (pageAddr r)))
    (hoom : w'.machine.oom = false) (hbounded : ∀ f, f < maxPages →
      mappings w'.machine w'.live f < 65535) : Agrees w' resv := by
  subst heq
  have hwf := h.safe.wf.deny ds
  have hop : Op unmappedOnly ⟨w.machine, w.live⟩ _ := Op.cowClone ds r hr trivial
  rcases vmmCowClone_cases hwf.sane (hwf.tree r hr) with ⟨hzero, href⟩ | ⟨z, haddr, hne, hc⟩
  · rw [World.forked, if_pos hzero] at hoom
    cases hoom.symm.trans href.oom
  · have hz := hwf.sane.lt_of_isFree hc.free
    rw [opened_new haddr hne hz] at hop
    simp only [World.forked, haddr, hne, if_false,
      pageOf_pageAddr (show z < 2 ^ 52 by omega)] at hoom hbounded ⊢
    generalize (vmmCowClone (denying w.machine ds) (pageAddr r)).1 = m' at *
    refine ⟨step_safe h.safe ⟨hop, hbounded⟩, ?_⟩
    intro t ht l hl
    dsimp only at hl ⊢
    by_cases htz : t = z
    · subst t
      rw [update_self] at hl
      obtain ⟨hpath, hpres, hpage⟩ := h.pages r hr l hl
      have hleaf := hc.complete hoom l hpath hpres
      obtain ⟨hp, _, hf, _⟩ := Cloning.cowEntry_spec (leaf (denying w.machine ds) r l)
      rw [hleaf, hp, hf, Eager.copy, update_self]
      exact ⟨hpath, hpres, (page_kept hwf hr hr hpath hpres hc.elsewhere).trans hpage⟩
    · have ht' : t ∈ w.live := Finset.mem_of_mem_insert_of_ne ht htz
      rw [update_of_ne htz] at hl
      obtain ⟨hpath, hpres, hpage⟩ := h.pages t ht' l hl
      obtain ⟨hpres', hpage'⟩ := effect_keeps h.safe.wf (op_effect h.safe.wf hop) ht' hpath hpres
      rw [Eager.copy, update_of_ne htz]
      exact ⟨hpath, hpres', hpage'.trans hpage⟩

theorem step_agrees (h : Agrees w resv) (hstep : WorldStep w w') : Agrees w' resv := by
  obtain ⟨hact, hoom, hbounded⟩ := hstep
  cases hact with
  | switch t ht => exact agrees_of_eq h rfl rfl
  | read ds t proc virt ht hcr3 hproc hvirt =>
    exact read_agrees (h.deny ds) rfl ht hcr3 hproc hvirt
  | write ds t proc virt change ht hcr3 hproc hvirt =>
    exact write_agrees (h.deny ds) rfl ht hcr3 hproc hvirt change hoom
  | clone ds r hr hcr3 => exact clone_agrees ds h hr rfl hoom hbounded
  | destroy t ht =>
    have hdone := op_agrees (h.deny []) (Op.destroyAddressSpace t ht) (Finset.erase_subset t w.live)
    exact hdone

theorem start_agrees (h : Safe s resv) : Agrees (World.start s) resv :=
  ⟨h, fun _ _ _ hl => ⟨hl.1, hl.2.1, rfl⟩⟩

/-- Every process reads, on pages writable at the start, what it would read if each clone had
copied all pages. -/
theorem cow_refines_eager (hsane : Sane s₀.machine) (hlive : s₀.live = ∅)
    (hbuild : Reachable Step s₀ s) (hrun : Reachable WorldStep (World.start s) w)
    (ht : t ∈ w.live) (hvirt : pml4Index virt < 256) (htracked : pathOf virt ∈ w.tracked t)
    (proc : Process) :
    (userRead (w.machine.writeCr3 (pageAddr t)) proc virt).2 = some (w.eager t (pathOf virt)
      (wordIndex virt)) := by
  have hsafe := run_safe hsane hlive hbuild
  have h : Agrees w {q | InUse s₀.machine.pmm q} :=
    hrun.invariant (fun w => Agrees w {q | InUse s₀.machine.pmm q})
      (fun _ _ hw hstep => step_agrees hw hstep) (start_agrees hsafe)
  obtain ⟨hpath, hpres, hpage⟩ := h.pages t ht _ htracked
  have hwf : Wf (w.machine.writeCr3 (pageAddr t)) w.live {q | InUse s₀.machine.pmm q} :=
    h.safe.wf.of_eq rfl rfl
  have hperm : permits false (leaf (w.machine.writeCr3 (pageAddr t)) t (pathOf virt)) = true := by
    have huser := (h.safe.wf.leaves t ht _ hpath hpres).1
    change permits false (leaf w.machine t (pathOf virt)) = true
    simp [permits, hpres, huser]
  rw [userRead, userTranslate_eq hwf ht rfl hvirt, if_pos hperm, ← hpage]
  rfl

/-- A fault takes a page for the copy and never more than three for tables. -/
theorem cowHandleFault_oom (hs : Sane m) (h : Affords m 4) (procCr3 virt : UInt64) :
    (cowHandleFault m procCr3 virt).oom = m.oom := by
  unfold cowHandleFault
  dsimp only
  generalize vmmGetPhys m (pageBase virt) = phys
  split
  · rfl
  split
  · split <;> rfl
  rcases pmmAllocPage_cases (hs.writeCr3 procCr3) with ⟨-, href⟩ | ⟨f, haddr, hne, hnew⟩
  · exact absurd href (Affords.not_refused (k := 3) ⟨h.denials, h.free⟩)
  · have hrest := Affords.of_spend (k := 3) ⟨h.denials, h.free⟩ hnew.granted hnew.budget
    rw [haddr, if_neg hne, vmmMapPage_eq]
    have hgrows : Grows (m.writeCr3 procCr3)
        ((m.writeCr3 procCr3).pmmAllocPage.1.copyPage (pageAddr f) phys) := hnew.grows.write _
    obtain ⟨-, hoom, -⟩ := mapAt_affords (leafEntry (pageAddr f) (userFlags true))
      (pml4Index (pageBase virt)) ((hs.writeCr3 procCr3).grows hgrows)
      (Machine.currentPml4 ((m.writeCr3 procCr3).pmmAllocPage.1.copyPage (pageAddr f) phys))
      (l := [pdptIndex (pageBase virt), pdIndex (pageBase virt), ptIndex (pageBase virt)])
      (k := 0) ⟨hrest.denials, hrest.free⟩
    exact hoom.trans hnew.oom

section

variable (h : Wf m live resv) (ht : t ∈ live) (hcr3 : m.cr3 = pageAddr t)
  (hproc : proc.cr3 = pageAddr t) (hvirt : pml4Index virt < 256)
include h ht hcr3 hproc hvirt

/-- With four pages free a write to a page that is shared is granted, and maps one page more. -/
theorem userWrite_shared (hpres : present (leaf m t (pathOf virt)) = true)
    (hreadonly : permits true (leaf m t (pathOf virt)) = false) (haff : Affords m 4)
    (change : UInt64 → UInt64) : (userWrite m proc virt change).oom = m.oom ∧
      ∀ f, mappings (userWrite m proc virt change) live f ≤ mappings m live f + 1 := by
  have hl := pathOf_mem hvirt
  have hplan : faultPlan m proc virt true = .cow := by
    simp [faultPlan, cow_of_refused h ht hcr3 hvirt hpres hreadonly]
  have hfault : fault m proc virt true = (cowHandleFault m (pageAddr t) virt, proc, .resumed) := by
    rw [fault, pageFaultHandler_eq, hplan, hproc]
  obtain ⟨_, huse, hne, _⟩ := h.leaves t ht _ hl hpres
  have houtcome := cowHandleFault_cases h.sane (h.tree t ht) hcr3 hvirt fun _ => ⟨hne, huse⟩
  have hwf := wf_cow h ht hl houtcome
  have hroot := (fault_cr3 m proc virt true).trans hcr3
  have hfew := mappings_le_succ (mem_slots.mpr ⟨ht, hl⟩)
    (fun y hy hne => houtcome.leaf_other h ht hy hne)
  have hoom := cowHandleFault_oom h.sane haff (pageAddr t) virt
  rw [hfault] at hroot
  rw [userWrite, userTranslate_eq h ht hcr3 hvirt, hreadonly, hfault]
  generalize cowHandleFault m (pageAddr t) virt = m₁ at *
  simp only [Bool.false_eq_true, if_false]
  rw [userTranslate_eq hwf ht hroot hvirt]
  cases hperm : permits true (leaf m₁ t (pathOf virt)) with
  | false => exact ⟨hoom, hfew⟩
  | true =>
    refine ⟨hoom, fun f => (le_of_eq (users_congr (fun x hx => ?_) f)).trans (hfew f)⟩
    have hpres₁ := (Bool.and_eq_true_iff.mp (Bool.and_eq_true_iff.mp hperm).1).1
    have hout := (hwf.leaves t ht _ hl hpres₁).2.2.2.2
    obtain ⟨hlive, hpath⟩ := mem_slots.mp hx
    exact congrArg (fun e => (slotOf e).target) ((store_agree hout _ change hlive).leafAt_eq hpath)

end

section

variable (h : Agrees w resv) (hr : r ∈ w.live) (hcr3 : w.machine.cr3 = pageAddr r)
  (hfew : ∀ f < maxPages, mappings w.machine w.live f ≤ 1) (htracked : pathOf virt ∈ w.tracked r)
  (hgrant : (budget (denying w.machine [])).granted = true)
  (hfree : 4 ≤ (CloneFailure.spent w.machine.ram 3 256 r
    (budget (denying w.machine [])).spend).free)
include h hr hcr3 hfew htracked hgrant hfree

/-- A clone that has the pages it asks for leaves every page read-only in the parent too. -/
theorem exists_shared_page : ∃ z m', r ≠ z ∧ m'.cr3 = pageAddr r ∧
    WorldStep w ⟨m', insert z w.live, w.eager.copy r z, update w.tracked z (w.tracked r)⟩ ∧
    4 ≤ (budget m').free ∧ (∀ f < maxPages, mappings m' (insert z w.live) f ≤ 2) ∧
    present (leaf m' r (pathOf virt)) = true ∧ permits true (leaf m' r (pathOf virt)) = false := by
  obtain ⟨hl, hpres, -⟩ := h.pages r hr _ htracked
  have hwf : Wf (denying w.machine []) w.live resv := h.safe.wf.deny []
  have huser : user (leaf w.machine r (pathOf virt)) = true := (hwf.leaves r hr _ hl hpres).1
  rcases vmmCowClone_cases hwf.sane (hwf.tree r hr) with ⟨-, href⟩ | ⟨z, haddr, hne, hc⟩
  · exact absurd (hgrant.symm.trans href.denied) (by decide)
  rcases CloneFailure.vmmCowClone_traced hwf.sane (hwf.tree r hr) with
    ⟨hzero, -⟩ | ⟨-, -, -, -, -, hspent, -⟩
  · exact absurd (haddr.symm.trans hzero) hne
  have hundenied : Exhaustion.Undenied (denying w.machine []) :=
    ⟨hwf.sane, rfl, fun hoom => by cases hoom⟩
  have hdry := (hundenied.cowClone (pageAddr r)).dry
  have hact := Act.clone [] r hr hcr3
  generalize vmmCowClone (denying w.machine []) (pageAddr r) = out at *
  have hz := hwf.sane.lt_of_isFree hc.free
  rw [World.forked, if_neg (haddr ▸ hne), haddr, pageOf_pageAddr (by omega)] at hact
  have hroom : 4 ≤ (budget out.1).free := hspent ▸ hfree
  have hoom : out.1.oom = false := by
    by_contra hoom
    have hnone := hdry (by simpa using hoom)
    omega
  have htotal : ∀ f < maxPages, mappings out.1 (insert z w.live) f ≤ 2 := fun f hf => by
    have hone : mappings (denying w.machine []) w.live f ≤ 1 := hfew f hf
    have hmore := (refs_clone_le hc f).trans (refs_le_mappings hr f)
    have hsum := mappings_cloned hwf hr hc f
    omega
  obtain ⟨hp, hu, -, hw⟩ := cowEntry_spec (leaf w.machine r (pathOf virt))
  have hshared : leaf out.1 r (pathOf virt) = cowEntry (leaf w.machine r (pathOf virt)) := by
    rcases hc.leaves _ hl with ⟨hnew, -⟩ | ⟨-, hold, -⟩
    · have hzero := (hc.complete hoom _ hl hpres).symm.trans hnew
      exact absurd (hp.symm.trans (congrArg present hzero)) (by simp [hpres])
    · exact hold
  exact ⟨z, out.1, fun heq => hwf.not_live_of_free hc.free (heq ▸ hr), hc.grows.cr3.trans hcr3,
    ⟨hact, hoom, fun f hf => (htotal f hf).trans_lt (by omega)⟩, hroom, htotal,
    hshared ▸ hp.trans hpres, by simp [hshared, permits, hw, huser]⟩

/-- A loaded program that maps no page twice is cloned and stores to a page, which is shared by
then: only its own value changes. -/
theorem exists_shared_run (hproc : proc.cr3 = pageAddr r) (hvirt : pml4Index virt < 256)
    (change : UInt64 → UInt64) : ∃ w' z, Reachable WorldStep w w' ∧ r ∈ w'.live ∧ z ∈ w'.live ∧
      pathOf virt ∈ w'.tracked r ∧ pathOf virt ∈ w'.tracked z ∧
      w'.eager r (pathOf virt) (wordIndex virt) =
        change (w.eager r (pathOf virt) (wordIndex virt)) ∧
      w'.eager z (pathOf virt) (wordIndex virt) = w.eager r (pathOf virt) (wordIndex virt) := by
  obtain ⟨z, m', hrz, hcr3', hclone, hroom, htotal, hpres, hreadonly⟩ :=
    exists_shared_page h hr hcr3 hfew htracked hgrant hfree
  have hmem : r ∈ insert z w.live := Finset.mem_insert_of_mem hr
  have hwf : Wf (denying m' []) (insert z w.live) resv := (step_agrees h hclone).safe.wf.deny []
  obtain ⟨hdone, hnum⟩ := userWrite_shared hwf hmem hcr3' hproc hvirt hpres hreadonly
    ⟨rfl, hroom⟩ change
  have hact := Act.write (w := ⟨m', insert z w.live, w.eager.copy r z,
    update w.tracked z (w.tracked r)⟩) [] r proc virt change hmem hcr3' hproc hvirt
  have hstore := WorldStep.mk hact hdone fun f hf =>
    ((hnum f).trans (Nat.succ_le_succ (htotal f hf))).trans_lt (by omega)
  refine ⟨_, z, .tail (.single hclone) hstore, hmem, Finset.mem_insert_self z _, ?_, ?_, ?_, ?_⟩
  · simpa [hrz] using htracked
  · simpa using htracked
  · simp [Eager.store, Eager.copy, hrz]
  · simp [Eager.store, Eager.copy, hrz.symm]

end

def pagedProcess : Process := ⟨0, 1, 0, .alive, pageAddr 2, 0, 0, 0, 0, 0, 0, []⟩

/-- A page is shared by a clone and written by the parent, which then reads the new value and the
clone the old one. -/
theorem cow_refines_eager_smallMachine : ∃ (w : World) (z : ℕ),
    Reachable Step ⟨smallMachine, ∅⟩ ⟨pagedMachine, {2}⟩ ∧
    Reachable WorldStep (World.start ⟨pagedMachine, {2}⟩) w ∧ z ∈ w.live ∧ ∀ proc,
      (userRead (w.machine.writeCr3 (pageAddr 2)) proc 0).2 = some 7 ∧
      (userRead (w.machine.writeCr3 (pageAddr z)) proc 0).2 = some 0 := by
  have hvirt : pml4Index 0 < 256 := by decide
  obtain ⟨-, -, -, -, hfew, hpres, hwrite⟩ := paged_ops (P := unmappedOnly) fun _ _ h => h
  have hbuild := paged_reached
  have hpages : 4 ≤ (CloneFailure.spent pagedMachine.ram 3 256 2
      (budget (denying pagedMachine [])).spend).free ∧
      (budget (denying pagedMachine [])).granted = true ∧
      pagedMachine.ram (frame (leaf pagedMachine 2 (pathOf 0))) 0 = 0 := by decide +kernel
  have hst := start_agrees (run_safe smallMachine_sane rfl hbuild)
  have hr := Finset.mem_singleton_self 2
  generalize pagedMachine = m at *
  have hload : WorldStep (World.start ⟨m, {2}⟩) { World.start ⟨m, {2}⟩ with
      machine := (denying m []).writeCr3 (pageAddr 2) } :=
    ⟨Act.switch 2 hr, rfl, fun f hf => (hfew f hf).trans_lt (by omega)⟩
  obtain ⟨w, z, hrun, hpar, hclone, hone, hother, hnew, hold⟩ :=
    exists_shared_run (step_agrees hst hload) hr rfl hfew ⟨pathOf_mem hvirt, hpres, hwrite⟩
      hpages.2.1 hpages.1 (show pagedProcess.cr3 = pageAddr 2 from rfl) hvirt fun _ => 7
  have hrun' := hrun.head hload
  have hnew' := cow_refines_eager smallMachine_sane rfl hbuild hrun' hpar hvirt hone
  have hold' := cow_refines_eager smallMachine_sane rfl hbuild hrun' hclone hvirt hother
  exact ⟨w, z, hbuild, hrun', hclone, fun proc => ⟨(hnew' proc).trans (congrArg some hnew),
    (hold' proc).trans (congrArg some (hold.trans hpages.2.2))⟩⟩

end NexusKernel.ForkRefinement
