import NexusKernel.UserPages

/-!
How much `vmm_cow_clone` copies when page allocations are refused on the way. A refused table is
passed over, so the clone lacks the pages behind it. Which tables are refused follows from the
tree and the budget of allocations; `reaches` computes it.
-/

namespace NexusKernel.CloneFailure

open Lib.TableTree Lib.Loops Lib.Runs PhysicalMemory PageEntries Hardware PageSupply
open Vmm Walks Cloning AddressSpaces CopyOnWrite UserPages

def spentAt (below : ℕ → Budget → Budget) (e : UInt64) (b : Budget) : Budget :=
  if presentUser e then if b.granted then below (frame e) b.spend else b.spend else b

def spent (ram : Store UInt64) : ℕ → ℕ → ℕ → Budget → Budget
  | 0, _, _, b => b
  | n + 1, w, p, b => forUpTo (fun i => spentAt (spent ram n x86.fanout) (ram p i)) w b

/-- The clone of table `p` gets as far as the leaf of this path. -/
def reaches (ram : Store UInt64) : ℕ → ℕ → Budget → List ℕ → Bool
  | 0, _, _, _ => true
  | _ + 1, _, _, [] => false
  | n + 1, p, b, i :: rest =>
      presentUser (ram p i) && (spent ram (n + 1) i p b).granted &&
        reaches ram n (frame (ram p i)) (spent ram (n + 1) i p b).spend rest

variable {Good : UInt64 → Prop} {m m₁ m₂ m₃ : Machine} {n w o z r t : ℕ}

theorem spent_succ (ram : Store UInt64) (n w p : ℕ) (b : Budget) : spent ram (n + 1) (w + 1) p b =
    spentAt (spent ram n x86.fanout) (ram p w) (spent ram (n + 1) w p b) := rfl

variable {ram ram' : Store UInt64} {p : ℕ}

theorem spent_congr (h : Agree x86 ram ram' n w p)
    (b : Budget) : spent ram' n w p b = spent ram n w p b := by
  induction n generalizing w p b with
  | zero => rfl
  | succ n ih =>
    induction w with
    | zero => rfl
    | succ w ihw =>
      have hentry : ram' p w = ram p w := h.1 w (Nat.lt_succ_self w)
      rw [spent_succ, spent_succ, ihw (h.mono (Nat.le_succ w)), hentry]
      unfold spentAt
      cases hfollow : presentUser (ram p w) with
      | false => rfl
      | true => simp only [ih (h.child (Nat.lt_succ_self w) (next_of_presentUser hfollow))]

theorem reaches_congr (h : Agree x86 ram ram' n w p)
    {l : List ℕ} (hl : l ∈ paths x86 n w) (b : Budget) :
    reaches ram' n p b l = reaches ram n p b l := by
  induction n generalizing w p b l with
  | zero => rfl
  | succ n ih =>
    obtain ⟨i, s, hi, hs, rfl⟩ := mem_paths_succ.mp hl
    have hbefore := spent_congr (h.mono (Nat.le_of_lt hi)) b
    simp only [reaches, hbefore, h.1 i hi]
    cases hfollow : presentUser (ram p i) with
    | false => rfl
    | true => rw [ih (h.child hi (next_of_presentUser hfollow)) hs]

structure Traced (n w : ℕ) (m : Machine) (o z : ℕ) (m' : Machine) : Prop where
  budget : budget m' = spent m.ram n w o (budget m)
  leaves : ∀ l ∈ paths x86 n w, leaf m' z l =
    if reaches m.ram n o (PageSupply.budget m) l && present (leaf m o l) then cowEntry (leaf m o l)
    else 0

theorem vmmClonePt_traced (hpre : ClonePre Good 0 x86.fanout m o z) :
    Traced 0 x86.fanout m o z (vmmClonePt m (pageAddr o) (pageAddr z)) := by
  have hcloned := vmmClonePt_cloned hpre
  have ho := hpre.sane.lt_of_inUse hpre.tree.root
  have hz := hpre.sane.lt_of_inUse hpre.inUse
  constructor
  · apply forUpTo_invariant fun _ m' => budget m' = budget m
    · rfl
    · intro i m' _ hm'
      exact (clonePte_cloned (by omega) (by omega) hpre.ne i).budget.trans hm'
  · intro l hl
    have hnone := hcloned.leaves l hl
    have hall := hcloned.complete (fun hpos => absurd hpos (Nat.lt_irrefl 0)) l hl
    cases hpres : present (leaf m o l) with
    | true => simpa [reaches] using hall hpres
    | false =>
      rcases hnone with ⟨hzero, _⟩ | ⟨hyes, _⟩
      · simpa using hzero
      · rw [hpres] at hyes
        cases hyes

section

variable (hpre : ClonePre Good (n + 1) (w + 1) m o z) (h : Cloned Good (n + 1) w m o z m₁)
    (ht : Traced (n + 1) w m o z m₁)
include hpre h ht

theorem traced_skip (hram : m₂.ram = m₁.ram)
    (hbudget : budget m₂ = spentAt (spent m.ram n x86.fanout) (m.ram o w) (budget m₁))
    (hskip : (presentUser (m.ram o w) && (budget m₁).granted) = false) :
    Traced (n + 1) (w + 1) m o z m₂ := by
  have hblank : x86.next (m₂.ram z w) = none := by
    rw [hram, h.newRest w le_rfl, hpre.blank w (Nat.lt_succ_self w)]
    rfl
  constructor
  · rw [hbudget, spent_succ, ht.budget]
  · intro l hl
    rcases mem_paths_width.mp hl with hl | ⟨s, hs, rfl⟩
    · simpa only [leaf, hram] using ht.leaves l hl
    · rw [ht.budget] at hskip
      simp [leaf_cons_none (paths_ne_nil hs) hblank, reaches, hskip]

theorem traced_branch (hfollow : presentUser (m.ram o w) = true) (hfresh : Fresh m₁ t m₂)
    (hc : Cloned Good n x86.fanout m₂ (frame (m.ram o w)) t m₃)
    (htc : Traced n x86.fanout m₂ (frame (m.ram o w)) t m₃) :
    Traced (n + 1) (w + 1) m o z (m₃.setEntry (pageAddr z) w (tableEntry (pageAddr t))) := by
  have hr := next_of_presentUser hfollow
  obtain ⟨hagree, -⟩ := branch_pre hpre h hr hfresh
  have hd := branchDone hpre h hr hfresh hc rfl
  have hgrant := hfresh.granted
  constructor
  · change budget m₃ = _
    rw [htc.budget, spent_congr hagree, hfresh.budget, spent_succ, ← ht.budget]
    simp [spentAt, hfollow, hgrant]
  · intro l hl
    rcases mem_paths_width.mp hl with hl | ⟨s, hs, rfl⟩
    · have hnew := hd.newPart.leafAt_eq hl
      simpa only [leaf, hnew] using ht.leaves l hl
    · have hsne := paths_ne_nil hs
      have hleaf := htc.leaves s hs
      rw [reaches_congr hagree hs, hfresh.budget] at hleaf
      rw [leaf_cons_some hsne hr, leaf_cons_some hsne hd.newLink]
      simp only [reaches, hfollow, ← ht.budget, hgrant, Bool.true_and]
      simp only [leaf, hd.newBranch.leafAt_eq hs]
      simpa only [leaf, hagree.leafAt_eq hs] using hleaf

end

section

variable {cloneChild : Machine → UInt64 → UInt64 → Machine}
  (hchild : ∀ m o z, ClonePre Good n x86.fanout m o z →
  Cloned Good n x86.fanout m o z (cloneChild m (pageAddr o) (pageAddr z)) ∧
    Traced n x86.fanout m o z (cloneChild m (pageAddr o) (pageAddr z)))
include hchild

theorem traced_entry (hpre : ClonePre Good (n + 1) (w + 1) m o z)
    (h : Cloned Good (n + 1) w m o z m₁) (ht : Traced (n + 1) w m o z m₁) :
    Traced (n + 1) (w + 1) m o z (cloneEntry cloneChild (pageAddr o) (pageAddr z) w m₁) := by
  have hold : m₁.ram o w = m.ram o w := h.oldRest w le_rfl
  have hdone := cloneEntry_done cloneChild (hpre.sane.grows h.grows)
    (h.grows.inUse o hpre.tree.root) z w
  generalize cloneEntry cloneChild (pageAddr o) (pageAddr z) w m₁ = m₄ at hdone ⊢
  cases hdone with
  | passed hskip =>
    rw [hold] at hskip
    apply traced_skip hpre h ht rfl
    · simp [spentAt, hskip]
    · simp [hskip]
  | refused hfollow href =>
    rw [hold] at hfollow
    apply traced_skip hpre h ht href.ram
    · simp [spentAt, hfollow, href.denied, href.budget]
    · simp [href.denied]
  | branched t hfollow hnew =>
    rw [hold] at hfollow ⊢
    obtain ⟨hc, htc⟩ := hchild _ _ t (branch_pre hpre h (next_of_presentUser hfollow) hnew).2
    exact traced_branch hpre h ht hfollow hnew hc htc

theorem cloneTable_traced (hpre : ClonePre Good (n + 1) w m o z) :
    Traced (n + 1) w m o z (cloneTable cloneChild w m (pageAddr o) (pageAddr z)) := by
  have hcloned : ∀ v ≤ w, Cloned Good (n + 1) v m o z (cloneTable cloneChild v m (pageAddr o)
    (pageAddr z)) :=
    fun v hv => cloneTable_cloned (fun m o z h => (hchild m o z h).1) (hpre.mono hv)
  have hloop : ∀ v ≤ w, Traced (n + 1) v m o z (cloneTable cloneChild v m (pageAddr o)
      (pageAddr z)) := by
    intro v hv
    induction v with
    | zero =>
      refine ⟨rfl, fun l hl => ?_⟩
      obtain ⟨i, _, hi, _⟩ := mem_paths_succ.mp hl
      omega
    | succ v ih =>
      exact traced_entry hchild (hpre.mono hv) (hcloned v (by omega)) (ih (by omega))
  exact hloop w le_rfl

end

theorem vmmClonePd_traced (m : Machine) (o z : ℕ) (hpre : ClonePre Good 1 x86.fanout m o z) :
    Traced 1 x86.fanout m o z (vmmClonePd m (pageAddr o) (pageAddr z)) :=
  cloneTable_traced (fun _ _ _ h => ⟨vmmClonePt_cloned h, vmmClonePt_traced h⟩) hpre

theorem vmmClonePdpt_traced (m : Machine) (o z : ℕ) (hpre : ClonePre Good 2 x86.fanout m o z) :
    Traced 2 x86.fanout m o z (vmmClonePdpt m (pageAddr o) (pageAddr z)) :=
  cloneTable_traced (fun m o z h => ⟨vmmClonePd_cloned m o z h, vmmClonePd_traced m o z h⟩) hpre

/-- `vmm_cow_clone` returns 0 when its first allocation is refused, and otherwise a table with the
leaves the budget reaches, and the rest of the budget. -/
theorem vmmCowClone_traced (hs : Sane m) (htree : TreeIn Good m 3 256 r) :
    ((vmmCowClone m (pageAddr r)).2 = 0 ∧ (budget m).granted = false) ∨
    ∃ z, (vmmCowClone m (pageAddr r)).2 = pageAddr z ∧ pageAddr z ≠ 0 ∧ z < 2 ^ 40 ∧
      (budget m).granted = true ∧
      budget (vmmCowClone m (pageAddr r)).1 = spent m.ram 3 256 r (budget m).spend ∧
      ∀ l ∈ userPaths, leaf (vmmCowClone m (pageAddr r)).1 z l =
        if reaches m.ram 3 r (budget m).spend l && present (leaf m r l) then cowEntry (leaf m r l)
        else 0 := by
  unfold vmmCowClone
  rcases vmmCloneKernelSpace_cases hs with ⟨hz, href⟩ | ⟨z, haddr, hne, hmade⟩
  · exact .inl ⟨by simp [hz], href.denied⟩
  · obtain ⟨hagree, hpre⟩ := clonePre_of_created hs htree hmade
    have htraced := cloneTable_traced (fun m o z h => ⟨vmmClonePdpt_cloned m o z h,
      vmmClonePdpt_traced m o z h⟩) hpre
    refine .inr ⟨z, by simp [haddr, hne], hne, hs.lt_of_isFree hmade.free, hmade.granted, ?_, ?_⟩
    · simp only [haddr, hne, if_false]
      rw [htraced.budget, spent_congr hagree, hmade.budget]
    · intro l hl
      have hleaf := htraced.leaves l hl
      rw [reaches_congr hagree hl, hmade.budget] at hleaf
      simp only [haddr, hne, if_false]
      simpa only [leaf, hagree.leafAt_eq hl] using hleaf

theorem vmmGetPhys_writeCr3 {q : ℕ} (hq : q < 2 ^ 40) (virt : UInt64) :
    vmmGetPhys (m.writeCr3 (pageAddr q)) virt =
    if present (leaf m q (pathOf virt)) then
      pageAddr (frame (leaf m q (pathOf virt))) ||| (virt &&& 0xFFF)
    else 0 := by
  have hroot : frame (m.writeCr3 (pageAddr q)).cr3 = q := frame_pageAddr hq
  rw [vmmGetPhys_eq, hroot, and_addrMask]
  rfl

private theorem or_offset_ne_zero (a : UInt64) {virt : UInt64} (h : virt.toNat % 4096 = 1) :
    a ||| (virt &&& 0xFFF) ≠ 0 := by
  intro hz
  have hand := Nat.and_two_pow_sub_one_eq_mod virt.toNat 12
  have hnat := congrArg UInt64.toNat (UInt64.or_eq_zero_iff.mp hz).2
  change virt.toNat &&& (2 ^ 12 - 1) = 0 at hnat
  omega

/-- The clone translates the user half as the parent does exactly when the budget reaches every
page of the parent; otherwise the call is all-or-nothing only if it returns 0. -/
theorem clone_all_or_nothing_iff (hs : Sane m) (htree : TreeIn (fun _ => True) m 3 256 r) :
    ((vmmCowClone m (pageAddr r)).2 = 0 ∨ ∀ virt, pml4Index virt < 256 →
        vmmGetPhys ((vmmCowClone m (pageAddr r)).1.writeCr3 (vmmCowClone m (pageAddr r)).2) virt =
          vmmGetPhys (m.writeCr3 (pageAddr r)) virt) ↔
    ((budget m).granted = false ∨ ∀ l ∈ userPaths, present (leaf m r l) = true →
        reaches m.ram 3 r (budget m).spend l = true) := by
  have hr := hs.lt_of_inUse htree.root
  rcases vmmCowClone_traced hs htree with ⟨hzero, hdenied⟩ | ⟨z, haddr, hne, hz, hgrant, -, hleaf⟩
  · exact iff_of_true (.inl hzero) (.inl hdenied)
  · have hnot : (vmmCowClone m (pageAddr r)).2 ≠ 0 := by
      rw [haddr]
      exact hne
    rw [or_iff_right hnot, or_iff_right (by simp [hgrant]), haddr]
    constructor
    · intro hsame l hl hpres
      -- Compare the translations at an address of the page other than its first.
      obtain ⟨virt, hvirt, rfl, hoff⟩ := exists_pathOf hl (show 1 < 4096 by omega)
      have hphys := hsame virt hvirt
      rw [vmmGetPhys_writeCr3 hz, vmmGetPhys_writeCr3 hr, hleaf _ hl, hpres] at hphys
      cases hreach : reaches m.ram 3 r (budget m).spend (pathOf virt) with
      | true => rfl
      | false =>
        simp only [hreach, Bool.false_and, Bool.false_eq_true, if_false, present_zero] at hphys
        exact absurd hphys.symm (or_offset_ne_zero _ hoff)
    · intro hall virt hvirt
      have hl := pathOf_mem hvirt
      rw [vmmGetPhys_writeCr3 hz, vmmGetPhys_writeCr3 hr, hleaf _ hl]
      cases hpres : present (leaf m r (pathOf virt)) with
      | false => simp
      | true =>
        obtain ⟨hp, _, hf, _⟩ := cowEntry_spec (leaf m r (pathOf virt))
        simp [hall _ hl hpres, hp, hf, hpres]

/-- A page mapped in the only address space, and the second coming allocation refused. -/
theorem exists_denied_space : ∃ (m₀ : Machine) (r : ℕ), Reachable (Op unmappedOnly) ⟨smallMachine,
      ∅⟩ ⟨m₀, {r}⟩ ∧
    let m := denying m₀ [false, true]
    Sane m ∧ TreeIn (fun _ => True) m 3 256 r ∧ present (leaf m r (pathOf 0)) = true ∧
      (budget m).granted = true ∧ (budget m).spend.granted = false := by
  obtain ⟨r, f, m₁, m, hopen, -, hmap, -, hwf, -, -, hleaf, haff, -⟩ :=
    exists_first_page (P := unmappedOnly) (k := 1) smallMachine_sane rfl ⟨rfl, by decide +kernel⟩
      (show pml4Index 0 < 256 by decide) true (fun _ _ habs => habs)
  have htree := hwf.tree r (Finset.mem_singleton_self r)
  have hfree := haff.free
  refine ⟨m, r, (Relation.ReflTransGen.single hopen).tail hmap, hwf.sane.congr rfl,
    ⟨htree.proper.imp (fun _ _ => trivial), htree.inUse⟩, ?_, ?_, rfl⟩
  · change present (leaf m r (pathOf 0)) = true
    rw [hleaf]
    exact (PageEntries.leafEntry_spec (pageAddr f) true).1
  · simp only [budget, denying, Budget.granted] at hfree ⊢
    simpa [Nat.one_le_iff_ne_zero] using hfree

/-- The clone stops at the first upper entry of the path. -/
theorem not_reaches_pathOf_zero {b : Budget} (hb : b.granted = false) (ram : Store UInt64)
    (p : ℕ) : reaches ram 3 p b (pathOf 0) = false := by
  have hfirst : (spent ram 3 0 p b).granted = false := hb
  change (presentUser (ram p 0) && (spent ram 3 0 p b).granted && _) = false
  rw [hfirst, Bool.and_false, Bool.false_and]

theorem clone_all_or_nothing_denied : ∃ (m : Machine) (r : ℕ), Sane m ∧
    TreeIn (fun _ => True) m 3 256 r ∧
    ¬ ((vmmCowClone m (pageAddr r)).2 = 0 ∨ ∀ virt, pml4Index virt < 256 →
        vmmGetPhys ((vmmCowClone m (pageAddr r)).1.writeCr3 (vmmCowClone m (pageAddr r)).2) virt =
          vmmGetPhys (m.writeCr3 (pageAddr r)) virt) := by
  obtain ⟨m, r, -, hs, htree, hpres, hgrant, hdenied⟩ := exists_denied_space
  refine ⟨denying m [false, true], r, hs, htree, fun h => ?_⟩
  rcases (clone_all_or_nothing_iff hs htree).mp h with hno | hall
  · rw [hgrant] at hno
    cases hno
  · have hreach := hall _ (pathOf_mem (by decide)) hpres
    rw [not_reaches_pathOf_zero hdenied] at hreach
    cases hreach

/-- With one page mapped, a clone whose second allocation is refused is returned without that
page. -/
theorem clone_loses_page : ∃ (m₀ : Machine) (r : ℕ), Reachable (Op unmappedOnly) ⟨smallMachine,
      ∅⟩ ⟨m₀, {r}⟩ ∧
    let result := vmmCowClone (denying m₀ [false, true]) (pageAddr r)
    result.2 ≠ 0 ∧ vmmGetPhys (m₀.writeCr3 (pageAddr r)) 1 ≠ 0 ∧
      vmmGetPhys (result.1.writeCr3 result.2) 1 = 0 := by
  obtain ⟨m, r, hrun, hs, htree, hpres, hgrant, hdenied⟩ := exists_denied_space
  have hpath : pathOf 1 = pathOf 0 := by decide
  refine ⟨m, r, hrun, ?_⟩
  rcases vmmCowClone_traced hs htree with ⟨_, hno⟩ | ⟨z, haddr, hne, hz, -, -, hleaf⟩
  · rw [hgrant] at hno
    cases hno
  · refine ⟨by rwa [haddr], ?_, ?_⟩
    · change present (leaf m r (pathOf 0)) = true at hpres
      rw [vmmGetPhys_writeCr3 (hs.lt_of_inUse htree.root), hpath, hpres]
      exact or_offset_ne_zero _ rfl
    · rw [haddr, vmmGetPhys_writeCr3 hz, hpath, hleaf _ (pathOf_mem (by decide)),
        not_reaches_pathOf_zero hdenied]
      simp

end NexusKernel.CloneFailure
