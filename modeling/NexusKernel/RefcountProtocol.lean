import NexusKernel.Reclamation

/-!
The life of one page under `pmm_page_ref` and `pmm_page_unref`. Its owner holds one reference;
after a list of calls one plus the `ref` calls minus the `unref` calls are outstanding. The page
should be returned by the call that brings this to zero and by no earlier one.

The count is kept in a 16-bit cell and only for the first gibibyte. A page beyond is never
returned, and with 65536 references outstanding the cell stays below the true number until the
end.
-/

namespace NexusKernel.RefcountProtocol

open PhysicalMemory PageAllocation Reclamation BootMemory
open List (count_append prefix_append prefix_rfl)

inductive RefCall where
  | ref
  | unref
  deriving DecidableEq, Repr

def makeCall (phys : UInt64) (s : Pmm) : RefCall → Pmm
  | .ref => pmmPageRef s phys
  | .unref => pmmPageUnref s phys

def afterCalls (s : Pmm) (phys : UInt64) (calls : List RefCall) : Pmm :=
  calls.foldl (makeCall phys) s

def outstanding (calls : List RefCall) : ℕ := 1 + calls.count .ref - calls.count .unref

/-- No caller gives back a reference that nobody holds. -/
def Legal (calls : List RefCall) : Prop := ∀ p, p <+: calls → p.count .unref ≤ 1 + p.count .ref

def givenBack (calls : List RefCall) : List RefCall :=
  calls ++ List.replicate (outstanding calls) .unref

def Exhausted (calls : List RefCall) : Prop := ∃ q, q <+: calls ∧ outstanding q = 0

/-- After every call the page is free exactly if no reference is left. -/
def FreedOnTime (s : Pmm) (phys : UInt64) (calls : List RefCall) : Prop :=
  ∀ p, p <+: calls → (IsFree (afterCalls s phys p) (pageOf phys) ↔ Exhausted p)

/-- Until the references run out, 16 bits can hold their number. -/
def FitsCell (calls : List RefCall) : Prop :=
  ∀ p, p <+: calls → ¬ Exhausted p → outstanding p < 65536

section

variable {p calls : List RefCall}

theorem outstanding_ref (h : p.count .unref ≤ 1 + p.count .ref) :
    outstanding (p ++ [.ref]) = outstanding p + 1 := by
  simp only [outstanding, count_append, List.count_singleton]
  simp
  omega

theorem outstanding_unref (p : List RefCall) : outstanding (p ++ [.unref]) = outstanding p - 1 := by
  simp only [outstanding, count_append, List.count_singleton]
  simp
  omega

theorem outstanding_returns (calls : List RefCall) (j : ℕ) :
    outstanding (calls ++ List.replicate j .unref) = outstanding calls - j := by
  simp only [outstanding, count_append, List.count_replicate]
  simp
  omega

variable {q : List RefCall}

theorem Exhausted.mono (h : Exhausted p) (hpq : p <+: q) : Exhausted q := by
  obtain ⟨r, hr, hz⟩ := h
  exact ⟨r, hr.trans hpq, hz⟩

theorem not_exhausted_nil : ¬ Exhausted [] := by
  rintro ⟨q, hq, hz⟩
  rw [List.prefix_nil.mp hq] at hz
  cases hz

theorem exhausted_snoc (p : List RefCall) (c : RefCall) :
    Exhausted (p ++ [c]) ↔ Exhausted p ∨ outstanding (p ++ [c]) = 0 := by
  constructor
  · rintro ⟨q, hq, hz⟩
    rcases List.prefix_concat_iff.mp hq with rfl | hq
    · exact .inr hz
    · exact .inl ⟨q, hq, hz⟩
  · rintro (h | hz)
    · exact h.mono (prefix_append p [c])
    · exact ⟨p ++ [c], prefix_rfl, hz⟩

theorem exists_last_unref (hlegal : Legal calls) (h : Exhausted calls) :
    ∃ e, e ++ [.unref] <+: calls ∧ ¬ Exhausted e ∧ outstanding e = 1 := by
  induction calls using List.reverseRecOn with
  | nil => exact absurd h not_exhausted_nil
  | append_singleton p c ih =>
    have hp : p <+: p ++ [c] := prefix_append p [c]
    by_cases hearlier : Exhausted p
    · obtain ⟨e, he, hrest⟩ := ih (fun q hq => hlegal q (hq.trans hp)) hearlier
      exact ⟨e, he.trans hp, hrest⟩
    · have hzero := ((exhausted_snoc p c).mp h).resolve_left hearlier
      have hpos : outstanding p ≠ 0 := fun hz => hearlier ⟨p, prefix_rfl, hz⟩
      cases c with
      | ref =>
        rw [outstanding_ref (hlegal p hp)] at hzero
        omega
      | unref =>
        rw [outstanding_unref] at hzero
        exact ⟨p, prefix_rfl, hearlier, by omega⟩

/-- A part of the completed calls is a part of the calls, or all of them with some returns. -/
theorem prefix_givenBack (h : q <+: givenBack calls) :
    q <+: calls ∨ ∃ j, j ≤ outstanding calls ∧ q = calls ++ List.replicate j .unref := by
  rcases List.prefix_or_prefix_of_prefix h (prefix_append calls _) with hq | ⟨r, rfl⟩
  · exact .inl hq
  · have hr := (List.prefix_append_right_inj calls).mp h
    obtain ⟨hlen, hrep⟩ := List.prefix_replicate_iff.mp hr
    exact .inr ⟨r.length, hlen, congrArg (calls ++ ·) hrep⟩

theorem legal_givenBack (hlegal : Legal calls) : Legal (givenBack calls) := by
  intro q hq
  rcases prefix_givenBack hq with hq | ⟨j, hj, rfl⟩
  · exact hlegal q hq
  · have := hlegal calls prefix_rfl
    simp only [count_append, List.count_replicate, outstanding] at hj ⊢
    simp
    omega

theorem fitsCell_givenBack (h : FitsCell calls) : FitsCell (givenBack calls) := by
  intro q hq hopen
  rcases prefix_givenBack hq with hq | ⟨j, _, rfl⟩
  · exact h q hq hopen
  · have hcalls :=
      h calls prefix_rfl (fun hex => hopen (hex.mono (prefix_append calls _)))
    rw [outstanding_returns]
    omega

end

def Counted (s : Pmm) (phys : UInt64) (n : ℕ) : Prop :=
  InUse s (pageOf phys) ∧ (s.pageRefcount (pageOf phys)).toNat = n

variable {s : Pmm} {phys : UInt64} {n : ℕ} {calls p : List RefCall}

theorem afterCalls_snoc (s : Pmm) (phys : UInt64) (p : List RefCall) (c : RefCall) :
    afterCalls s phys (p ++ [c]) = makeCall phys (afterCalls s phys p) c := by
  simp [afterCalls]

theorem counted_ref (hlow : pageOf phys < maxPages) (h : Counted s phys n) :
    Counted (pmmPageRef s phys) phys ((n + 1) % 65536) := by
  obtain ⟨huse, hnum⟩ := h
  have hnot : ¬ pageOf phys ≥ maxPages := by omega
  constructor
  · rw [pmmPageRef, if_neg hnot]
    exact huse
  · simp only [pmmPageRef, hnot, if_false, Function.update_self, UInt16.toNat_add, hnum]
    rfl

theorem counted_unref_zero (h : Counted s phys 0) : pmmPageUnref s phys = s := by
  rcases pmmPageUnref_cases s phys with ⟨hsame, _⟩ | ⟨_, _, hne, _⟩
  · exact hsame
  · exact absurd (UInt16.toNat_inj.mp h.2) hne

section

variable (hlow : pageOf phys < maxPages) (hpos : pageOf phys ≠ 0)
include hlow hpos

theorem counted_unref_one (h : Counted s phys 1) : IsFree (pmmPageUnref s phys) (pageOf phys) := by
  have hone : s.pageRefcount (pageOf phys) = 1 := UInt16.toNat_inj.mp h.2
  rcases pmmPageUnref_cases s phys with ⟨_, hout⟩ | ⟨_, _, _, _, ⟨_, _, hret⟩ | ⟨hno, _⟩⟩
  · rcases hout with hhigh | hz | hz
    · omega
    · exact absurd hz hpos
    · cases hone.symm.trans hz
  · exact ⟨by rw [hret.maxPageIndex]; exact h.1.1, by simp [hret.test]⟩
  · rcases hno with hne | hclear
    · exact absurd hone hne
    · exact absurd h.1.2 (by simp [hclear])

theorem counted_unref (h : Counted s phys (n + 2)) :
    Counted (pmmPageUnref s phys) phys (n + 1) := by
  obtain ⟨huse, hnum⟩ := h
  rcases pmmPageUnref_cases s phys with
    ⟨_, hout⟩ | ⟨_, _, _, hcells, ⟨hone, _, _⟩ | ⟨_, hbitmap, _, hmax, _⟩⟩
  · rcases hout with hhigh | hz | hz
    · omega
    · exact absurd hz hpos
    · simp [hz] at hnum
  · simp [hone] at hnum
  · refine ⟨by simpa only [InUse, hbitmap, hmax] using huse, ?_⟩
    have hlarge : (1 : UInt16) ≤ s.pageRefcount (pageOf phys) := by
      rw [UInt16.le_iff_toNat_le, hnum]
      simp
    rw [hcells, Function.update_self, UInt16.toNat_sub_of_le _ _ hlarge, hnum]
    simp

end

theorem isFree_makeCall (h : IsFree s (pageOf phys)) (c : RefCall) :
    IsFree (makeCall phys s c) (pageOf phys) := by
  cases c with
  | ref =>
    simp only [makeCall, pmmPageRef]
    split
    · exact h
    · exact h
  | unref =>
    rcases pmmPageUnref_cases s phys with
      ⟨hsame, _⟩ | ⟨_, _, _, _, ⟨_, hset, _⟩ | ⟨_, hbitmap, _, hmax, _⟩⟩
    · rwa [makeCall, hsame]
    · exact absurd h fun hfree => hfree.not_inUse ⟨hfree.1, hset⟩
    · simpa only [makeCall, IsFree, hbitmap, hmax] using h

/-- Beyond the counted pages both calls return at once. -/
theorem afterCalls_high (hhigh : maxPages ≤ pageOf phys) (calls : List RefCall) :
    afterCalls s phys calls = s := by
  induction calls using List.reverseRecOn with
  | nil => rfl
  | append_singleton p c ih =>
    rw [afterCalls_snoc, ih]
    cases c with
    | ref => exact if_pos hhigh
    | unref => exact if_pos (.inl hhigh)

section

variable (hlow : pageOf phys < maxPages) (hpos : pageOf phys ≠ 0) (hstart : Counted s phys 1)
  (hlegal : Legal calls)
include hlow hpos hstart hlegal

/-- While the references fit the cell, it is exact until they run out, and the page is free from
then on. -/
theorem counted_or_free (hfits : FitsCell calls) (hp : p <+: calls) :
    (Exhausted p ∧ IsFree (afterCalls s phys p) (pageOf phys)) ∨
      (¬ Exhausted p ∧ Counted (afterCalls s phys p) phys (outstanding p)) := by
  induction p using List.reverseRecOn with
  | nil => exact .inr ⟨not_exhausted_nil, hstart⟩
  | append_singleton p c ih =>
    have hprev := (prefix_append p [c]).trans hp
    rw [afterCalls_snoc]
    rcases ih hprev with ⟨hex, hfree⟩ | ⟨hopen, hnum⟩
    · exact .inl ⟨hex.mono (prefix_append p [c]), isFree_makeCall hfree c⟩
    have hne : outstanding p ≠ 0 := fun hz => hopen ⟨p, prefix_rfl, hz⟩
    have hstill : outstanding (p ++ [c]) ≠ 0 → ¬ Exhausted (p ++ [c]) := fun hnow hex =>
      ((exhausted_snoc p c).mp hex).elim hopen hnow
    cases c with
    | ref =>
      have hmore := outstanding_ref (hlegal p hprev)
      have hopen' := hstill (by omega)
      have hsmall := hfits _ hp hopen'
      refine .inr ⟨hopen', ?_⟩
      rw [hmore] at hsmall ⊢
      have href := counted_ref hlow hnum
      rwa [Nat.mod_eq_of_lt hsmall] at href
    | unref =>
      have hless := outstanding_unref p
      rcases Nat.lt_or_ge (outstanding p) 2 with hfew | hmany
      · have hlast : outstanding p = 1 := by omega
        refine .inl ⟨(exhausted_snoc p _).mpr (.inr (by omega)), ?_⟩
        exact counted_unref_one hlow hpos (hlast ▸ hnum)
      · obtain ⟨k, hk⟩ := Nat.exists_eq_add_of_le' hmany
        refine .inr ⟨hstill (by omega), ?_⟩
        rw [hless, hk]
        exact counted_unref hlow hpos (hk ▸ hnum)

/-- Once the references have exceeded the cell, it is smaller than their number, unless the page
was freed at a wrong time. -/
theorem cell_lt_outstanding (htime : FreedOnTime s phys calls)
    (hp : p <+: calls) (hopen : ¬ Exhausted p) : ∃ n, Counted (afterCalls s phys p) phys n ∧
    n ≤ outstanding p ∧ ∀ q, q <+: p → 65536 ≤ outstanding q → n < outstanding p := by
  induction p using List.reverseRecOn with
  | nil =>
    refine ⟨1, hstart, le_rfl, ?_⟩
    intro q hq hlarge
    rw [List.prefix_nil.mp hq] at hlarge
    exact absurd hlarge (by decide)
  | append_singleton p c ih =>
    have hprev := (prefix_append p [c]).trans hp
    have hopen' : ¬ Exhausted p := fun hex => hopen (hex.mono (prefix_append p [c]))
    obtain ⟨n, hnum, hle, hlt⟩ := ih hprev hopen'
    have hcell : n < 65536 := hnum.2 ▸ UInt16.toNat_lt _
    have hnow : outstanding (p ++ [c]) ≠ 0 := fun hz => hopen ⟨_, prefix_rfl, hz⟩
    have hkept : ∀ n' < 65536, (n < outstanding p → n' < outstanding (p ++ [c])) →
      ∀ q, q <+: p ++ [c] → 65536 ≤ outstanding q → n' < outstanding (p ++ [c]) := by
      intro n' hn' hnext q hq hlarge
      rcases List.prefix_concat_iff.mp hq with rfl | hq
      · omega
      · exact hnext (hlt q hq hlarge)
    rw [afterCalls_snoc]
    cases c with
    | ref =>
      have hmore := outstanding_ref (hlegal p hprev)
      exact ⟨(n + 1) % 65536, counted_ref hlow hnum, by omega, hkept _ (by omega) (by omega)⟩
    | unref =>
      have hless := outstanding_unref p
      rcases Nat.lt_trichotomy n 1 with hzero | rfl | hmany
      · obtain rfl : n = 0 := by omega
        rw [makeCall, counted_unref_zero hnum]
        exact ⟨0, hnum, by omega, hkept 0 hcell (by omega)⟩
      · have hfree := counted_unref_one hlow hpos hnum
        rw [← makeCall, ← afterCalls_snoc] at hfree
        exact absurd ((htime _ hp).mp hfree) hopen
      · obtain ⟨k, rfl⟩ := Nat.exists_eq_add_of_le' hmany
        exact ⟨k + 1, counted_unref hlow hpos hnum, by omega, hkept (k + 1) (by omega) (by omega)⟩

/-- An exceeded cell misses the moment at which the references run out. -/
theorem fitsCell_of_freedOnTime (hex : Exhausted calls) (htime : FreedOnTime s phys calls) :
    FitsCell calls := by
  obtain ⟨e, he, hopen, hlast⟩ := exists_last_unref hlegal hex
  have hpre := (prefix_append e [.unref]).trans he
  have hz : outstanding (e ++ [.unref]) = 0 := by
    rw [outstanding_unref]
    omega
  intro p hp hpopen
  by_contra hlarge
  have hpe : p <+: e := by
    rcases List.prefix_or_prefix_of_prefix hp he with h | h
    · rcases List.prefix_concat_iff.mp h with rfl | h
      · exact absurd ⟨_, prefix_rfl, hz⟩ hpopen
      · exact h
    · exact absurd ⟨_, h, hz⟩ hpopen
  obtain ⟨n, hnum, _, hlt⟩ := cell_lt_outstanding hlow hpos hstart hlegal htime hpre hopen
  have hn : n = 0 := by
    have := hlt p hpe (by omega)
    omega
  subst n
  have hfree := (htime _ he).mpr ⟨_, prefix_rfl, hz⟩
  rw [afterCalls_snoc, makeCall, counted_unref_zero hnum] at hfree
  exact hfree.not_inUse hnum.1

end

/-- What `pmm_alloc_page` leaves behind for the page it returns. -/
theorem pmmAllocPage_granted (hs : BitmapKept s) (hsome : (pmmAllocPage s).2 ≠ 0) :
    pageOf (pmmAllocPage s).2 ≠ 0 ∧ IsFree s (pageOf (pmmAllocPage s).2) ∧
      InUse (pmmAllocPage s).1 (pageOf (pmmAllocPage s).2) ∧
      (pageOf (pmmAllocPage s).2 < maxPages → Counted (pmmAllocPage s).1 (pmmAllocPage s).2 1) := by
  rcases pmmAllocPage_cases hs with ⟨hfail, _⟩ | ⟨i, hlow, hfree, haddr, htaken⟩
  · exact absurd (congrArg Prod.snd hfail) hsome
  · have hi : i < 2 ^ 52 := hfree.1.trans s.maxPageIndex_lt
    have hpage : pageOf (pmmAllocPage s).2 = i := by rw [haddr, pageOf_pageAddr hi]
    have huse : InUse (pmmAllocPage s).1 i :=
      ⟨by rw [htaken.maxPageIndex]; exact hfree.1, by simp [htaken.test i hfree.1]⟩
    rw [hpage]
    refine ⟨by omega, hfree, huse, fun hcounted => ⟨by rwa [hpage], ?_⟩⟩
    rw [hpage, htaken.refcount i, if_pos ⟨⟨le_rfl, Nat.lt_succ_self i⟩, hcounted⟩]
    simp

/-- A page from `pmm_alloc_page` is returned exactly when the last of its references is given back
if and only if it lies in the first gibibyte and its references fit the 16-bit cell until they run
out. -/
theorem refcount_protocol_iff (hs : BitmapKept s) (hsome : (pmmAllocPage s).2 ≠ 0)
    (hlegal : Legal calls) : FreedOnTime (pmmAllocPage s).1 (pmmAllocPage s).2 (givenBack calls) ↔
      pageOf (pmmAllocPage s).2 < maxPages ∧ FitsCell calls := by
  obtain ⟨hpos, _, huse, hcounted⟩ := pmmAllocPage_granted hs hsome
  have hlegal' := legal_givenBack hlegal
  have hex : Exhausted (givenBack calls) :=
    ⟨_, prefix_rfl, by rw [givenBack, outstanding_returns, Nat.sub_self]⟩
  constructor
  · intro htime
    have hlow : pageOf (pmmAllocPage s).2 < maxPages := by
      by_contra hhigh
      have hfree := (htime _ prefix_rfl).mpr hex
      rw [afterCalls_high (Nat.le_of_not_lt hhigh)] at hfree
      exact hfree.not_inUse huse
    refine ⟨hlow, fun p hp => ?_⟩
    exact fitsCell_of_freedOnTime hlow hpos (hcounted hlow) hlegal' hex htime p
      (hp.trans (prefix_append calls _))
  · rintro ⟨hlow, hfits⟩ p hp
    rcases counted_or_free hlow hpos (hcounted hlow) hlegal' (fitsCell_givenBack hfits) hp with
      ⟨hdone, hfree⟩ | ⟨hopen, hnum⟩
    · exact iff_of_true hfree hdone
    · exact iff_of_false (fun hfree => hfree.not_inUse hnum.1) hopen

theorem outstanding_le_length (calls : List RefCall) : outstanding calls ≤ calls.length + 1 := by
  have := List.count_le_length (a := RefCall.ref) (l := calls)
  simp only [outstanding]
  omega

theorem fitsCell_of_length (h : calls.length < 65535) : FitsCell calls := by
  intro p hp _
  have := outstanding_le_length p
  have := hp.length_le
  omega

theorem refcount_protocol_smallBoot :
    BitmapKept BootMemory.smallBoot ∧ (pmmAllocPage BootMemory.smallBoot).2 = 0x2000 ∧
      Legal [.ref, .unref, .ref] ∧
      FreedOnTime (pmmAllocPage BootMemory.smallBoot).1 (pmmAllocPage BootMemory.smallBoot).2
        (givenBack [.ref, .unref, .ref]) := by
  obtain ⟨s₀, hinit, hbooted⟩ := pmmInit_booted smallMap_usable fun _ => 0
  obtain rfl : smallBoot = s₀ := Option.some.inj ((Option.some_get _).trans hinit)
  have hlegal : Legal [.ref, .unref, .ref] := by
    intro p hp
    rw [← List.mem_inits] at hp
    revert p
    decide
  refine ⟨hbooted.kept, by decide, hlegal, ?_⟩
  exact (refcount_protocol_iff hbooted.kept (by decide) hlegal).mpr
    ⟨by decide, fitsCell_of_length (by decide)⟩

theorem not_freedOnTime_high (hs : BitmapKept s) (hsome : (pmmAllocPage s).2 ≠ 0)
    (hhigh : maxPages ≤ pageOf (pmmAllocPage s).2) :
    ¬ FreedOnTime (pmmAllocPage s).1 (pmmAllocPage s).2 [.unref] := by
  intro htime
  have hfree := (htime _ prefix_rfl).mpr ⟨_, prefix_rfl, rfl⟩
  rw [afterCalls_high hhigh] at hfree
  exact hfree.not_inUse (pmmAllocPage_granted hs hsome).2.2.1

/-- A single `unref` above the first gibibyte leaves the page in use. -/
theorem high_page_never_freed : Legal [.unref] ∧ (pmmAllocPage Reclamation.highMachine.pmm).2 ≠ 0 ∧
    ¬ FreedOnTime (pmmAllocPage Reclamation.highMachine.pmm).1
      (pmmAllocPage Reclamation.highMachine.pmm).2 [.unref] := by
  have hkept := highMachine_sane.kept
  have hfree : IsFree highMachine.pmm 262144 := ⟨by decide, by rw [highMachine_test]; decide⟩
  have hsome : (pmmAllocPage highMachine.pmm).2 ≠ 0 := by
    rcases pmmAllocPage_cases hkept with ⟨_, hfull⟩ | ⟨i, hlow, hi, haddr, _⟩
    · exact absurd (hfull 262144 (by decide) hfree.1) hfree.not_inUse
    · rw [haddr]
      exact pageAddr_ne_zero hlow (hi.1.trans (Pmm.maxPageIndex_lt _))
  obtain ⟨_, hpage, _, _⟩ := pmmAllocPage_granted hkept hsome
  have hhigh := hpage.2
  rw [highMachine_test, decide_eq_false_iff_not] at hhigh
  refine ⟨?_, hsome, not_freedOnTime_high hkept hsome (Nat.le_of_not_lt hhigh)⟩
  intro p hp
  rw [← List.mem_inits] at hp
  revert p
  decide

end NexusKernel.RefcountProtocol
