import NexusKernel.Lib.Runs
import NexusKernel.PathBuffers

/-!
The table of open files of a process, made by the first `sys_open` that needs it, with the number
of open files beside the slots. Path lookup is a parameter at first.
-/

namespace NexusKernel.DescriptorTables

open Lib.Runs Function

variable {File : Type}

def maxFds : ℕ := 64

structure FdTable (File : Type) where
  fds : ℕ → Option File
  openCount : UInt32

def FdTable.new : FdTable File := ⟨fun _ => none, 0⟩

def initTable : Option File → FdTable File
  | some tty0 => ⟨fun i => if i < 3 then some tty0 else none, 3⟩
  | none => .new

/-- `sys_open` with the file that the path leads to, if any. Without memory for a table there is
no result: its slots are looked at through the null pointer. -/
def sysOpen (table : Option (FdTable File)) (file : Option File) (served : Bool) :
    Option (Int × Option (FdTable File)) :=
  match file with
  | none => some (-2, table)
  | some file =>
    match table.orElse fun _ => if served then some .new else none with
    | none => none
    | some t =>
      match (List.range maxFds).find? fun i => 3 ≤ i ∧ (t.fds i).isNone with
      | some i => some (i, some ⟨update t.fds i (some file), t.openCount + 1⟩)
      | none => some (-24, some t)

def sysClose (table : Option (FdTable File)) (fd : UInt64) : Int × Option (FdTable File) :=
  match table with
  | none => (-9, none)
  | some t =>
    if fd.toNat ≥ maxFds ∨ (t.fds fd.toNat).isNone then (-9, some t)
    else (0, some ⟨update t.fds fd.toNat none, t.openCount - 1⟩)

inductive Step : Option (FdTable File) → Option (FdTable File) → Prop
  | opens {t t'} (file : Option File) (served : Bool) {r : Int}
      (h : sysOpen t file served = some (r, t')) : Step t t'
  | closes {t} (fd : UInt64) : Step t (sysClose t fd).2

def slots (table : Option (FdTable File)) : ℕ → Option File := (table.getD .new).fds

def occupied (fds : ℕ → Option File) : Finset ℕ :=
    (Finset.range maxFds).filter fun i => (fds i).isSome

def Counted (table : Option (FdTable File)) : Prop :=
  (table.getD .new).openCount.toNat = (occupied (slots table)).card

def LeastFree (fds : ℕ → Option File) (i : ℕ) : Prop :=
  3 ≤ i ∧ i < maxFds ∧ fds i = none ∧ ∀ j, 3 ≤ j → j < i → fds j ≠ none

variable {i : ℕ}

theorem leastFree_of_find {t : FdTable File}
    (h : (List.range maxFds).find? (fun i => 3 ≤ i ∧ (t.fds i).isNone) = some i) :
    LeastFree t.fds i := by
  obtain ⟨hfree, hmem, hpre⟩ := List.find?_range_eq_some.mp h
  simp only [Option.isNone_iff_eq_none, decide_eq_true_eq] at hfree
  refine ⟨hfree.1, List.mem_range.mp hmem, hfree.2, fun j hj hlt hnone => ?_⟩
  simpa [hj, hnone] using hpre j hlt

section

variable (fds : ℕ → Option File)
include fds

theorem occupied_insert (hi : i < maxFds) (hfree : fds i = none) (file : File) :
    (occupied (update fds i (some file))).card = (occupied fds).card + 1 := by
  have hinsert : occupied (update fds i (some file)) = insert i (occupied fds) := by
    ext j
    by_cases hj : j = i
    · simp [occupied, hj, hi]
    · simp [occupied, hj]
  rw [hinsert, Finset.card_insert_of_notMem (by simp [occupied, hfree])]

theorem occupied_erase (hi : i < maxFds) (hused : (fds i).isSome) :
    (occupied (update fds i none)).card + 1 = (occupied fds).card := by
  have herase : occupied (update fds i none) = (occupied fds).erase i := by
    ext j
    by_cases hj : j = i
    · simp [occupied, hj]
    · simp [occupied, hj]
  rw [herase, Finset.card_erase_add_one]
  simp [occupied, hi, hused]

theorem occupied_card_le : (occupied fds).card ≤ maxFds := by
  simpa [occupied] using Finset.card_filter_le (Finset.range maxFds) fun i => (fds i).isSome

end

structure Opened (t t' : Option (FdTable File)) (r : Int) : Prop where
  success : 0 ≤ r → LeastFree (slots t) r.toNat ∧ ∃ file, slots t' =
    update (slots t) r.toNat (some file)
  failure : r < 0 → slots t' = slots t
  counted : Counted t → Counted t'

theorem opened {t t' : Option (FdTable File)} {file : Option File} {served : Bool} {r : Int}
    (h : sysOpen t file served = some (r, t')) : Opened t t' r := by
  cases file with
  | none =>
    obtain ⟨rfl, rfl⟩ : -2 = r ∧ t = t' := by simpa [sysOpen] using h
    exact ⟨by omega, fun _ => rfl, id⟩
  | some file =>
    unfold sysOpen at h
    cases hnew : t.orElse fun _ => if served then some FdTable.new else none with
    | none => simp only [hnew, reduceCtorEq] at h
    | some t₁ =>
      have hsame : t.getD .new = t₁ := by
        cases t with
        | none => cases served <;> simp_all [Option.orElse]
        | some t => exact Option.some.inj hnew
      have hslots : slots t = t₁.fds := congrArg FdTable.fds hsame
      simp only [hnew] at h
      cases hfind : (List.range maxFds).find? fun i => 3 ≤ i ∧ (t₁.fds i).isNone with
      | none =>
        obtain ⟨rfl, rfl⟩ : -24 = r ∧ some t₁ = t' := by
          rw [hfind] at h
          simpa using h
        refine ⟨by omega, fun _ => hslots.symm, fun hnum => ?_⟩
        rwa [Counted, hslots, hsame] at hnum
      | some i =>
        obtain ⟨rfl, rfl⟩ :
            (i : Int) = r ∧ some ⟨update t₁.fds i (some file), t₁.openCount + 1⟩ = t' := by
          rw [hfind] at h
          simpa using h
        have hleast := leastFree_of_find hfind
        refine ⟨fun _ => ⟨hslots ▸ hleast, file, hslots ▸ rfl⟩, by omega, fun hnum => ?_⟩
        have hcard := occupied_insert t₁.fds hleast.2.1 hleast.2.2.1 file
        have hsum := occupied_card_le (update t₁.fds i (some file))
        rw [Counted, hslots, hsame] at hnum
        change (t₁.openCount + 1).toNat = (occupied (update t₁.fds i (some file))).card
        have hmax : maxFds = 64 := rfl
        rw [UInt32.toNat_add, UInt32.toNat_one]
        omega

structure Closed (t t' : Option (FdTable File)) (fd : UInt64) (r : Int) : Prop where
  success : r = 0 ↔ fd.toNat < maxFds ∧ slots t fd.toNat ≠ none
  slot : r = 0 → slots t' = update (slots t) fd.toNat none
  failure : r ≠ 0 → t' = t
  counted : Counted t → Counted t'

theorem closed (t : Option (FdTable File)) (fd : UInt64) :
    Closed t (sysClose t fd).2 fd (sysClose t fd).1 := by
  cases t with
  | none => exact ⟨by simp [sysClose, slots, FdTable.new], by simp [sysClose], fun _ => rfl, id⟩
  | some t =>
    unfold sysClose
    dsimp only
    split_ifs with hfree
    · refine ⟨?_, by simp, fun _ => rfl, id⟩
      simp only [Option.isNone_iff_eq_none] at hfree
      rcases hfree with hlarge | hnone
      · simp [Nat.not_lt.mpr hlarge]
      · simp [slots, hnone]
    · simp only [ge_iff_le, Option.isNone_iff_eq_none, not_or, not_le] at hfree
      refine ⟨by simpa [slots] using hfree, fun _ => rfl, by simp, fun hnum => ?_⟩
      have hcard := occupied_erase t.fds hfree.1 (Option.isSome_iff_ne_none.mpr hfree.2)
      change t.openCount.toNat = (occupied t.fds).card at hnum
      change (t.openCount - 1).toNat = (occupied (update t.fds fd.toNat none)).card
      rw [UInt32.toNat_sub_of_le _ _ (UInt32.le_iff_toNat_le.mpr ?_), UInt32.toNat_one]
      · omega
      · rw [UInt32.toNat_one]
        omega

/-- No table, an empty one, or that of the first process. -/
def Start (t : Option (FdTable File)) : Prop := t = none ∨ t = some .new ∨ ∃ tty0,
    t = some (initTable tty0)

theorem counted_new : Counted (some (FdTable.new : FdTable File)) := by
  simp [Counted, slots, FdTable.new, occupied]

theorem Start.counted {t : Option (FdTable File)} (h : Start t) : Counted t := by
  rcases h with rfl | rfl | ⟨tty0, rfl⟩
  · exact counted_new
  · exact counted_new
  · cases tty0 with
    | none => exact counted_new
    | some file =>
      change (3 : UInt32).toNat = (occupied (initTable (some file)).fds).card
      rfl

/-- Over any calls of `sys_open` and `sys_close` the counter is the number of slots in use; an open
takes the least free descriptor from 3 on, a close works exactly for the slots in use, and neither
changes another slot. -/
theorem descriptors_consistent {t₀ t : Option (FdTable File)} (hst : Start t₀)
    (hrun : Reachable Step t₀ t) :
    Counted t ∧ (∀ file served r t', sysOpen t file served = some (r, t') → Opened t t' r) ∧
      ∀ fd, Closed t (sysClose t fd).2 fd (sysClose t fd).1 := by
  refine ⟨?_, fun file served r t' h => opened h, closed t⟩
  refine hrun.invariant Counted (fun a b ha hab => ?_) hst.counted
  cases hab with
  | opens file served h => exact (opened h).counted ha
  | closes fd => exact (closed a fd).counted ha

/-- The first process closes its standard input and opens a file. -/
theorem descriptors_consistent_init : Start (some (initTable (some 7))) ∧
    ∃ t, sysOpen (sysClose (some (initTable (some 7))) 0).2 (some 9) true = some (3, t) ∧
      Counted t := by
  have hst : Start (some (initTable (some 7))) := .inr (.inr ⟨_, rfl⟩)
  refine ⟨hst, _, rfl, (descriptors_consistent hst (t := some ⟨_, _⟩) ?_).1⟩
  exact .tail (.single (.closes 0)) (.opens (some 9) true rfl)

/-- A call of `sys_open`, or of `sys_close` for another descriptor. -/
def Spares (i : ℕ) (a b : Option (FdTable File)) : Prop :=
  (∃ file served r, sysOpen a file served = some (r, b)) ∨
    ∃ fd : UInt64, fd.toNat ≠ i ∧ b = (sysClose a fd).2

theorem slots_sysClose (t : Option (FdTable File)) {fd : UInt64} (hfd : fd.toNat ≠ i) :
    slots (sysClose t fd).2 i = slots t i := by
  by_cases hr : (sysClose t fd).1 = 0
  · rw [(closed t fd).slot hr, update_of_ne hfd.symm]
  · rw [(closed t fd).failure hr]

theorem slots_of_spares {a b : Option (FdTable File)} (hab : Spares i a b)
    (hopen : slots a i ≠ none) : slots b i = slots a i := by
  rcases hab with ⟨file, served, r, h⟩ | ⟨fd, hfd, rfl⟩
  · by_cases hr : 0 ≤ r
    · obtain ⟨hleast, file, hslots⟩ := (opened h).success hr
      rw [hslots, update_of_ne]
      rintro rfl
      exact hopen hleast.2.2.1
    · rw [(opened h).failure (by omega)]
  · exact slots_sysClose a hfd

/-- An open descriptor leads to the same file whatever else is opened and closed. No call hands it
out again, and only a call of `sys_close` for it ends this. -/
theorem descriptor_kept {t t' : Option (FdTable File)} (hi : i < maxFds) (hopen : slots t i ≠ none)
    (hrun : Reachable (Spares i) t t') : slots t' i = slots t i ∧
      (∀ file served r t'', sysOpen t' file served = some (r, t'') → r ≠ i) ∧
      ∀ fd, slots (sysClose t' fd).2 i = none ↔ fd.toNat = i := by
  have hkept : slots t' i = slots t i := by
    refine hrun.invariant (slots · i = slots t i) (fun a b ha hab => ?_) rfl
    rw [slots_of_spares hab (ha ▸ hopen), ha]
  rw [← hkept] at hopen
  refine ⟨hkept, fun file served r t'' h hr => ?_, fun fd => ⟨fun hnone => ?_, fun hfd => ?_⟩⟩
  · obtain ⟨hleast, -⟩ := (opened h).success (by omega)
    rw [hr, Int.toNat_natCast] at hleast
    exact hopen hleast.2.2.1
  · by_contra hfd
    rw [slots_sysClose t' hfd] at hnone
    exact hopen hnone
  · subst hfd
    rw [(closed t' fd).slot ((closed t' fd).success.mpr ⟨hi, hopen⟩), update_self]

/-- The standard output of the first process, which closes its input and opens a file. -/
theorem descriptor_kept_init :
    ∃ t, sysOpen (sysClose (some (initTable (some 7))) 0).2 (some 9) true = some (3, t) ∧
      slots t 1 = some 7 ∧ ∀ file served r t'', sysOpen t file served = some (r, t'') → r ≠ 1 := by
  refine ⟨some ⟨_, _⟩, rfl, ?_⟩
  obtain ⟨hslot, hagain, -⟩ := descriptor_kept (i := 1) (by decide)
    (show slots (some (initTable (some 7))) 1 ≠ none by decide)
    (.tail (.single (.inr ⟨0, by decide, rfl⟩)) (.inl ⟨some 9, true, 3, rfl⟩))
  exact ⟨hslot, hagain⟩

/-! ### Opening by path

The file is made before a descriptor is looked for, and stays if there is none. No file system has
an operation to open or to close a file. -/

open Vfs PathBuffers
open PathResolution (chain)

variable {fs fs' : Fs} {table table' : Option (FdTable ℕ)} {path : List UInt8} {flags : UInt64}
variable {served : Bool} {file : Option ℕ} {r : Int}

def sysOpenPath (fs : Fs) (table : Option (FdTable ℕ)) (path : List UInt8) (flags : UInt64)
    (served : Bool) : Except Stop (Option (Fs × Int × Option (FdTable ℕ))) :=
  (sysOpenFile fs path flags).map fun found =>
    (sysOpen table found.2 served).map fun out => (found.1, out)

def Creates (fs : Fs) (path : List UInt8) (flags : UInt64) : Prop :=
  vfsResolvePath fs path = .ok none ∧ flags &&& 0x40 ≠ 0 ∧ ∃ fs' file, vfsCreate fs path =
    .ok (fs', some file)

def OneMore (fs fs' : Fs) (file : Option ℕ) : Prop :=
  (file = none ∧ fs' = fs) ∨ (file ≠ none ∧ fs'.nodes = fs.nodes + 1)

theorem ramfsCreate_nodes {kind : UInt32} {parent : ℕ} {name : List UInt8}
    (h : ramfsCreate kind fs parent name = .ok (fs', file)) : OneMore fs fs' file := by
  unfold ramfsCreate at h
  split at h
  · cases h
  · split at h
    · cases h
      exact .inl ⟨rfl, rfl⟩
    · split at h
      · cases h
      · cases h
        exact .inr ⟨by simp, rfl⟩

theorem createAt_nodes {lastSlash : ℕ} {parentLen : ℤ}
    (h : createAt ramfsCreateFile fs path lastSlash parentLen = .ok (fs', file)) :
    OneMore fs fs' file := by
  unfold createAt at h
  split at h
  · cases h
  · cases hpar : vfsResolvePath fs _ with
    | error stop =>
      rw [hpar] at h
      cases h
    | ok parent =>
      rw [hpar, Except.bind] at h
      unfold createIn at h
      split at h
      · cases h
        exact .inl ⟨rfl, rfl⟩
      · split at h
        · exact ramfsCreate_nodes h
        · cases h
          exact .inl ⟨rfl, rfl⟩

theorem vfsCreate_nodes (h : vfsCreate fs path = .ok (fs', file)) : OneMore fs fs' file := by
  unfold vfsCreate createWith at h
  split at h
  · split at h
    · cases h
      exact .inl ⟨rfl, rfl⟩
    · exact createAt_nodes h
  · cases h
    exact .inl ⟨rfl, rfl⟩

theorem table_of_failed (h : sysOpen table file served = some (r, table')) (hr : r < 0) :
    table' = table := by
  cases file with
  | none => cases h; rfl
  | some n =>
    cases table with
    | none =>
      cases served with
      | false => cases h
      | true => cases h; exact absurd hr (by decide)
    | some t =>
      simp only [sysOpen, Option.orElse_some] at h
      split at h
      · cases h
        omega
      · cases h
        rfl

/-- A failing open has no effect exactly if it has not made a file. -/
theorem failed_open_unnoticed_iff (h : sysOpenPath fs table path flags served =
      .ok (some (fs', r, table')))
    (hr : r < 0) : fs' = fs ∧ table' = table ↔ ¬ Creates fs path flags := by
  cases hfound : sysOpenFile fs path flags with
  | error stop =>
    rw [sysOpenPath, hfound] at h
    cases h
  | ok found =>
    obtain ⟨fs₁, file⟩ := found
    rw [sysOpenPath, hfound] at h
    obtain ⟨out, hout, heq⟩ := Option.map_eq_some_iff.mp (Except.ok.inj h)
    cases heq
    rw [and_iff_left (table_of_failed hout hr)]
    unfold sysOpenFile at hfound
    unfold Creates
    split at hfound
    · cases hfound
    · rename_i hres
      cases hfound
      simp [hres]
    · rename_i hres
      by_cases hflags : flags &&& 0x40 = 0
      · rw [if_pos hflags] at hfound
        cases hfound
        simp [hflags]
      · rw [if_neg hflags] at hfound
        rcases vfsCreate_nodes hfound with ⟨rfl, rfl⟩ | ⟨hfile, hnodes⟩
        · simp [hfound]
        · obtain ⟨n, rfl⟩ := Option.ne_none_iff_exists'.mp hfile
          refine iff_of_false ?_ (not_not_intro ⟨hres, hflags, _, n, hfound⟩)
          intro hsame
          exact absurd (hnodes.symm.trans (congrArg Fs.nodes hsame)) (by simp)

def fullTable : FdTable ℕ := ⟨fun _ => some 0, 64⟩

theorem failed_open_missing : sysOpenPath (chain []) (some fullTable) [slash, 97] 0 true =
    .ok (some (chain [], -2, some fullTable)) ∧ ¬ Creates (chain []) [slash, 97] 0 := by
  have h : sysOpenPath (chain []) (some fullTable) [slash, 97] 0 true =
      .ok (some (chain [], -2, some fullTable)) := by
    rfl
  exact ⟨h, (failed_open_unnoticed_iff h (by decide)).mp ⟨rfl, rfl⟩⟩

/-- A new file that gets no descriptor stays in the root. -/
theorem failed_open_creates : (sysOpenPath (chain []) (some fullTable) [slash, 97] 0x40 true).map
    (Option.map fun out => (out.1.nodes, out.2.1)) = .ok (some (2, -24)) ∧
      (chain []).nodes = 1 := by
  decide +kernel

end NexusKernel.DescriptorTables
