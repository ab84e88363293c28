import NexusKernel.ProcessTable
import NexusKernel.ThreadLives

/-!
The process table of sched/process.c as it is in memory: records linked through their `next`
fields. `process_waitpid` walks along the links, and `process_destroy` once more to take a record
out.
-/

namespace NexusKernel.ProcessList

open Lib.LinkedQueue Function

structure Pcb where
  pid : Int32
  ppid : Int32
  zombie : Bool
  exitCode : Int32

/-- The records made so far have numbers below `made`. `freed` lists those given back, the latest
first. -/
structure ProcList where
  pcb : ℕ → Pcb
  next : ℕ → Option ℕ
  procTableHead : Option ℕ
  nextPid : Int32
  made : ℕ
  freed : List ℕ

def ProcList.init : ProcList where
  pcb := fun _ => ⟨0, 0, false, 0⟩
  next := fun _ => none
  procTableHead := none
  nextPid := 0
  made := 0
  freed := []

def processCreate (t : ProcList) (ppid : Int32) (record space : Bool) : ProcList :=
  if record = false then t
  else if space = false then { t with nextPid := t.nextPid + 1 }
  else
    { t with
      pcb := update t.pcb t.made ⟨t.nextPid, ppid, false, 0⟩
      next := update t.next t.made t.procTableHead
      procTableHead := some t.made
      nextPid := t.nextPid + 1
      made := t.made + 1 }

def processExit (t : ProcList) (proc : ℕ) (code : Int32) : ProcList :=
  { t with pcb := update t.pcb proc { t.pcb proc with exitCode := code, zombie := true } }

def unlinkFrom (t : ProcList) (proc : ℕ) : ℕ → Option ℕ → Option ProcList
  | _, none => some t
  | 0, some _ => none
  | fuel + 1, some p =>
      match t.next p with
      | none => some t
      | some after =>
          if after = proc then some { t with next := update t.next p (t.next proc) }
          else unlinkFrom t proc fuel (some after)

def processDestroy (t : ProcList) (proc : ℕ) : Option ProcList :=
  let unlinked :=
    if t.procTableHead = some proc then some { t with procTableHead := t.next proc }
    else unlinkFrom t proc t.made t.procTableHead
  unlinked.map (fun t => { t with freed := proc :: t.freed })

/-- The loop of `process_waitpid` from a record on, with the return value and the status stored,
if the caller has a place for it. -/
def waitpidFrom (t : ProcList) (parentPid targetPid : Int32) (status : Bool) :
    ℕ → Option ℕ → Bool → Option (ProcList × Int32 × Option Int32)
  | _, none, hasChildren => some (t, if hasChildren then 0 else -1, none)
  | 0, some _, _ => none
  | fuel + 1, some p, hasChildren =>
      if (t.pcb p).ppid = parentPid then
        if targetPid = -1 ∨ (t.pcb p).pid = targetPid then
          if (t.pcb p).zombie then
            (processDestroy t p).map (fun t' =>
              (t', (t.pcb p).pid,
                if status then some (((t.pcb p).exitCode &&& 0xff) <<< 8) else none))
          else waitpidFrom t parentPid targetPid status fuel (t.next p) true
        else waitpidFrom t parentPid targetPid status fuel (t.next p) hasChildren
      else waitpidFrom t parentPid targetPid status fuel (t.next p) hasChildren

def processWaitpid (t : ProcList) (parentPid targetPid : Int32) (status : Bool) :
    Option (ProcList × Int32 × Option Int32) :=
  waitpidFrom t parentPid targetPid status t.made t.procTableHead false

variable {t t' : ProcList} {l pre rest : List ℕ} {p : ℕ} {parentPid targetPid : Int32}

structure Listed (t : ProcList) (l : List ℕ) : Prop where
  linked : Linked t.next t.procTableHead l
  nodup : l.Nodup
  made : ∀ p ∈ l, p < t.made

theorem Listed.length_le (h : Listed t l) : l.length ≤ t.made := by
  have hsub : l ⊆ List.range t.made := fun p hp => List.mem_range.mpr (h.made p hp)
  have hle := (h.nodup.subperm hsub).length_le
  rwa [List.length_range] at hle

variable {head : Option ℕ}

theorem unlinkFrom_eq {q : ℕ} (fuel : ℕ)
    (h : Linked t.next head (pre ++ q :: p :: rest)) (hp : p ∉ pre) (hq : q ≠ p)
    (hfuel : pre.length < fuel) :
    unlinkFrom t p fuel head = some { t with next := update t.next q (t.next p) } := by
  induction pre generalizing head fuel with
  | nil =>
    obtain ⟨fuel, rfl⟩ : ∃ k, fuel = k + 1 := ⟨fuel - 1, by simp at hfuel; omega⟩
    obtain ⟨rfl, hnext, -⟩ := h
    rw [unlinkFrom]
    simp [hnext]
  | cons x pre ih =>
    obtain ⟨fuel, rfl⟩ : ∃ k, fuel = k + 1 := ⟨fuel - 1, by simp at hfuel; omega⟩
    obtain ⟨rfl, hrest⟩ := h
    have hafter : ∃ y, t.next x = some y ∧ y ≠ p := by
      cases pre with
      | nil => exact ⟨q, hrest.1, hq⟩
      | cons y pre => exact ⟨y, hrest.1, fun heq => hp (by simp [heq])⟩
    obtain ⟨y, hy, hne⟩ := hafter
    rw [unlinkFrom]
    simp only [hy, if_neg hne]
    rw [← hy]
    exact ih fuel hrest (fun hmem => hp (List.mem_cons_of_mem _ hmem)) (by simpa using hfuel)

/-- `process_destroy` takes just the one record out. -/
theorem processDestroy_listed (h : Listed t l) (hp : p ∈ l) :
    ∃ t', processDestroy t p = some t' ∧ Listed t' (l.erase p) ∧ t'.pcb = t.pcb ∧
      t'.nextPid = t.nextPid ∧ t'.made = t.made ∧ t'.freed = p :: t.freed := by
  obtain ⟨pre, rest, rfl⟩ := List.append_of_mem hp
  obtain ⟨hout, hnodup⟩ := List.nodup_cons.mp (List.nodup_middle.mp h.nodup)
  have hppre : p ∉ pre := fun hmem => hout (List.mem_append_left _ hmem)
  have herase : (pre ++ p :: rest).erase p = pre ++ rest := by
    rw [List.erase_append_right _ hppre, List.erase_cons_head]
  have hmade : ∀ x ∈ pre ++ rest, x < t.made := fun x hx =>
    h.made x (List.mem_of_mem_erase (herase ▸ hx))
  rw [herase]
  rcases List.eq_nil_or_concat' pre with rfl | ⟨pre, q, rfl⟩
  · have hhead : t.procTableHead = some p := h.linked.1
    refine ⟨{ t with procTableHead := t.next p, freed := p :: t.freed }, ?_,
      ⟨h.linked.2, hnodup, hmade⟩, rfl, rfl, rfl, rfl⟩
    rw [processDestroy, if_pos hhead, Option.map_some]
  · have hlen := h.length_le
    obtain ⟨hlinked, hall, -⟩ := h
    rw [List.append_assoc] at hlinked hall
    have hqp : q ≠ p := fun heq => hppre (by simp [heq])
    simp only [List.length_append, List.length_cons, List.length_nil] at hlen
    have hhead : t.procTableHead ≠ some p := by
      intro heq
      cases pre with
      | nil => exact hqp (Option.some.inj (hlinked.1.symm.trans heq))
      | cons x pre => exact hppre (by simp [Option.some.inj (heq.symm.trans hlinked.1)])
    have hrelinked : Linked (update t.next q (t.next p)) t.procTableHead (pre ++ q :: rest) :=
      hlinked.skip hall (fun x hx _ => update_of_ne hx _ _) (update_self _ _ _)
    refine ⟨{ t with next := update t.next q (t.next p), freed := p :: t.freed }, ?_,
      ⟨?_, hnodup, hmade⟩, rfl, rfl, rfl, rfl⟩
    · rw [processDestroy, if_neg hhead,
        unlinkFrom_eq t.made hlinked (fun hmem => hppre (by simp [hmem])) hqp
        (by omega), Option.map_some]
    · rwa [List.append_assoc]

theorem processCreate_listed (h : Listed t l) (ppid : Int32) :
    Listed (processCreate t ppid true true) (t.made :: l) := by
  have hnew : t.made ∉ l := fun hmem => absurd (h.made t.made hmem) (Nat.lt_irrefl _)
  refine ⟨⟨rfl, ?_⟩, List.nodup_cons.mpr ⟨hnew, h.nodup⟩, ?_⟩
  · show Linked (update t.next t.made t.procTableHead)
      (update t.next t.made t.procTableHead t.made) l
    rw [update_self]
    refine h.linked.congr ?_
    intro x hx
    have hne : x ≠ t.made := fun heq => hnew (heq ▸ hx)
    exact update_of_ne hne _ _
  · intro x hx
    rcases List.mem_cons.mp hx with rfl | hx
    · exact Nat.lt_succ_self _
    · exact Nat.lt_succ_of_lt (h.made x hx)

def Awaited (t : ProcList) (parentPid targetPid : Int32) (p : ℕ) : Prop :=
  (t.pcb p).ppid = parentPid ∧ (targetPid = -1 ∨ (t.pcb p).pid = targetPid)

instance (p : ℕ) : Decidable (Awaited t parentPid targetPid p) :=
  inferInstanceAs (Decidable (_ ∧ _))

def exitStatus (code : Int32) : Int32 := (code &&& 0xff) <<< 8

theorem waitpidFrom_next {status hasChildren : Bool} (fuel : ℕ)
    (hp : Awaited t parentPid targetPid p → (t.pcb p).zombie = false) :
    waitpidFrom t parentPid targetPid status (fuel + 1) (some p) hasChildren =
      waitpidFrom t parentPid targetPid status fuel (t.next p)
        (hasChildren || decide (Awaited t parentPid targetPid p)) := by
  by_cases hawaited : Awaited t parentPid targetPid p
  · obtain ⟨hpar, htgt⟩ := hawaited
    have halive := hp ⟨hpar, htgt⟩
    rw [waitpidFrom, if_pos hpar, if_pos htgt, halive, decide_eq_true ⟨hpar, htgt⟩, Bool.or_true]
    rfl
  · rw [decide_eq_false hawaited, Bool.or_false, waitpidFrom]
    by_cases hpar : (t.pcb p).ppid = parentPid
    · have htgt : ¬ (targetPid = -1 ∨ (t.pcb p).pid = targetPid) := fun h => hawaited ⟨hpar, h⟩
      rw [if_pos hpar, if_neg htgt]
    · rw [if_neg hpar]

/-- The loop stops at the first zombie that is waited for. -/
theorem waitpidFrom_cases (hasChildren status : Bool) (fuel : ℕ)
    (h : Linked t.next head l) (hfuel : l.length ≤ fuel) :
    (∃ p ∈ l, Awaited t parentPid targetPid p ∧ (t.pcb p).zombie = true ∧
      waitpidFrom t parentPid targetPid status fuel head hasChildren =
        (processDestroy t p).map (fun t' =>
          (t', (t.pcb p).pid, if status then some (exitStatus (t.pcb p).exitCode) else none))) ∨
    ((∀ p ∈ l, Awaited t parentPid targetPid p → (t.pcb p).zombie = false) ∧
      waitpidFrom t parentPid targetPid status fuel head hasChildren =
        some (t, if hasChildren = true ∨ ∃ p ∈ l, Awaited t parentPid targetPid p then 0
          else -1, none)) := by
  induction l generalizing head fuel hasChildren with
  | nil =>
    obtain rfl : head = none := h
    right
    refine ⟨fun p hp => absurd hp List.not_mem_nil, ?_⟩
    simp [waitpidFrom]
  | cons x l ih =>
    obtain ⟨rfl, hrest⟩ := h
    obtain ⟨fuel, rfl⟩ : ∃ k, fuel = k + 1 := ⟨fuel - 1, by simp at hfuel; omega⟩
    by_cases hx : Awaited t parentPid targetPid x ∧ (t.pcb x).zombie = true
    · obtain ⟨⟨hpar, htgt⟩, hzomb⟩ := hx
      left
      refine ⟨x, List.mem_cons_self, ⟨hpar, htgt⟩, hzomb, ?_⟩
      rw [waitpidFrom, if_pos hpar, if_pos htgt, if_pos hzomb]
      rfl
    · have halive : Awaited t parentPid targetPid x → (t.pcb x).zombie = false := fun hawaited => by
        simpa using fun hzomb => hx ⟨hawaited, hzomb⟩
      rw [waitpidFrom_next fuel halive]
      rcases ih _ fuel hrest (by simpa using hfuel) with
        ⟨p, hp, hawaited, hzomb, heq⟩ | ⟨hnone, heq⟩
      · exact .inl ⟨p, List.mem_cons_of_mem _ hp, hawaited, hzomb, heq⟩
      · right
        refine ⟨List.forall_mem_cons.mpr ⟨halive, hnone⟩, heq.trans ?_⟩
        simp [or_assoc]

theorem processWaitpid_cases (h : Listed t l) (parentPid targetPid : Int32) (status : Bool) :
    (∃ p ∈ l, Awaited t parentPid targetPid p ∧ (t.pcb p).zombie = true ∧
      ∃ t', processWaitpid t parentPid targetPid status = some (t', (t.pcb p).pid,
          if status then some (exitStatus (t.pcb p).exitCode) else none) ∧
        Listed t' (l.erase p) ∧ t'.pcb = t.pcb ∧ t'.nextPid = t.nextPid ∧ t'.made = t.made ∧
        t'.freed = p :: t.freed) ∨
    ((∀ p ∈ l, Awaited t parentPid targetPid p → (t.pcb p).zombie = false) ∧
      processWaitpid t parentPid targetPid status =
        some (t, if ∃ p ∈ l, Awaited t parentPid targetPid p then 0 else -1, none)) := by
  rcases waitpidFrom_cases false status t.made h.linked h.length_le with
    ⟨p, hp, hawaited, hzomb, heq⟩ | ⟨hnone, heq⟩
  · obtain ⟨t', hdestroy, hlist⟩ := processDestroy_listed h hp
    refine .inl ⟨p, hp, hawaited, hzomb, t', ?_, hlist⟩
    rw [processWaitpid, heq, hdestroy, Option.map_some]
  · refine .inr ⟨hnone, heq.trans ?_⟩
    simp

/-! ### The table of the kernel with its memory -/

section

open Processes (Process)
open ProcessTable (Kernel)

def pcbOf (proc : Process) : Pcb := ⟨proc.pid, proc.ppid, proc.state = .zombie, proc.exitCode⟩

/-- The linked records are the processes of the kernel. -/
structure Mirrors (t : ProcList) (k : Kernel) (l : List ℕ) : Prop where
  listed : Listed t l
  table : k.procTable.map pcbOf = l.map t.pcb
  nextPid : k.nextPid = t.nextPid

variable {k : Kernel} {proc : Process} {procs procs' : List Process}

theorem Mirrors.create (h : Mirrors t k l) (ppid : Int32) : ∃ record space l',
    Mirrors (processCreate t ppid record space) (ProcessTable.processCreate k ppid).1 l' := by
  unfold ProcessTable.processCreate
  dsimp only
  split
  · exact ⟨false, false, l, h.listed, h.table, h.nextPid⟩
  split
  · exact ⟨true, false, l, ⟨h.listed.linked, h.listed.nodup, h.listed.made⟩, h.table,
      congrArg (· + 1) h.nextPid⟩
  · refine ⟨true, true, _, processCreate_listed h.listed ppid, ?_, congrArg (· + 1) h.nextPid⟩
    have hold : l.map (processCreate t ppid true true).pcb = l.map t.pcb :=
      List.map_congr_left fun x hx => update_of_ne (h.listed.made x hx).ne _ _
    rw [List.map_cons, List.map_cons, hold, h.table]
    simp [pcbOf, processCreate, h.nextPid]

/-- Destroying a process takes the record at its place out of the links. -/
theorem Mirrors.destroy (h : Mirrors t k (pre ++ p :: rest))
    (hk : k.procTable = procs ++ proc :: procs') (hlen : procs.length = pre.length)
    (hnot : ∀ q ∈ procs, q.addr ≠ proc.addr) : ∃ t', processDestroy t p = some t' ∧
      Mirrors t' (ProcessTable.processDestroy k proc) (pre ++ rest) := by
  have hmem : p ∈ pre ++ p :: rest := by simp
  obtain ⟨t', heq, hlist, hpcb, hnext, -⟩ := processDestroy_listed h.listed hmem
  have hp := (List.nodup_cons.mp (List.nodup_middle.mp h.listed.nodup)).1
  rw [List.erase_append_right _ fun hmem => hp (List.mem_append_left _ hmem),
    List.erase_cons_head] at hlist
  have htable := h.table
  rw [hk, List.map_append, List.map_append] at htable
  obtain ⟨hpre, hrest⟩ := List.append_inj htable (by simpa using hlen)
  have herase : (ProcessTable.processDestroy k proc).procTable = procs ++ procs' := by
    simp only [ProcessTable.processDestroy, hk]
    rw [List.eraseP_append_right _ (by simpa using hnot), List.eraseP_cons_of_pos (by simp)]
  refine ⟨t', heq, hlist, ?_, h.nextPid.trans hnext.symm⟩
  rw [herase, List.map_append, List.map_append, hpcb, hpre, (List.cons.inj hrest).2]

end

/-! ### The table of the scheduler's processes -/

open Scheduler (Sched ProcessRecord)
open RunQueues (apply_update_of_eq Settled)
open Lib.Runs (Reachable)
open ThreadLives hiding processCreate processDestroy waitpidFrom processWaitpid waitpidFrom_cases
  processWaitpid_cases

def entry (t : ProcList) (p : ℕ) : Entry := ⟨p, (t.pcb p).pid, (t.pcb p).ppid⟩

def fate (r : ProcessRecord) : Bool × Int32 := (r.zombie, r.exitCode)

/-- The linked records are the process table of a system of threads. -/
structure Shows (t : ProcList) (k : System) (l : List ℕ) : Prop where
  listed : Listed t l
  table : k.procTable = l.map (entry t)
  ended : ∀ p ∈ l, fate (k.sched.process p) = ((t.pcb p).zombie, (t.pcb p).exitCode)
  made : k.sched.processes = t.made
  nextPid : k.nextPid = t.nextPid

variable {k k' : System} {op : Op} {s' : Sched}

theorem Shows.sched (h : Shows t k l) (hproc : ∀ p, fate (s'.process p) =
    fate (k.sched.process p)) (hmade : s'.processes = k.sched.processes) :
    Shows t { k with sched := s' } l :=
  { h with
    ended := fun p hp => (hproc p).trans (h.ended p hp)
    made := hmade.trans h.made }

theorem Shows.destroy (h : Shows t k l) (hp : p ∈ l) :
    ∃ t', processDestroy t p = some t' ∧ Shows t' (ThreadLives.processDestroy k p) (l.erase p) := by
  obtain ⟨t', heq, hlist, hpcb, hnext, hmade, _⟩ := processDestroy_listed h.listed hp
  refine ⟨t', heq, hlist, ?_, fun x hx => ?_, ?_, ?_⟩
  · rw [processDestroy_procTable, h.table, List.eraseP_map, List.erase_eq_eraseP']
    unfold entry
    rw [hpcb]
    rfl
  · rw [processDestroy_sched, hpcb, ← h.ended x (List.mem_of_mem_erase hx)]
    exact apply_update_of_eq fate (by rfl) x
  · rw [processDestroy_sched, hmade, ← h.made]
  · rw [hnext, ← h.nextPid]
    simp only [ThreadLives.processDestroy, foldl_threadDestroy]

theorem waitpidFrom_shows (h : Shows t k l) (found : Bool) (fuel : ℕ) (hsub : rest ⊆ l)
    (hlinked : Linked t.next head rest) (hfuel : rest.length ≤ fuel) :
    ∃ t' l', waitpidFrom t parentPid targetPid true fuel head found = some (t',
        (ThreadLives.waitpidFrom k parentPid targetPid (rest.map (entry t)) found).2) ∧
      Shows t' (ThreadLives.waitpidFrom k parentPid targetPid (rest.map (entry t)) found).1 l' := by
  induction rest generalizing head fuel found with
  | nil =>
    obtain rfl : head = none := hlinked
    exact ⟨t, l, by simp [waitpidFrom, ThreadLives.waitpidFrom], h⟩
  | cons x rest ih =>
    obtain ⟨rfl, hrest⟩ := hlinked
    obtain ⟨fuel, rfl⟩ : ∃ n, fuel = n + 1 := ⟨fuel - 1, by simp at hfuel; omega⟩
    obtain ⟨hx, hsub⟩ := List.cons_subset.mp hsub
    obtain ⟨hzomb, hcode⟩ := Prod.mk.inj (h.ended x hx)
    have hnext := fun found => ih found fuel hsub hrest (by simpa using hfuel)
    simp only [waitpidFrom, ThreadLives.waitpidFrom, List.map_cons, entry, hzomb, hcode]
    split_ifs
    · obtain ⟨t', heq, hshows⟩ := h.destroy hx
      exact ⟨t', _, by rw [heq]; rfl, hshows⟩
    · exact hnext true
    · exact hnext found
    · exact hnext found

theorem processWaitpid_shows (h : Shows t k l) (parentPid targetPid : Int32) :
    ∃ t' l', processWaitpid t parentPid targetPid true =
        some (t', (ThreadLives.processWaitpid k parentPid targetPid).2) ∧
      Shows t' (ThreadLives.processWaitpid k parentPid targetPid).1 l' := by
  rw [ThreadLives.processWaitpid, h.table]
  exact waitpidFrom_shows h false _ (List.Subset.refl l) h.listed.linked h.listed.length_le

theorem processCreate_shows (h : Shows t k l) (ppid : Int32) (cr3 : UInt64) :
    ∃ l', Shows (processCreate t ppid true (cr3 != 0))
      (ThreadLives.processCreate k ppid cr3) l' := by
  by_cases hcr3 : cr3 = 0
  · subst hcr3
    exact ⟨l, ⟨h.listed.linked, h.listed.nodup, h.listed.made⟩, h.table, h.ended, h.made,
      congrArg (· + 1) h.nextPid⟩
  · have hold : ∀ x ∈ l, (processCreate t ppid true true).pcb x = t.pcb x := fun x hx =>
      update_of_ne (h.listed.made x hx).ne _ _
    rw [bne_iff_ne.mpr hcr3, ThreadLives.processCreate, if_neg hcr3]
    refine ⟨t.made :: l, processCreate_listed h.listed ppid, ?_, ?_, congrArg (· + 1) h.made,
      congrArg (· + 1) h.nextPid⟩
    · have hentries : l.map (entry (processCreate t ppid true true)) = l.map (entry t) :=
        List.map_congr_left fun x hx => by rw [entry, hold x hx]; rfl
      rw [List.map_cons, hentries, ← h.table]
      simp [Scheduler.createProcess, entry, processCreate, h.made, h.nextPid]
    · simp only [Scheduler.createProcess, h.made, List.forall_mem_cons]
      refine ⟨by simp [fate, processCreate], fun x hx => ?_⟩
      rw [hold x hx, update_of_ne (h.listed.made x hx).ne, h.ended x hx]

theorem processExit_shows (h : Shows t k l) {code : Int32} {s₁ : Sched}
    (hmarked : Marked k.sched p code s₁) (hsteady : Steady s₁ s') :
    Shows (processExit t p code) { k with sched := s' } l := by
  have hrecords := hsteady.records.trans hmarked.process
  refine ⟨⟨h.listed.linked, h.listed.nodup, h.listed.made⟩, ?_, fun x hx => ?_,
    (hsteady.processes.trans hmarked.processes).trans h.made, h.nextPid⟩
  · refine h.table.trans (List.map_congr_left fun x _ => ?_)
    simp only [entry, processExit]
    rw [apply_update_of_eq Pcb.pid (by rfl), apply_update_of_eq Pcb.ppid (by rfl)]
  · simp only [hrecords, processExit]
    by_cases hxp : x = p
    · simp [hxp, fate]
    · rw [update_of_ne hxp, update_of_ne hxp, h.ended x hx]

/-- The table after a call of the system. -/
def after (t : ProcList) : Op → Option ProcList
  | .processCreate ppid cr3 => some (processCreate t ppid true (cr3 != 0))
  | .exit proc code => some (processExit t proc code)
  | .waitpid parentPid targetPid => (processWaitpid t parentPid targetPid true).map Prod.fst
  | _ => some t

theorem step_shows {q : ℕ → List ℕ} (h : Settled k.sched q) (hshows : Shows t k l)
    (hvalid : op.Valid k) (heq : perform k op = some k') :
    ∃ t' l', after t op = some t' ∧ Shows t' k' l' := by
  have heff := step_effect h hvalid heq
  cases op with
  | processCreate ppid cr3 =>
    cases heq
    obtain ⟨l', hl'⟩ := processCreate_shows hshows ppid cr3
    exact ⟨_, l', rfl, hl'⟩
  | waitpid parentPid targetPid =>
    cases heq
    obtain ⟨t', l', hwait, hl'⟩ := processWaitpid_shows hshows parentPid targetPid
    exact ⟨t', l', by rw [after, hwait]; rfl, hl'⟩
  | exit proc code =>
    obtain ⟨s', hs, rfl⟩ := Option.map_eq_some_iff.mp heq
    obtain ⟨s₁, hmarked, hsteady⟩ := processExit_steady h hvalid.2 hs
    exact ⟨_, l, rfl, processExit_shows hshows hmarked hsteady⟩
  | spawn proc kstackVirt priority =>
    cases heq
    refine ⟨t, l, rfl, hshows.sched (fun p => ?_) rfl⟩
    exact apply_update_of_eq fate (by rfl) p
  | wake u =>
    cases heq
    refine ⟨t, l, rfl, hshows.sched (fun p => ?_) (schedulerWake_static _ u).processes⟩
    rw [schedulerWake_process]
  | start | schedule | tick | timer | block _ | sleep _ =>
    obtain ⟨s', hs, rfl⟩ := Option.map_eq_some_iff.mp heq
    cases heff with
    | steady _ hsteady =>
      exact ⟨t, l, rfl, hshows.sched (fun p => by rw [hsteady.records]) hsteady.processes⟩

def ProcList.boot (shell : Bool) : ProcList :=
  let t := processCreate .init (-1) true true
  if shell then processCreate t 0 true true else t

theorem boot_shows (cr3 idleCr3 idleStack : UInt64) (shell : Option (UInt64 × UInt64)) :
    ∃ l, Shows (.boot shell.isSome) (System.boot cr3 idleCr3 idleStack shell) l := by
  have hinit : Listed .init [] := ⟨rfl, List.nodup_nil, by simp⟩
  have hidle := processCreate_listed hinit (-1)
  cases shell with
  | none => exact ⟨_, hidle, rfl, List.forall_mem_singleton.mpr rfl, rfl, rfl⟩
  | some shell =>
    refine ⟨_, processCreate_listed hidle 0, rfl, ?_, rfl, rfl⟩
    exact List.forall_mem_cons.mpr ⟨rfl, List.forall_mem_singleton.mpr rfl⟩

def Together (a b : System × ProcList) : Prop :=
  ∃ op : Op, op.Valid a.1 ∧ perform a.1 op = some b.1 ∧ after a.2 op = some b.2

/-- Over any run from boot the same calls go through on the linked table, which then shows the
process table. -/
theorem reachable_shows {cr3 idleCr3 idleStack : UInt64} {shell : Option (UInt64 × UInt64)}
    (hrun : Reachable Step (System.boot cr3 idleCr3 idleStack shell) k) :
    ∃ t l, Reachable Together (System.boot cr3 idleCr3 idleStack shell, .boot shell.isSome) (k, t) ∧
      Shows t k l := by
  induction hrun with
  | refl =>
    obtain ⟨l, hl⟩ := boot_shows cr3 idleCr3 idleStack shell
    exact ⟨_, l, .refl, hl⟩
  | tail hrun hstep ih =>
    obtain ⟨t, l, htable, hshows⟩ := ih
    obtain ⟨op, hvalid, heq⟩ := hstep
    obtain ⟨q, hset⟩ := reachable_settled hrun
    obtain ⟨t', l', hop, hshows'⟩ := step_shows hset hshows hvalid heq
    exact ⟨t', l', htable.tail ⟨op, hvalid, heq, hop⟩, hshows'⟩

end NexusKernel.ProcessList
