import NexusKernel.ProcessList

/-!
What parents learn from `process_waitpid`: over any run a process is reported at most once, to its
parent, under its own number and with the code of its exit.
-/

namespace NexusKernel.ChildReports

open Lib.Runs ProcessList Function ProcList

/-- What is noted of a run, latest first: processes made, exits, and processes reported by
`process_waitpid`. -/
inductive Event where
  | create (proc : ℕ) (pid ppid : Int32)
  | exit (proc : ℕ) (code : Int32)
  | report (proc : ℕ) (parentPid pid : Int32) (status : Option Int32)

/-- Calls with records that exist. The process reported is the one given back. -/
inductive Step : ProcList × List Event → ProcList × List Event → Prop where
  | create {t : ProcList} {log : List Event} (ppid : Int32) :
      Step (t, log) (processCreate t ppid true true, .create t.made t.nextPid ppid :: log)
  | createFails {t : ProcList} {log : List Event} (ppid : Int32) (record : Bool) :
      Step (t, log) (processCreate t ppid record false, log)
  | exit {t : ProcList} {log : List Event} (proc : ℕ) (code : Int32) (hmade : proc < t.made)
      (hthere : proc ∉ t.freed) : Step (t, log) (processExit t proc code, .exit proc code :: log)
  | wait {t t' : ProcList} {log : List Event} (parentPid targetPid : Int32) (status : Bool)
      (result : Int32) (stored : Option Int32)
      (hwait : processWaitpid t parentPid targetPid status = some (t', result, stored))
      (hfreed : t'.freed = t.freed) : Step (t, log) (t', log)
  | reap {t t' : ProcList} {log : List Event} (parentPid targetPid : Int32) (status : Bool)
      (result : Int32) (stored : Option Int32) (proc : ℕ)
      (hwait : processWaitpid t parentPid targetPid status = some (t', result, stored))
      (hfreed : t'.freed = proc :: t.freed) :
      Step (t, log) (t', .report proc parentPid result stored :: log)

def lastCode (proc : ℕ) : List Event → Option Int32
  | [] => none
  | .exit p code :: log => if p = proc then some code else lastCode proc log
  | _ :: log => lastCode proc log

/-- A report after the events `log`: the process was made for this parent with this number, its
latest exit has the code, and it was not reported before. -/
structure Told (log : List Event) (proc : ℕ) (parentPid pid : Int32)
    (status : Option Int32) : Prop where
  created : .create proc pid parentPid ∈ log
  exited : ∃ code, lastCode proc log = some code ∧ ∀ v, status = some v → v = exitStatus code
  first : ∀ parentPid' pid' status', .report proc parentPid' pid' status' ∉ log

structure Answer (t : ProcList) (l : List ℕ) (parentPid targetPid : Int32) (status : Bool)
    (t' : ProcList) (result : Int32) (stored : Option Int32) : Prop where
  childless : result = -1 ↔ ∀ p ∈ l, ¬ Awaited t parentPid targetPid p
  alive : result = 0 ↔ (∃ p ∈ l, Awaited t parentPid targetPid p) ∧
    ∀ p ∈ l, Awaited t parentPid targetPid p → (t.pcb p).zombie = false
  reaped : (∃ p ∈ l, Awaited t parentPid targetPid p ∧ (t.pcb p).zombie = true) →
    ∃ p ∈ l, Awaited t parentPid targetPid p ∧ (t.pcb p).zombie = true ∧ result = (t.pcb p).pid ∧
      stored = (if status then some (exitStatus (t.pcb p).exitCode) else none) ∧
      Listed t' (l.erase p) ∧ t'.pcb = t.pcb
  same : (∀ p ∈ l, Awaited t parentPid targetPid p → (t.pcb p).zombie = false) →
    t' = t ∧ stored = none

variable {t t' : ProcList} {l : List ℕ} {log log' : List Event} {p proc : ℕ}
  {parentPid targetPid pid : Int32} {status : Bool}

theorem processWaitpid_answer (h : Listed t l) (hpos : ∀ p ∈ l, (t.pcb p).zombie = true →
      0 < (t.pcb p).pid) (parentPid targetPid : Int32) (status : Bool) :
    ∃ t' result stored, processWaitpid t parentPid targetPid status = some (t', result, stored) ∧
      Answer t l parentPid targetPid status t' result stored := by
  rcases processWaitpid_cases h parentPid targetPid status with
    ⟨p, hp, hawaited, hzomb, t', heq, hlist, hpcb, -⟩ | ⟨hnone, heq⟩
  · have hpid := hpos p hp hzomb
    have hne : (t.pcb p).pid ≠ -1 ∧ (t.pcb p).pid ≠ 0 :=
      ⟨fun hminus => absurd (hminus ▸ hpid) (by decide), fun hz => absurd (hz ▸ hpid) (by decide)⟩
    refine ⟨t', _, _, heq, ?_, ?_, ?_, ?_⟩
    · exact iff_of_false hne.1 fun hall => hall p hp hawaited
    · refine iff_of_false hne.2 (fun hall => ?_)
      rw [hall.2 p hp hawaited] at hzomb
      exact Bool.false_ne_true hzomb
    · intro _
      exact ⟨p, hp, hawaited, hzomb, rfl, rfl, hlist, hpcb⟩
    · intro hall
      rw [hall p hp hawaited] at hzomb
      exact absurd hzomb Bool.false_ne_true
  · refine ⟨t, _, none, heq, ?_, ?_, ?_, fun _ => ⟨rfl, rfl⟩⟩
    · simp
    · rw [and_iff_left hnone]
      simp
    · rintro ⟨p, hp, hawaited, hzomb⟩
      rw [hnone p hp hawaited] at hzomb
      exact absurd hzomb Bool.false_ne_true

structure Agrees (t : ProcList) (log : List Event) : Prop where
  listed : ∃ l, Listed t l ∧ ∀ p, p ∈ l ↔ p < t.made ∧ p ∉ t.freed
  freed : ∀ p ∈ t.freed, p < t.made
  created : ∀ p < t.made, p ∉ t.freed → .create p (t.pcb p).pid (t.pcb p).ppid ∈ log
  exited : ∀ p < t.made, p ∉ t.freed → (t.pcb p).zombie = true →
    lastCode p log = some (t.pcb p).exitCode
  reported : ∀ p parentPid pid status, .report p parentPid pid status ∈ log → p ∈ t.freed
  told : ∀ newer older p parentPid pid status,
    log = newer ++ .report p parentPid pid status :: older → Told older p parentPid pid status

/-- The reports so far stay true when an event is added. -/
theorem told_cons {e : Event} (h : ∀ newer older p parentPid pid status,
      log = newer ++ .report p parentPid pid status :: older → Told older p parentPid pid status)
    (he : ∀ p parentPid pid status, e = .report p parentPid pid status →
      Told log p parentPid pid status) : ∀ newer older p parentPid pid status,
      e :: log = newer ++ .report p parentPid pid status :: older →
        Told older p parentPid pid status := by
  intro newer older p parentPid pid status heq
  cases newer with
  | nil =>
    obtain ⟨hfirst, rfl⟩ := List.cons.inj heq
    exact he p parentPid pid status hfirst
  | cons d newer => exact h newer older p parentPid pid status (List.cons.inj heq).2

theorem init_agrees : Agrees init [] := by
  refine ⟨⟨[], ⟨rfl, List.nodup_nil, fun p hp => absurd hp List.not_mem_nil⟩, fun p => ?_⟩, ?_,
    ?_, ?_, ?_, ?_⟩
  · exact iff_of_false List.not_mem_nil fun h => absurd h.1 (Nat.not_lt_zero p)
  · exact fun p hp => absurd hp List.not_mem_nil
  · exact fun p hp => absurd hp (Nat.not_lt_zero p)
  · exact fun p hp => absurd hp (Nat.not_lt_zero p)
  · exact fun p _ _ _ hmem => absurd hmem List.not_mem_nil
  · intro newer older p parentPid pid status heq
    simp at heq

section

variable (h : Agrees t log)
include h

theorem create_agrees (ppid : Int32) :
    Agrees (processCreate t ppid true true) (.create t.made t.nextPid ppid :: log) := by
  obtain ⟨l, hlist, hmem⟩ := h.listed
  have hfresh : t.made ∉ t.freed := fun hfreed => Nat.lt_irrefl _ (h.freed _ hfreed)
  have hold : ∀ p < t.made, (processCreate t ppid true true).pcb p = t.pcb p := by
    intro p hp
    exact update_of_ne (Nat.ne_of_lt hp) _ _
  have hnew : (processCreate t ppid true true).pcb t.made = ⟨t.nextPid, ppid, false, 0⟩ :=
    update_self ..
  refine ⟨⟨t.made :: l, processCreate_listed hlist ppid, fun p => ?_⟩, ?_, ?_, ?_, ?_, ?_⟩
  · show p ∈ t.made :: l ↔ p < t.made + 1 ∧ p ∉ t.freed
    rw [List.mem_cons, hmem, Nat.lt_succ_iff_lt_or_eq]
    by_cases heq : p = t.made
    · subst heq
      exact iff_of_true (.inl rfl) ⟨.inr rfl, hfresh⟩
    · simp [heq]
  · intro p hp
    exact Nat.lt_succ_of_lt (h.freed p hp)
  · intro p hp hthere
    rcases Nat.lt_succ_iff_lt_or_eq.mp hp with hlt | rfl
    · rw [hold p hlt]
      exact List.mem_cons_of_mem _ (h.created p hlt hthere)
    · rw [hnew]
      exact List.mem_cons_self
  · intro p hp hthere hzomb
    rcases Nat.lt_succ_iff_lt_or_eq.mp hp with hlt | rfl
    · rw [hold p hlt] at hzomb ⊢
      exact h.exited p hlt hthere hzomb
    · rw [hnew] at hzomb
      exact absurd hzomb Bool.false_ne_true
  · intro p parentPid pid status hreport
    exact h.reported p parentPid pid status (by simpa using hreport)
  · exact told_cons h.told fun _ _ _ _ heq => by cases heq

theorem exit_agrees (proc : ℕ) (code : Int32) : Agrees (processExit t proc code)
    (.exit proc code :: log) := by
  obtain ⟨l, hlist, hmem⟩ := h.listed
  refine ⟨⟨l, ⟨hlist.linked, hlist.nodup, hlist.made⟩, hmem⟩, h.freed, ?_, ?_, ?_, ?_⟩
  · intro p hp hthere
    have hsame : ((processExit t proc code).pcb p).pid = (t.pcb p).pid ∧
        ((processExit t proc code).pcb p).ppid = (t.pcb p).ppid := by
      by_cases heq : p = proc <;> simp [processExit, heq]
    rw [hsame.1, hsame.2]
    exact List.mem_cons_of_mem _ (h.created p hp hthere)
  · intro p hp hthere hzomb
    by_cases heq : p = proc
    · subst heq
      simp [processExit, lastCode]
    · have hother : (processExit t proc code).pcb p = t.pcb p := update_of_ne heq _ _
      rw [hother] at hzomb ⊢
      rw [lastCode, if_neg (Ne.symm heq)]
      exact h.exited p hp hthere hzomb
  · intro p parentPid pid status hreport
    exact h.reported p parentPid pid status (by simpa using hreport)
  · exact told_cons h.told fun _ _ _ _ heq => by cases heq

/-- The process reported was there, and is there no longer. -/
theorem reap_agrees (hlist : Listed t l) (hp : p ∈ l)
    (hmem : ∀ p, p ∈ l ↔ p < t.made ∧ p ∉ t.freed) (hpar : (t.pcb p).ppid = parentPid)
    (hzomb : (t.pcb p).zombie = true) (hafter : Listed t' (l.erase p)) (hpcb : t'.pcb = t.pcb)
    (hmade : t'.made = t.made) (hfreed : t'.freed = p :: t.freed) :
    Agrees t' (.report p parentPid (t.pcb p).pid
    (if status then some (exitStatus (t.pcb p).exitCode) else none) :: log) := by
  obtain ⟨hlt, hthere⟩ := (hmem p).mp hp
  refine ⟨⟨l.erase p, hafter, fun q => ?_⟩, ?_, ?_, ?_, ?_, ?_⟩
  · rw [hlist.nodup.mem_erase_iff, hmem, hmade, hfreed, List.mem_cons, not_or]
    exact and_left_comm
  · intro q hq
    rw [hfreed] at hq
    rw [hmade]
    rcases List.mem_cons.mp hq with rfl | hq
    · exact hlt
    · exact h.freed q hq
  · intro q hq hthere'
    rw [hfreed, List.mem_cons, not_or] at hthere'
    rw [hpcb]
    exact List.mem_cons_of_mem _ (h.created q (hmade ▸ hq) hthere'.2)
  · intro q hq hthere' hzomb'
    rw [hfreed, List.mem_cons, not_or] at hthere'
    rw [hpcb] at hzomb' ⊢
    exact h.exited q (hmade ▸ hq) hthere'.2 hzomb'
  · intro q parentPid' pid' status' hreport
    rw [hfreed]
    rcases List.mem_cons.mp hreport with heq | hreport
    · cases heq
      exact List.mem_cons_self
    · exact List.mem_cons_of_mem _ (h.reported q parentPid' pid' status' hreport)
  · refine told_cons h.told ?_
    intro q parentPid' pid' status' heq
    cases heq
    refine ⟨hpar ▸ h.created p hlt hthere, ⟨_, h.exited p hlt hthere hzomb, ?_⟩, ?_⟩
    · intro v hv
      split at hv
      · exact (Option.some.inj hv).symm
      · simp at hv
    · intro parentPid' pid' status' hreport
      exact hthere (h.reported p parentPid' pid' status' hreport)

theorem step_agrees (hstep : Step (t, log) (t', log')) : Agrees t' log' := by
  cases hstep with
  | create ppid => exact create_agrees h ppid
  | createFails ppid record =>
    cases record with
    | false => exact h
    | true =>
      obtain ⟨l, hlist, hmem⟩ := h.listed
      exact ⟨⟨l, ⟨hlist.linked, hlist.nodup, hlist.made⟩, hmem⟩, h.freed, h.created, h.exited,
        h.reported, h.told⟩
  | exit proc code => exact exit_agrees h proc code
  | wait parentPid targetPid status result stored hwait hfreed =>
    obtain ⟨l, hlist, -⟩ := h.listed
    rcases processWaitpid_cases hlist parentPid targetPid status with
      ⟨p, -, -, -, t₁, heq, -, -, -, -, hfreed₁⟩ | ⟨-, heq⟩
    · obtain rfl : t₁ = t' := congrArg Prod.fst (Option.some.inj (heq.symm.trans hwait))
      exact absurd (hfreed₁.symm.trans hfreed) (List.cons_ne_self p t.freed)
    · obtain rfl : t = t' := congrArg Prod.fst (Option.some.inj (heq.symm.trans hwait))
      exact h
  | reap parentPid targetPid status result stored proc hwait hfreed =>
    obtain ⟨l, hlist, hmem⟩ := h.listed
    rcases processWaitpid_cases hlist parentPid targetPid status with
      ⟨p, hp, hawaited, hzomb, t₁, heq, hafter, hpcb, -, hmade, hfreed₁⟩ | ⟨-, heq⟩
    · obtain ⟨rfl, rfl, rfl⟩ : t₁ = t' ∧ (t.pcb p).pid = result ∧ _ = stored := by
        simpa using heq.symm.trans hwait
      obtain rfl : p = proc := (List.cons.inj (hfreed₁.symm.trans hfreed)).1
      exact reap_agrees h hlist hp hmem hawaited.1 hzomb hafter hpcb hmade hfreed₁
    · obtain rfl : t = t' := congrArg Prod.fst (Option.some.inj (heq.symm.trans hwait))
      exact absurd hfreed.symm (List.cons_ne_self proc t.freed)

end

theorem run_agrees (hrun : Reachable Step (init, []) (t, log)) : Agrees t log := by
  refine hrun.invariant (fun c => Agrees c.1 c.2) ?_ init_agrees
  rintro ⟨t, log⟩ ⟨t', log'⟩ h hstep
  exact step_agrees h hstep

theorem waitpid_answers_and_reports :
    (∀ (t : ProcList) (l : List ℕ) (parentPid targetPid : Int32) (status : Bool), Listed t l →
      (l.map (fun p => (t.pcb p).pid)).Nodup →
      (∀ p ∈ l, (t.pcb p).zombie = true → 0 < (t.pcb p).pid) →
      ∃ t' result stored, processWaitpid t parentPid targetPid status = some (t', result, stored) ∧
        Answer t l parentPid targetPid status t' result stored) ∧
    ∀ t log, Reachable Step (ProcList.init, []) (t, log) → ∀ newer older proc parentPid pid status,
        log = newer ++ .report proc parentPid pid status :: older →
          Told older proc parentPid pid status := by
  refine ⟨?_, fun t log hrun => (run_agrees hrun).told⟩
  intro t l parentPid targetPid status hlist _ hpos
  exact processWaitpid_answer hlist hpos parentPid targetPid status

def family : ProcList := processCreate (processCreate .init (-1) true true) 0 true true

def reapedFamily : ProcList :=
  { processExit family 1 0x107 with procTableHead := some 0, freed := [1] }

theorem waitpid_answers_and_reports_family :
    Answer (processExit family 1 0x107) [1, 0] 0 (-1) true reapedFamily 1 (some 0x700) ∧
      Told [.exit 1 0x107, .create 1 1 0, .create 0 0 (-1)] 1 0 1 (some 0x700) := by
  have hwait : processWaitpid (processExit family 1 0x107) 0 (-1) true =
    some (reapedFamily, 1, some 0x700) := rfl
  obtain ⟨hanswers, hreports⟩ := waitpid_answers_and_reports
  constructor
  · have hlist : Listed (processExit family 1 0x107) [1, 0] :=
      ⟨⟨rfl, rfl, rfl⟩, by decide, by decide⟩
    obtain ⟨t', result, stored, heq, hanswer⟩ := hanswers (processExit family 1 0x107)
      [1, 0] 0 (-1) true hlist (by decide) (by decide)
    obtain ⟨rfl, rfl, rfl⟩ : reapedFamily = t' ∧ 1 = result ∧ some 0x700 = stored := by
      simpa using hwait.symm.trans heq
    exact hanswer
  · have hrun : Reachable Step (init, []) (reapedFamily,
        [.report 1 0 1 (some 0x700), .exit 1 0x107, .create 1 1 0, .create 0 0 (-1)]) :=
      (((Relation.ReflTransGen.single (.create (-1))).tail (.create 0)).tail
        (.exit 1 0x107 (by decide) (by decide))).tail (.reap 0 (-1) true 1 (some 0x700) 1 hwait rfl)
    exact hreports _ _ hrun [] _ 1 0 1 (some 0x700) rfl

end NexusKernel.ChildReports
