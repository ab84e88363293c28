import NexusKernel.RunQueues

/-!
The lives of threads: the scheduler together with `thread_sleep_ms` of sched/thread.c and
`process_create`, `process_destroy` and `process_waitpid` of sched/process.c. Any thread may block
or sleep here, the idle one included.

A thread is parked while it is neither ready nor running. `Steady` says what an operation leaves
alone then, but for the idle thread, on which `schedule` falls back whatever its state.
-/

namespace NexusKernel.ThreadLives

open Lib.LinkedQueue Lib.Runs Scheduler RunQueues Function Static

def setDeadline (s : Sched) (t : ℕ) (ticks : UInt64) : Sched :=
  { s with thread := update s.thread t { s.thread t with sleepUntilMs := ticks } }

def threadSleepMs (s : Sched) (ms : UInt64) : Option Sched :=
  match s.currentThread with
  | none => some s
  | some t => schedulerBlock (setDeadline s t (s.pitTicks + ms)) .sleeping

structure Entry where
  proc : ℕ
  pid : Int32
  ppid : Int32

/-- The scheduler, the process table, the next process number, and the threads given back. -/
structure System where
  sched : Sched
  procTable : List Entry
  nextPid : Int32
  freed : List ℕ

def processCreate (k : System) (ppid : Int32) (cr3 : UInt64) : System :=
  if cr3 = 0 then { k with nextPid := k.nextPid + 1 }
  else
    let (sched, proc) := createProcess k.sched cr3
    { k with
      sched := sched
      procTable := ⟨proc, k.nextPid, ppid⟩ :: k.procTable
      nextPid := k.nextPid + 1 }

def threadDestroy (k : System) (t : ℕ) : System := { k with freed := t :: k.freed }

def processDestroy (k : System) (proc : ℕ) : System :=
  let k := (k.sched.process proc).threads.foldl threadDestroy k
  { k with
    sched := { k.sched with
      process := update k.sched.process proc { k.sched.process proc with threads := [], cr3 := 0 } }
    procTable := k.procTable.eraseP (fun e => e.proc = proc) }

def waitpidFrom (k : System) (parentPid targetPid : Int32) :
    List Entry → Bool → System × Int32 × Option Int32
  | [], hasChildren => (k, if hasChildren then 0 else -1, none)
  | e :: rest, hasChildren =>
      if e.ppid = parentPid then
        if targetPid = -1 ∨ e.pid = targetPid then
          if (k.sched.process e.proc).zombie then
            (processDestroy k e.proc, e.pid,
              some (((k.sched.process e.proc).exitCode &&& 0xff) <<< 8))
          else waitpidFrom k parentPid targetPid rest true
        else waitpidFrom k parentPid targetPid rest hasChildren
      else waitpidFrom k parentPid targetPid rest hasChildren

def processWaitpid (k : System) (parentPid targetPid : Int32) : System × Int32 × Option Int32 :=
  waitpidFrom k parentPid targetPid k.procTable false

inductive Op where
  | processCreate (ppid : Int32) (cr3 : UInt64)
  | spawn (proc : ℕ) (kstackVirt : UInt64) (priority : UInt8)
  | start
  | schedule
  | tick
  | timer
  | block (reason : ThreadState)
  | sleep (ms : UInt64)
  | wake (t : ℕ)
  | exit (proc : ℕ) (code : Int32)
  | waitpid (parentPid targetPid : Int32)

def Op.onSched (s : Sched) : Op → Option Sched
  | .spawn proc kstackVirt priority => some (Scheduler.spawn s proc kstackVirt priority)
  | .start => schedulerStart s
  | .schedule => Scheduler.schedule s
  | .tick => schedulerTick s
  | .timer => schedulerTimerHandler s
  | .block reason => schedulerBlock s reason
  | .sleep ms => threadSleepMs s ms
  | .wake t => some (schedulerWake s t)
  | .exit proc code => processExit s proc code
  | .processCreate _ _ | .waitpid _ _ => some s

def perform (k : System) : Op → Option System
  | .processCreate ppid cr3 => some (processCreate k ppid cr3)
  | .waitpid parentPid targetPid => some (processWaitpid k parentPid targetPid).1
  | op => (op.onSched k.sched).map (fun s => { k with sched := s })

def System.Has (k : System) (proc : ℕ) : Prop := ∃ e ∈ k.procTable, e.proc = proc

/-- A call is given processes and threads that exist. The scheduler starts once, and the idle
process does not exit. -/
def Op.Valid (k : System) : Op → Prop
  | .spawn proc _ _ => k.Has proc
  | .start => k.sched.currentThread = none
  | .wake t => t < k.sched.threads ∧ t ∉ k.freed
  | .exit proc _ => k.Has proc ∧ (k.sched.thread k.sched.idleThread).process ≠ proc
  | _ => True

instance (k : System) : (op : Op) → Decidable (op.Valid k)
  | .spawn proc _ _ => inferInstanceAs (Decidable (∃ e ∈ k.procTable, e.proc = proc))
  | .start => inferInstanceAs (Decidable (k.sched.currentThread = none))
  | .wake t => inferInstanceAs (Decidable (t < k.sched.threads ∧ t ∉ k.freed))
  | .exit proc _ => inferInstanceAs (Decidable ((∃ e ∈ k.procTable, e.proc = proc) ∧
      (k.sched.thread k.sched.idleThread).process ≠ proc))
  | .processCreate _ _ | .schedule | .tick | .timer | .block _ | .sleep _ | .waitpid _ _ =>
      inferInstanceAs (Decidable True)

def Step (k k' : System) : Prop := ∃ op : Op, op.Valid k ∧ perform k op = some k'

def System.boot (cr3 idleCr3 idleStack : UInt64) (shell : Option (UInt64 × UInt64)) : System where
  sched := schedulerInit (Sched.boot cr3) idleCr3 idleStack shell
  procTable := if shell.isSome then [⟨1, 1, 0⟩, ⟨0, 0, -1⟩] else [⟨0, 0, -1⟩]
  nextPid := if shell.isSome then 2 else 1
  freed := []

variable {s s' : Sched} {q q' : ℕ → List ℕ} {t u : ℕ} {k k' : System}

def Live (s : Sched) (t : ℕ) : Prop := (s.thread t).state = .ready ∨ (s.thread t).state = .running

structure Steady (s s' : Sched) : Prop extends Static s s' where
  records : s'.process = s.process
  parked : ∀ t, t ≠ s.idleThread → ¬ Live s t → (s'.thread t).state = (s.thread t).state

def recordsOf (s : Sched) : (ℕ → Thread) × ℕ × (ℕ → ProcessRecord) × ℕ × ℕ :=
  (s.thread, s.threads, s.process, s.processes, s.idleThread)

theorem Steady.of_records (h : recordsOf s' = recordsOf s) : Steady s s' := by
  simp only [recordsOf, Prod.mk.injEq] at h
  obtain ⟨hthread, hthreads, hproc, hprocesses, hidle⟩ := h
  exact ⟨(refl s).congr hthread hthreads hproc hprocesses hidle, hproc,
    fun t _ _ => by rw [hthread]⟩

theorem Steady.refl (s : Sched) : Steady s s := Steady.of_records rfl

variable {a b c : Sched}

theorem Steady.trans (h : Steady a b) (h' : Steady b c) : Steady a c := by
  refine ⟨h.toStatic.trans h'.toStatic, h'.records.trans h.records, fun t ht hparked => ?_⟩
  have hstate := h.parked t ht hparked
  have hparked' : ¬ Live b t := by
    simp only [Live, hstate]
    exact hparked
  exact (h'.parked t (h.idleThread ▸ ht) hparked').trans hstate

/-- Changing the state of one thread that is not parked. -/
theorem setState_steady (ht : t ≠ s.idleThread → Live s t) (state : ThreadState) :
    Steady s (s.setState t state) := by
  refine ⟨setState_static s t state, rfl, fun u hu hparked => ?_⟩
  have hne : u ≠ t := by
    intro heq
    subst u
    exact hparked (ht hu)
  simp only [Sched.setState, update_of_ne hne]

theorem setQueue_steady (s : Sched) (pri : ℕ) (r : (ℕ → Option ℕ) × Ends ℕ) :
    Steady s (s.setQueue pri r) := Steady.of_records rfl

theorem enqueue_steady (ht : t ≠ s.idleThread → Live s t) : Steady s (schedulerEnqueue s t) :=
  (setState_steady ht .ready).trans (Steady.of_records rfl)

theorem requeueOld_steady (s : Sched) (old : Option ℕ) : Steady s (requeueOld s old) := by
  cases old with
  | none => exact Steady.refl s
  | some o =>
    simp only [requeueOld]
    split
    · rename_i hrun
      have hready := setState_steady (fun _ => .inr hrun) .ready
      refine hready.trans (enqueue_steady (fun _ => .inl ?_))
      simp [Sched.setState]
    · exact Steady.refl s

theorem saveContext_steady (s : Sched) (old : Option ℕ) : Steady s (saveContext s old) := by
  cases old with
  | none => exact Steady.refl s
  | some o =>
    refine ⟨of_records rfl (fun u => ⟨_, saveContext_thread s (some o) u⟩) rfl rfl rfl, rfl,
      fun u _ _ => ?_⟩
    obtain ⟨saved, heq⟩ := saveContext_thread s (some o) u
    rw [heq]

theorem loadCr3_records (s : Sched) (old : Option ℕ) (next : ℕ) :
    recordsOf (loadCr3 s old next) = recordsOf s := by
  cases old with
  | none => rfl
  | some o =>
    simp only [loadCr3]
    split
    · rfl
    · rfl

variable {op : Op} {old : Option ℕ} {next proc : ℕ}

theorem requeueOld_thread (h : old = some t → (s.thread t).state ≠ .running) :
    (requeueOld s old).thread t = s.thread t := by
  cases old with
  | none => rfl
  | some o =>
    simp only [requeueOld]
    split
    · rename_i hrun
      have hne : t ≠ o := by
        intro heq
        subst o
        exact h rfl hrun
      simp only [schedulerEnqueue, Sched.setState, Sched.setQueue, update_of_ne hne]
    · rfl

/-- A thread that does not run keeps its state when control passes. -/
theorem switchTo_state (hne : t ≠ next) (hstate : (s.thread t).state ≠ .running) :
    ((resume (switchTo s old next)).thread t).state = (s.thread t).state := by
  rw [resume_eq (switchTo_current _ _ _)]
  obtain ⟨saved, heq⟩ :=
    saveContext_thread (loadCr3 (announce (requeueOld s old) next) old next) old t
  have hload : (loadCr3 (announce (requeueOld s old) next) old next).thread =
      (announce (requeueOld s old) next).thread := congrArg Prod.fst (loadCr3_records _ old next)
  simp only [switchTo, heq, hload]
  simp only [announce, Sched.setState, update_of_ne hne]
  rw [requeueOld_thread (fun _ => hstate)]

section

variable (hnext : next ≠ s.idleThread → (s.thread next).state = .ready) (hne : old ≠ some next)
include hnext hne

theorem switchTo_steady : Steady s (switchTo s old next) := by
  have hrequeue := requeueOld_steady s old
  -- The old thread is another one, so `next` is still ready when it is announced.
  have hsame : (requeueOld s old).thread next = s.thread next :=
    requeueOld_thread fun heq => absurd heq hne
  have hrun : Steady (requeueOld s old) ((requeueOld s old).setState next .running) := by
    refine setState_steady (fun hidle => .inl ?_) .running
    rw [hsame]
    exact hnext (hrequeue.idleThread ▸ hidle)
  have hann : Steady s (announce (requeueOld s old) next) :=
    (hrequeue.trans hrun).trans (Steady.of_records rfl)
  exact (hann.trans (Steady.of_records (loadCr3_records _ old next))).trans
    (saveContext_steady _ old)

theorem resume_switchTo_steady : Steady s (resume (switchTo s old next)) := by
  rw [resume_eq (switchTo_current _ _ _)]
  exact (switchTo_steady hnext hne).trans (Steady.of_records rfl)

end

theorem schedule_steady (h : Arranged s q) (heq : schedule s = some s') : Steady s s' := by
  have hlocked : Steady s { s with schedLock := true } := Steady.of_records rfl
  rcases schedule_queued h.queued h.lock with ⟨_, _, heq₁⟩ | ⟨_, hidle, heq₁⟩ |
    ⟨pri, t, rest, r, hpri, hq, _, _, ⟨hne, heq₁⟩ | ⟨hcur, heq₁⟩⟩
  · cases heq₁.symm.trans heq
    exact Steady.refl _
  · cases heq₁.symm.trans heq
    exact hlocked.trans (resume_switchTo_steady (fun hne => absurd rfl hne) hidle)
  · cases heq₁.symm.trans heq
    have ht : t ∈ q pri := by
      rw [hq]
      exact List.mem_cons_self
    exact (hlocked.trans (setQueue_steady _ pri r)).trans
      (resume_switchTo_steady (fun _ => (h.queued.member pri hpri t ht).2.2) hne)
  · obtain rfl := h.eq_idle hcur hpri hq
    cases heq₁.symm.trans heq
    exact (setQueue_steady s pri r).trans (enqueue_steady (fun hne => absurd rfl hne))

section

variable (h : Settled s q)
include h

theorem schedulerTick_steady (heq : schedulerTick s = some s') : Steady s s' := by
  have hticks : ∀ ticks, Steady s { s with tickCounter := ticks } := fun _ => Steady.of_records rfl
  simp only [schedulerTick] at heq
  split at heq
  · exact (hticks 0).trans (schedule_steady (h.withTicks 0 s.pitTicks).toArranged heq)
  · cases heq
    exact hticks _

theorem schedulerTimerHandler_steady (heq : schedulerTimerHandler s = some s') : Steady s s' := by
  have hticks : Steady s { s with pitTicks := s.pitTicks + 1 } := Steady.of_records rfl
  simp only [schedulerTimerHandler] at heq
  split at heq
  · exact hticks.trans (schedulerTick_steady (h.withTicks s.tickCounter (s.pitTicks + 1)) heq)
  · cases heq
    exact hticks

theorem schedulerStart_steady (heq : schedulerStart s = some s') : Steady s s' := by
  obtain ⟨s₁, q₁, first, cr3, hstat, hthread, hproc, _, _, _, hfirst, heq₁⟩ :=
    schedulerStart_eq h.toArranged
  cases heq₁.symm.trans heq
  have hpick : Steady s s₁ := by
    refine Steady.of_records ?_
    simp only [recordsOf, hthread, hstat.threads, hproc, hstat.processes, hstat.idleThread]
  have hswitch : Steady s₁ (resume (switchTo s₁ none first)) := by
    refine resume_switchTo_steady (fun hne => ?_) (Option.some_ne_none first).symm
    rw [hthread]
    exact hfirst.resolve_left (hstat.idleThread ▸ hne)
  exact (hpick.trans hswitch).trans (Steady.of_records rfl)

theorem schedulerBlock_steady {reason : ThreadState}
    (heq : schedulerBlock s reason = some s') : Steady s s' := by
  simp only [schedulerBlock] at heq
  split at heq
  · cases heq
    exact Steady.refl _
  · rename_i t hcur
    obtain ⟨r, q₁, hmark, harr⟩ := markBlocked_arranged h hcur reason
    rw [hmark] at heq
    have hmarked : Steady s ((s.setQueue (queueIndex (s.thread t)) r).setState t reason) :=
      (setState_steady (fun hne => .inr (h.running _ hcur hne)) reason).trans
        (Steady.of_records rfl)
    exact hmarked.trans (schedule_steady harr heq)

end

theorem setDeadline_thread (s : Sched) (t : ℕ) (ticks : UInt64) (u : ℕ) :
    ∃ deadline, (setDeadline s t ticks).thread u =
      { s.thread u with sleepUntilMs := deadline } := by
  by_cases heq : u = t
  · subst u
    exact ⟨ticks, update_self _ _ _⟩
  · exact ⟨_, update_of_ne heq _ _⟩

theorem setDeadline_steady (s : Sched) (t : ℕ) (ticks : UInt64) :
    Steady s (setDeadline s t ticks) := by
  refine ⟨⟨rfl, fun u => ?_, fun u => ?_, fun u => ?_, rfl, fun _ => rfl, fun _ => rfl, rfl⟩, rfl,
    fun u _ _ => ?_⟩
  all_goals
    obtain ⟨deadline, heq⟩ := setDeadline_thread s t ticks u
    rw [heq]

theorem setDeadline_settled (h : Settled s q) (t : ℕ) (ticks : UInt64) :
    Settled (setDeadline s t ticks) q := by
  have hqueued : Queued (setDeadline s t ticks) q := by
    refine ⟨h.queued.holds, fun pri hpri u hu => ?_⟩
    obtain ⟨deadline, heq⟩ := setDeadline_thread s t ticks u
    rw [heq]
    exact h.queued.member pri hpri u hu
  refine ⟨h.toArranged.of_static (setDeadline_steady s t ticks).toStatic hqueued rfl rfl
    rfl h.outside, fun u hu hne => ?_⟩
  obtain ⟨deadline, heq⟩ := setDeadline_thread s t ticks u
  rw [heq]
  exact h.running u hu hne

theorem threadSleepMs_settled (h : Settled s q) (ms : UInt64) :
    ∃ s' q', threadSleepMs s ms = some s' ∧ Settled s' q' := by
  simp only [threadSleepMs]
  split
  · exact ⟨s, q, rfl, h⟩
  · obtain ⟨s', q', heq, hset, _⟩ :=
      schedulerBlock_settles (setDeadline_settled h _ (s.pitTicks + ms)) .sleeping
    exact ⟨s', q', heq, hset⟩

theorem threadSleepMs_steady (h : Settled s q) {ms : UInt64} (heq : threadSleepMs s ms = some s') :
    Steady s s' := by
  simp only [threadSleepMs] at heq
  split at heq
  · cases heq
    exact Steady.refl _
  · exact (setDeadline_steady s _ _).trans (schedulerBlock_steady (setDeadline_settled h _ _) heq)

structure Marked (s : Sched) (proc : ℕ) (code : Int32) (s₁ : Sched) : Prop where
  process : s₁.process = update s.process proc
    { s.process proc with exitCode := code, zombie := true }
  owner : ∀ u, (s₁.thread u).process = (s.thread u).process
  threads : s₁.threads = s.threads
  processes : s₁.processes = s.processes
  idleThread : s₁.idleThread = s.idleThread
  state : ∀ u, (s₁.thread u).state =
    if u ∈ (s.process proc).threads then .dead else (s.thread u).state

theorem processExit_steady (h : Settled s q) {code : Int32}
    (hidle : (s.thread s.idleThread).process ≠ proc) (heq : processExit s proc code = some s') :
    ∃ s₁, Marked s proc code s₁ ∧ Steady s₁ s' := by
  obtain ⟨s₁, q₁, hmark, harr, hproc, howner, hthreads, hprocesses, hidleThread, _, _, hstates,
    _⟩ := markExited_arranged h code hidle
  refine ⟨s₁, ⟨hproc, howner, hthreads, hprocesses, hidleThread, hstates⟩, ?_⟩
  simp only [processExit, hmark] at heq
  split at heq
  · exact schedule_steady harr heq
  · cases heq
    exact Steady.refl _

theorem foldl_threadDestroy (k : System) (l : List ℕ) :
    l.foldl threadDestroy k = { k with freed := l.reverse ++ k.freed } := by
  induction l generalizing k with
  | nil => rfl
  | cons t rest ih =>
    rw [List.foldl_cons, ih]
    simp [threadDestroy]

theorem processDestroy_sched (k : System) (proc : ℕ) :
    (processDestroy k proc).sched = { k.sched with
    process := update k.sched.process proc
      { k.sched.process proc with threads := [], cr3 := 0 } } := by
  simp only [processDestroy, foldl_threadDestroy]

theorem processDestroy_procTable (k : System) (proc : ℕ) :
    (processDestroy k proc).procTable = k.procTable.eraseP (fun e => e.proc = proc) := by
  simp only [processDestroy, foldl_threadDestroy]

theorem mem_freed_processDestroy :
    t ∈ (processDestroy k proc).freed ↔ t ∈ (k.sched.process proc).threads ∨ t ∈ k.freed := by
  simp [processDestroy, foldl_threadDestroy]

/-- `process_waitpid` does nothing or destroys a zombie of the table. -/
theorem waitpidFrom_cases (k : System) (parentPid targetPid : Int32) (l : List Entry)
    (found : Bool) : (waitpidFrom k parentPid targetPid l found).1 = k ∨ ∃ e ∈ l,
      (k.sched.process e.proc).zombie = true ∧
        (waitpidFrom k parentPid targetPid l found).1 = processDestroy k e.proc := by
  fun_induction waitpidFrom k parentPid targetPid l found with
  | case1 => exact .inl rfl
  | case2 e rest _ _ _ hzomb => exact .inr ⟨e, List.mem_cons_self, hzomb, rfl⟩
  | case3 e rest _ _ _ _ ih | case4 e rest _ _ _ ih | case5 e rest _ _ ih =>
    rcases ih with hsame | ⟨e', he', hzomb⟩
    · exact .inl hsame
    · exact .inr ⟨e', List.mem_cons_of_mem e he', hzomb⟩

theorem processWaitpid_cases (k : System) (parentPid targetPid : Int32) :
    (processWaitpid k parentPid targetPid).1 = k ∨ ∃ e ∈ k.procTable,
      (k.sched.process e.proc).zombie = true ∧
        (processWaitpid k parentPid targetPid).1 = processDestroy k e.proc :=
  waitpidFrom_cases k parentPid targetPid k.procTable false

theorem processDestroy_settled (h : Settled k.sched q) (proc : ℕ) :
    Settled (processDestroy k proc).sched q := by
  rw [processDestroy_sched]
  refine ⟨⟨⟨h.queued.holds, h.queued.member⟩, h.lock, h.idle, fun p u hu => ?_, h.current,
    h.outside⟩, h.running⟩
  by_cases heq : p = proc
  · subst p
    simp only [update_self, List.not_mem_nil] at hu
  · simp only [update_of_ne heq] at hu
    exact h.members p u hu

theorem step_settled (h : Settled k.sched q) (hvalid : op.Valid k)
    (heq : perform k op = some k') : ∃ q', Settled k'.sched q' := by
  have hlift : ∀ {r : Option Sched}, Settles k.sched r →
      r.map (fun s => { k with sched := s }) = some k' → ∃ q', Settled k'.sched q' := by
    intro r hsettles heq
    obtain ⟨s', hs, rfl⟩ := Option.map_eq_some_iff.mp heq
    obtain ⟨q', hset, _⟩ := hsettles.settled hs
    exact ⟨q', hset⟩
  cases op with
  | processCreate ppid cr3 =>
    cases heq
    simp only [processCreate]
    split
    · exact ⟨q, h⟩
    · obtain ⟨q', hset, _⟩ := (createProcess_settles h cr3).settled rfl
      exact ⟨q', hset⟩
  | waitpid parentPid targetPid =>
    cases heq
    rcases processWaitpid_cases k parentPid targetPid with hsame | ⟨e, _, _, hdestroy⟩
    · rw [hsame]
      exact ⟨q, h⟩
    · rw [hdestroy]
      exact ⟨q, processDestroy_settled h e.proc⟩
  | spawn proc kstackVirt priority => exact hlift (spawn_settles h proc kstackVirt priority) heq
  | start => exact hlift (schedulerStart_settles h hvalid) heq
  | schedule => exact hlift (schedule_settles h.toArranged) heq
  | tick => exact hlift (schedulerTick_settles h) heq
  | timer => exact hlift (schedulerTimerHandler_settles h) heq
  | block reason =>
    obtain ⟨s', hs, rfl⟩ := Option.map_eq_some_iff.mp heq
    obtain ⟨s₁, q₁, heq₁, hset, _⟩ := schedulerBlock_settles h reason
    exact ⟨q₁, Option.some.inj (heq₁.symm.trans hs) ▸ hset⟩
  | sleep ms =>
    obtain ⟨s', hs, rfl⟩ := Option.map_eq_some_iff.mp heq
    obtain ⟨s₁, q₁, heq₁, hset⟩ := threadSleepMs_settled h ms
    exact ⟨q₁, Option.some.inj (heq₁.symm.trans hs) ▸ hset⟩
  | wake t => exact hlift (schedulerWake_settles h hvalid.1) heq
  | exit proc code => exact hlift (processExit_settles h code hvalid.2) heq

theorem boot_settled (cr3 idleCr3 idleStack : UInt64) (shell : Option (UInt64 × UInt64)) :
    ∃ q, Settled (System.boot cr3 idleCr3 idleStack shell).sched q := by
  obtain ⟨q, h⟩ := schedulerInit_between cr3 idleCr3 idleStack shell
  exact ⟨q, h.settled⟩

theorem reachable_settled {cr3 idleCr3 idleStack : UInt64} {shell : Option (UInt64 × UInt64)}
    (hrun : Reachable Step (System.boot cr3 idleCr3 idleStack shell) k) : ∃ q, Settled k.sched q :=
  hrun.invariant (fun k => ∃ q, Settled k.sched q)
    (fun _ _ ⟨_, h⟩ ⟨_, hvalid, heq⟩ => step_settled h hvalid heq)
    (boot_settled cr3 idleCr3 idleStack shell)

/-- Most calls are steady. The others make a record, wake a thread, end a process or give one
back. -/
inductive Effect (k : System) : Op → System → Prop
  | steady {op : Op} {s' : Sched} (nextPid : Int32) (h : Steady k.sched s') :
      Effect k op { k with sched := s', nextPid := nextPid }
  | spawn {proc : ℕ} {kstackVirt : UInt64} {priority : UInt8} (hproc : k.Has proc) :
      Effect k (.spawn proc kstackVirt priority)
        { k with sched := Scheduler.spawn k.sched proc kstackVirt priority }
  | wake {t : ℕ} (ht : t < k.sched.threads) :
      Effect k (.wake t) { k with sched := schedulerWake k.sched t }
  | exit {proc : ℕ} {code : Int32} {s₁ s' : Sched} (hproc : k.Has proc)
      (hidle : (k.sched.thread k.sched.idleThread).process ≠ proc)
      (hmarked : Marked k.sched proc code s₁) (hsteady : Steady s₁ s') :
      Effect k (.exit proc code) { k with sched := s' }
  | create {ppid : Int32} {cr3 : UInt64} : Effect k (.processCreate ppid cr3) { k with
          sched := (createProcess k.sched cr3).1
          procTable := ⟨k.sched.processes, k.nextPid, ppid⟩ :: k.procTable
          nextPid := k.nextPid + 1 }
  | reap {parentPid targetPid : Int32} {e : Entry} (he : e ∈ k.procTable)
      (hzomb : (k.sched.process e.proc).zombie = true) :
      Effect k (.waitpid parentPid targetPid) (processDestroy k e.proc)

theorem step_effect (h : Settled k.sched q) (hvalid : op.Valid k)
    (heq : perform k op = some k') : Effect k op k' := by
  have hsteady : ∀ {r : Option Sched}, (∀ s', r = some s' → Steady k.sched s') →
      r.map (fun s => { k with sched := s }) = some k' → Effect k op k' := by
    intro r hr heq
    obtain ⟨s', hs, rfl⟩ := Option.map_eq_some_iff.mp heq
    exact .steady k.nextPid (hr s' hs)
  cases op with
  | start => exact hsteady (fun _ => schedulerStart_steady h) heq
  | schedule => exact hsteady (fun _ => schedule_steady h.toArranged) heq
  | tick => exact hsteady (fun _ => schedulerTick_steady h) heq
  | timer => exact hsteady (fun _ => schedulerTimerHandler_steady h) heq
  | block reason => exact hsteady (fun _ => schedulerBlock_steady h) heq
  | sleep ms => exact hsteady (fun _ => threadSleepMs_steady h) heq
  | spawn proc kstackVirt priority =>
    cases heq
    exact .spawn hvalid
  | wake t =>
    cases heq
    exact .wake hvalid.1
  | exit proc code =>
    obtain ⟨s', hs, rfl⟩ := Option.map_eq_some_iff.mp heq
    obtain ⟨s₁, hmarked, hsteady⟩ := processExit_steady h hvalid.2 hs
    exact .exit hvalid.1 hvalid.2 hmarked hsteady
  | processCreate ppid cr3 =>
    cases heq
    simp only [processCreate]
    split
    · exact .steady _ (Steady.of_records rfl)
    · exact .create
  | waitpid parentPid targetPid =>
    cases heq
    rcases processWaitpid_cases k parentPid targetPid with hsame | ⟨e, he, hzomb, hdestroy⟩
    · rw [hsame]
      exact .steady k.nextPid (Steady.of_records rfl)
    · rw [hdestroy]
      exact .reap he hzomb

structure Continues (s s' : Sched) : Prop where
  threads : s.threads ≤ s'.threads
  processes : s.processes ≤ s'.processes
  idleThread : s'.idleThread = s.idleThread
  owner : ∀ t, t < s.threads → (s'.thread t).process = (s.thread t).process
  zombie : ∀ p, p < s.processes → (s.process p).zombie = true → (s'.process p).zombie = true

theorem Steady.continues (h : Steady s s') : Continues s s' :=
  ⟨h.threads.ge, h.processes.ge, h.idleThread, fun t _ => h.toStatic.process t,
    fun p _ hp => by rw [h.records]; exact hp⟩

theorem Continues.trans (h : Continues a b) (h' : Continues b c) : Continues a c where
  threads := h.threads.trans h'.threads
  processes := h.processes.trans h'.processes
  idleThread := h'.idleThread.trans h.idleThread
  owner := fun t ht => (h'.owner t (ht.trans_le h.threads)).trans (h.owner t ht)
  zombie := fun p hp hz => h'.zombie p (hp.trans_le h.processes) (h.zombie p hp hz)

theorem Marked.continues {code : Int32} {s₁ : Sched} (h : Marked s proc code s₁) :
    Continues s s₁ := by
  refine ⟨h.threads.ge, h.processes.ge, h.idleThread, fun t _ => h.owner t, fun p _ hp => ?_⟩
  rw [h.process]
  by_cases heq : p = proc
  · subst p
    simp
  · simpa only [update_of_ne heq] using hp

theorem schedulerWake_static (s : Sched) (t : ℕ) : Static s (schedulerWake s t) := by
  simp only [schedulerWake]
  split
  · exact (setState_static s t .ready).trans (enqueue_static _ t)
  · exact refl s

theorem schedulerWake_process (s : Sched) (t : ℕ) : (schedulerWake s t).process = s.process := by
  simp only [schedulerWake]
  split <;> rfl

theorem spawn_process (s : Sched) (proc : ℕ) (kstackVirt : UInt64) (priority : UInt8) :
    (spawn s proc kstackVirt priority).process = update s.process proc
      { s.process proc with threads := s.threads :: (s.process proc).threads } := rfl

theorem spawn_zombie (s : Sched) (proc : ℕ) (kstackVirt : UInt64) (priority : UInt8) (p : ℕ) :
    ((spawn s proc kstackVirt priority).process p).zombie = (s.process p).zombie :=
  apply_update_of_eq ProcessRecord.zombie (by rfl) p

theorem effect_continues (heff : Effect k op k') : Continues k.sched k'.sched := by
  cases heff with
  | steady _ h => exact h.continues
  | @spawn proc kstackVirt priority _ =>
    refine ⟨Nat.le_succ _, le_rfl, rfl, fun t ht => ?_, fun p _ hp => ?_⟩
    · rw [spawn_thread k.sched proc kstackVirt priority ht]
    · exact (spawn_zombie k.sched proc kstackVirt priority p).trans hp
  | @wake t _ =>
    have hstat := schedulerWake_static k.sched t
    refine ⟨hstat.threads.ge, hstat.processes.ge, hstat.idleThread,
      fun u _ => hstat.process u, fun p _ hp => ?_⟩
    rw [schedulerWake_process]
    exact hp
  | exit _ _ hmarked hsteady => exact hmarked.continues.trans hsteady.continues
  | create =>
    refine ⟨le_rfl, Nat.le_succ _, rfl, fun _ _ => rfl, fun p hlt hp => ?_⟩
    simpa only [createProcess, update_of_ne (Nat.ne_of_lt hlt)] using hp
  | @reap _ _ e _ _ =>
    rw [processDestroy_sched]
    exact ⟨le_rfl, le_rfl, rfl, fun _ _ => rfl,
      fun p _ hp => (apply_update_of_eq ProcessRecord.zombie (by rfl) p).trans hp⟩

def Op.Disturbs (s : Sched) (t : ℕ) : Op → Prop
  | .wake u => u = t
  | .exit proc _ => proc = (s.thread t).process
  | _ => False

theorem schedulerWake_state (s : Sched) (hne : u = t → (s.thread t).state = .dead) :
    ((schedulerWake s u).thread t).state = (s.thread t).state := by
  simp only [schedulerWake]
  split
  · rename_i hstate
    have htu : t ≠ u := by
      intro heq
      subst u
      rcases hstate with hstate | hstate <;> cases hstate.symm.trans (hne rfl)
    simp only [schedulerEnqueue, Sched.setState, Sched.setQueue, update_of_ne htu]
  · rfl

/-- A parked thread keeps its state unless woken or killed, and a dead one even then. -/
theorem effect_parked (h : Settled k.sched q) (heff : Effect k op k')
    (ht : t < k.sched.threads) (hidle : t ≠ k.sched.idleThread) (hparked : ¬ Live k.sched t)
    (hop : op.Disturbs k.sched t → (k.sched.thread t).state = .dead) :
    (k'.sched.thread t).state = (k.sched.thread t).state := by
  cases heff with
  | steady _ h => exact h.parked t hidle hparked
  | @spawn proc kstackVirt priority _ => rw [spawn_thread k.sched proc kstackVirt priority ht]
  | @wake u _ => exact schedulerWake_state k.sched hop
  | @exit proc code s₁ s' _ _ hmarked hsteady =>
    have hsame : (s₁.thread t).state = (k.sched.thread t).state := by
      rw [hmarked.state]
      split
      · rename_i hmem
        exact (hop (h.members proc t hmem).2.symm).symm
      · rfl
    have hparked₁ : ¬ Live s₁ t := by
      simp only [Live, hsame]
      exact hparked
    exact (hsteady.parked t (hmarked.idleThread ▸ hidle) hparked₁).trans hsame
  | create => rfl
  | reap _ _ => rw [processDestroy_sched]

end NexusKernel.ThreadLives
