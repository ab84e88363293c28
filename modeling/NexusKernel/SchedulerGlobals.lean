import NexusKernel.RunQueues

/-!
The variables that `schedule` keeps for the running thread: the lock, the current process, CR3 and
the two copies of the kernel stack pointer. Control passes in the middle of `schedule`, so the run
is cut there: a thread is outside, has taken the lock, or control was passed on and the next
thread has not released the lock yet.
-/

namespace NexusKernel.SchedulerGlobals

open Lib.LinkedQueue Lib.Runs Scheduler RunQueues Function

variable {s s' : Sched} {t o next pri fuel : ℕ} {start : Option ℕ}

/-- The queues lead to threads that exist, and these belong to processes that exist; no more is
required. -/
structure InRange (s : Sched) : Prop where
  next : ∀ t u, s.nextInQueue t = some u → u < s.threads
  head : ∀ pri t, s.readyHead pri = some t → t < s.threads
  idle : s.idleThread < s.threads
  process : ∀ t, t < s.threads → (s.thread t).process < s.processes

structure Consistent (s : Sched) (t : ℕ) : Prop where
  currentThread : s.currentThread = some t
  exist : t < s.threads
  currentProcess : s.currentProcess = some (s.thread t).process
  cr3 : s.cr3 = (s.process (s.thread t).process).cr3
  tssRsp0 : s.tssRsp0 = (s.thread t).kstackVirt
  kernelRspScratch : s.kernelRspScratch = (s.thread t).kstackVirt

structure Quiet (s s' : Sched) : Prop extends Static s s' where
  currentThread : s'.currentThread = s.currentThread
  currentProcess : s'.currentProcess = s.currentProcess
  loadedCr3 : s'.cr3 = s.cr3
  tssRsp0 : s'.tssRsp0 = s.tssRsp0
  kernelRspScratch : s'.kernelRspScratch = s.kernelRspScratch
  schedLock : s'.schedLock = s.schedLock

theorem Quiet.refl (s : Sched) : Quiet s s := ⟨Static.refl s, rfl, rfl, rfl, rfl, rfl, rfl⟩

theorem Quiet.trans {a b c : Sched} (h : Quiet a b) (h' : Quiet b c) : Quiet a c where
  toStatic := h.toStatic.trans h'.toStatic
  currentThread := h'.currentThread.trans h.currentThread
  currentProcess := h'.currentProcess.trans h.currentProcess
  loadedCr3 := h'.loadedCr3.trans h.loadedCr3
  tssRsp0 := h'.tssRsp0.trans h.tssRsp0
  kernelRspScratch := h'.kernelRspScratch.trans h.kernelRspScratch
  schedLock := h'.schedLock.trans h.schedLock

theorem Consistent.of_quiet (h : Consistent s t) (hquiet : Quiet s s') : Consistent s' t where
  currentThread := hquiet.currentThread.trans h.currentThread
  exist := by
    rw [hquiet.threads]
    exact h.exist
  currentProcess := by
    rw [hquiet.currentProcess, hquiet.process]
    exact h.currentProcess
  cr3 := by
    rw [hquiet.loadedCr3, hquiet.process, hquiet.cr3]
    exact h.cr3
  tssRsp0 := by
    rw [hquiet.tssRsp0, hquiet.kstackVirt]
    exact h.tssRsp0
  kernelRspScratch := by
    rw [hquiet.kernelRspScratch, hquiet.kstackVirt]
    exact h.kernelRspScratch

theorem setState_quiet (s : Sched) (t : ℕ) (state : ThreadState) : Quiet s (s.setState t state) :=
  ⟨setState_static s t state, rfl, rfl, rfl, rfl, rfl, rfl⟩

theorem enqueue_quiet (s : Sched) (t : ℕ) : Quiet s (schedulerEnqueue s t) :=
  ⟨enqueue_static s t, rfl, rfl, rfl, rfl, rfl, rfl⟩

theorem dequeue_quiet (h : schedulerDequeue s t = some s') : Quiet s s' := by
  have hstat := dequeue_static h
  obtain ⟨r, _, rfl⟩ := Option.map_eq_some_iff.mp h
  exact ⟨hstat, rfl, rfl, rfl, rfl, rfl, rfl⟩

section

variable (h : InRange s)
include h

theorem InRange.within (pri : ℕ) :
    Within (fun t => t < s.threads) s.nextInQueue (s.ends pri) := ⟨h.next, h.head pri⟩

theorem InRange.setQueue {r : (ℕ → Option ℕ) × Ends ℕ}
    (hr : Within (fun t => t < s.threads) r.1 r.2) : InRange (s.setQueue pri r) :=
  ⟨hr.next, Within.set h.head hr.head pri, h.idle, h.process⟩

theorem InRange.of_pointers (hstat : Static s s')
    (hnext : s'.nextInQueue = s.nextInQueue) (hhead : s'.readyHead = s.readyHead) : InRange s' where
  next := by
    rw [hnext, hstat.threads]
    exact h.next
  head := by
    rw [hhead, hstat.threads]
    exact h.head
  idle := by
    rw [hstat.idleThread, hstat.threads]
    exact h.idle
  process := by
    intro t ht
    rw [hstat.threads] at ht
    rw [hstat.process, hstat.processes]
    exact h.process t ht

theorem InRange.setState (t : ℕ) (state : ThreadState) :
    InRange (s.setState t state) := h.of_pointers (setState_static s t state) rfl rfl

theorem InRange.enqueue (ht : t < s.threads) : InRange (schedulerEnqueue s t) :=
  (h.setQueue (push_within (h.within _) ht)).setState t .ready

theorem InRange.dequeue (heq : schedulerDequeue s t = some s') : InRange s' := by
  obtain ⟨r, hr, rfl⟩ := Option.map_eq_some_iff.mp heq
  exact h.setQueue (removeFrom_within (h.within _) hr)

theorem wakeSleepers_quiet (hst : ∀ t, start = some t → t < s.threads)
    (heq : wakeSleepers fuel s start = some s') : Quiet s s' ∧ InRange s' := by
  fun_induction wakeSleepers fuel s start with
  | case1 fuel s => exact Option.some.inj heq ▸ ⟨Quiet.refl s, h⟩
  | case2 | case3 => simp at heq
  | case4 fuel s t next _ s₁ hdequeue ih =>
    have hquiet : Quiet s (schedulerEnqueue (s₁.setState t .ready) t) :=
      ((dequeue_quiet hdequeue).trans (setState_quiet s₁ t .ready)).trans (enqueue_quiet _ t)
    have hthreads : t < s₁.threads := by
      rw [(dequeue_static hdequeue).threads]
      exact hst t rfl
    obtain ⟨hrest, hrange⟩ := ih (((h.dequeue hdequeue).setState t .ready).enqueue hthreads)
      (fun u hu => by
        rw [hquiet.threads]
        exact h.next t u hu) heq
    exact ⟨hquiet.trans hrest, hrange⟩
  | case5 fuel s t next _ ih => exact ih h (h.next t) heq

theorem pickBelow_quiet {n : ℕ} {choice : Option ℕ} (heq : pickBelow n s = some (s', choice)) :
    Quiet s s' ∧ InRange s' ∧ ∀ t, choice = some t → t < s'.threads := by
  fun_induction pickBelow n s with
  | case1 s =>
    cases heq
    exact ⟨Quiet.refl _, h, nofun⟩
  | case2 => simp at heq
  | case3 n s s₁ hwake chosen hhead =>
    obtain ⟨hquiet, hrange⟩ := wakeSleepers_quiet h (h.head n) hwake
    obtain ⟨s₂, hdequeue, hpair⟩ := Option.map_eq_some_iff.mp heq
    cases hpair
    refine ⟨hquiet.trans (dequeue_quiet hdequeue), hrange.dequeue hdequeue, fun t ht => ?_⟩
    rw [(dequeue_static hdequeue).threads, ← Option.some.inj ht]
    exact hrange.head n chosen hhead
  | case4 n s s₁ hwake _ ih =>
    obtain ⟨hquiet, hrange⟩ := wakeSleepers_quiet h (h.head n) hwake
    obtain ⟨hrest, hrange', hchoice⟩ := ih hrange heq
    exact ⟨hquiet.trans hrest, hrange', hchoice⟩

theorem killThreads_quiet {l : List ℕ} (heq : killThreads l s = some s') :
    Quiet s s' ∧ InRange s' := by
  fun_induction killThreads l s with
  | case1 s => exact Option.some.inj heq ▸ ⟨Quiet.refl s, h⟩
  | case2 t rest s _ ih => exact ih h heq
  | case3 => simp at heq
  | case4 t rest s _ s₁ hdequeue ih =>
    obtain ⟨hrest, hrange⟩ := ih ((h.dequeue hdequeue).setState t .dead) heq
    exact ⟨((dequeue_quiet hdequeue).trans (setState_quiet s₁ t .dead)).trans hrest, hrange⟩

end

theorem requeueOld_quiet (s : Sched) (old : Option ℕ) : Quiet s (requeueOld s old) := by
  cases old with
  | none => exact Quiet.refl s
  | some o =>
    simp only [requeueOld]
    split
    · exact (setState_quiet s o .ready).trans (enqueue_quiet _ o)
    · exact Quiet.refl s

theorem Consistent.withLock (h : Consistent s t) (lock : Bool) :
    Consistent { s with schedLock := lock } t :=
  ⟨h.currentThread, h.exist, h.currentProcess, h.cr3, h.tssRsp0, h.kernelRspScratch⟩

theorem InRange.withLock (h : InRange s) (lock : Bool) : InRange { s with schedLock := lock } :=
  ⟨h.next, h.head, h.idle, h.process⟩

theorem switchTo_stacks (s : Sched) (o next : ℕ) : (switchTo s (some o) next).tssRsp0 =
    (s.thread next).kstackVirt ∧
    (switchTo s (some o) next).kernelRspScratch = (s.thread next).kstackVirt ∧
    (switchTo s (some o) next).schedLock = s.schedLock := by
  have hstack := (requeueOld_static s (some o)).kstackVirt next
  have hlock := (requeueOld_quiet s (some o)).schedLock
  simp only [switchTo, saveContext, loadCr3]
  split
  · exact ⟨hstack, hstack, hlock⟩
  · exact ⟨hstack, hstack, hlock⟩

/-- CR3 is left alone only if the next thread's process is the old one's. -/
theorem switchTo_cr3 (h : Consistent s o) (next : ℕ) :
    (switchTo s (some o) next).cr3 = (s.process (s.thread next).process).cr3 := by
  have hstat : Static s (announce (requeueOld s (some o)) next) :=
    ((requeueOld_static s (some o)).trans (setState_static _ next .running)).congr rfl
      rfl rfl rfl rfl
  simp only [switchTo, saveContext, loadCr3]
  split
  · rw [hstat.cr3, hstat.process]
  · rename_i hsame
    rw [hstat.process, hstat.process, not_ne_iff] at hsame
    rw [hsame]
    exact (requeueOld_quiet s (some o)).loadedCr3.trans h.cr3

theorem switchTo_consistent (h : Consistent s o) (hnext : next < s.threads) :
    Consistent (switchTo s (some o) next) next := by
  have hstat := switchTo_static s (some o) next
  obtain ⟨htss, hscratch, _⟩ := switchTo_stacks s o next
  refine ⟨switchTo_current s (some o) next, ?_, ?_, ?_, ?_, ?_⟩
  · rw [hstat.threads]
    exact hnext
  · rw [hstat.process]
    exact switchTo_process s (some o) next
  · rw [hstat.process, hstat.cr3]
    exact switchTo_cr3 h next
  · rw [hstat.kstackVirt]
    exact htss
  · rw [hstat.kstackVirt]
    exact hscratch

theorem InRange.switchTo (h : InRange s) (ho : o < s.threads) (next : ℕ) :
    InRange (switchTo s (some o) next) := by
  have hrequeue : InRange (requeueOld s (some o)) := by
    simp only [requeueOld]
    split
    · exact (h.setState o .ready).enqueue ho
    · exact h
  have hload : ∀ s₁ : Sched, (loadCr3 s₁ (some o) next).nextInQueue = s₁.nextInQueue ∧
      (loadCr3 s₁ (some o) next).readyHead = s₁.readyHead := by
    intro s₁
    simp only [loadCr3]
    split
    · exact ⟨rfl, rfl⟩
    · exact ⟨rfl, rfl⟩
  obtain ⟨hnext, hhead⟩ := hload (announce (requeueOld s (some o)) next)
  have hstat : Static (requeueOld s (some o)) (Scheduler.switchTo s (some o) next) :=
    (requeueOld_static s (some o)).symm.trans (switchTo_static s (some o) next)
  exact hrequeue.of_pointers hstat hnext hhead

theorem dispatch_consistent {handed : Bool} (h : Consistent s o) (hrange : InRange s)
    (hlock : s.schedLock = true) (heq : dispatch s = some (s', handed)) :
    ∃ t, Consistent s' t ∧ InRange s' ∧ s'.schedLock = handed := by
  simp only [dispatch, h.currentThread] at heq
  cases hpick : pickNext s with
  | none =>
    rw [hpick] at heq
    simp at heq
  | some r =>
    obtain ⟨s₁, choice⟩ := r
    rw [hpick] at heq
    obtain ⟨hquiet, hrange₁, hchoice⟩ := pickBelow_quiet hrange hpick
    have h₁ := h.of_quiet hquiet
    have hlock₁ : s₁.schedLock = true := hquiet.schedLock.trans hlock
    have hswitch : ∀ next < s₁.threads, some (switchTo s₁ (some o) next, true) = some (s', handed) →
        ∃ t, Consistent s' t ∧ InRange s' ∧ s'.schedLock = handed := by
      intro next hnext heq
      cases heq
      exact ⟨next, switchTo_consistent h₁ hnext, hrange₁.switchTo h₁.exist next,
        (switchTo_stacks s₁ o next).2.2.trans hlock₁⟩
    cases choice with
    | none =>
      dsimp only at heq
      split at heq
      · cases heq
        exact ⟨o, h₁.withLock false, hrange₁.withLock false, rfl⟩
      · exact hswitch _ hrange₁.idle heq
    | some next =>
      dsimp only at heq
      split at heq
      · cases heq
        exact ⟨o, (h₁.of_quiet (enqueue_quiet s₁ next)).withLock false,
          (hrange₁.enqueue (hchoice next rfl)).withLock false, rfl⟩
      · exact hswitch next (hchoice next rfl) heq

inductive Phase where
  /-- A thread runs that is neither in `schedule` nor in `thread_entry_stub`. -/
  | outside
  /-- The current thread has taken the lock in `schedule`. -/
  | inSchedule
  /-- The current thread was switched to and has not released the lock. -/
  | handedOver
  deriving DecidableEq

structure Exec where
  sched : Sched
  phase : Phase

/-- Entering `schedule`. A timer interrupt between the test of the lock and its setting is one
before the call: it leaves the lock free. -/
def callSchedule (e : Exec) : Exec :=
  if e.sched.schedLock then e else ⟨{ e.sched with schedLock := true }, .inSchedule⟩

def interrupt (e : Exec) : Exec :=
  if (countTick e.sched).2 then callSchedule ⟨(countTick e.sched).1, e.phase⟩
  else ⟨(countTick e.sched).1, e.phase⟩

/-- One step of the machine. Blocking and exiting are two steps, the marking and the call of
`schedule`, between which the timer may tick. -/
inductive Step : Exec → Exec → Prop
  | call (s : Sched) : Step ⟨s, .outside⟩ (callSchedule ⟨s, .outside⟩)
  | choose {s s' : Sched} {handed : Bool} (h : dispatch s = some (s', handed)) :
      Step ⟨s, .inSchedule⟩ ⟨s', if handed then .handedOver else .outside⟩
  | resume (s : Sched) : Step ⟨s, .handedOver⟩ ⟨resume s, .outside⟩
  | timer (e : Exec) : Step e (interrupt e)
  | block {s s' : Sched} {reason : ThreadState} (h : markBlocked s reason = some s') :
      Step ⟨s, .outside⟩ ⟨s', .outside⟩
  | exit {s s' : Sched} {proc : ℕ} {code : Int32} (h : markExited s proc code = some s') :
      Step ⟨s, .outside⟩ ⟨s', .outside⟩
  | wake (s : Sched) (phase : Phase) {t : ℕ} (ht : t < s.threads) :
      Step ⟨s, phase⟩ ⟨schedulerWake s t, phase⟩
  | createProcess (s : Sched) (cr3 : UInt64) :
      Step ⟨s, .outside⟩ ⟨(createProcess s cr3).1, .outside⟩
  | spawn (s : Sched) {proc : ℕ} (kstackVirt : UInt64) (priority : UInt8)
      (hproc : proc < s.processes) : Step ⟨s, .outside⟩ ⟨spawn s proc kstackVirt priority, .outside⟩

structure Inv (e : Exec) : Prop where
  inRange : InRange e.sched
  consistent : ∃ t, Consistent e.sched t
  unlocked : e.phase = .outside → e.sched.schedLock = false
  locked : e.phase ≠ .outside → e.sched.schedLock = true

theorem Inv.quiet {phase : Phase} (h : Inv ⟨s, phase⟩) (hquiet : Quiet s s') (hrange : InRange s') :
    Inv ⟨s', phase⟩ := by
  obtain ⟨t, ht⟩ := h.consistent
  exact ⟨hrange, ⟨t, ht.of_quiet hquiet⟩, fun hphase => hquiet.schedLock.trans (h.unlocked hphase),
    fun hphase => hquiet.schedLock.trans (h.locked hphase)⟩

theorem countTick_quiet (h : InRange s) : Quiet s (countTick s).1 ∧ InRange (countTick s).1 := by
  unfold countTick
  repeat' split
  all_goals exact ⟨⟨(Static.refl s).congr rfl rfl rfl rfl rfl, rfl, rfl, rfl, rfl, rfl, rfl⟩,
    ⟨h.next, h.head, h.idle, h.process⟩⟩

/-- Inside `schedule` a second call finds the lock taken. -/
theorem callSchedule_inv {e : Exec} (h : Inv e) : Inv (callSchedule e) := by
  unfold callSchedule
  split
  · exact h
  · obtain ⟨t, ht⟩ := h.consistent
    exact ⟨h.inRange.withLock true, ⟨t, ht.withLock true⟩, nofun, fun _ => rfl⟩

theorem interrupt_inv {e : Exec} (h : Inv e) : Inv (interrupt e) := by
  obtain ⟨hquiet, hrange⟩ := countTick_quiet h.inRange
  unfold interrupt
  split
  · exact callSchedule_inv (h.quiet hquiet hrange)
  · exact h.quiet hquiet hrange

/-- A new process leaves the records of the others alone. -/
theorem createProcess_consistent (h : InRange s) (ht : Consistent s t) (cr3 : UInt64) :
    Consistent (createProcess s cr3).1 t := by
  have hne : (s.thread t).process ≠ s.processes := Nat.ne_of_lt (h.process t ht.exist)
  refine ⟨ht.currentThread, ht.exist, ht.currentProcess, ?_, ht.tssRsp0, ht.kernelRspScratch⟩
  simp only [createProcess, update_of_ne hne]
  exact ht.cr3

theorem createProcess_inRange (h : InRange s) (cr3 : UInt64) : InRange (createProcess s cr3).1 :=
  ⟨h.next, h.head, h.idle, fun t ht => Nat.lt_succ_of_lt (h.process t ht)⟩

theorem threadCreate_cr3 (s : Sched) (proc : ℕ) (kstackVirt : UInt64) (p : ℕ) :
    ((threadCreate s proc kstackVirt).1.process p).cr3 = (s.process p).cr3 :=
  apply_update_of_eq ProcessRecord.cr3 (by rfl) p

theorem spawn_consistent (ht : Consistent s t) (proc : ℕ) (kstackVirt : UInt64) (priority : UInt8) :
    Consistent (spawn s proc kstackVirt priority) t := by
  have hmade :
      Consistent (setPriority (threadCreate s proc kstackVirt).1 s.threads priority) t := by
    have hthread := threadCreate_thread s proc kstackVirt priority ht.exist
    refine ⟨ht.currentThread, Nat.lt_succ_of_lt ht.exist, ?_, ?_, ?_, ?_⟩
    · rw [hthread]
      exact ht.currentProcess
    · rw [hthread]
      exact ht.cr3.trans (threadCreate_cr3 s proc kstackVirt _).symm
    · rw [hthread]
      exact ht.tssRsp0
    · rw [hthread]
      exact ht.kernelRspScratch
  exact hmade.of_quiet (enqueue_quiet _ s.threads)

theorem spawn_inRange (h : InRange s) {proc : ℕ} (kstackVirt : UInt64) (priority : UInt8)
    (hproc : proc < s.processes) : InRange (spawn s proc kstackVirt priority) := by
  have hmade : InRange (setPriority (threadCreate s proc kstackVirt).1 s.threads priority) := by
    refine ⟨?_, fun pri t ht => Nat.lt_succ_of_lt (h.head pri t ht), Nat.lt_succ_of_lt h.idle, ?_⟩
    · exact Within.set (fun t u hu => Nat.lt_succ_of_lt (h.next t u hu))
        (fun u hu => absurd hu (by simp)) s.threads
    · intro t ht
      rcases Nat.lt_succ_iff_lt_or_eq.mp ht with hlt | rfl
      · rw [threadCreate_thread s proc kstackVirt priority hlt]
        exact h.process t hlt
      · simp only [setPriority, threadCreate, update_self]
        exact hproc
  exact hmade.enqueue (Nat.lt_succ_self s.threads)

theorem schedulerWake_quiet (h : InRange s) (ht : t < s.threads) :
    Quiet s (schedulerWake s t) ∧ InRange (schedulerWake s t) := by
  unfold schedulerWake
  split
  · exact ⟨(setState_quiet s t .ready).trans (enqueue_quiet _ t), (h.setState t .ready).enqueue ht⟩
  · exact ⟨Quiet.refl s, h⟩

theorem markBlocked_quiet {reason : ThreadState} (h : InRange s)
    (heq : markBlocked s reason = some s') : Quiet s s' ∧ InRange s' := by
  unfold markBlocked at heq
  split at heq
  · exact Option.some.inj heq ▸ ⟨Quiet.refl s, h⟩
  · rename_i t _
    exact ⟨(setState_quiet s t reason).trans (dequeue_quiet heq), (h.setState t reason).dequeue heq⟩

theorem markExited_quiet {proc : ℕ} {code : Int32} (h : InRange s)
    (heq : markExited s proc code = some s') : Quiet s s' ∧ InRange s' := by
  have hmark : Quiet s { s with
      process := update s.process proc { s.process proc with exitCode := code, zombie := true } } :=
    ⟨update_static rfl rfl, rfl, rfl, rfl, rfl, rfl, rfl⟩
  obtain ⟨hkill, hrange⟩ := killThreads_quiet (h.of_pointers hmark.toStatic rfl rfl) heq
  exact ⟨hmark.trans hkill, hrange⟩

theorem step_inv {e e' : Exec} (h : Inv e) (hstep : Step e e') : Inv e' := by
  obtain ⟨t, ht⟩ := h.consistent
  cases hstep with
  | call s => exact callSchedule_inv h
  | choose heq =>
    obtain ⟨u, hu, hrange, hlock⟩ := dispatch_consistent ht h.inRange (h.locked (by simp)) heq
    refine ⟨hrange, ⟨u, hu⟩, fun hphase => ?_, fun hphase => ?_⟩
    · rw [hlock]
      exact Bool.eq_false_iff.mpr fun hhanded => absurd hphase (by simp [hhanded])
    · rw [hlock]
      exact Bool.of_not_eq_false fun hhanded => hphase (by simp [hhanded])
  | resume s =>
    rw [resume_eq ht.currentThread]
    exact ⟨h.inRange.withLock false, ⟨t, ht.withLock false⟩, fun _ => rfl,
      fun hphase => absurd rfl hphase⟩
  | timer e => exact interrupt_inv h
  | block heq =>
    obtain ⟨hquiet, hrange⟩ := markBlocked_quiet h.inRange heq
    exact h.quiet hquiet hrange
  | exit heq =>
    obtain ⟨hquiet, hrange⟩ := markExited_quiet h.inRange heq
    exact h.quiet hquiet hrange
  | wake s phase hlt =>
    obtain ⟨hquiet, hrange⟩ := schedulerWake_quiet h.inRange hlt
    exact h.quiet hquiet hrange
  | createProcess s cr3 =>
    exact ⟨createProcess_inRange h.inRange cr3, ⟨t, createProcess_consistent h.inRange ht cr3⟩,
      h.unlocked, h.locked⟩
  | spawn s kstackVirt priority hproc =>
    exact ⟨spawn_inRange h.inRange kstackVirt priority hproc,
      ⟨t, spawn_consistent ht _ kstackVirt priority⟩, h.unlocked, h.locked⟩

inductive Prepare : Sched → Sched → Prop
  | createProcess (s : Sched) (cr3 : UInt64) : Prepare s (createProcess s cr3).1
  | spawn (s : Sched) {proc : ℕ} (kstackVirt : UInt64) (priority : UInt8)
      (hproc : proc < s.processes) : Prepare s (spawn s proc kstackVirt priority)
  | timer (s : Sched) : Prepare s (countTick s).1

theorem prepare_inRange (h : InRange s) (hstep : Prepare s s') : InRange s' := by
  cases hstep with
  | createProcess cr3 => exact createProcess_inRange h cr3
  | spawn kstackVirt priority hproc => exact spawn_inRange h kstackVirt priority hproc
  | timer => exact (countTick_quiet h).2

theorem schedulerInit_inRange (cr3 idleCr3 idleStack : UInt64) (shell : Option (UInt64 × UInt64)) :
    InRange (schedulerInit (Sched.boot cr3) idleCr3 idleStack shell) := by
  have hidle : InRange (createIdle (Sched.boot cr3) idleCr3 idleStack) := by
    refine ⟨fun t u hu => ?_,
      fun pri t ht => absurd ht (by simp [createIdle, setPriority, threadCreate,
      createProcess, Sched.boot]), Nat.zero_lt_one, fun t ht => ?_⟩
    · simp [createIdle, setPriority, threadCreate, createProcess, Sched.boot] at hu
    · obtain rfl : t = 0 := Nat.lt_one_iff.mp ht
      exact Nat.zero_lt_one
  cases shell with
  | none => exact hidle
  | some shell =>
    exact spawn_inRange (createProcess_inRange hidle shell.1) shell.2 schedPriorityNormal
      (Nat.lt_succ_self _)

theorem schedulerStart_inv (h : InRange s) (heq : schedulerStart s = some s') :
    Inv ⟨s', .outside⟩ := by
  unfold schedulerStart at heq
  cases hpick : pickNext s with
  | none =>
    rw [hpick] at heq
    simp at heq
  | some r =>
    obtain ⟨s₁, choice⟩ := r
    rw [hpick] at heq
    obtain ⟨_, hrange, hchoice⟩ := pickBelow_quiet h hpick
    have hfirst : choice.getD s₁.idleThread < s₁.threads := by
      cases choice with
      | none => exact hrange.idle
      | some t => exact hchoice t rfl
    dsimp only at heq
    generalize choice.getD s₁.idleThread = first at heq hfirst
    rw [resume_eq rfl] at heq
    cases heq
    have hstat := setState_static s₁ first .running
    have hann := hrange.setState first .running
    refine ⟨⟨hann.next, hann.head, hann.idle, hann.process⟩,
      ⟨first, rfl, hfirst, ?_, rfl, ?_, ?_⟩, fun _ => rfl, fun hphase => absurd rfl hphase⟩
    · exact congrArg some (hstat.process first).symm
    · exact (hstat.kstackVirt first).symm
    · exact (hstat.kstackVirt first).symm

/-- After `scheduler_start`, whenever a thread runs outside `schedule` and
`thread_entry_stub`, the lock is free and the globals are its own. -/
theorem scheduler_globals_consistent {cr3 idleCr3 idleStack : UInt64}
    {shell : Option (UInt64 × UInt64)} {ready started : Sched}
    (hprepare : Reachable Prepare (schedulerInit (Sched.boot cr3) idleCr3 idleStack shell) ready)
    (hst : schedulerStart ready = some started)
    (hrun : Reachable Step ⟨started, .outside⟩ ⟨s, .outside⟩) :
    s.schedLock = false ∧ ∃ t, Consistent s t := by
  have hready : InRange ready := hprepare.invariant InRange (fun _ _ => prepare_inRange)
    (schedulerInit_inRange cr3 idleCr3 idleStack shell)
  have hinv : Inv ⟨s, .outside⟩ := hrun.invariant Inv (fun _ _ => step_inv)
    (schedulerStart_inv hready hst)
  exact ⟨hinv.unlocked rfl, hinv.consistent⟩

/-- A call of `schedule` is a run of the steps it was cut into. -/
theorem schedule_reachable (hlock : s.schedLock = false) (heq : schedule s = some s') :
    Reachable Step ⟨s, .outside⟩ ⟨s', .outside⟩ := by
  have hcall : callSchedule ⟨s, .outside⟩ = ⟨{ s with schedLock := true }, .inSchedule⟩ :=
    if_neg (by simp [hlock])
  rw [schedule, if_neg (by simp [hlock])] at heq
  obtain ⟨⟨s₁, handed⟩, hdisp, rfl⟩ := Option.map_eq_some_iff.mp heq
  have henter : Reachable Step ⟨s, .outside⟩ ⟨{ s with schedLock := true }, .inSchedule⟩ :=
    .single (hcall ▸ Step.call s)
  cases handed with
  | false => exact henter.tail (Step.choose hdisp)
  | true => exact (henter.tail (Step.choose hdisp)).tail (Step.resume s₁)

/-- The shell makes a thread of its own process and calls `schedule`. -/
theorem scheduler_globals_consistent_first_run :
    ∃ started s, schedulerStart (schedulerInit (Sched.boot 0x1000) 0x2000 0x3000
        (some (0x4000, 0x5000))) = some started ∧
      schedule (spawn started 1 0x6000 7) = some s ∧ s.currentThread = some 2 ∧
      s.schedLock = false ∧ ∃ t, Consistent s t := by
  obtain ⟨started, s, hst, hschedule, hcur, hlock, hproc⟩ :
      ∃ started s, schedulerStart (schedulerInit (Sched.boot 0x1000) 0x2000 0x3000
          (some (0x4000, 0x5000))) = some started ∧
        schedule (spawn started 1 0x6000 7) = some s ∧ s.currentThread = some 2 ∧
        started.schedLock = false ∧ 1 < started.processes := ⟨_, _, rfl, rfl, rfl, rfl, by decide⟩
  exact ⟨started, s, hst, hschedule, hcur,
    scheduler_globals_consistent Relation.ReflTransGen.refl hst
      ((Relation.ReflTransGen.single (Step.spawn started 0x6000 7 hproc)).trans
        (schedule_reachable hlock hschedule))⟩

end NexusKernel.SchedulerGlobals
