import NexusKernel.Lib.LinkedQueue

/-!
The scheduler of sched/scheduler.c with the thread records of sched/thread.c, the context switch
of context.asm and `process_exit`. Pointers to records are their numbers in the order of creation.
The `next_in_queue` fields form one map; a loop along them has no result if it does not end.

Of a saved context only the place is modelled at which its thread continues: `thread_entry_stub`
on the stack `thread_create` prepared, the end of `schedule` once the thread has been switched
away from there.
-/

namespace NexusKernel.Scheduler

open Lib.LinkedQueue Function

inductive ThreadState where
  | ready
  | running
  | blocked
  | sleeping
  | dead
  deriving DecidableEq, Repr

inductive SavedContext where
  | entryStub
  | inSchedule
  deriving DecidableEq, Repr

structure Thread where
  state : ThreadState
  priority : UInt8
  kstackVirt : UInt64
  sleepUntilMs : UInt64
  process : ℕ
  saved : SavedContext

/-- The fields of a process that scheduling uses; `threads` is linked through `next_in_proc`. -/
structure ProcessRecord where
  cr3 : UInt64
  zombie : Bool
  exitCode : Int32
  threads : List ℕ

/-- The static variables of scheduler.c, the globals `current_thread` and `current_process`, the
registers a switch loads, and the ticks of the PIT. The records made so far are counted by
`threads` and `processes`. -/
structure Sched where
  thread : ℕ → Thread
  nextInQueue : ℕ → Option ℕ
  threads : ℕ
  process : ℕ → ProcessRecord
  processes : ℕ
  readyHead : ℕ → Option ℕ
  readyTail : ℕ → Option ℕ
  tickCounter : UInt64
  schedActive : Bool
  schedLock : Bool
  idleThread : ℕ
  currentThread : Option ℕ
  currentProcess : Option ℕ
  tssRsp0 : UInt64
  kernelRspScratch : UInt64
  cr3 : UInt64
  pitTicks : UInt64

def schedNumPriorities : ℕ := 8
def schedPriorityIdle : UInt8 := 0
def schedPriorityNormal : UInt8 := 4
def schedQuantumMs : UInt64 := 10

def queueIndex (t : Thread) : ℕ :=
  if t.priority.toNat ≥ schedNumPriorities then schedPriorityNormal.toNat else t.priority.toNat

namespace Sched

def ends (s : Sched) (pri : ℕ) : Ends ℕ := ⟨s.readyHead pri, s.readyTail pri⟩

def setQueue (s : Sched) (pri : ℕ) (r : (ℕ → Option ℕ) × Ends ℕ) : Sched :=
  { s with
    nextInQueue := r.1
    readyHead := update s.readyHead pri r.2.head
    readyTail := update s.readyTail pri r.2.tail }

def setState (s : Sched) (t : ℕ) (state : ThreadState) : Sched :=
  { s with thread := update s.thread t { s.thread t with state := state } }

end Sched

def schedulerEnqueue (s : Sched) (t : ℕ) : Sched :=
  let pri := queueIndex (s.thread t)
  (s.setQueue pri (push s.nextInQueue (s.ends pri) t)).setState t .ready

def schedulerDequeue (s : Sched) (t : ℕ) : Option Sched :=
  let pri := queueIndex (s.thread t)
  (remove s.threads s.nextInQueue (s.ends pri) t).map (s.setQueue pri)

/-- The loop at the head of `pick_next` over one queue. A thread moved to the end is met again,
hence the bound. -/
def wakeSleepers : ℕ → Sched → Option ℕ → Option Sched
  | _, s, none => some s
  | 0, _, some _ => none
  | fuel + 1, s, some t =>
      let next := s.nextInQueue t
      if (s.thread t).state = .sleeping ∧ s.pitTicks ≥ (s.thread t).sleepUntilMs then
        match schedulerDequeue s t with
        | none => none
        | some s => wakeSleepers fuel (schedulerEnqueue (s.setState t .ready) t) next
      else wakeSleepers fuel s next

def pickBelow : ℕ → Sched → Option (Sched × Option ℕ)
  | 0, s => some (s, none)
  | pri + 1, s =>
      match wakeSleepers (2 * s.threads + 1) s (s.readyHead pri) with
      | none => none
      | some s =>
          match s.readyHead pri with
          | some chosen => (schedulerDequeue s chosen).map (fun s => (s, some chosen))
          | none => pickBelow pri s

def pickNext (s : Sched) : Option (Sched × Option ℕ) := pickBelow schedNumPriorities s

def requeueOld (s : Sched) (old : Option ℕ) : Sched :=
  match old with
  | some o =>
      if (s.thread o).state = .running then schedulerEnqueue (s.setState o .ready) o else s
  | none => s

def announce (s : Sched) (next : ℕ) : Sched :=
  { s.setState next .running with
    currentThread := some next
    currentProcess := some (s.thread next).process
    tssRsp0 := (s.thread next).kstackVirt
    kernelRspScratch := (s.thread next).kstackVirt }

def loadCr3 (s : Sched) (old : Option ℕ) (next : ℕ) : Sched :=
  match old with
  | some o =>
      if (s.thread next).process ≠ (s.thread o).process then
        { s with cr3 := (s.process (s.thread next).process).cr3 }
      else s
  | none => s

/-- `switch_context` saves the place where the old thread will continue. -/
def saveContext (s : Sched) (old : Option ℕ) : Sched :=
  match old with
  | some o => { s with thread := update s.thread o { s.thread o with saved := .inSchedule } }
  | none => s

def switchTo (s : Sched) (old : Option ℕ) (next : ℕ) : Sched :=
  saveContext (loadCr3 (announce (requeueOld s old) next) old next) old

def threadEntryStub (s : Sched) : Sched := { s with schedLock := false }

def leaveSchedule (s : Sched) : Sched := { s with schedLock := false }

def resume (s : Sched) : Sched :=
  match s.currentThread with
  | some t =>
      match (s.thread t).saved with
      | .entryStub => threadEntryStub s
      | .inSchedule => leaveSchedule s
  | none => s

/-- The body of `schedule` behind its guard, and whether control went to another thread, which
still holds the lock. -/
def dispatch (s : Sched) : Option (Sched × Bool) :=
  let old := s.currentThread
  match pickNext s with
  | none => none
  | some (s, none) =>
      if old = some s.idleThread then some ({ s with schedLock := false }, false)
      else some (switchTo s old s.idleThread, true)
  | some (s, some next) =>
      if some next = old then some ({ schedulerEnqueue s next with schedLock := false }, false)
      else some (switchTo s old next, true)

/-- `schedule`, until the thread that runs then has left `schedule` or `thread_entry_stub`. -/
def schedule (s : Sched) : Option Sched :=
  if s.schedLock then some s
  else (dispatch { s with schedLock := true }).map (fun r => if r.2 then resume r.1 else r.1)

def schedulerTick (s : Sched) : Option Sched :=
  let s := { s with tickCounter := s.tickCounter + 1 }
  if s.tickCounter ≥ schedQuantumMs then schedule { s with tickCounter := 0 } else some s

def schedulerTimerHandler (s : Sched) : Option Sched :=
  let s := { s with pitTicks := s.pitTicks + 1 }
  if s.schedActive then schedulerTick s else some s

def countTick (s : Sched) : Sched × Bool :=
  if s.schedActive then
    if s.tickCounter + 1 ≥ schedQuantumMs then
      ({ s with pitTicks := s.pitTicks + 1, tickCounter := 0 }, true)
    else ({ s with pitTicks := s.pitTicks + 1, tickCounter := s.tickCounter + 1 }, false)
  else ({ s with pitTicks := s.pitTicks + 1 }, false)

/-- What the handler does before it calls `schedule`, and whether it does. -/
theorem schedulerTimerHandler_eq (s : Sched) : schedulerTimerHandler s =
    if (countTick s).2 then schedule (countTick s).1 else some (countTick s).1 := by
  simp only [schedulerTimerHandler, schedulerTick, countTick]
  split
  · split
    · rfl
    · rfl
  · rfl

theorem schedulerTimerHandler_cases {s s' : Sched} (h : schedulerTimerHandler s = some s') :
    (s.schedActive = true ∧ schedQuantumMs ≤ s.tickCounter + 1 ∧
      schedule { s with tickCounter := 0, pitTicks := s.pitTicks + 1 } = some s') ∨
    ∃ tickCounter pitTicks, s' = { s with tickCounter := tickCounter, pitTicks := pitTicks } := by
  simp only [schedulerTimerHandler_eq, countTick] at h
  split at h
  · split at h
    · exact .inl ⟨‹_›, ‹_›, h⟩
    · exact .inr ⟨_, _, (Option.some.inj h).symm⟩
  · exact .inr ⟨_, _, (Option.some.inj h).symm⟩

def markBlocked (s : Sched) (reason : ThreadState) : Option Sched :=
  match s.currentThread with
  | none => some s
  | some t => schedulerDequeue (s.setState t reason) t

def schedulerBlock (s : Sched) (reason : ThreadState) : Option Sched :=
  match s.currentThread with
  | none => some s
  | some _ => (markBlocked s reason).bind schedule

def schedulerWake (s : Sched) (t : ℕ) : Sched :=
  if (s.thread t).state = .blocked ∨ (s.thread t).state = .sleeping then
    schedulerEnqueue (s.setState t .ready) t
  else s

def createProcess (s : Sched) (cr3 : UInt64) : Sched × ℕ :=
  ({ s with
      process := update s.process s.processes ⟨cr3, false, 0, []⟩
      processes := s.processes + 1 }, s.processes)

def threadCreate (s : Sched) (proc : ℕ) (kstackVirt : UInt64) : Sched × ℕ :=
  ({ s with
      thread := update s.thread s.threads ⟨.ready, schedPriorityNormal, kstackVirt, 0,
        proc, .entryStub⟩
      nextInQueue := update s.nextInQueue s.threads none
      threads := s.threads + 1
      process := update s.process proc
        { s.process proc with threads := s.threads :: (s.process proc).threads } }, s.threads)

def setPriority (s : Sched) (t : ℕ) (priority : UInt8) : Sched :=
  { s with thread := update s.thread t { s.thread t with priority := priority } }

def spawn (s : Sched) (proc : ℕ) (kstackVirt : UInt64) (priority : UInt8) : Sched :=
  let (s, t) := threadCreate s proc kstackVirt
  schedulerEnqueue (setPriority s t priority) t

def killThreads : List ℕ → Sched → Option Sched
  | [], s => some s
  | t :: rest, s =>
      if (s.thread t).state = .dead then killThreads rest s
      else
        match schedulerDequeue s t with
        | none => none
        | some s => killThreads rest (s.setState t .dead)

def markExited (s : Sched) (proc : ℕ) (code : Int32) : Option Sched :=
  killThreads (s.process proc).threads { s with
      process := update s.process proc { s.process proc with exitCode := code, zombie := true } }

def processExit (s : Sched) (proc : ℕ) (code : Int32) : Option Sched :=
  match markExited s proc code with
  | none => none
  | some s => if s.currentProcess = some proc then schedule s else some s

def Sched.boot (cr3 : UInt64) : Sched where
  thread := fun _ => ⟨.dead, 0, 0, 0, 0, .entryStub⟩
  nextInQueue := fun _ => none
  threads := 0
  process := fun _ => ⟨0, false, 0, []⟩
  processes := 0
  readyHead := fun _ => none
  readyTail := fun _ => none
  tickCounter := 0
  schedActive := false
  schedLock := false
  idleThread := 0
  currentThread := none
  currentProcess := none
  tssRsp0 := 0
  kernelRspScratch := 0
  cr3 := cr3
  pitTicks := 0

def createIdle (s : Sched) (idleCr3 idleStack : UInt64) : Sched :=
  let (s, proc) := createProcess s idleCr3
  let (s, t) := threadCreate s proc idleStack
  { setPriority s t schedPriorityIdle with idleThread := t }

/-- `scheduler_init`; `shell` has the address space and the stack of the shell's process, if any. -/
def schedulerInit (s : Sched) (idleCr3 idleStack : UInt64) (shell : Option (UInt64 × UInt64)) :
    Sched :=
  let s := createIdle s idleCr3 idleStack
  match shell with
  | none => s
  | some (shellCr3, shellStack) =>
      let (s, proc) := createProcess s shellCr3
      spawn s proc shellStack schedPriorityNormal

def schedulerStart (s : Sched) : Option Sched :=
  match pickNext s with
  | none => none
  | some (s, next) =>
      let first := next.getD s.idleThread
      let s := announce s first
      some (resume { s with
        cr3 := (s.process (s.thread first).process).cr3
        schedActive := true })

end NexusKernel.Scheduler
