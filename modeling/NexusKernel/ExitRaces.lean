import NexusKernel.DeadThreads

/-!
`process_exit` against `process_waitpid`. Interrupts are enabled in a system call, so the timer
may switch between any two statements. The process is a zombie from the second statement on, but
its threads are dequeued and marked dead one by one in the loop after it. A parent that runs in
between gives back threads that are queued.

A run in which the timer does not switch within that time keeps the invariant of the uninterrupted
calls at every switch.
-/

namespace NexusKernel.ExitRaces

open Lib.Runs Scheduler Function
open RunQueues hiding Step
open ThreadLives hiding Step
open DeadThreads Sched Static
open Option (map_eq_some_iff map_some)

/-- How far a thread is with `process_exit`. The loop has the rest of the threads before it;
`unqueued` is between its two statements. -/
inductive ExitPlace where
  | entered (proc : ℕ) (code : Int32)
  | coded (proc : ℕ)
  | marked (proc : ℕ)
  | loop (proc : ℕ) (rest : List ℕ)
  | unqueued (proc t : ℕ) (rest : List ℕ)

namespace ExitPlace

def proc : ExitPlace → ℕ
  | entered proc _ | coded proc | marked proc | loop proc _ | unqueued proc _ _ => proc

def Killing : ExitPlace → Prop
  | entered _ _ | coded _ => False
  | marked _ | loop _ _ | unqueued _ _ _ => True

end ExitPlace

def setExitCode (s : Sched) (proc : ℕ) (code : Int32) : Sched :=
  { s with process := update s.process proc { s.process proc with exitCode := code } }

def setZombie (s : Sched) (proc : ℕ) : Sched :=
  { s with process := update s.process proc { s.process proc with zombie := true } }

def exitStep (s : Sched) : ExitPlace → Option (Sched × Option ExitPlace)
  | .entered proc code => some (setExitCode s proc code, some (.coded proc))
  | .coded proc => some (setZombie s proc, some (.marked proc))
  | .marked proc => some (s, some (.loop proc (s.process proc).threads))
  | .loop proc (t :: rest) =>
      if (s.thread t).state = .dead then some (s, some (.loop proc rest))
      else (schedulerDequeue s t).map (fun s => (s, some (.unqueued proc t rest)))
  | .unqueued proc t rest => some (s.setState t .dead, some (.loop proc rest))
  | .loop proc [] =>
      if s.currentProcess = some proc then (schedule s).map (fun s => (s, none)) else some (s, none)

structure Kernel where
  system : System
  exiting : ℕ → Option ExitPlace

def Kernel.boot (cr3 idleCr3 idleStack : UInt64) (shell : Option (UInt64 × UInt64)) : Kernel :=
  ⟨System.boot cr3 idleCr3 idleStack shell, fun _ => none⟩

/-- The current thread enters `process_exit`, executes the next statement there or makes another
call; or the timer interrupts it. -/
inductive Event where
  | enter (code : Int32)
  | statement
  | timer
  | call (op : Op)

def advance (k : Kernel) : Event → Option Kernel
  | .enter code =>
      match k.system.sched.currentThread, k.system.sched.currentProcess with
      | some x, some proc =>
          some { k with exiting := update k.exiting x (some (.entered proc code)) }
      | _, _ => none
  | .statement =>
      match k.system.sched.currentThread with
      | none => none
      | some x =>
          match k.exiting x with
          | none => none
          | some place =>
              (exitStep k.system.sched place).map (fun r =>
                ⟨{ k.system with sched := r.1 }, update k.exiting x r.2⟩)
  | .timer => (perform k.system .timer).map (fun system => { k with system := system })
  | .call op => (perform k.system op).map (fun system => { k with system := system })

def Kernel.Free (k : Kernel) : Prop :=
  ∀ x, k.system.sched.currentThread = some x → k.exiting x = none

/-- A thread inside `process_exit` makes no other call; the idle process stays. -/
def Event.Valid (k : Kernel) : Event → Prop
  | .enter _ => k.Free ∧
      k.system.sched.currentProcess ≠ some (k.system.sched.thread k.system.sched.idleThread).process
  | .call op => k.Free ∧ op.Valid k.system
  | .statement | .timer => True

instance (k : Kernel) : Decidable k.Free :=
  inferInstanceAs (Decidable (∀ x ∈ k.system.sched.currentThread, k.exiting x = none))

instance (k : Kernel) : (e : Event) → Decidable (e.Valid k)
  | .enter _ => inferInstanceAs (Decidable (k.Free ∧ k.system.sched.currentProcess ≠
      some (k.system.sched.thread k.system.sched.idleThread).process))
  | .call op => inferInstanceAs (Decidable (k.Free ∧ op.Valid k.system))
  | .statement | .timer => inferInstanceAs (Decidable True)

def Step (k k' : Kernel) : Prop := ∃ e : Event, e.Valid k ∧ advance k e = some k'

def Switches (s : Sched) : Prop := s.schedActive = true ∧ schedQuantumMs ≤ s.tickCounter + 1

/-- If the current thread is inside `process_exit`, its process is no zombie yet or all its
threads are dead. -/
def Kernel.Clear (k : Kernel) : Prop :=
  ∀ x place, k.system.sched.currentThread = some x → k.exiting x = some place →
    (k.system.sched.process place.proc).zombie = true →
      ∀ t ∈ (k.system.sched.process place.proc).threads, (k.system.sched.thread t).state = .dead

/-- The timer switches only in clear states, and threads are only made for processes
that have not exited. -/
def Event.Timely (k : Kernel) : Event → Prop
  | .timer => Switches k.system.sched → k.Clear
  | .call op => Op.Careful k.system op
  | .enter _ | .statement => True

instance (s : Sched) : Decidable (Switches s) :=
  inferInstanceAs (Decidable (s.schedActive = true ∧ schedQuantumMs ≤ s.tickCounter + 1))

instance (k : Kernel) : Decidable k.Clear :=
  decidable_of_iff (∀ x ∈ k.system.sched.currentThread, ∀ place ∈ k.exiting x,
    (k.system.sched.process place.proc).zombie = true →
      ∀ t ∈ (k.system.sched.process place.proc).threads, (k.system.sched.thread t).state = .dead)
    ⟨fun h x place hx => h x hx place, fun h x hx place => h x place hx⟩

instance (k : Kernel) : (e : Event) → Decidable (e.Timely k)
  | .timer => inferInstanceAs (Decidable (Switches k.system.sched → k.Clear))
  | .call op => inferInstanceAs (Decidable (Op.Careful k.system op))
  | .enter _ | .statement => inferInstanceAs (Decidable True)

def TimelyStep (k k' : Kernel) : Prop := ∃ e : Event, (e.Valid k ∧ e.Timely k) ∧
    advance k e = some k'

variable {s s' : Sched} {q q' : ℕ → List ℕ} {t x y proc : ℕ} {k k' : Kernel}
  {place place' : ExitPlace} {m : System}

def ExitStep (a b : Sched × Option ExitPlace) : Prop :=
  ∃ place, a.2 = some place ∧ exitStep a.1 place = some b

theorem killThreads_statements {l : List ℕ} (h : killThreads l s = some s') :
    Reachable ExitStep (s, some (.loop proc l)) (s', some (.loop proc [])) := by
  fun_induction killThreads l s with
  | case1 s =>
    cases h
    exact .refl
  | case2 t rest s hdead ih => exact (ih h).head ⟨_, rfl, by simp only [exitStep, if_pos hdead]⟩
  | case3 => simp at h
  | case4 t rest s hdead s₁ hdequeue ih =>
    have hkill : ExitStep (s₁, some (.unqueued proc t rest))
      (s₁.setState t .dead, some (.loop proc rest)) := ⟨_, rfl, rfl⟩
    refine ((ih h).head hkill).head ⟨_, rfl, ?_⟩
    simp [exitStep, if_neg hdead, hdequeue]

theorem processExit_statements {code : Int32} (h : processExit s proc code = some s') :
    Reachable ExitStep (s, some (.entered proc code)) (s', none) := by
  simp only [processExit] at h
  split at h
  · simp at h
  · rename_i s₁ hmark
    have hstores : setZombie (setExitCode s proc code) proc = { s with
          process := update s.process proc
            { s.process proc with exitCode := code, zombie := true } } := by
      simp [setZombie, setExitCode]
    have hthreads : ((setZombie (setExitCode s proc code) proc).process proc).threads =
        (s.process proc).threads := by
      rw [hstores]
      simp
    have hloop : Reachable ExitStep
        (setZombie (setExitCode s proc code) proc, some (.loop proc (s.process proc).threads))
        (s₁, some (.loop proc [])) := by
      rw [hstores]
      exact killThreads_statements hmark
    have hleave : ExitStep (s₁, some (.loop proc [])) (s', none) := by
      refine ⟨_, rfl, ?_⟩
      simp only [exitStep]
      split at h
      · rename_i hself
        rw [if_pos hself, h, map_some]
      · rename_i hother
        cases h
        exact if_neg hother
    refine (((hloop.tail hleave).head ⟨.marked proc, rfl, ?_⟩).head ⟨.coded proc, rfl,
      rfl⟩).head ⟨_, rfl, rfl⟩
    simp only [exitStep, hthreads]

theorem processExit_statements_spawn :
    ∃ s', processExit (spawn (spawn (.boot 0) 0 0 2) 0 0 5) 0 7 = some s' ∧
      (s'.thread 1).state = .dead ∧ (s'.thread 2).state = .dead ∧
      Reachable ExitStep (spawn (spawn (.boot 0) 0 0 2) 0 0 5, some (.entered 0 7)) (s', none) :=
  ⟨_, rfl, by decide, by decide, processExit_statements rfl⟩

/-- The part of the invariant that an interrupted `process_exit` does not break. Besides, a thread
is in the list of its process until it is given back. -/
structure Kept (m : System) : Prop where
  owner : ∀ t, t < m.sched.threads → (m.sched.thread t).process < m.sched.processes
  table : ∀ e ∈ m.procTable, e.proc < m.sched.processes
  idleAlive : (m.sched.process (m.sched.thread m.sched.idleThread).process).zombie = false
  freed : ∀ t ∈ m.freed, Gone m.sched t
  listed : ∀ t, t < m.sched.threads → t ∉ m.freed →
    t ∈ (m.sched.process (m.sched.thread t).process).threads

structure Inside (s : Sched) (y : ℕ) (place : ExitPlace) : Prop where
  exist : y < s.threads
  own : (s.thread y).process = place.proc
  notIdle : (s.thread s.idleThread).process ≠ place.proc

theorem Gone.congr (h : Gone s t) (hstat : Static s s')
    (hzomb : ∀ p, (s.process p).zombie = true → (s'.process p).zombie = true)
    (hdead : (s'.thread t).state = .dead) : Gone s' t := by
  refine ⟨?_, hdead, ?_⟩
  · rw [hstat.threads]
    exact h.exist
  · rw [hstat.process]
    exact hzomb _ h.zombie

theorem Inside.congr (h : Inside s y place) (hstat : Static s s')
    (hproc : place'.proc = place.proc) : Inside s' y place' := by
  refine ⟨?_, ?_, ?_⟩
  · rw [hstat.threads]
    exact h.exist
  · rw [hstat.process, hproc]
    exact h.own
  · rw [hstat.idleThread, hstat.process, hproc]
    exact h.notIdle

theorem Kept.congr (h : Kept m) (hstat : Static m.sched s')
    (hzomb : ∀ p, (m.sched.process p).zombie = true → (s'.process p).zombie = true)
    (hidle : (s'.process (m.sched.thread m.sched.idleThread).process).zombie = false)
    (hdead : ∀ t, Gone m.sched t → (s'.thread t).state = .dead) : Kept { m with sched := s' } := by
  refine ⟨fun t ht => ?_, fun e he => ?_, ?_, fun t ht => ?_, fun t ht hnot => ?_⟩
  · rw [hstat.process, hstat.processes]
    exact h.owner t (hstat.threads ▸ ht)
  · rw [hstat.processes]
    exact h.table e he
  · rw [hstat.idleThread, hstat.process]
    exact hidle
  · exact Gone.congr (h.freed t ht) hstat hzomb (hdead t (h.freed t ht))
  · rw [hstat.process, hstat.members]
    exact h.listed t (hstat.threads ▸ ht) hnot

/-- A dead thread of a zombie stays dead under `schedule`. -/
theorem Gone.steady (h : Gone s t)
    (halive : (s.process (s.thread s.idleThread).process).zombie = false)
    (hsteady : Steady s s') : (s'.thread t).state = .dead :=
  (hsteady.parked t (h.ne_idle halive) (not_live_of_dead h.dead)).trans h.dead

theorem Kept.steady (h : Kept m) (hsteady : Steady m.sched s') : Kept { m with sched := s' } := by
  refine h.congr hsteady.toStatic ?_ ?_ fun t ht => Gone.steady ht h.idleAlive hsteady
  · intro p hp
    rw [hsteady.records]
    exact hp
  · rw [hsteady.records]
    exact h.idleAlive

structure Calm (k : Kernel) : Prop where
  settled : ∃ q, Settled k.system.sched q
  kept : Kept k.system
  buried : ∀ p, (k.system.sched.process p).zombie = true → ∀ t ∈ (k.system.sched.process p).threads,
    (k.system.sched.thread t).state = .dead
  inside : ∀ y place, k.exiting y = some place → Inside k.system.sched y place
  gone : ∀ y place, k.exiting y = some place → place.Killing → Gone k.system.sched y

theorem Calm.inv (h : Calm k) : Inv k.system :=
  ⟨h.settled, h.kept.owner, h.kept.table, h.kept.idleAlive, h.buried, h.kept.freed⟩

variable {op : Op} {m' : System}

theorem listed_effect (h : Kept m) (heff : Effect m op m') : ∀ t < m'.sched.threads, t ∉ m'.freed →
      t ∈ (m'.sched.process (m'.sched.thread t).process).threads := by
  intro t ht hnot
  cases heff with
  | steady _ hsteady =>
    have hlist := h.listed t (hsteady.threads ▸ ht) hnot
    simpa only [hsteady.toStatic.process, hsteady.records] using hlist
  | @spawn proc kstackVirt priority _ =>
    rcases Nat.lt_succ_iff_lt_or_eq.mp ht with hlt | rfl
    · have hlist := h.listed t hlt hnot
      simp only [spawn_thread m.sched proc kstackVirt priority hlt, spawn_process]
      by_cases heq : (m.sched.thread t).process = proc
      · subst proc
        simp only [update_self]
        exact List.mem_cons_of_mem _ hlist
      · simpa only [update_of_ne heq] using hlist
    · have hnew :
          ((spawn m.sched proc kstackVirt priority).thread m.sched.threads).process = proc := by
        simp [spawn, threadCreate, setPriority, schedulerEnqueue, setState, setQueue]
      simp only [hnew, spawn_process, update_self]
      exact List.mem_cons_self
  | @wake u _ =>
    have hstat := schedulerWake_static m.sched u
    have hlist := h.listed t (hstat.threads ▸ ht) hnot
    simpa only [hstat.process, schedulerWake_process] using hlist
  | @exit proc code s₁ s' _ _ hmarked hsteady =>
    have hlist := h.listed t ((hsteady.threads.trans hmarked.threads) ▸ ht) hnot
    simp only [hsteady.toStatic.process, hsteady.records, hmarked.owner, hmarked.process]
    rwa [apply_update_of_eq ProcessRecord.threads]
    rfl
  | @create ppid cr3 =>
    have hne : (m.sched.thread t).process ≠ m.sched.processes := Nat.ne_of_lt (h.owner t ht)
    simpa only [createProcess, update_of_ne hne] using h.listed t ht hnot
  | @reap _ _ e _ _ =>
    rw [mem_freed_processDestroy, not_or] at hnot
    rw [processDestroy_sched] at ht ⊢
    have hlist := h.listed t ht hnot.2
    have hne : (m.sched.thread t).process ≠ e.proc := fun heq => hnot.1 (heq ▸ hlist)
    simpa only [update_of_ne hne] using hlist

theorem Inside.continues (h : Inside s y place) (hidle : s.idleThread < s.threads)
    (hcont : Continues s s') : Inside s' y place := by
  refine ⟨h.exist.trans_le hcont.threads, ?_, ?_⟩
  · rw [hcont.owner y h.exist]
    exact h.own
  · rw [hcont.idleThread, hcont.owner _ hidle]
    exact h.notIdle

/-- Uninterrupted calls keep the invariant, and so does the timer. -/
theorem Calm.perform (h : Calm k) (hvalid : op.Valid k.system)
    (hcareful : Op.Careful k.system op) (heq : perform k.system op = some m') :
    Calm { k with system := m' } := by
  obtain ⟨q, hset⟩ := h.settled
  have heff := step_effect hset hvalid heq
  have hinv : Inv m' := inv_step h.inv ⟨op, hvalid, hcareful, heq⟩
  refine ⟨hinv.settled, ⟨hinv.owner, hinv.table, hinv.idleAlive, hinv.freed,
    listed_effect h.kept heff⟩, hinv.buried, fun y place hy => ?_, fun y place hy hkilling => ?_⟩
  · exact (h.inside y place hy).continues hset.idle (effect_continues heff)
  · exact gone_effect h.inv heff (h.gone y place hy hkilling)

variable {e : ℕ → Option ExitPlace} {r : Option ExitPlace}

/-- What holds of all threads inside `process_exit` after one went on. -/
theorem of_update {P : ℕ → ExitPlace → Prop}
    (hold : ∀ y place, y ≠ x → e y = some place → P y place)
    (hnew : ∀ place, r = some place → P x place) :
    ∀ y place, update e x r y = some place → P y place :=
  (forall_update_iff e fun y r => ∀ place, r = some place → P y place).mpr
    ⟨hnew, fun y hne place => hold y place hne⟩

section

variable (h : Calm ⟨m, e⟩) (hcur : m.sched.currentThread = some x)
include h hcur

theorem Calm.enter {code : Int32} (hproc : m.sched.currentProcess = some proc)
    (hidle : (m.sched.thread m.sched.idleThread).process ≠ proc) :
    Calm ⟨m, update e x (some (.entered proc code))⟩ := by
  obtain ⟨q, hset⟩ := h.settled
  obtain ⟨hlt, hprocess⟩ := hset.current x hcur
  have hown : (m.sched.thread x).process = proc := Option.some.inj (hprocess.symm.trans hproc)
  refine ⟨h.settled, h.kept, h.buried, of_update (fun y place _ => h.inside y place) ?_,
    of_update (fun y place _ => h.gone y place) ?_⟩
  · intro place hplace
    cases hplace
    exact ⟨hlt, hown, hidle⟩
  · intro place hplace hkilling
    cases hplace
    exact absurd hkilling id

theorem Calm.not_gone : ¬ Gone m.sched x := fun hgone => hgone.not_current h.inv hcur

end

theorem setExitCode_zombie (s : Sched) (proc : ℕ) (code : Int32) (p : ℕ) :
    ((setExitCode s proc code).process p).zombie = (s.process p).zombie :=
  apply_update_of_eq ProcessRecord.zombie (by rfl) p

theorem setZombie_of_ne {p : ℕ} (hne : p ≠ proc) : (setZombie s proc).process p = s.process p :=
  update_of_ne hne _ _

theorem setZombie_self (s : Sched) (proc : ℕ) :
    ((setZombie s proc).process proc).zombie = true := by
  simp [setZombie]

theorem setZombie_mono {p : ℕ} (h : (s.process p).zombie = true) :
    ((setZombie s proc).process p).zombie = true := by
  by_cases heq : p = proc
  · subst p
    exact setZombie_self s proc
  · rwa [setZombie_of_ne heq]

/-- The exit code is stored while the process is alive. -/
theorem Calm.code {code : Int32} (h : Calm ⟨m, e⟩) (hin : e x = some (.entered proc code)) :
    Calm ⟨{ m with sched := setExitCode m.sched proc code }, update e x (some (.coded proc))⟩ := by
  obtain ⟨q, hset⟩ := h.settled
  have hstat : Static m.sched (setExitCode m.sched proc code) := update_static rfl rfl
  have hzomb := setExitCode_zombie m.sched proc code
  have hgone : ∀ y, Gone m.sched y → Gone (setExitCode m.sched proc code) y :=
    fun y hy => Gone.congr hy hstat (fun p hp => (hzomb p).trans hp) hy.dead
  refine ⟨⟨q, ?_, hset.running⟩, ?_, ?_, of_update ?_ ?_, of_update ?_ ?_⟩
  · exact hset.toArranged.of_static hstat ⟨hset.queued.holds, hset.queued.member⟩ rfl rfl rfl
      hset.outside
  · exact h.kept.congr hstat (fun p hp => (hzomb p).trans hp)
      ((hzomb _).trans h.kept.idleAlive) (fun t ht => ht.dead)
  · intro p hp t ht
    exact h.buried p ((hzomb p).symm.trans hp) t (hstat.members p ▸ ht)
  · exact fun y place _ hy => (h.inside y place hy).congr hstat rfl
  · intro place hplace
    cases hplace
    exact (h.inside x _ hin).congr hstat rfl
  · exact fun y place _ hy hkilling => hgone y (h.gone y place hy hkilling)
  · intro place hplace hkilling
    cases hplace
    exact absurd hkilling id

def ExitPlace.pending (s : Sched) : ExitPlace → List ℕ
  | .loop _ rest => rest
  | .unqueued _ t rest => t :: rest
  | .entered proc _ | .coded proc | .marked proc => (s.process proc).threads

/-- The current thread marks the threads of its process. All threads of other zombies are dead,
and of its own all but the pending ones. -/
structure Dying (k : Kernel) (x : ℕ) (place : ExitPlace) : Prop where
  current : k.system.sched.currentThread = some x
  here : k.exiting x = some place
  killing : place.Killing
  arranged : ∃ q, Arranged k.system.sched q ∧ ∀ proc t rest,
    place = .unqueued proc t rest → Outside q t
  kept : Kept k.system
  notFreed : x ∉ k.system.freed
  zombie : (k.system.sched.process place.proc).zombie = true
  buried : ∀ p, p ≠ place.proc → (k.system.sched.process p).zombie = true →
    ∀ t ∈ (k.system.sched.process p).threads, (k.system.sched.thread t).state = .dead
  pending : ∀ t ∈ (k.system.sched.process place.proc).threads,
    (k.system.sched.thread t).state = .dead ∨ t ∈ place.pending k.system.sched
  inside : ∀ y place, k.exiting y = some place → Inside k.system.sched y place
  gone : ∀ y place, y ≠ x → k.exiting y = some place → place.Killing → Gone k.system.sched y

theorem Calm.zombie (h : Calm ⟨m, e⟩) (hcur : m.sched.currentThread = some x)
    (hin : e x = some (.coded proc)) : Dying ⟨{ m with sched := setZombie m.sched proc },
    update e x (some (.marked proc))⟩ x (.marked proc) := by
  obtain ⟨q, hset⟩ := h.settled
  have hstat : Static m.sched (setZombie m.sched proc) := update_static rfl rfl
  have hmono : ∀ p, (m.sched.process p).zombie = true →
      ((setZombie m.sched proc).process p).zombie = true := fun p hp => setZombie_mono hp
  have hin' := h.inside x _ hin
  have hidle : (m.sched.thread m.sched.idleThread).process ≠ proc := hin'.notIdle
  refine ⟨hcur, update_self _ _ _, trivial, ⟨q, ?_, by simp⟩, ?_, ?_,
    setZombie_self _ _, ?_, fun t ht => .inr ht, of_update ?_ ?_, ?_⟩
  · exact hset.toArranged.of_static hstat ⟨hset.queued.holds, hset.queued.member⟩ rfl rfl rfl
      hset.outside
  · refine h.kept.congr hstat hmono ?_ (fun t ht => ht.dead)
    rw [setZombie_of_ne hidle]
    exact h.kept.idleAlive
  · exact fun hfreed => h.not_gone hcur (h.kept.freed x hfreed)
  · intro p hne hp t ht
    have hsame : (setZombie m.sched proc).process p = m.sched.process p := setZombie_of_ne hne
    simp only [hsame] at hp ht
    exact h.buried p hp t ht
  · exact fun y place _ hy => (h.inside y place hy).congr hstat rfl
  · intro place hplace
    cases hplace
    exact hin'.congr hstat rfl
  · intro y place hne hy hkilling
    have hold : e y = some place := (update_of_ne hne _ _).symm.trans hy
    have hgone := h.gone y place hold hkilling
    exact Gone.congr hgone hstat hmono hgone.dead

section

variable (h : Dying ⟨m, e⟩ x place)
include h

/-- A statement of the loop changes no process record and revives no thread. -/
theorem Dying.next (hstat : Static m.sched s')
    (hprocess : s'.process = m.sched.process) (hcur : s'.currentThread = m.sched.currentThread)
    (hdead : ∀ u, (m.sched.thread u).state = .dead → (s'.thread u).state = .dead)
    (hproc : place'.proc = place.proc) (hkilling : place'.Killing)
    (harr : ∃ q, Arranged s' q ∧ ∀ proc t rest, place' = .unqueued proc t rest → Outside q t)
    (hpending : ∀ t ∈ (m.sched.process place.proc).threads,
      (s'.thread t).state = .dead ∨ t ∈ place'.pending s') :
    Dying ⟨{ m with sched := s' }, update e x (some place')⟩ x place' := by
  have hzomb : ∀ p, (m.sched.process p).zombie = true → (s'.process p).zombie = true := by
    intro p hp
    rwa [hprocess]
  refine ⟨hcur.trans h.current, update_self _ _ _, hkilling, harr, ?_, h.notFreed, ?_, ?_,
    ?_, of_update ?_ ?_, ?_⟩
  · refine h.kept.congr hstat hzomb ?_ (fun t ht => hdead t ht.dead)
    rw [hprocess]
    exact h.kept.idleAlive
  · rw [hproc]
    exact hzomb _ h.zombie
  · intro p hne hp t ht
    simp only [hprocess] at hp ht
    exact hdead t (h.buried p (hproc ▸ hne) hp t ht)
  · intro t ht
    simp only [hprocess, hproc] at ht
    exact hpending t ht
  · exact fun y place _ hy => (h.inside y place hy).congr hstat rfl
  · intro place₁ hplace
    cases hplace
    exact (h.inside x place h.here).congr hstat hproc
  · intro y place hne hy hyk
    have hold : e y = some place := (update_of_ne hne _ _).symm.trans hy
    have hgone := h.gone y place hne hold hyk
    exact Gone.congr hgone hstat hzomb (hdead y hgone.dead)

theorem Dying.calm
    (hall : ∀ t ∈ (m.sched.process place.proc).threads, (m.sched.thread t).state = .dead)
    (hsteady : Steady m.sched s') (hset : Settled s' q')
    {e' : ℕ → Option ExitPlace} (he : ∀ y place, e' y = some place → e y = some place) :
    Calm ⟨{ m with sched := s' }, e'⟩ := by
  obtain ⟨q, harr, _⟩ := h.arranged
  have hburied : ∀ p, (m.sched.process p).zombie = true →
      ∀ t ∈ (m.sched.process p).threads, Gone m.sched t := by
    intro p hp t ht
    obtain ⟨hlt, hown⟩ := harr.members p t ht
    refine ⟨hlt, ?_, hown ▸ hp⟩
    by_cases heq : p = place.proc
    · rw [heq] at ht
      exact hall t ht
    · exact h.buried p heq hp t ht
  have hgone : ∀ t, Gone m.sched t → Gone s' t := by
    intro t ht
    refine Gone.congr ht hsteady.toStatic (fun p hp => ?_) (Gone.steady ht h.kept.idleAlive hsteady)
    rwa [hsteady.records]
  refine ⟨⟨q', hset⟩, h.kept.steady hsteady, ?_, ?_, ?_⟩
  · intro p hp t ht
    simp only [hsteady.records] at hp ht
    exact (hgone t (hburied p hp t ht)).dead
  · exact fun y place hy => (h.inside y place (he y place hy)).congr hsteady.toStatic rfl
  · intro y place₁ hy hkilling
    by_cases heq : y = x
    · subst y
      -- The thread is in the list of its process, so it is dead like the others.
      have hin := h.inside x place h.here
      have hlist := h.kept.listed x hin.exist h.notFreed
      rw [hin.own] at hlist
      exact hgone x (hburied place.proc h.zombie x hlist)
    · exact hgone y (h.gone y place₁ heq (he y place₁ hy) hkilling)

/-- The thread goes on with the loop, or leaves `process_exit`. -/
theorem Dying.statement (heq : exitStep m.sched place = some (s', r)) : (∃ place', r = some place' ∧
      Dying ⟨{ m with sched := s' }, update e x (some place')⟩ x place') ∨
    Calm ⟨{ m with sched := s' }, update e x r⟩ := by
  obtain ⟨q, harr, hout⟩ := h.arranged
  cases place with
  | entered proc code | coded proc => exact absurd h.killing id
  | marked proc =>
    cases heq
    exact .inl ⟨_, rfl, h.next (refl _) rfl rfl (fun _ hu => hu) rfl trivial
      ⟨q, harr, by simp⟩ h.pending⟩
  | unqueued proc t rest =>
    cases heq
    have hstate : ∀ u, ((m.sched.setState t .dead).thread u).state = .dead ↔
        u = t ∨ (m.sched.thread u).state = .dead := by
      intro u
      by_cases hu : u = t
      · subst u
        simp [setState]
      · simp [setState, hu]
    refine .inl ⟨_, rfl, h.next (setState_static _ t .dead) rfl rfl
      (fun u hu => (hstate u).mpr (.inr hu)) rfl trivial ⟨q, ?_, by simp⟩ ?_⟩
    · exact harr.of_static (setState_static _ t .dead)
        (harr.queued.setState (hout proc t rest rfl) .dead) rfl rfl rfl harr.outside
    · intro u hu
      rw [hstate]
      rcases h.pending u hu with hdead | hmem
      · exact .inl (.inr hdead)
      · exact (List.mem_cons.mp hmem).imp .inl id
  | loop proc rest =>
    cases rest with
    | cons t rest =>
      simp only [exitStep] at heq
      split at heq
      · rename_i hdead
        cases heq
        refine .inl ⟨_, rfl, h.next (refl _) rfl rfl (fun _ hu => hu) rfl trivial
          ⟨q, harr, by simp⟩ (fun u hu => ?_)⟩
        rcases h.pending u hu with hu | hmem
        · exact .inl hu
        · rcases List.mem_cons.mp hmem with rfl | hmem
          · exact .inl hdead
          · exact .inr hmem
      · obtain ⟨r₁, hr, hqueued⟩ := dequeue_queued harr.queued t
        rw [hr] at heq
        cases heq
        refine .inl ⟨_, rfl, h.next (setQueue_static _ _ r₁) rfl rfl (fun _ hu => hu) rfl trivial
          ⟨_, harr.of_static (setQueue_static _ _ r₁) hqueued rfl rfl rfl
            (fun u hu hne => (harr.outside u hu hne).erase (queueIndex_lt _) t), ?_⟩ h.pending⟩
        intro proc' t' rest' hplace
        obtain ⟨_, rfl, _⟩ := ExitPlace.unqueued.inj hplace
        exact outside_erase harr.queued t
    | nil =>
      have hall : ∀ t ∈ (m.sched.process proc).threads, (m.sched.thread t).state = .dead :=
        fun t ht => (h.pending t ht).resolve_right List.not_mem_nil
      have hself : m.sched.currentProcess = some proc := by
        rw [(harr.current x h.current).2, (h.inside x _ h.here).own]
        rfl
      obtain ⟨s₁, q₁, hschedule, hset, _⟩ := schedule_settles harr
      simp only [exitStep, if_pos hself, hschedule, map_some] at heq
      cases heq
      refine .inr (h.calm hall (schedule_steady harr hschedule) hset
        (of_update (fun y place _ hy => hy) ?_))
      simp

theorem Dying.timer (hclear : Switches m.sched → Kernel.Clear ⟨m, e⟩)
    (heq : schedulerTimerHandler m.sched = some s') :
    Dying ⟨{ m with sched := s' }, e⟩ x place ∨ Calm ⟨{ m with sched := s' }, e⟩ := by
  obtain ⟨q, harr, hout⟩ := h.arranged
  have hticks : ∀ tickCounter pitTicks : UInt64,
      Arranged { m.sched with tickCounter := tickCounter, pitTicks := pitTicks } q :=
    fun _ _ => ⟨⟨harr.queued.holds, harr.queued.member⟩, harr.lock, harr.idle,
      harr.members, harr.current, harr.outside⟩
  have hquiet : ∀ tickCounter pitTicks : UInt64, Dying ⟨{ m with sched :=
        { m.sched with tickCounter := tickCounter, pitTicks := pitTicks } }, e⟩ x place := by
    intro tickCounter pitTicks
    have hstat : Static m.sched { m.sched with tickCounter := tickCounter, pitTicks := pitTicks } :=
      (refl _).congr rfl rfl rfl rfl rfl
    have hnext := h.next hstat rfl rfl (fun _ hu => hu) rfl h.killing
      ⟨q, hticks tickCounter pitTicks, hout⟩ h.pending
    rwa [← h.here, update_eq_self] at hnext
  obtain ⟨hactive, hquantum, heq⟩ | ⟨tickCounter, pitTicks, rfl⟩ := schedulerTimerHandler_cases heq
  · have hall := hclear ⟨hactive, hquantum⟩ x place h.current h.here h.zombie
    obtain ⟨q', hset, _⟩ := (schedule_settles (hticks 0 (m.sched.pitTicks + 1))).settled heq
    have hnum : Steady m.sched
        { m.sched with tickCounter := 0, pitTicks := m.sched.pitTicks + 1 } := Steady.of_records rfl
    exact .inr (h.calm hall (hnum.trans (schedule_steady (hticks 0 _) heq)) hset
      (fun y place hy => hy))
  · exact .inl (hquiet tickCounter pitTicks)

end

def Good (k : Kernel) : Prop := Calm k ∨ ∃ x place, Dying k x place

theorem Dying.not_free (h : Dying k x place) : ¬ k.Free :=
  fun hfree => absurd (h.here.symm.trans (hfree x h.current)) (by simp)

theorem Calm.step {e : Event} (h : Calm k) (hvalid : e.Valid k) (htimely : e.Timely k)
    (heq : advance k e = some k') : Good k' := by
  cases e with
  | enter code =>
    simp only [advance] at heq
    split at heq
    · rename_i x proc hcur hproc
      cases heq
      exact .inl
        (h.enter hcur hproc (fun hidle => hvalid.2 (hproc.trans (congrArg some hidle.symm))))
    · simp at heq
  | statement =>
    simp only [advance] at heq
    split at heq
    · simp at heq
    · rename_i x hcur
      split at heq
      · simp at heq
      · rename_i place hin
        obtain ⟨⟨s', r⟩, hstep, rfl⟩ := map_eq_some_iff.mp heq
        cases place with
        | entered proc code =>
          cases hstep
          exact .inl (h.code hin)
        | coded proc =>
          cases hstep
          exact .inr ⟨x, _, h.zombie hcur hin⟩
        | _ => exact absurd (h.gone x _ hin trivial) (h.not_gone hcur)
  | timer =>
    obtain ⟨m', hperform, rfl⟩ := map_eq_some_iff.mp heq
    have hvalid' : Op.timer.Valid k.system := trivial
    exact .inl (h.perform hvalid' trivial hperform)
  | call op =>
    obtain ⟨m', hperform, rfl⟩ := map_eq_some_iff.mp heq
    exact .inl (h.perform hvalid.2 htimely hperform)

theorem Dying.step {e : Event} (h : Dying k x place) (hvalid : e.Valid k) (htimely : e.Timely k)
    (heq : advance k e = some k') : Good k' := by
  cases e with
  | enter code | call op => exact absurd hvalid.1 h.not_free
  | statement =>
    simp only [advance, h.current, h.here] at heq
    obtain ⟨⟨s', r⟩, hstep, rfl⟩ := map_eq_some_iff.mp heq
    rcases h.statement hstep with ⟨place', rfl, hdying⟩ | hcalm
    · exact .inr ⟨x, place', hdying⟩
    · exact .inl hcalm
  | timer =>
    obtain ⟨m', hperform, rfl⟩ := map_eq_some_iff.mp heq
    obtain ⟨s', htimer, rfl⟩ := map_eq_some_iff.mp hperform
    exact (h.timer htimely htimer).symm.imp id fun hdying => ⟨x, place, hdying⟩

theorem good_step (h : Good k) (hstep : TimelyStep k k') : Good k' := by
  obtain ⟨e, ⟨hvalid, htimely⟩, heq⟩ := hstep
  rcases h with hcalm | ⟨x, place, hdying⟩
  · exact hcalm.step hvalid htimely heq
  · exact hdying.step hvalid htimely heq

theorem boot_listed (cr3 idleCr3 idleStack : UInt64) (shell : Option (UInt64 × UInt64)) :
    let s := (System.boot cr3 idleCr3 idleStack shell).sched
    ∀ t < s.threads, t ∈ (s.process (s.thread t).process).threads := by
  cases shell with
  | none =>
    intro s t ht
    obtain rfl : t = 0 := Nat.lt_one_iff.mp ht
    exact List.mem_cons_self
  | some shell =>
    intro s t ht
    rcases Nat.lt_succ_iff_lt_or_eq.mp ht with hlt | rfl
    · obtain rfl : t = 0 := Nat.lt_one_iff.mp hlt
      exact List.mem_cons_self
    · exact List.mem_cons_self

theorem calm_boot (cr3 idleCr3 idleStack : UInt64) (shell : Option (UInt64 × UInt64)) :
    Calm (Kernel.boot cr3 idleCr3 idleStack shell) := by
  have hinv := inv_boot cr3 idleCr3 idleStack shell
  exact ⟨hinv.settled, ⟨hinv.owner, hinv.table, hinv.idleAlive, hinv.freed,
      fun t ht _ => boot_listed cr3 idleCr3 idleStack shell t ht⟩, hinv.buried,
    fun _ _ hy => absurd hy (by simp [Kernel.boot]),
      fun _ _ hy => absurd hy (by simp [Kernel.boot])⟩

/-- A thread that was given back is dead, so in no queue, and not the one that marks the threads
of its process. -/
theorem Good.freed (h : Good k) (ht : t ∈ k.system.freed) :
    InNoQueue k.system.sched t ∧ k.system.sched.currentThread ≠ some t := by
  rcases h with hcalm | ⟨x, place, hdying⟩
  · obtain ⟨q, hset⟩ := hcalm.settled
    have hgone := hcalm.kept.freed t ht
    exact ⟨inNoQueue_of_dead hset.queued hgone.dead, hgone.not_current hcalm.inv⟩
  · obtain ⟨q, harr, _⟩ := hdying.arranged
    refine ⟨inNoQueue_of_dead harr.queued (hdying.kept.freed t ht).dead, fun hcur => ?_⟩
    cases hdying.current.symm.trans hcur
    exact hdying.notFreed ht

theorem perform_freed (heq : perform m op = some m') (ht : t ∈ m.freed) : t ∈ m'.freed := by
  have hsched : ∀ {r : Option Sched}, r.map (fun s => { m with sched := s }) = some m' →
      t ∈ m'.freed := by
    intro r hr
    obtain ⟨s', _, rfl⟩ := map_eq_some_iff.mp hr
    exact ht
  cases op with
  | processCreate ppid cr3 =>
    cases heq
    simp only [processCreate]
    split
    · exact ht
    · exact ht
  | waitpid parentPid targetPid =>
    cases heq
    rcases processWaitpid_cases m parentPid targetPid with hsame | ⟨e, _, _, hdestroy⟩
    · rwa [hsame]
    · rw [hdestroy, mem_freed_processDestroy]
      exact .inr ht
  | spawn proc kstackVirt priority | wake u =>
    cases heq
    exact ht
  | _ => exact hsched heq

theorem step_freed (hstep : TimelyStep k k') (ht : t ∈ k.system.freed) : t ∈ k'.system.freed := by
  obtain ⟨e, _, heq⟩ := hstep
  cases e with
  | enter code =>
    simp only [advance] at heq
    split at heq
    · cases heq
      exact ht
    · simp at heq
  | statement =>
    simp only [advance] at heq
    split at heq
    · simp at heq
    · split at heq
      · simp at heq
      · obtain ⟨r, _, rfl⟩ := map_eq_some_iff.mp heq
        exact ht
  | timer | call op =>
    obtain ⟨m', hperform, rfl⟩ := map_eq_some_iff.mp heq
    exact perform_freed hperform ht

/-- In every run whose timer switches away inside `process_exit` only before the process is a
zombie or once all its threads are dead, and which makes threads only for processes that have not
exited, a thread that is given back is in no run queue and not current, then or later. -/
theorem exit_wait_race_free {cr3 idleCr3 idleStack : UInt64} {shell : Option (UInt64 × UInt64)}
    (hrun : Reachable TimelyStep (Kernel.boot cr3 idleCr3 idleStack shell) k)
    (ht : t ∈ k.system.freed) (hlater : Reachable TimelyStep k k') :
    InNoQueue k'.system.sched t ∧ k'.system.sched.currentThread ≠ some t := by
  have hgood : Good k := hrun.invariant Good (fun _ _ => good_step)
    (.inl (calm_boot cr3 idleCr3 idleStack shell))
  obtain ⟨hgood', ht'⟩ := hlater.invariant (fun k => Good k ∧ t ∈ k.system.freed)
    (fun _ _ h hstep => ⟨good_step h.1 hstep, step_freed hstep h.2⟩) ⟨hgood, ht⟩
  exact hgood'.freed ht'

/-- A child of the shell is made with a thread, which exits, and the shell waits. -/
theorem exit_wait_race_free_child : ∃ k : Kernel,
      Reachable TimelyStep (Kernel.boot 0x1000 0x2000 0x3000 (some (0x4000, 0x5000))) k ∧
      k.system.freed = [2] ∧ InNoQueue k.system.sched 2 ∧
        k.system.sched.currentThread ≠ some 2 := by
  have hview : (runEvents (fun k (e : Event) => e.Valid k ∧ e.Timely k) advance
      (Kernel.boot 0x1000 0x2000 0x3000 (some (0x4000, 0x5000)))
      [.call .start, .call (.processCreate 1 0x6000), .call (.spawn 2 0x7000 4),
        .call .schedule, .enter 0,
        .statement, .statement, .statement, .timer, .statement, .statement, .statement,
        .call (.waitpid 1 (-1))]).map (fun k => k.system.freed) = some [2] := by decide
  obtain ⟨k, hrun, hfreed⟩ := map_eq_some_iff.mp hview
  have hreach : Reachable TimelyStep _ k := reachable_of_runEvents hrun
  exact ⟨k, hreach, hfreed, exit_wait_race_free hreach (by simp [hfreed]) .refl⟩

/-- The child's quantum ends right after it became a zombie. -/
theorem preempted_exit_frees_queued_thread :
    ∃ k : Kernel, Reachable Step (Kernel.boot 0x1000 0x2000 0x3000 (some (0x4000, 0x5000))) k ∧
      2 ∈ k.system.freed ∧ ¬ InNoQueue k.system.sched 2 := by
  have hview : (runEvents (fun k (e : Event) => e.Valid k) advance
      (Kernel.boot 0x1000 0x2000 0x3000 (some (0x4000, 0x5000)))
      [.call .start, .call (.processCreate 1 0x6000), .call (.spawn 2 0x7000 4),
        .timer, .timer, .timer, .timer, .timer, .timer, .timer, .timer, .timer,
          .call .schedule, .enter 0, .statement, .statement, .timer, .call (.waitpid 1 (-1))]).map
      (fun k => (k.system.freed, k.system.sched.readyHead 4)) = some ([2], some 2) := by decide
  obtain ⟨k, hrun, hboth⟩ := map_eq_some_iff.mp hview
  obtain ⟨hfreed, hhead⟩ := Prod.mk.inj hboth
  exact ⟨k, reachable_of_runEvents hrun, by simp [hfreed], not_inNoQueue_of_head (by decide) hhead⟩

end NexusKernel.ExitRaces
