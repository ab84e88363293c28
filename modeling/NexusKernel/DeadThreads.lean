import NexusKernel.SchedulerGlobals
import NexusKernel.ThreadLives

/-!
Threads that `process_exit` has marked dead are in no run queue, are never picked and stay dead.
So `process_waitpid` gives back only threads that are neither queued nor current, provided all
threads of a zombie are dead.

`thread_create` does not look at the state of the process: a thread made for an exited process is
ready, and `process_waitpid` gives its record back from the queue. The invariant therefore needs
runs in which threads are made for live processes only.
-/

namespace NexusKernel.DeadThreads

open Lib.LinkedQueue Lib.Runs Scheduler ThreadLives Function
open RunQueues hiding Step

def InNoQueue (s : Sched) (t : ℕ) : Prop :=
  ∀ pri, pri < schedNumPriorities → ∃ l, Holds s.nextInQueue (s.ends pri) l ∧ t ∉ l

def Op.Careful (k : System) : Op → Prop
  | .spawn proc _ _ => (k.sched.process proc).zombie = false
  | _ => True

instance (k : System) : (op : Op) → Decidable (Op.Careful k op)
  | .spawn proc _ _ => inferInstanceAs (Decidable ((k.sched.process proc).zombie = false))
  | .processCreate _ _ | .start | .schedule | .tick | .timer | .block _ | .sleep
      _ | .wake _ | .exit _ _
  | .waitpid _ _ => inferInstanceAs (Decidable True)

def CarefulStep (k k' : System) : Prop :=
  ∃ op : Op, op.Valid k ∧ Op.Careful k op ∧ perform k op = some k'

structure Gone (s : Sched) (t : ℕ) : Prop where
  exist : t < s.threads
  dead : (s.thread t).state = .dead
  zombie : (s.process (s.thread t).process).zombie = true

structure Inv (k : System) : Prop where
  settled : ∃ q, Settled k.sched q
  owner : ∀ t, t < k.sched.threads → (k.sched.thread t).process < k.sched.processes
  table : ∀ e ∈ k.procTable, e.proc < k.sched.processes
  idleAlive : (k.sched.process (k.sched.thread k.sched.idleThread).process).zombie = false
  buried : ∀ p, (k.sched.process p).zombie = true → ∀ t ∈ (k.sched.process p).threads,
    (k.sched.thread t).state = .dead
  freed : ∀ t ∈ k.freed, Gone k.sched t

variable {s s' : Sched} {q : ℕ → List ℕ} {t : ℕ} {k k' : System} {op : Op}

theorem not_live_of_dead (h : (s.thread t).state = .dead) : ¬ Live s t := by simp [Live, h]

theorem Gone.ne_idle (h : Gone s t)
    (halive : (s.process (s.thread s.idleThread).process).zombie = false) : t ≠ s.idleThread := by
  intro heq
  subst t
  cases h.zombie.symm.trans halive

section

variable (h : Inv k)
include h

theorem Inv.gone {p : ℕ} (hzomb : (k.sched.process p).zombie = true)
    (ht : t ∈ (k.sched.process p).threads) : Gone k.sched t := by
  obtain ⟨q, hset⟩ := h.settled
  obtain ⟨hlt, howner⟩ := hset.members p t ht
  exact ⟨hlt, h.buried p hzomb t ht, howner ▸ hzomb⟩

section

variable (heff : Effect k op k')
include heff

theorem gone_effect (ht : Gone k.sched t) : Gone k'.sched t := by
  obtain ⟨q, hset⟩ := h.settled
  have hcont := effect_continues heff
  refine ⟨ht.exist.trans_le hcont.threads, ?_, ?_⟩
  · have hstate := effect_parked hset heff ht.exist (ht.ne_idle h.idleAlive)
      (not_live_of_dead ht.dead) (fun _ => ht.dead)
    exact hstate.trans ht.dead
  · rw [hcont.owner t ht.exist]
    exact hcont.zombie _ (h.owner t ht.exist) ht.zombie

/-- Every effect keeps threads of zombies dead, if none is made for one. -/
theorem buried_effect (hcareful : Op.Careful k op) :
    ∀ p, (k'.sched.process p).zombie = true → ∀ t ∈ (k'.sched.process p).threads,
      (k'.sched.thread t).state = .dead := by
  intro p hzomb t ht
  -- What was in the list of a zombie before the step is dead after it.
  have hold : (k.sched.process p).zombie = true → t ∈ (k.sched.process p).threads →
      (k'.sched.thread t).state = .dead :=
    fun hzomb ht => (gone_effect h heff (h.gone hzomb ht)).dead
  cases heff with
  | steady _ hsteady =>
    rw [hsteady.records] at hzomb ht
    exact hold hzomb ht
  | @spawn proc kstackVirt priority _ =>
    rw [spawn_process] at hzomb ht
    by_cases heq : p = proc
    · subst p
      simp only [update_self] at hzomb
      cases hzomb.symm.trans hcareful
    · simp only [update_of_ne heq] at hzomb ht
      exact hold hzomb ht
  | wake _ =>
    rw [schedulerWake_process] at hzomb ht
    exact hold hzomb ht
  | @exit proc code s₁ s' _ hidle hmarked hsteady =>
    rw [hsteady.records, hmarked.process] at hzomb ht
    by_cases heq : p = proc
    · subst p
      simp only [update_self] at ht
      obtain ⟨q, hset⟩ := h.settled
      have hdead : (s₁.thread t).state = .dead := by rw [hmarked.state, if_pos ht]
      have hne : t ≠ s₁.idleThread := by
        intro heq
        rw [hmarked.idleThread] at heq
        subst t
        exact hidle (hset.members proc _ ht).2
      exact (hsteady.parked t hne (not_live_of_dead hdead)).trans hdead
    · simp only [update_of_ne heq] at hzomb ht
      exact hold hzomb ht
  | create =>
    simp only [createProcess] at hzomb ht
    by_cases heq : p = k.sched.processes
    · subst p
      simp only [update_self, List.not_mem_nil] at ht
    · simp only [update_of_ne heq] at hzomb ht
      exact hold hzomb ht
  | @reap _ _ e _ _ =>
    rw [processDestroy_sched] at hzomb ht
    by_cases heq : p = e.proc
    · subst p
      simp only [update_self, List.not_mem_nil] at ht
    · simp only [update_of_ne heq] at hzomb ht
      exact hold hzomb ht

theorem owner_effect :
    ∀ t < k'.sched.threads, (k'.sched.thread t).process < k'.sched.processes := by
  have hcont := effect_continues heff
  have hold : ∀ t < k.sched.threads, (k'.sched.thread t).process < k'.sched.processes := by
    intro t ht
    rw [hcont.owner t ht]
    exact (h.owner t ht).trans_le hcont.processes
  intro t ht
  cases heff with
  | steady _ hsteady => exact hold t (hsteady.threads ▸ ht)
  | @spawn proc kstackVirt priority hproc =>
    rcases Nat.lt_succ_iff_lt_or_eq.mp ht with hlt | rfl
    · exact hold t hlt
    · obtain ⟨e, he, rfl⟩ := hproc
      have hnew :
          ((spawn k.sched e.proc kstackVirt priority).thread k.sched.threads).process = e.proc := by
        simp only [spawn, threadCreate, setPriority, schedulerEnqueue, Sched.setState,
          Sched.setQueue, update_self]
      rw [hnew]
      exact h.table e he
  | @wake u _ => exact hold t ((schedulerWake_static k.sched u).threads ▸ ht)
  | exit _ _ hmarked hsteady => exact hold t ((hsteady.threads.trans hmarked.threads) ▸ ht)
  | create => exact hold t ht
  | reap _ _ =>
    rw [processDestroy_sched] at ht
    exact hold t ht

theorem table_effect : ∀ e ∈ k'.procTable, e.proc < k'.sched.processes := by
  have hcont := effect_continues heff
  have hold : ∀ e ∈ k.procTable, e.proc < k'.sched.processes :=
    fun e he => (h.table e he).trans_le hcont.processes
  cases heff with
  | steady _ _ | spawn _ | wake _ | exit _ _ _ _ => exact hold
  | create =>
    intro e he
    rcases List.mem_cons.mp he with rfl | he
    · exact Nat.lt_succ_self _
    · exact hold e he
  | reap _ _ =>
    intro e he
    rw [processDestroy_procTable] at he
    exact hold e (List.mem_of_mem_eraseP he)

theorem idleAlive_effect :
    (k'.sched.process (k'.sched.thread k'.sched.idleThread).process).zombie = false := by
  obtain ⟨q, hset⟩ := h.settled
  have hcont := effect_continues heff
  have halive := h.idleAlive
  have howner := h.owner _ hset.idle
  rw [hcont.idleThread, hcont.owner _ hset.idle]
  cases heff with
  | steady _ hsteady =>
    rw [hsteady.records]
    exact halive
  | @spawn proc kstackVirt priority _ =>
    rw [spawn_zombie]
    exact halive
  | wake _ =>
    rw [schedulerWake_process]
    exact halive
  | exit _ hidle hmarked hsteady =>
    rw [hsteady.records, hmarked.process, update_of_ne hidle]
    exact halive
  | create => simpa only [createProcess, update_of_ne (Nat.ne_of_lt howner)] using halive
  | @reap _ _ e _ hzomb =>
    rw [processDestroy_sched]
    have hne : (k.sched.thread k.sched.idleThread).process ≠ e.proc := by
      intro heq
      rw [heq] at halive
      cases hzomb.symm.trans halive
    simpa only [update_of_ne hne] using halive

theorem freed_effect : ∀ t ∈ k'.freed, Gone k'.sched t := by
  have hgone : ∀ t, Gone k.sched t → Gone k'.sched t := fun t ht => gone_effect h heff ht
  have hold : ∀ t ∈ k.freed, Gone k'.sched t := fun t ht => hgone t (h.freed t ht)
  cases heff with
  | steady _ _ | spawn _ | wake _ | exit _ _ _ _ | create => exact hold
  | reap _ hzomb =>
    intro t ht
    rcases mem_freed_processDestroy.mp ht with hmem | hmem
    · exact hgone t (h.gone hzomb hmem)
    · exact hold t hmem

end

theorem inv_step (hstep : CarefulStep k k') : Inv k' := by
  obtain ⟨op, hvalid, hcareful, heq⟩ := hstep
  obtain ⟨q, hset⟩ := h.settled
  have heff := step_effect hset hvalid heq
  exact ⟨step_settled hset hvalid heq, owner_effect h heff, table_effect h heff,
    idleAlive_effect h heff, buried_effect h heff hcareful, freed_effect h heff⟩

theorem gone_step (ht : Gone k.sched t) (hstep : CarefulStep k k') : Gone k'.sched t := by
  obtain ⟨op, hvalid, _, heq⟩ := hstep
  obtain ⟨q, hset⟩ := h.settled
  exact gone_effect h (step_effect hset hvalid heq) ht

end

theorem schedulerInit_zombie (cr3 idleCr3 idleStack : UInt64)
    (shell : Option (UInt64 × UInt64)) (p : ℕ) :
    ((schedulerInit (Sched.boot cr3) idleCr3 idleStack shell).process p).zombie = false := by
  have hidle : ∀ p, ((createIdle (Sched.boot cr3) idleCr3 idleStack).process p).zombie = false := by
    intro p
    by_cases h : p = 0 <;> simp [createIdle, createProcess, threadCreate, setPriority,
      Sched.boot, h]
  cases shell with
  | none => exact hidle p
  | some shell =>
    refine (spawn_zombie _ _ shell.2 schedPriorityNormal p).trans ?_
    by_cases h : p = (createIdle (Sched.boot cr3) idleCr3 idleStack).processes
    · subst p
      simp only [update_self]
    · simpa only [createProcess, update_of_ne h] using hidle p

theorem inv_boot (cr3 idleCr3 idleStack : UInt64) (shell : Option (UInt64 × UInt64)) :
    Inv (System.boot cr3 idleCr3 idleStack shell) := by
  have hzomb := schedulerInit_zombie cr3 idleCr3 idleStack shell
  refine ⟨boot_settled cr3 idleCr3 idleStack shell,
    (SchedulerGlobals.schedulerInit_inRange cr3 idleCr3 idleStack shell).process, ?_, hzomb _,
    fun p hp => absurd ((hzomb p).symm.trans hp) (by simp), fun t ht => absurd ht List.not_mem_nil⟩
  cases shell with
  | none =>
    intro e he
    obtain rfl := List.mem_singleton.mp he
    exact Nat.zero_lt_one
  | some shell =>
    intro e he
    rcases List.mem_cons.mp he with rfl | he
    · exact Nat.one_lt_two
    · obtain rfl := List.mem_singleton.mp he
      exact Nat.zero_lt_two

theorem inNoQueue_of_dead (h : Queued s q) (hdead : (s.thread t).state = .dead) : InNoQueue s t :=
  fun pri hpri => ⟨q pri, h.holds pri hpri, h.outside_of_state (by simp [hdead]) pri hpri⟩

theorem pickNext_ne_dead (h : Settled s q) (hdead : (s.thread t).state = .dead) :
    pickNext s ≠ some (s', some t) := by
  intro heq
  rcases pickBelow_queued h.queued le_rfl with ⟨hpick, _⟩ | ⟨pri, x, rest, r, hpri, hq, _, hpick, _⟩
  · cases hpick.symm.trans heq
  · have hchosen : some (s.setQueue pri r, some x) = some (s', some t) := hpick.symm.trans heq
    obtain ⟨_, rfl⟩ := hchosen
    exact absurd ((h.queued.first hpri hq).2.2.symm.trans hdead) (by simp)

theorem Gone.not_current (h : Inv k) (ht : Gone k.sched t) : k.sched.currentThread ≠ some t := by
  intro hcur
  obtain ⟨q, hset⟩ := h.settled
  have hrun := hset.running t hcur (ht.ne_idle h.idleAlive)
  cases hrun.symm.trans ht.dead

/-- The threads of an exiting process are gone afterwards. -/
theorem gone_of_exit {proc : ℕ} {code : Int32} (h : Inv k) (hvalid : (Op.exit proc code).Valid k)
    (heq : perform k (.exit proc code) = some k') (ht : t ∈ (k.sched.process proc).threads) :
    Gone k'.sched t := by
  have hinv : Inv k' := inv_step h ⟨.exit proc code, hvalid, trivial, heq⟩
  obtain ⟨q, hset⟩ := h.settled
  obtain ⟨s', hs, rfl⟩ := Option.map_eq_some_iff.mp heq
  obtain ⟨s₁, hmarked, hsteady⟩ := processExit_steady hset hvalid.2 hs
  have hrec : s'.process proc = { k.sched.process proc with exitCode := code, zombie := true } := by
    rw [hsteady.records, hmarked.process, update_self]
  refine hinv.gone (p := proc) ?_ ?_
  · simp only [hrec]
  · simpa only [hrec] using ht

/-- In every run that makes threads only for live processes, a thread that `process_exit` has
marked stays dead, out of the queues and unchosen, and no thread is given back that is queued or
current. -/
theorem dead_threads_stay_dead {cr3 idleCr3 idleStack : UInt64} {shell : Option (UInt64 × UInt64)}
    (hrun : Reachable CarefulStep (System.boot cr3 idleCr3 idleStack shell) k) :
    (∀ t ∈ k.freed, InNoQueue k.sched t ∧ k.sched.currentThread ≠ some t) ∧
    ∀ proc code k₁ t, (Op.exit proc code).Valid k → perform k (.exit proc code) = some k₁ →
      t ∈ (k.sched.process proc).threads → ∀ k', Reachable CarefulStep k₁ k' →
        (k'.sched.thread t).state = .dead ∧ InNoQueue k'.sched t ∧ ∀ s',
          pickNext k'.sched ≠ some (s', some t) := by
  have hinv : Inv k := hrun.invariant Inv (fun _ _ => inv_step)
    (inv_boot cr3 idleCr3 idleStack shell)
  refine ⟨fun t ht => ?_, fun proc code k₁ t hvalid heq ht k' hrest => ?_⟩
  · obtain ⟨q, hset⟩ := hinv.settled
    have hgone := hinv.freed t ht
    exact ⟨inNoQueue_of_dead hset.queued hgone.dead, hgone.not_current hinv⟩
  · have hinv₁ : Inv k₁ := inv_step hinv ⟨.exit proc code, hvalid, trivial, heq⟩
    obtain ⟨hinv', hgone⟩ := hrest.invariant (fun k => Inv k ∧ Gone k.sched t)
      (fun _ _ h hstep => ⟨inv_step h.1 hstep, gone_step h.1 h.2 hstep⟩)
      ⟨hinv₁, gone_of_exit hinv hvalid heq ht⟩
    obtain ⟨q, hset⟩ := hinv'.settled
    exact ⟨hgone.dead, inNoQueue_of_dead hset.queued hgone.dead,
      fun s' => pickNext_ne_dead hset hgone.dead⟩

/-- The shell exits while it runs, and the timer ticks. -/
theorem dead_threads_stay_dead_shell : ∃ k₀ k₁ k : System,
    perform (System.boot 0x1000 0x2000 0x3000 (some (0x4000, 0x5000))) .start = some k₀ ∧
    perform k₀ (.exit 1 0) = some k₁ ∧ perform k₁ .timer = some k ∧
    (k.sched.thread 1).state = .dead ∧ InNoQueue k.sched 1 ∧
    ∀ s', pickNext k.sched ≠ some (s', some 1) := by
  have hst : CarefulStep (System.boot 0x1000 0x2000 0x3000 (some (0x4000, 0x5000))) _ :=
    ⟨.start, rfl, trivial, rfl⟩
  exact ⟨_, _, _, rfl, rfl, rfl, (dead_threads_stay_dead (.single hst)).2 1 0 _ 1
    ⟨⟨_, List.mem_cons_self, rfl⟩, by decide⟩ rfl List.mem_cons_self _
    (.single ⟨.timer, trivial, trivial, rfl⟩)⟩

theorem not_inNoQueue_of_head {pri : ℕ} (hpri : pri < schedNumPriorities)
    (hhead : s.readyHead pri = some t) : ¬ InNoQueue s t := by
  intro hnone
  obtain ⟨l, hl, hnot⟩ := hnone pri hpri
  exact hnot (List.mem_of_head? (hl.linked.head_eq.symm.trans hhead))

/-- A child of the shell exits, gets a thread, and the shell waits for it. -/
theorem waitpid_frees_queued_thread : ∃ k₀ k₁ k₂ k₃ k : System,
    perform (System.boot 0x1000 0x2000 0x3000 (some (0x4000, 0x5000))) .start = some k₀ ∧
    perform k₀ (.processCreate 1 0x6000) = some k₁ ∧ perform k₁ (.exit 2 0) = some k₂ ∧
    perform k₂ (.spawn 2 0x7000 4) = some k₃ ∧ perform k₃ (.waitpid 1 (-1)) = some k ∧
    Reachable Step (System.boot 0x1000 0x2000 0x3000 (some (0x4000, 0x5000))) k ∧
    2 ∈ k.freed ∧ ¬ InNoQueue k.sched 2 := by
  have hst : Step (System.boot 0x1000 0x2000 0x3000 (some (0x4000, 0x5000))) _ := ⟨.start, rfl, rfl⟩
  refine ⟨_, _, _, _, _, rfl, rfl, rfl, rfl, rfl,
    ((((Relation.ReflTransGen.single hst).tail ⟨.processCreate 1 0x6000, trivial, rfl⟩).tail
      ⟨.exit 2 0, ⟨⟨_, List.mem_cons_self, rfl⟩, by decide⟩, rfl⟩).tail
        ⟨.spawn 2 0x7000 4, ⟨_, List.mem_cons_self, rfl⟩, rfl⟩).tail ⟨.waitpid 1 (-1), trivial,
          rfl⟩, by decide, ?_⟩
  exact not_inNoQueue_of_head (show 4 < schedNumPriorities by decide) rfl

end NexusKernel.DeadThreads
