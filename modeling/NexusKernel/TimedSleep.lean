import NexusKernel.ThreadLives

/-!
A timed sleep does not end. `thread_sleep_ms` takes the thread out of the run queues, and
`pick_next`, which should wake it, looks for sleeping threads only there, where all threads are
ready.

But if the idle thread sleeps while another is current, `schedule` falls back on it once no thread
is ready, at whatever time.
-/

namespace NexusKernel.TimedSleep

open Lib.LinkedQueue Lib.Runs Scheduler ThreadLives
open RunQueues hiding Step

def Awake (s : Sched) (t : ℕ) : Prop :=
  (s.thread t).state = .ready ∧
    (∃ l, Holds s.nextInQueue (s.ends (queueIndex (s.thread t))) l ∧ t ∈ l) ∨
    (s.thread t).state = .running ∧ s.currentThread = some t

def FallsBack (s : Sched) (t : ℕ) : Prop :=
  t = s.idleThread ∧ s.currentThread ≠ some t ∧ ∀ pri, pri < schedNumPriorities →
    s.readyHead pri = none

/-- A step that neither wakes nor kills the thread. The idle thread is also woken by a switch. -/
def Undisturbed (t : ℕ) (k k' : System) : Prop :=
  ∃ op : Op, op.Valid k ∧ ¬ op.Disturbs k.sched t ∧ perform k op = some k' ∧
    (t = k.sched.idleThread → (k'.sched.thread t).state = .sleeping)

variable {s s' : Sched} {q : ℕ → List ℕ} {t : ℕ} {k k₀ k₁ : System}

theorem not_awake (h : (s.thread t).state = .sleeping) : ¬ Awake s t := by
  rintro (⟨hready, _⟩ | ⟨hrun, _⟩)
  · cases hready.symm.trans h
  · cases hrun.symm.trans h

theorem readyHead_eq_none (h : Queued s q) {pri : ℕ} (hpri : pri < schedNumPriorities) :
    s.readyHead pri = none ↔ q pri = [] := by
  have hhead : s.readyHead pri = _ := (h.holds pri hpri).linked.head_eq
  rw [hhead, List.head?_eq_none_iff]

/-- `schedule` leaves a sleeping thread asleep, unless it falls back on it as the idle thread. -/
theorem schedule_sleeping (h : Arranged s q) (hstate : (s.thread t).state = .sleeping)
    (heq : schedule s = some s') :
    FallsBack s t ∧ (s'.thread t).state = .running ∧ s'.currentThread = some t ∨
      ¬ FallsBack s t ∧ (s'.thread t).state = .sleeping := by
  by_cases hidle : t = s.idleThread
  · have hnotRunning : (s.thread t).state ≠ .running := by simp [hstate]
    have hout : Outside q t := h.queued.outside_of_state (by simp [hstate])
    rcases schedule_queued h.queued h.lock with ⟨_, hcur, heq₁⟩ | ⟨hnil, hcur, heq₁⟩ |
      ⟨pri, x, rest, r, hpri, hq, _, _, hcase⟩
    · cases heq₁.symm.trans heq
      exact .inr ⟨fun hback => hback.2.1 (hidle ▸ hcur), hstate⟩
    · cases heq₁.symm.trans heq
      have hbetween := (switchTo_idle_between h hnil hcur).1
      have hnow := resume_switchTo_current { s with schedLock := true } s.currentThread s.idleThread
      rw [← hidle] at hbetween hcur hnow ⊢
      exact .inl ⟨⟨hidle, hcur, fun pri hpri => (readyHead_eq_none h.queued hpri).mpr
        (hnil pri hpri)⟩, hbetween.running t hnow, hnow⟩
    · have hx : x ∈ q pri := by
        rw [hq]
        exact List.mem_cons_self
      have hne : t ≠ x := fun heq => hout pri hpri (heq ▸ hx)
      have hbusy : ¬ FallsBack s t := by
        intro hback
        rw [(readyHead_eq_none h.queued hpri).mp (hback.2.2 pri hpri)] at hx
        exact absurd hx List.not_mem_nil
      rcases hcase with ⟨_, heq₁⟩ | ⟨hcur, _⟩
      · cases heq₁.symm.trans heq
        refine .inr ⟨hbusy, ?_⟩
        rw [switchTo_state hne]
        · exact hstate
        · exact hnotRunning
      · exact absurd (hidle.trans (h.eq_idle hcur hpri hq).symm) hne
  · have hparked : ¬ Live s t := by simp [Live, hstate]
    exact .inr ⟨fun hback => hidle hback.1,
      ((schedule_steady h heq).parked t hidle hparked).trans hstate⟩

/-- `thread_sleep_ms` returns control to another thread, or to the idle thread that called it,
with the caller asleep. -/
theorem threadSleepMs_sleeping (h : Settled s q) (hcur : s.currentThread = some t) {ms : UInt64}
    (heq : threadSleepMs s ms = some s') : (s'.thread t).state = .sleeping := by
  simp only [threadSleepMs, hcur, schedulerBlock] at heq
  have hdeadline : (setDeadline s t (s.pitTicks + ms)).currentThread = some t := hcur
  obtain ⟨r, q₁, hmark, harr⟩ :=
    markBlocked_arranged (setDeadline_settled h t (s.pitTicks + ms)) hdeadline .sleeping
  simp only [hdeadline, hmark, Option.bind_some] at heq
  rcases schedule_sleeping (t := t) harr (by simp [Sched.setState]) heq
    with ⟨hback, _⟩ | ⟨_, hstate⟩
  · exact absurd hdeadline hback.2.1
  · exact hstate

def Asleep (t : ℕ) (k : System) : Prop :=
  (∃ q, Settled k.sched q) ∧ t < k.sched.threads ∧ (k.sched.thread t).state = .sleeping

theorem asleep_step {k' : System} (h : Asleep t k) (hstep : Undisturbed t k k') : Asleep t k' := by
  obtain ⟨⟨q, hset⟩, ht, hstate⟩ := h
  obtain ⟨op, hvalid, hop, heq, hidle⟩ := hstep
  have heff := step_effect hset hvalid heq
  refine ⟨step_settled hset hvalid heq, ht.trans_le (effect_continues heff).threads, ?_⟩
  by_cases hcase : t = k.sched.idleThread
  · exact hidle hcase
  · have hparked : ¬ Live k.sched t := by simp [Live, hstate]
    exact (effect_parked hset heff ht hcase hparked (fun h => absurd h hop)).trans hstate

theorem asleep_of_sleep {ms : UInt64} (h : Settled k₀.sched q)
    (hcur : k₀.sched.currentThread = some t) (hsleep : perform k₀ (.sleep ms) = some k₁) :
    Asleep t k₁ := by
  have hvalid : (Op.sleep ms).Valid k₀ := trivial
  have heff := step_effect h hvalid hsleep
  refine ⟨step_settled h hvalid hsleep, (h.current t hcur).1.trans_le
    (effect_continues heff).threads, ?_⟩
  obtain ⟨s', hs, rfl⟩ := Option.map_eq_some_iff.mp hsleep
  exact threadSleepMs_sleeping h hcur hs

/-- After a thread has called `thread_sleep_ms`, and as long as nobody wakes or kills it,
`schedule` leaves it ready or running exactly if it is the idle thread and `schedule` falls back
on it, whatever its deadline. -/
theorem timed_sleep_ends_iff {cr3 idleCr3 idleStack : UInt64} {shell : Option (UInt64 × UInt64)}
    {ms : UInt64} (hrun : Reachable Step (System.boot cr3 idleCr3 idleStack shell) k₀)
    (hcur : k₀.sched.currentThread = some t) (hsleep : perform k₀ (.sleep ms) = some k₁)
    (hrest : Reachable (Undisturbed t) k₁ k) :
    ∃ s', schedule k.sched = some s' ∧ (Awake s' t ↔ FallsBack k.sched t) := by
  obtain ⟨q₀, hset₀⟩ := reachable_settled hrun
  obtain ⟨⟨q, hset⟩, _, hstate⟩ := hrest.invariant (Asleep t) (fun _ _ => asleep_step)
    (asleep_of_sleep hset₀ hcur hsleep)
  obtain ⟨s', _, heq, _⟩ := schedule_settles hset.toArranged
  refine ⟨s', heq, ?_⟩
  rcases schedule_sleeping hset.toArranged hstate heq with ⟨hback, hrunning⟩ | ⟨hback, hsleeping⟩
  · exact iff_of_true (.inr hrunning) hback
  · exact iff_of_false (not_awake hsleeping) hback

/-- The idle thread sleeps, and a thread made meanwhile calls `schedule` while no other is ready. -/
theorem timed_sleep_ends_idle : ∃ (k₀ k₁ k₂ k : System) (s' : Sched),
    perform (System.boot 0x1000 0x2000 0x3000 none) .start = some k₀ ∧
    perform k₀ (.sleep 0) = some k₁ ∧ perform k₁ (.spawn 0 0x4000 4) = some k₂ ∧
    perform k₂ .schedule = some k ∧ schedule k.sched = some s' ∧ Awake s' 0 := by
  have hst : Step (System.boot 0x1000 0x2000 0x3000 none) _ := ⟨.start, rfl, rfl⟩
  obtain ⟨s', heq, hiff⟩ := timed_sleep_ends_iff (.single hst) rfl
    (show perform _ (.sleep 0) = some _ from rfl)
    (.tail (.single ⟨.spawn 0 0x4000 4, ⟨_, List.mem_cons_self, rfl⟩, id, rfl, fun _ => rfl⟩)
      ⟨.schedule, trivial, id, rfl, fun _ => rfl⟩)
  exact ⟨_, _, _, _, s', rfl, rfl, rfl, rfl, heq, hiff.mpr ⟨rfl, by decide, by decide⟩⟩

/-- The shell sleeps for a millisecond, the timer ticks, and it stays asleep. -/
theorem shell_sleeps_on : ∃ (k₀ k₁ k : System) (s' : Sched),
    perform (System.boot 0x1000 0x2000 0x3000 (some (0x4000, 0x5000))) .start = some k₀ ∧
    k₀.sched.currentThread = some 1 ∧ perform k₀ (.sleep 1) = some k₁ ∧
    perform k₁ .timer = some k ∧ (k.sched.thread 1).sleepUntilMs ≤ k.sched.pitTicks ∧
    schedule k.sched = some s' ∧ ¬ Awake s' 1 :=
  ⟨_, _, _, _, rfl, rfl, rfl, rfl, by decide, rfl, not_awake rfl⟩

end NexusKernel.TimedSleep
