import NexusKernel.ThreadLives

/-!
`scheduler_block` against `scheduler_wake`. The three statements of `scheduler_block` run with
interrupts enabled, so the timer may switch between any two of them, and the wake-up may come from
an interrupt handler.

A thread woken after it was marked blocked is ready and queued while it still runs. Unless
preempted then, it is dequeued again, `schedule` does not put it back because it is not running,
and nothing will ever find it. A wake-up before the mark is lost as well.
-/

namespace NexusKernel.LostWakeups

open Lib.LinkedQueue Lib.Runs Scheduler Function
open RunQueues hiding Step
open ThreadLives hiding Step

inductive Place where
  | entered
  | marked
  | unqueued
  | left
  deriving DecidableEq, Repr

/-- One call of `scheduler_block(THREAD_BLOCKED)` and one wake-up. `missed` says whether a step
came too early: the wake-up before the thread was blocked, or the removal from the queue while it
was ready. -/
structure Call where
  sched : Sched
  place : Place
  woken : Bool
  missed : Bool

def Call.enter (s : Sched) : Call := ⟨s, .entered, false, false⟩

/-- The thread executes its statements while current; the timer and the wake-up are interrupts. -/
inductive Step (t : ℕ) : Call → Call → Prop
  | mark {c : Call} (hcur : c.sched.currentThread = some t) (hplace : c.place = .entered) :
      Step t c { c with sched := c.sched.setState t .blocked, place := .marked }
  | unqueue {c : Call} {s : Sched} (hcur : c.sched.currentThread = some t)
      (hplace : c.place = .marked) (h : schedulerDequeue c.sched t = some s) : Step t c { c with
        sched := s
        place := .unqueued
        missed := c.missed || (c.sched.thread t).state = .ready }
  | leave {c : Call} {s : Sched} (hcur : c.sched.currentThread = some t)
      (hplace : c.place = .unqueued) (h : schedule c.sched = some s) :
      Step t c { c with sched := s, place := .left }
  | timer {c : Call} {s : Sched} (h : schedulerTimerHandler c.sched = some s) :
      Step t c { c with sched := s }
  | wake {c : Call} (hwoken : c.woken = false) : Step t c { c with
        sched := schedulerWake c.sched t
        woken := true
        missed := c.missed || (c.sched.thread t).state ≠ .blocked }

def Call.Over (c : Call) (t : ℕ) : Prop :=
  c.place = .left ∨ c.place ≠ .entered ∧ c.sched.currentThread ≠ some t

def Runs (s : Sched) (t : ℕ) : Prop := s.currentThread = some t ∧ (s.thread t).state = .running

def Enqueued (s : Sched) (t : ℕ) : Prop :=
  ∃ l, Holds s.nextInQueue (s.ends (queueIndex (s.thread t))) l ∧ t ∈ l

def Safe (s : Sched) (t : ℕ) : Prop := Runs s t ∨ (s.thread t).state = .ready ∧ Enqueued s t

variable {s s' s₁ : Sched} {q q' q₁ : ℕ → List ℕ} {t next : ℕ} {c c' : Call}

/-- Without interrupts the three statements are `scheduler_block`. -/
theorem schedulerBlock_steps (hcur : s.currentThread = some t)
    (h : schedulerBlock s .blocked = some s') :
    Reachable (Step t) (Call.enter s) ⟨s', .left, false, false⟩ := by
  simp only [schedulerBlock, markBlocked, hcur] at h
  obtain ⟨s₁, hdequeue, hschedule⟩ := Option.bind_eq_some_iff.mp h
  have hunqueue : Step t ⟨s.setState t .blocked, .marked, false, false⟩ ⟨s₁, .unqueued,
      false, false⟩ := by
    have hstep : Step t ⟨s.setState t .blocked, .marked, false, false⟩ _ :=
      Step.unqueue hcur rfl hdequeue
    simpa [Sched.setState] using hstep
  obtain ⟨r, _, rfl⟩ := Option.map_eq_some_iff.mp hdequeue
  exact ((Relation.ReflTransGen.single (Step.mark hcur rfl)).tail hunqueue).tail
    (Step.leave hcur rfl hschedule)

structure Loose (s : Sched) (q : ℕ → List ℕ) : Prop where
  queued : Queued s q
  lock : s.schedLock = false
  idle : s.idleThread < s.threads
  current : ∀ u, s.currentThread = some u → u < s.threads

def Waits (s : Sched) (q : ℕ → List ℕ) (t : ℕ) : Prop := t ∈ q (queueIndex (s.thread t))

def Parked (s : Sched) (q : ℕ → List ℕ) (t : ℕ) : Prop :=
  Outside q t ∧ (s.thread t).state ≠ .running

/-- A thread that runs is put into its queue, one that waits there stays or runs, any other is
left alone. -/
structure Moves (s : Sched) (q : ℕ → List ℕ) (s' : Sched) (q' : ℕ → List ℕ) (t : ℕ) : Prop where
  leaves : Runs s t → Waits s' q' t ∧ s'.currentThread ≠ some t
  waits : Waits s q t → Runs s' t ∨ Waits s' q' t ∧ (s.currentThread ≠ some t →
    s'.currentThread ≠ some t)
  stays : Parked s q t → Parked s' q' t ∧ (s'.thread t).state = (s.thread t).state ∧
    s'.currentThread ≠ some t

theorem Static.queueIndex (h : Static s s') (t : ℕ) :
    queueIndex (s'.thread t) = queueIndex (s.thread t) := by
  simp only [Scheduler.queueIndex, h.priority]

theorem Waits.ready (h : Queued s q) (ht : Waits s q t) : (s.thread t).state = .ready :=
  (h.member _ (queueIndex_lt _) t ht).2.2

variable {l : List ℕ} {pri : ℕ}

theorem waits_of_mem (h : Queued s q) (hpri : pri < schedNumPriorities) (ht : t ∈ q pri) :
    Waits s q t := by
  have hindex := (h.member pri hpri t ht).2.1
  unfold Waits
  rwa [hindex]

theorem Parked.not_waits (h : Parked s q t) : ¬ Waits s q t := h.1 _ (queueIndex_lt _)

theorem mem_appended {other : ℕ} (h : t ∈ q pri) (u : ℕ) :
    t ∈ update q other (q other ++ [u]) pri := by
  by_cases heq : pri = other
  · subst pri
    rw [update_self]
    exact List.mem_append_left _ h
  · rwa [update_of_ne heq]

theorem mem_appended_self (q : ℕ → List ℕ) (pri t : ℕ) : t ∈ update q pri (q pri ++ [t]) pri := by
  rw [update_self]
  exact List.mem_append_right _ List.mem_cons_self

theorem Outside.appended {other u : ℕ} (h : Outside q t) (hother : other < schedNumPriorities)
    (hne : t ≠ u) : Outside (update q other (q other ++ [u])) t := by
  refine h.update ?_
  rw [List.mem_append, List.mem_singleton]
  exact fun hmem => hmem.elim (h other hother) hne

variable {old : Option ℕ}

/-- Putting the old thread back takes nothing out of a queue. -/
theorem mem_requeued (h : t ∈ q pri) : t ∈ requeued s q old pri := by
  cases old with
  | none => exact h
  | some o =>
    simp only [requeued]
    split
    · exact mem_appended h o
    · exact h

theorem mem_requeued_self (h : (s.thread t).state = .running) :
    t ∈ requeued s q (some t) (queueIndex (s.thread t)) := by
  simp only [requeued, if_pos h]
  exact mem_appended_self q _ t

theorem Parked.requeued (h : Parked s q t) : Outside (requeued s q old) t := by
  by_cases heq : old = some t
  · subst old
    simp only [RunQueues.requeued, if_neg h.2]
    exact h.1
  · exact outside_requeued h.1 heq

/-- Control passes to `next`, taken out of the queues if it was in one. -/
theorem switch_moves (h : Loose s q) (hstat : Static s s₁) (hthread : s₁.thread = s.thread)
    (hqueued : Queued s₁ q₁) (hnext : next < s.threads) (hout : Outside q₁ next)
    (hne : s.currentThread ≠ some next) (hrest : ∀ u, u ≠ next → Waits s q u → Waits s q₁ u)
    (hless : ∀ u, Outside q u → Outside q₁ u) (hpark : Outside q t → t ≠ next)
    (hs' : s' = resume (switchTo s₁ s.currentThread next)) :
    Static s s' ∧ Loose s' (requeued s₁ q₁ s.currentThread) ∧
      Moves s q s' (requeued s₁ q₁ s.currentThread) t := by
  have hold : ∀ o, s.currentThread = some o → o < s₁.threads := fun o ho => by
    rw [hstat.threads]
    exact h.current o ho
  have hswitch := switchTo_queued hqueued hold hout hne
  have hcur : s'.currentThread = some next := hs' ▸ resume_switchTo_current s₁ s.currentThread next
  have hrun := switchTo_running (s := s₁) hne
  have hs := hs'.trans (resume_eq (switchTo_current _ _ _))
  have hall : Static s s' := by
    rw [hs]
    exact (hstat.trans (switchTo_static s₁ s.currentThread next)).congr rfl rfl rfl rfl rfl
  have hindex := Static.queueIndex hall t
  refine ⟨hall, ?_, ?_, ?_, ?_⟩
  · refine ⟨?_, ?_, ?_, fun u hu => ?_⟩
    · rw [hs]
      exact ⟨hswitch.holds, hswitch.member⟩
    · rw [hs]
    · rw [hall.idleThread, hall.threads]
      exact h.idle
    · cases hu.symm.trans hcur
      rw [hall.threads]
      exact hnext
  · intro hruns
    have hmem := mem_requeued_self (q := q₁) (by rw [hthread]; exact hruns.2)
    constructor
    · unfold Waits
      rwa [hindex, hruns.1, ← hthread]
    · rw [hcur, ← hruns.1]
      exact fun heq => hne heq.symm
  · intro hwaits
    by_cases heq : t = next
    · subst t
      refine .inl ⟨hcur, ?_⟩
      rw [hs]
      exact hrun
    · refine .inr ⟨?_, fun _ hnow => heq (Option.some.inj (hnow.symm.trans hcur))⟩
      unfold Waits
      rw [hindex]
      exact mem_requeued (hrest t heq hwaits)
  · intro hparked
    have htn := hpark hparked.1
    have hidle : (s₁.thread t).state ≠ .running := by
      rw [hthread]
      exact hparked.2
    have hsame : (s'.thread t).state = (s₁.thread t).state := hs' ▸ switchTo_state htn hidle
    refine ⟨⟨Parked.requeued ⟨hless t hparked.1, hidle⟩, ?_⟩, ?_, ?_⟩
    · rw [hsame]
      exact hidle
    · rw [hsame, hthread]
    · exact fun hnow => htn (Option.some.inj (hnow.symm.trans hcur))

theorem Waits.rest (h : Waits s q t) (hq : q pri = next :: l) (hne : t ≠ next) :
    Waits s (update q pri l) t := by
  unfold Waits at h ⊢
  by_cases heq : queueIndex (s.thread t) = pri
  · rw [heq, hq] at h
    rw [heq, update_self]
    exact (List.mem_cons.mp h).resolve_left hne
  · rwa [update_of_ne heq]

theorem Outside.rest (h : Outside q t) (hpri : pri < schedNumPriorities)
    (hq : q pri = next :: l) : Outside (update q pri l) t := by
  refine h.update fun hmem => h pri hpri ?_
  rw [hq]
  exact List.mem_cons_of_mem next hmem

/-- A woken thread that is still current was chosen again. -/
theorem again_moves {r : (ℕ → Option ℕ) × Ends ℕ} (h : Loose s q)
    (hpri : pri < schedNumPriorities) (hq : q pri = next :: l)
    (hrest : Queued (s.setQueue pri r) (update q pri l)) (hcur : s.currentThread = some next) :
    let s' := schedulerEnqueue (s.setQueue pri r) next
    ∃ q', Loose s' q' ∧ Moves s q s' q' t := by
  intro s'
  have hnext : next ∈ q pri := by
    rw [hq]
    exact List.mem_cons_self
  have hqueued := enqueue_queued hrest (h.current next hcur) (h.queued.outside_rest hpri hq)
  have hwaits : Waits s q next := waits_of_mem h.queued hpri hnext
  have hindex : ∀ u, queueIndex (s'.thread u) = queueIndex (s.thread u) :=
    Static.queueIndex ((setQueue_static s pri r).trans (enqueue_static _ next))
  refine ⟨_, ⟨hqueued, h.lock, h.idle, h.current⟩, ?_, ?_, ?_⟩
  · intro hruns
    cases hruns.1.symm.trans hcur
    exact absurd (hruns.2.symm.trans (hwaits.ready h.queued)) (by simp)
  · intro ht
    refine .inr ⟨?_, fun hnot => hnot⟩
    unfold Waits
    rw [hindex]
    by_cases heq : t = next
    · subst t
      exact mem_appended_self _ _ next
    · exact mem_appended (ht.rest hq heq) next
  · intro hparked
    have hne : t ≠ next := by
      intro heq
      subst t
      exact hparked.not_waits hwaits
    have hsame : s'.thread t = s.thread t := by
      simp only [s', schedulerEnqueue, Sched.setState, Sched.setQueue, update_of_ne hne]
    refine ⟨⟨Outside.appended (Outside.rest hparked.1 hpri hq) (queueIndex_lt _) hne, ?_⟩, ?_, ?_⟩
    · rw [hsame]
      exact hparked.2
    · rw [hsame]
    · exact fun hnow => hne (Option.some.inj (hnow.symm.trans hcur))

theorem schedule_moves (h : Loose s q) (hidle : t ≠ s.idleThread) :
    ∃ s' q', schedule s = some s' ∧ Static s s' ∧ Loose s' q' ∧ Moves s q s' q' t := by
  rcases schedule_queued h.queued h.lock with ⟨hnil, hcur, heq⟩ | ⟨hnil, hcur, heq⟩ |
    ⟨pri, next, l, r, hpri, hq, _, hrest, ⟨hne, heq⟩ | ⟨hcur, heq⟩⟩
  · have hnot : s.currentThread ≠ some t :=
      fun hnow => hidle (Option.some.inj (hnow.symm.trans hcur))
    refine ⟨s, q, heq, Static.refl s, h, fun hruns => absurd hruns.1 hnot,
      fun hwaits => ?_, fun hparked => ⟨hparked, rfl, hnot⟩⟩
    exact .inr ⟨hwaits, fun _ => hnot⟩
  · exact ⟨_, _, heq, switch_moves h (locked_static s) rfl ⟨h.queued.holds, h.queued.member⟩ h.idle
      (outside_of_empty hnil _) hcur (fun _ _ hwaits => hwaits) (fun _ hout => hout)
        (fun _ => hidle) rfl⟩
  · have hnext : next ∈ q pri := by
      rw [hq]
      exact List.mem_cons_self
    refine ⟨_, _, heq, switch_moves h ((locked_static s).trans (setQueue_static _ pri r)) rfl
      ⟨hrest.holds, hrest.member⟩ (h.queued.member pri hpri next hnext).1
        (h.queued.outside_rest hpri hq)
      hne (fun u hu hwaits => hwaits.rest hq hu) (fun u hout => Outside.rest hout hpri hq) ?_ rfl⟩
    intro hout heq
    subst t
    exact hout pri hpri hnext
  · obtain ⟨q', hloose, hmoves⟩ := again_moves h hpri hq hrest hcur
    exact ⟨_, q', heq, (setQueue_static s pri r).trans (enqueue_static _ next), hloose, hmoves⟩

inductive Phase (c : Call) (q : ℕ → List ℕ) (t : ℕ) : Prop
  | entering (hplace : c.place = .entered) (hmissed : c.missed = c.woken)
      (h : Runs c.sched t ∨ Waits c.sched q t ∧ c.sched.currentThread ≠ some t)
  | asleep (hplace : c.place ≠ .entered) (hwoken : c.woken = false) (hmissed : c.missed = false)
      (hstate : (c.sched.thread t).state = .blocked)
      (hleft : c.place = .left → c.sched.currentThread ≠ some t)
  | saved (hplace : c.place ≠ .entered) (hwoken : c.woken = true) (hmissed : c.missed = false)
      (h : Runs c.sched t ∨ Waits c.sched q t)
  | lost (hplace : c.place ≠ .entered) (hwoken : c.woken = true) (hmissed : c.missed = true)
      (h : Parked c.sched q t) (hleft : c.place = .left → c.sched.currentThread ≠ some t)

def Inv (t : ℕ) (c : Call) : Prop :=
  ∃ q, Loose c.sched q ∧ t ≠ c.sched.idleThread ∧ t < c.sched.threads ∧ Phase c q t

theorem parked_of_blocked (h : Queued s q) (hstate : (s.thread t).state = .blocked) :
    Parked s q t := ⟨h.outside_of_state (by simp [hstate]), by simp [hstate]⟩

variable {place : Place}

/-- `schedule` changes the phase of no thread, whoever calls it. -/
theorem Phase.schedule (h : Phase c q t) (hqueued : Queued c.sched q)
    (hmoves : Moves c.sched q s' q' t) (hplace : place = .entered ↔ c.place = .entered) :
    Phase { c with sched := s', place := place } q' t := by
  cases h with
  | entering hentered hmissed h =>
    refine .entering (hplace.mpr hentered) hmissed ?_
    rcases h with hruns | ⟨hwaits, hnot⟩
    · exact .inr (hmoves.leaves hruns)
    · exact (hmoves.waits hwaits).imp id fun h => ⟨h.1, h.2 hnot⟩
  | asleep hentered hwoken hmissed hstate _ =>
    obtain ⟨_, hsame, hnot⟩ := hmoves.stays (parked_of_blocked hqueued hstate)
    exact .asleep (fun heq => hentered (hplace.mp heq)) hwoken hmissed
      (hsame.trans hstate) fun _ => hnot
  | saved hentered hwoken hmissed h =>
    refine .saved (fun heq => hentered (hplace.mp heq)) hwoken hmissed ?_
    rcases h with hruns | hwaits
    · exact .inr (hmoves.leaves hruns).1
    · exact (hmoves.waits hwaits).imp id And.left
  | lost hentered hwoken hmissed h _ =>
    obtain ⟨hparked, _, hnot⟩ := hmoves.stays h
    exact .lost (fun heq => hentered (hplace.mp heq)) hwoken hmissed hparked fun _ => hnot

theorem Inv.schedule (h : Inv t c) (heq : schedule c.sched = some s')
    (hplace : place = .entered ↔ c.place = .entered) :
    Inv t { c with sched := s', place := place } := by
  obtain ⟨q, hloose, hidle, hlt, hphase⟩ := h
  obtain ⟨s₁, q', heq₁, hstat, hloose', hmoves⟩ := schedule_moves hloose hidle
  cases heq₁.symm.trans heq
  exact ⟨q', hloose', hstat.idleThread ▸ hidle, hstat.threads ▸ hlt,
    hphase.schedule hloose.queued hmoves hplace⟩

theorem Inv.withTicks (h : Inv t c) (tickCounter pitTicks : UInt64) : Inv t { c with
      sched := { c.sched with tickCounter := tickCounter, pitTicks := pitTicks } } := by
  obtain ⟨q, hloose, hidle, hlt, hphase⟩ := h
  refine ⟨q, ⟨⟨hloose.queued.holds, hloose.queued.member⟩, hloose.lock, hloose.idle,
    hloose.current⟩, hidle, hlt, ?_⟩
  cases hphase with
  | entering hplace hmissed h => exact .entering hplace hmissed h
  | asleep hplace hwoken hmissed hstate hleft => exact .asleep hplace hwoken hmissed hstate hleft
  | saved hplace hwoken hmissed h => exact .saved hplace hwoken hmissed h
  | lost hplace hwoken hmissed h hleft => exact .lost hplace hwoken hmissed h hleft

theorem Inv.timer (h : Inv t c) (heq : schedulerTimerHandler c.sched = some s') :
    Inv t { c with sched := s' } := by
  obtain ⟨-, -, heq⟩ | ⟨tickCounter, pitTicks, rfl⟩ := schedulerTimerHandler_cases heq
  · exact (h.withTicks 0 (c.sched.pitTicks + 1)).schedule heq Iff.rfl
  · exact h.withTicks tickCounter pitTicks

/-- The thread is still in no queue when it marks itself. -/
theorem Inv.mark (h : Inv t c) (hcur : c.sched.currentThread = some t)
    (hentered : c.place = .entered) :
    Inv t { c with sched := c.sched.setState t .blocked, place := .marked } := by
  obtain ⟨q, hloose, hidle, hlt, hphase⟩ := h
  cases hphase with
  | entering _ hmissed h =>
    obtain hruns | ⟨_, hnot⟩ := h
    swap
    · exact absurd hcur hnot
    have hout : Outside q t := hloose.queued.outside_of_state (by simp [hruns.2])
    have hqueued := hloose.queued.setState hout .blocked
    have hstate : ((c.sched.setState t .blocked).thread t).state = .blocked := by
      simp only [Sched.setState, update_self]
    refine ⟨q, ⟨hqueued, hloose.lock, hloose.idle, hloose.current⟩, hidle, hlt, ?_⟩
    rcases Bool.eq_false_or_eq_true c.woken with hwoken | hwoken
    · exact .lost (by simp) hwoken (hmissed.trans hwoken)
        (parked_of_blocked hqueued hstate) (by simp)
    · exact .asleep (by simp) hwoken (hmissed.trans hwoken) hstate (by simp)
  | asleep hplace _ _ _ _ | saved hplace _ _ _ | lost hplace _ _ _ _ => exact absurd hentered hplace

/-- The removal from the queue harms only a thread that waits there. -/
theorem Inv.unqueue (h : Inv t c) (hmarked : c.place = .marked)
    (heq : schedulerDequeue c.sched t = some s') : Inv t { c with
      sched := s'
      place := .unqueued
      missed := c.missed || (c.sched.thread t).state = .ready } := by
  obtain ⟨q, hloose, hidle, hlt, hphase⟩ := h
  obtain ⟨r, hr, hqueued⟩ := dequeue_queued hloose.queued t
  cases hr.symm.trans heq
  refine ⟨_, ⟨hqueued, hloose.lock, hloose.idle, hloose.current⟩, hidle, hlt, ?_⟩
  have hout := outside_erase hloose.queued t
  cases hphase with
  | entering hplace _ _ => cases hmarked.symm.trans hplace
  | asleep _ hwoken hmissed hstate _ =>
    exact .asleep (by simp) hwoken (by simp [hmissed, hstate]) hstate (by simp)
  | saved _ hwoken hmissed h =>
    rcases h with hruns | hwaits
    · exact .saved (by simp) hwoken (by simp [hmissed, hruns.2]) (.inl hruns)
    · have hready := hwaits.ready hloose.queued
      refine .lost (by simp) hwoken (by simp [hready]) ⟨hout, ?_⟩ (by simp)
      change (c.sched.thread t).state ≠ .running
      simp [hready]
  | lost _ hwoken hmissed h _ =>
    exact .lost (by simp) hwoken (by simp [hmissed]) ⟨hout, h.2⟩ (by simp)

/-- A wake-up of a blocked thread queues it; before that it has no effect. -/
theorem Inv.wake (h : Inv t c) (hasleep : c.woken = false) : Inv t { c with
    sched := schedulerWake c.sched t
    woken := true
    missed := c.missed || (c.sched.thread t).state ≠ .blocked } := by
  obtain ⟨q, hloose, hidle, hlt, hphase⟩ := h
  cases hphase with
  | entering hplace _ h =>
    have hstate : (c.sched.thread t).state = .running ∨ (c.sched.thread t).state = .ready :=
      h.imp And.right (fun h => h.1.ready hloose.queued)
    obtain ⟨hsame, hearly⟩ : schedulerWake c.sched t = c.sched ∧
        (c.sched.thread t).state ≠ .blocked := by
      rcases hstate with hstate | hstate <;> simp [schedulerWake, hstate]
    rw [hsame]
    exact ⟨q, hloose, hidle, hlt, .entering hplace (by simp [hearly]) h⟩
  | asleep hplace _ hmissed hstate _ =>
    have hout : Outside q t := (parked_of_blocked hloose.queued hstate).1
    have hqueued := enqueue_queued (hloose.queued.setState hout .ready) hlt hout
    have hwake : schedulerWake c.sched t = schedulerEnqueue (c.sched.setState t .ready) t := by
      simp [schedulerWake, hstate]
    rw [hwake]
    refine ⟨_, ⟨hqueued, hloose.lock, hloose.idle, hloose.current⟩, hidle, hlt,
      .saved hplace rfl (by simp [hmissed, hstate]) (.inr ?_)⟩
    have hindex := Static.queueIndex (enqueue_static (c.sched.setState t .ready) t) t
    unfold Waits
    rw [hindex]
    exact mem_appended_self q _ t
  | saved _ hwoken _ _ | lost _ hwoken _ _ _ => cases hasleep.symm.trans hwoken

theorem inv_step (h : Inv t c) (hstep : Step t c c') : Inv t c' := by
  cases hstep with
  | mark hcur hplace => exact h.mark hcur hplace
  | unqueue _ hplace heq => exact h.unqueue hplace heq
  | leave _ hplace heq => exact h.schedule heq (by simp [hplace])
  | timer heq => exact h.timer heq
  | wake hwoken => exact h.wake hwoken

theorem inv_enter (h : Settled s q) (hcur : s.currentThread = some t) (hidle : t ≠ s.idleThread) :
    Inv t (Call.enter s) :=
  ⟨q, ⟨h.queued, h.lock, h.idle, fun u hu => (h.current u hu).1⟩, hidle, (h.current t hcur).1,
    .entering rfl rfl (.inl ⟨hcur, h.running t hcur hidle⟩)⟩

theorem enqueued_iff (h : Queued s q) : Enqueued s t ↔ Waits s q t := by
  have hholds := h.holds _ (queueIndex_lt (s.thread t))
  constructor
  · intro h
    obtain ⟨l, hl, hmem⟩ := h
    obtain rfl := hholds.linked.unique hl.linked
    exact hmem
  · exact fun hwaits => ⟨_, hholds, hwaits⟩

theorem safe_iff (h : Queued s q) : Safe s t ↔ Runs s t ∨ Waits s q t := by
  unfold Safe
  rw [enqueued_iff h]
  exact or_congr_right ⟨And.right, fun hwaits => ⟨hwaits.ready h, hwaits⟩⟩

/-- In every interleaving of `scheduler_block` with one wake-up and the timer, the thread is
running or ready in its queue in the end exactly if the wake-up found it blocked and it did not
take itself out of the queue afterwards while ready. Otherwise it is not even current. -/
theorem no_lost_wakeup_iff (h : Settled s q) (hcur : s.currentThread = some t)
    (hidle : t ≠ s.idleThread) (hrun : Reachable (Step t) (Call.enter s) c)
    (hwoken : c.woken = true) (hover : c.Over t) :
    (Safe c.sched t ↔ c.missed = false) ∧ (c.missed = true → c.sched.currentThread ≠ some t) := by
  obtain ⟨q', hloose, _, _, hphase⟩ : Inv t c :=
    hrun.invariant (Inv t) (fun _ _ => inv_step) (inv_enter h hcur hidle)
  rw [safe_iff hloose.queued]
  have hbegun : c.place ≠ .entered := hover.elim (fun h => by simp [h]) And.left
  cases hphase with
  | entering hplace _ _ => exact absurd hplace hbegun
  | asleep _ hasleep _ _ _ => cases hasleep.symm.trans hwoken
  | saved _ _ hmissed h => exact ⟨iff_of_true h hmissed, by simp [hmissed]⟩
  | lost _ _ hmissed hparked hleft =>
    refine ⟨iff_of_false ?_ (by simp [hmissed]), fun _ => hover.elim hleft And.right⟩
    rintro (hruns | hwaits)
    · exact hparked.2 hruns.2
    · exact hparked.not_waits hwaits

def shellRuns : Sched :=
  (schedulerStart (schedulerInit (Sched.boot 0x1000) 0x2000 0x3000 (some (0x4000, 0x5000)))).getD
    (Sched.boot 0x1000)

theorem shellRuns_settled : ∃ q, Settled shellRuns q := by
  obtain ⟨q, hbetween⟩ := schedulerInit_between 0x1000 0x2000 0x3000 (some (0x4000, 0x5000))
  obtain ⟨s, q', heq, hset, _⟩ := schedulerStart_settles hbetween.settled rfl
  exact ⟨q', by rwa [shellRuns, heq]⟩

/-- The shell blocks and is woken afterwards. -/
theorem no_lost_wakeup_iff_shell :
    ∃ s', schedulerBlock shellRuns .blocked = some s' ∧ Safe (schedulerWake s' 1) 1 := by
  obtain ⟨q, hset⟩ := shellRuns_settled
  have hblock := schedulerBlock_steps (s := shellRuns) rfl rfl
  exact ⟨_, rfl, (no_lost_wakeup_iff hset rfl (by decide) (hblock.tail (Step.wake rfl)) rfl
    (.inl rfl)).1.mpr rfl⟩

theorem not_safe_of_empty (hcur : s.currentThread ≠ some t)
    (hhead : s.readyHead (queueIndex (s.thread t)) = none) : ¬ Safe s t := by
  rintro (hruns | ⟨_, l, hl, hmem⟩)
  · exact hcur hruns.1
  · rw [List.head?_eq_none_iff.mp (hl.linked.head_eq.symm.trans hhead)] at hmem
    exact List.not_mem_nil hmem

/-- The shell is woken between the first two statements of `scheduler_block`. -/
theorem woken_thread_vanishes : ∃ c, Reachable (Step 1) (Call.enter shellRuns) c ∧ c.woken = true ∧
    c.place = .left ∧
    (c.sched.thread 1).state = .ready ∧ c.sched.currentThread = some 0 ∧ ¬ Safe c.sched 1 := by
  have hmark : Step 1 (Call.enter shellRuns) _ := Step.mark rfl rfl
  refine ⟨_, (((Relation.ReflTransGen.single hmark).tail (Step.wake rfl)).tail
    (Step.unqueue rfl rfl rfl)).tail (Step.leave rfl rfl rfl), rfl, rfl, rfl, rfl, ?_⟩
  exact not_safe_of_empty (by decide) rfl

end NexusKernel.LostWakeups
