import NexusKernel.LostWakeups
import Mathlib.Data.List.Rotate

/-!
Whether `schedule` passes control to a thread of the highest priority. It takes the first thread
of the highest queue and only then puts the running thread back, which thus loses the processor to
any ready thread, and to the idle thread if there is none.
-/

namespace NexusKernel.Priorities

open Scheduler RunQueues Function Sched LostWakeups

variable {s s' : Sched} {q : ℕ → List ℕ} {t x pri : ℕ}

def Waiting (q : ℕ → List ℕ) (t : ℕ) : Prop := ∃ pri, pri < schedNumPriorities ∧ t ∈ q pri

def level (s : Sched) (t : ℕ) : ℕ := queueIndex (s.thread t)

/-- No thread waits above the current one, and beside the idle thread none waits at all. -/
def Respects (s : Sched) (q : ℕ → List ℕ) : Prop :=
  ∀ c, s.currentThread = some c →
    (∀ t, Waiting q t → level s t ≤ level s c) ∧ (c = s.idleThread → ∀ t, Waiting q t → t = c)

def First (q : ℕ → List ℕ) (x : ℕ) : Prop :=
  ∃ pri rest, pri < schedNumPriorities ∧ q pri = x :: rest ∧ ∀ p, pri < p →
    p < schedNumPriorities → q p = []

def Preempted (s : Sched) (o : ℕ) : Prop := s.currentThread = some o ∧ (s.thread o).state = .running

/-- Before the call: only the idle thread is preempted while none waits, and the first waiting
thread is not below the preempted one; if it is the idle thread, no other waits and none is
preempted. -/
def Timely (s : Sched) (q : ℕ → List ℕ) : Prop :=
  ((∀ t, ¬ Waiting q t) → ∀ o, Preempted s o → o = s.idleThread) ∧
    ∀ x, First q x → (∀ o, Preempted s o → level s o ≤ level s x) ∧
      (x = s.idleThread → (∀ t, Waiting q t → t = x) ∧ ∀ o, ¬ Preempted s o)

theorem level_eq_of_static (h : Static s s') (t : ℕ) : level s' t = level s t := by
  simp only [level, queueIndex, h.priority t]

theorem not_waiting_of_empty (h : ∀ pri < schedNumPriorities, q pri = []) : ¬ Waiting q t := by
  rintro ⟨pri, hpri, hmem⟩
  rw [h pri hpri] at hmem
  exact List.not_mem_nil hmem

theorem waiting_update (hpri : pri < schedNumPriorities) (l : List ℕ) : Waiting (update q pri l) t ↔
    t ∈ l ∨ ∃ p ≠ pri, p < schedNumPriorities ∧ t ∈ q p := by
  rw [Waiting, exists_update_iff q fun p l => p < schedNumPriorities ∧ t ∈ l, and_iff_right hpri]

theorem waiting_iff (hpri : pri < schedNumPriorities) : Waiting q t ↔
    t ∈ q pri ∨ ∃ p ≠ pri, p < schedNumPriorities ∧ t ∈ q p := by
  rw [← waiting_update hpri, update_eq_self]

/-- The waiting threads after the old one was put back. -/
theorem waiting_requeued : Waiting (requeued s q s.currentThread) t ↔ Waiting q t ∨
    Preempted s t := by
  cases hcur : s.currentThread with
  | none => simp [requeued, Preempted, hcur]
  | some o =>
    by_cases hrun : (s.thread o).state = .running
    · have hold : Preempted s t ↔ t = o := by
        refine ⟨fun h => (Option.some.inj (hcur.symm.trans h.1)).symm, ?_⟩
        rintro rfl
        exact ⟨hcur, hrun⟩
      have hpri := queueIndex_lt (s.thread o)
      simp only [requeued, if_pos hrun]
      rw [waiting_update hpri, waiting_iff hpri, hold, List.mem_append, List.mem_singleton,
        or_right_comm]
    · simp only [requeued, if_neg hrun]
      refine ⟨Or.inl, fun h => h.resolve_right ?_⟩
      rintro ⟨heq, hstate⟩
      obtain rfl := Option.some.inj (hcur.symm.trans heq)
      exact hrun hstate

variable {rest : List ℕ}

/-- The waiting threads after the first of a queue was taken. -/
theorem waiting_rest (h : Queued s q) (hpri : pri < schedNumPriorities)
    (hq : q pri = x :: rest) : Waiting (update q pri rest) t ↔ Waiting q t ∧ t ≠ x := by
  have hsplit : Waiting q t ↔ t = x ∨ Waiting (update q pri rest) t := by
    rw [waiting_iff hpri, waiting_update hpri, hq, List.mem_cons, or_assoc]
  rw [hsplit]
  refine ⟨fun ht => ⟨.inr ht, ?_⟩, fun ht => ht.1.resolve_left ht.2⟩
  rintro rfl
  obtain ⟨p, hp, hmem⟩ := ht
  exact h.outside_rest hpri hq p hp hmem

theorem level_le_of_first (h : Queued s q) (hx : First q x) (ht : Waiting q t) :
    level s t ≤ level s x := by
  obtain ⟨pri, rest, hpri, hq, habove⟩ := hx
  obtain ⟨p, hp, hmem⟩ := ht
  have hle : p ≤ pri := by
    by_contra hlt
    rw [habove p (Nat.lt_of_not_le hlt) hp] at hmem
    exact List.not_mem_nil hmem
  calc level s t = p := (h.member p hp t hmem).2.1
    _ ≤ pri := hle
    _ = level s x := (h.first hpri hq).2.1.symm

theorem First.unique {y : ℕ} (hx : First q x) (hy : First q y) : x = y := by
  obtain ⟨pri, rest, hpri, hq, habove⟩ := hx
  obtain ⟨p, rest', hp, hq', habove'⟩ := hy
  rcases Nat.lt_trichotomy pri p with hlt | rfl | hlt
  · exact absurd (hq'.symm.trans (habove p hlt hp)) (by simp)
  · exact (List.cons.inj (hq.symm.trans hq')).1
  · exact absurd (hq.symm.trans (habove' pri hlt hpri)) (by simp)

theorem First.waiting (hx : First q x) : Waiting q x := by
  obtain ⟨pri, rest, hpri, hq, _⟩ := hx
  refine ⟨pri, hpri, ?_⟩
  rw [hq]
  exact List.mem_cons_self

theorem respects_of_empty (h : Static s s') (hnil : ∀ t, ¬ Waiting q t)
    (hcur : s'.currentThread = some s.idleThread) :
    Respects s' (requeued s q s.currentThread) ↔ ∀ o, Preempted s o → o = s.idleThread := by
  have hwait : ∀ t, Waiting (requeued s q s.currentThread) t ↔ Preempted s t := by
    intro t
    rw [waiting_requeued]
    exact or_iff_right (hnil t)
  constructor
  · intro hrespects o ho
    exact (hrespects _ hcur).2 h.idleThread.symm o ((hwait o).mpr ho)
  · intro honly c hc
    cases hcur.symm.trans hc
    refine ⟨fun t ht => ?_, fun _ t ht => honly t ((hwait t).mp ht)⟩
    rw [honly t ((hwait t).mp ht)]

theorem respects_of_first (h : Static s s') (hqueued : Queued s q)
    (hpri : pri < schedNumPriorities) (hq : q pri = x :: rest)
    (habove : ∀ p, pri < p → p < schedNumPriorities → q p = [])
    (hcur : s'.currentThread = some x) (hother : ¬ Preempted s x) :
    Respects s' (requeued s (update q pri rest) s.currentThread) ↔
      (∀ o, Preempted s o → level s o ≤ level s x) ∧
        (x = s.idleThread → (∀ t, Waiting q t → t = x) ∧ ∀ o, ¬ Preempted s o) := by
  have hwait : ∀ t, Waiting (requeued s (update q pri rest) s.currentThread) t ↔
      (Waiting q t ∧ t ≠ x) ∨ Preempted s t := by
    intro t
    rw [waiting_requeued, waiting_rest hqueued hpri hq]
  constructor
  · intro hrespects
    obtain ⟨hlevel, hidle⟩ := hrespects x hcur
    refine ⟨fun o ho => ?_, fun hx => ⟨fun t ht => ?_, fun o ho => hother ?_⟩⟩
    · have hle := hlevel o ((hwait o).mpr (.inr ho))
      rwa [level_eq_of_static h, level_eq_of_static h] at hle
    · by_contra hne
      exact hne (hidle (hx.trans h.idleThread.symm) t ((hwait t).mpr (.inl ⟨ht, hne⟩)))
    · rwa [← hidle (hx.trans h.idleThread.symm) o ((hwait o).mpr (.inr ho))]
  · rintro ⟨hlevel, hidle⟩ c hc
    cases hcur.symm.trans hc
    refine ⟨fun t ht => ?_, fun hx t ht => ?_⟩
    · rw [level_eq_of_static h, level_eq_of_static h]
      rcases (hwait t).mp ht with ⟨ht, _⟩ | ht
      · exact level_le_of_first hqueued ⟨pri, rest, hpri, hq, habove⟩ ht
      · exact hlevel t ht
    · obtain ⟨honly, hnone⟩ := hidle (hx.trans h.idleThread)
      rcases (hwait t).mp ht with ⟨ht, _⟩ | ht
      · exact honly t ht
      · exact absurd ht (hnone t)

/-- A queue that has a first thread has it in its list. -/
theorem waiting_of_head (h : Queued s q) (hpri : pri < schedNumPriorities)
    (hhead : s.readyHead pri = some t) : Waiting q t :=
  ⟨pri, hpri, List.mem_of_head? ((h.holds pri hpri).linked.head_eq.symm.trans hhead)⟩

/-- In every orderly state `schedule` returns, and has passed control by priority exactly if the
state was timely. -/
theorem schedule_respects_priorities_iff (h : Orderly s q) :
    ∃ s' q', schedule s = some s' ∧ Between s' q' ∧ (Respects s' q' ↔ Timely s q) := by
  have hnone : (∀ pri < schedNumPriorities, q pri = []) →
      (Timely s q ↔ ∀ o, Preempted s o → o = s.idleThread) := by
    intro hnil
    have hwait : ∀ t, ¬ Waiting q t := fun t => not_waiting_of_empty hnil
    exact ⟨fun htimely => htimely.1 hwait,
      fun honly => ⟨fun _ => honly, fun x hx => absurd hx.waiting (hwait x)⟩⟩
  rcases schedule_cases h with ⟨hnil, hidle, heq⟩ | ⟨hnil, hidle, s', heq, hbetween, hstat, hcur⟩ |
    ⟨pri, x, rest, hpri, hq, habove, s', heq, hbetween, hstat, hcur⟩
  · have hwait : ∀ t, ¬ Waiting q t := fun t => not_waiting_of_empty hnil
    refine ⟨s, q, heq, ⟨h, fun t ht => ?_⟩, ?_⟩
    · cases hidle.symm.trans ht
      exact h.idleRuns hidle
    · rw [hnone hnil]
      refine ⟨fun _ o ho => Option.some.inj (ho.1.symm.trans hidle), fun _ c _ => ?_⟩
      exact ⟨fun t ht => absurd ht (hwait t), fun _ t ht => absurd ht (hwait t)⟩
  · refine ⟨s', _, heq, hbetween, ?_⟩
    rw [hnone hnil]
    exact respects_of_empty hstat (fun t => not_waiting_of_empty hnil) hcur
  · have hfirst : First q x := ⟨pri, rest, hpri, hq, habove⟩
    have hother : ¬ Preempted s x := by
      rintro ⟨hx, _⟩
      obtain ⟨p, hp, hmem⟩ := hfirst.waiting
      exact (h.current x hx).2.1 p hp hmem
    refine ⟨s', _, heq, hbetween, ?_⟩
    rw [respects_of_first hstat h.queued hpri hq habove hcur hother]
    constructor
    · intro hx
      refine ⟨fun hnil => absurd hfirst.waiting (hnil x), fun y hy => ?_⟩
      rwa [← hfirst.unique hy]
    · exact fun htimely => htimely.2 x hfirst

/-- Before the first thread runs, the shell waits and none is preempted. -/
theorem schedule_respects_priorities_shell :
    ∃ s' q', schedule (schedulerInit (Sched.boot 0x1000) 0x2000 0x3000 (some (0x4000, 0x5000))) =
      some s' ∧ Between s' q' ∧ Respects s' q' := by
  obtain ⟨q, h⟩ := schedulerInit_between 0x1000 0x2000 0x3000 (some (0x4000, 0x5000))
  obtain ⟨s', q', heq, hbetween, hiff⟩ := schedule_respects_priorities_iff h.toOrderly
  have hnone :
      ∀ o, ¬ Preempted (schedulerInit (boot 0x1000) 0x2000 0x3000 (some (0x4000, 0x5000))) o := by
    intro o ho
    have hcur : none = some o := ho.1
    simp at hcur
  have hwait : Waiting q 1 := waiting_of_head h.queued (show 4 < schedNumPriorities by decide) rfl
  refine ⟨s', q', heq, hbetween, hiff.mpr ⟨fun _ o ho => absurd ho (hnone o), fun x hx => ?_⟩⟩
  refine ⟨fun o ho => absurd ho (hnone o), fun hidle => ?_⟩
  subst hidle
  exact absurd (level_le_of_first h.queued hx hwait) (by decide)

/-- After `scheduler_start` the shell runs alone. The first `schedule` runs the idle thread, while
the shell waits with priority 4. -/
theorem idle_preempts_shell :
    ∃ s s', schedulerStart (schedulerInit (Sched.boot 0x1000) 0x2000 0x3000
      (some (0x4000, 0x5000))) = some s ∧
      schedule s = some s' ∧ ∀ q', Queued s' q' → ¬ Respects s' q' := by
  refine ⟨_, _, rfl, rfl, fun q' hqueued hrespects => ?_⟩
  have hwait : Waiting q' 1 := waiting_of_head hqueued (show 4 < schedNumPriorities by decide) rfl
  exact absurd ((hrespects 0 rfl).2 rfl 1 hwait) (by decide)

def Turn (s : Sched) (c : ℕ) (l : List ℕ) : Prop :=
  ∃ q, Between s q ∧ s.currentThread = some c ∧ q (level s c) = l ∧
    ∀ p, level s c < p → p < schedNumPriorities → q p = []

def turns : ℕ → Sched → Option (List (Option ℕ))
  | 0, _ => some []
  | n + 1, s => (schedule s).bind fun s => (turns n s).map (s.currentThread :: ·)

variable {c d : ℕ} {l l' : List ℕ}

/-- One call takes the first thread and puts the running one behind the others. -/
theorem Turn.next (h : Turn s c (d :: l)) :
    ∃ s', Turn s' d (l ++ [c]) ∧ ∀ n, turns (n + 1) s = (turns n s').map (some d :: ·) := by
  obtain ⟨q, h, hcur, hq, habove⟩ := h
  have hlt : level s c < schedNumPriorities := queueIndex_lt _
  have hlevel := (h.queued.first hlt hq).2.1
  have hnonempty : ¬ ∀ pri < schedNumPriorities, q pri = [] :=
    fun hnil => by simp [hnil _ hlt] at hq
  rcases schedule_cases h.toOrderly with ⟨hnil, _⟩ | ⟨hnil, _⟩ |
    ⟨pri, t, rest, hpri, hq', habove', s', heq, hbetween, hstat, hnow⟩
  · exact absurd hnil hnonempty
  · exact absurd hnil hnonempty
  · obtain rfl : d = t := First.unique ⟨_, l, hlt, hq, habove⟩ ⟨pri, rest, hpri, hq', habove'⟩
    obtain rfl : level s c = pri := hlevel.symm.trans (h.queued.first hpri hq').2.1
    obtain rfl : l = rest := (List.cons.inj (hq.symm.trans hq')).2
    have hlevel' : level s' d = level s c := (level_eq_of_static hstat d).trans hlevel
    have hqueues : requeued s (update q (level s c) l) (some c) = update q (level s c)
        (l ++ [c]) := by
      simp [requeued, h.running c hcur, level]
    rw [hcur, hqueues] at hbetween
    refine ⟨s', ⟨_, hbetween, hnow, ?_, fun p hp hlt => ?_⟩, fun n => ?_⟩
    · rw [hlevel', update_self]
    · rw [hlevel'] at hp
      rw [update_of_ne hp.ne', habove p hp hlt]
    · rw [turns, heq, Option.bind_some, hnow]

/-- The threads that wait run in the order of the queue. -/
theorem Turn.turns_queue (h : Turn s c (l ++ l')) : turns l.length s = some (l.map some) := by
  induction l generalizing s c l' with
  | nil => rfl
  | cons d l ih =>
    rw [List.cons_append] at h
    obtain ⟨s', hturn, heq⟩ := h.next
    rw [List.append_assoc] at hturn
    rw [List.length_cons, heq, ih hturn]
    rfl

theorem Turn.nodup (h : Turn s c l) : (c :: l).Nodup := by
  obtain ⟨q, h, hcur, rfl, _⟩ := h
  exact List.nodup_cons.mpr ⟨(h.current c hcur).2.1 _ (queueIndex_lt _),
    (h.queued.holds _ (queueIndex_lt _)).nodup⟩

/-- Whatever calls went before, as many calls as there are threads run each of them once, in the
order of the queue, the same in every round. -/
theorem schedule_round_robin (h : Turn s c l) (hl : l ≠ []) (j : ℕ) :
    (c :: l).Nodup ∧ ∃ before, before.length = j ∧
      turns (j + (c :: l).length) s = some (before ++ ((c :: l).rotate (j + 1)).map some) := by
  refine ⟨h.nodup, ?_⟩
  induction j generalizing s c l with
  | zero =>
    obtain ⟨d, l, rfl⟩ := List.exists_cons_of_ne_nil hl
    obtain ⟨s', hturn, heq⟩ := h.next
    rw [← List.append_nil (l ++ [c])] at hturn
    have hqueue := hturn.turns_queue
    rw [List.length_append, List.length_singleton] at hqueue
    refine ⟨[], rfl, ?_⟩
    rw [Nat.zero_add, List.length_cons, heq, List.length_cons, hqueue, List.rotate_cons_succ,
      List.rotate_zero]
    rfl
  | succ j ih =>
    obtain ⟨d, l, rfl⟩ := List.exists_cons_of_ne_nil hl
    obtain ⟨s', hturn, heq⟩ := h.next
    obtain ⟨before, hlen, hturns⟩ := ih hturn (by simp)
    refine ⟨some d :: before, by simp [hlen], ?_⟩
    have hsame : (d :: (l ++ [c])).length = (c :: d :: l).length := by simp
    rw [Nat.add_right_comm, heq, ← hsame, hturns, List.rotate_cons_succ (d :: l)]
    rfl

/-- The shell runs and a second thread of its priority waits. -/
theorem schedule_round_robin_shell : turns 2 (spawn shellRuns 1 0x6000 4) =
    some [some 2, some 1] := by
  obtain ⟨q, h⟩ := shellRuns_settled
  obtain ⟨q, h, _⟩ := (spawn_settles h 1 0x6000 4).settled rfl
  have hturn : Turn (spawn shellRuns 1 0x6000 4) 1 [2] := by
    refine ⟨q, h.between fun hidle => absurd hidle (by decide), rfl, ?_, fun p hp hlt => ?_⟩
    · exact (h.queued.holds 4 (by decide)).linked.unique ⟨rfl, rfl⟩
    · have hp' : 4 < p := hp
      have hlt' : p < 8 := hlt
      obtain rfl | rfl | rfl : p = 5 ∨ p = 6 ∨ p = 7 := by omega
      all_goals exact (h.queued.holds _ (by decide)).linked.unique rfl
  obtain ⟨-, before, hlen, hturns⟩ := schedule_round_robin hturn (by simp) 0
  rwa [List.length_eq_zero_iff.mp hlen] at hturns

end NexusKernel.Priorities
