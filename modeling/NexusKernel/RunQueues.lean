import NexusKernel.Scheduler
import NexusKernel.Lib.Runs
import Mathlib.Data.Finset.Card

/-!
The run queues hold lists. `Queued s q` says that the queue of priority `pri` is the list `q pri`
of ready threads of that priority, linked and with the right tail. Every operation of the
scheduler keeps this for the list it should leave, and ends.

Between operations the current thread is running, so it is in no queue.
-/

namespace NexusKernel.RunQueues

open Lib.LinkedQueue Lib.Runs Scheduler Function

structure Queued (s : Sched) (q : ℕ → List ℕ) : Prop where
  holds : ∀ pri, pri < schedNumPriorities → Holds s.nextInQueue (s.ends pri) (q pri)
  member : ∀ pri, pri < schedNumPriorities → ∀ t ∈ q pri,
    t < s.threads ∧ queueIndex (s.thread t) = pri ∧ (s.thread t).state = .ready

def Outside (q : ℕ → List ℕ) (t : ℕ) : Prop := ∀ pri, pri < schedNumPriorities → t ∉ q pri

variable {s s' : Sched} {q q' : ℕ → List ℕ} {t u pri : ℕ}

theorem queueIndex_lt (t : Thread) : queueIndex t < schedNumPriorities := by
  unfold queueIndex
  split
  · decide
  · omega

theorem Queued.outside_of_state (h : Queued s q) (ht : (s.thread t).state ≠ .ready) : Outside q t :=
  fun pri hpri hmem => ht (h.member pri hpri t hmem).2.2

theorem outside_of_empty (h : ∀ pri < schedNumPriorities, q pri = []) (t : ℕ) : Outside q t := by
  intro pri hpri
  rw [h pri hpri]
  exact List.not_mem_nil

theorem Queued.length_le (h : Queued s q) (hpri : pri < schedNumPriorities) :
    (q pri).length ≤ s.threads := by
  have hsub : (q pri).toFinset ⊆ Finset.range s.threads := by
    intro t ht
    exact Finset.mem_range.mpr (h.member pri hpri t (List.mem_toFinset.mp ht)).1
  have hcard := Finset.card_le_card hsub
  rwa [List.toFinset_card_of_nodup (h.holds pri hpri).nodup, Finset.card_range] at hcard

theorem Queued.not_mem_other (h : Queued s q) (hpri : pri < schedNumPriorities)
    (hne : queueIndex (s.thread t) ≠ pri) : t ∉ q pri :=
  fun hmem => hne (h.member pri hpri t hmem).2.1

variable {rest : List ℕ}

theorem Queued.first (h : Queued s q) (hpri : pri < schedNumPriorities) (hq : q pri = t :: rest) :
    t < s.threads ∧ queueIndex (s.thread t) = pri ∧ (s.thread t).state = .ready := by
  apply h.member pri hpri
  rw [hq]
  exact List.mem_cons_self

theorem ends_setQueue_of_ne (s : Sched) {other : ℕ} (r : (ℕ → Option ℕ) × Ends ℕ)
    (hne : other ≠ pri) : (s.setQueue pri r).ends other = s.ends other := by
  simp only [Sched.ends, Sched.setQueue, update_of_ne hne]

variable {l : List ℕ} {r : Option Sched} {old : Option ℕ} {next : ℕ}

/-- Exchanging one queue for another list of ready threads of its priority. -/
theorem Queued.setQueue (h : Queued s q) {r : (ℕ → Option ℕ) × Ends ℕ}
    (hr : Holds r.1 r.2 l) (hl : ∀ t ∈ l, t < s.threads ∧ queueIndex (s.thread t) = pri ∧
      (s.thread t).state = .ready)
    (helse : ∀ other < schedNumPriorities, other ≠ pri → ∀ x ∈ q other, r.1 x = s.nextInQueue x) :
    Queued (s.setQueue pri r) (update q pri l) := by
  refine ⟨fun other hother => ?_, fun other hother => ?_⟩
  · by_cases heq : other = pri
    · subst other
      simp only [update_self, Sched.ends, Sched.setQueue]
      exact hr
    · rw [update_of_ne heq, ends_setQueue_of_ne s r heq]
      exact (h.holds other hother).frame (helse other hother heq)
  · by_cases heq : other = pri
    · subst other
      rw [update_self]
      exact hl
    · rw [update_of_ne heq]
      exact h.member other hother

/-- The state of a thread outside the queues is free to change. -/
theorem Queued.setState (h : Queued s q) (ht : Outside q t) (state : ThreadState) :
    Queued (s.setState t state) q := by
  refine ⟨h.holds, fun pri hpri u hu => ?_⟩
  have hne : u ≠ t := fun heq => ht pri hpri (heq ▸ hu)
  simp only [Sched.setState, update_of_ne hne]
  exact h.member pri hpri u hu

/-- What an update leaves alone at its place it leaves alone everywhere. -/
theorem apply_update_of_eq {β γ : Type} {f : ℕ → β} (g : β → γ) {a : ℕ} {v : β}
    (h : g v = g (f a)) (x : ℕ) : g (update f a v x) = g (f x) :=
  (forall_update_iff f (p := fun x y => g y = g (f x))).mpr ⟨h, fun _ _ => rfl⟩ x

theorem queueIndex_setState (s : Sched) (t u : ℕ) (state : ThreadState) :
    queueIndex ((s.setState t state).thread u) = queueIndex (s.thread u) :=
  apply_update_of_eq queueIndex (by rfl) u

theorem enqueue_queued (h : Queued s q) (ht : t < s.threads) (hout : Outside q t) :
    Queued (schedulerEnqueue s t) (update q (queueIndex (s.thread t))
      (q (queueIndex (s.thread t)) ++ [t])) := by
  have hpri := queueIndex_lt (s.thread t)
  have hready := h.setState hout .ready
  -- The new state may as well be written first.
  refine hready.setQueue (push_holds (h.holds _ hpri) (hout _ hpri)) ?_ ?_
  · intro u hu
    rcases List.mem_append.mp hu with hu | hu
    · exact hready.member _ hpri u hu
    · obtain rfl := List.mem_singleton.mp hu
      refine ⟨ht, queueIndex_setState s u u .ready, ?_⟩
      simp [Sched.setState]
  · intro other hother hne x hx
    apply push_elsewhere (h.holds _ hpri)
    · exact fun heq => hout other hother (heq ▸ hx)
    · exact h.not_mem_other hpri (by
        rw [(h.member other hother x hx).2.1]
        exact hne)

theorem dequeue_queued (h : Queued s q) (t : ℕ) :
    ∃ r, schedulerDequeue s t = some (s.setQueue (queueIndex (s.thread t)) r) ∧
      Queued (s.setQueue (queueIndex (s.thread t)) r)
        (update q (queueIndex (s.thread t)) ((q (queueIndex (s.thread t))).erase t)) := by
  have hpri := queueIndex_lt (s.thread t)
  obtain ⟨r, hr, hholds, helse⟩ := remove_holds (h.holds _ hpri) t (h.length_le hpri)
  refine ⟨r, by simp [schedulerDequeue, hr], ?_⟩
  refine h.setQueue hholds (fun u hu => h.member _ hpri u (List.mem_of_mem_erase hu)) ?_
  intro other hother hne x hx
  apply helse
  exact h.not_mem_other hpri (by
    rw [(h.member other hother x hx).2.1]
    exact hne)

theorem outside_erase (h : Queued s q) (t : ℕ) :
    Outside (update q (queueIndex (s.thread t)) ((q (queueIndex (s.thread t))).erase t)) t := by
  refine (forall_update_iff q fun pri l => pri < schedNumPriorities → t ∉ l).mpr ⟨?_, ?_⟩
  · exact fun hpri => (h.holds _ hpri).nodup.not_mem_erase
  · exact fun pri hne hpri => h.not_mem_other hpri hne.symm

theorem Outside.update (h : Outside q u) (hl : u ∉ l) : Outside (Function.update q pri l) u :=
  (forall_update_iff q fun pri l => pri < schedNumPriorities → u ∉ l).mpr ⟨fun _ => hl,
    fun other _ => h other⟩

theorem Outside.erase (h : Outside q u) (hpri : pri < schedNumPriorities) (t : ℕ) :
    Outside (Function.update q pri ((q pri).erase t)) u :=
  h.update (fun hmem => h pri hpri (List.mem_of_mem_erase hmem))

theorem wakeSleepers_ready {fuel : ℕ} {head : Option ℕ}
    (h : Linked s.nextInQueue head l) (hl : ∀ t ∈ l, (s.thread t).state = .ready)
    (hfuel : l.length ≤ fuel) : wakeSleepers fuel s head = some s := by
  induction l generalizing fuel head with
  | nil =>
    obtain rfl : head = none := h
    cases fuel <;> rfl
  | cons t rest ih =>
    obtain ⟨rfl, hnext⟩ := h
    obtain ⟨fuel, rfl⟩ : ∃ k, fuel = k + 1 := ⟨fuel - 1, by simp at hfuel; omega⟩
    have hstate := hl t List.mem_cons_self
    rw [wakeSleepers, if_neg (by simp [hstate])]
    exact ih hnext (fun u hu => hl u (List.mem_cons_of_mem t hu)) (by simpa using hfuel)

/-- `pick_next` takes the first thread of the highest queue that has one. -/
theorem pickBelow_queued (h : Queued s q) {n : ℕ} (hn : n ≤ schedNumPriorities) :
    (pickBelow n s = some (s, none) ∧ ∀ pri < n, q pri = []) ∨
    ∃ pri t rest r, pri < n ∧ q pri = t :: rest ∧ (∀ p, pri < p → p < n → q p = []) ∧
      pickBelow n s = some (s.setQueue pri r, some t) ∧
      Queued (s.setQueue pri r) (update q pri rest) := by
  induction n with
  | zero => exact .inl ⟨rfl, fun pri hpri => absurd hpri (Nat.not_lt_zero pri)⟩
  | succ n ih =>
    have hholds := h.holds n hn
    have hmember := h.member n hn
    have hlen := h.length_le hn
    have hhead : s.readyHead n = _ := hholds.linked.head_eq
    have hwake : wakeSleepers (2 * s.threads + 1) s (s.readyHead n) = some s :=
      wakeSleepers_ready hholds.linked (fun t ht => (hmember t ht).2.2) (by omega)
    rw [pickBelow, hwake]
    dsimp only
    cases hq : q n with
    | nil =>
      rw [hhead, hq]
      rcases ih (Nat.le_of_succ_le hn) with ⟨hpick, hnil⟩ | ⟨pri, t, rest, r, hpri, hl,
        habove, hpick⟩
      · refine .inl ⟨hpick, fun pri hpri => ?_⟩
        rcases Nat.lt_succ_iff_lt_or_eq.mp hpri with hlt | rfl
        · exact hnil pri hlt
        · exact hq
      · refine .inr ⟨pri, t, rest, r, by omega, hl, ?_, hpick⟩
        intro p hp hpn
        rcases Nat.lt_succ_iff_lt_or_eq.mp hpn with hlt | rfl
        · exact habove p hp hlt
        · exact hq
    | cons t rest =>
      have hindex := (h.first hn hq).2.1
      obtain ⟨r, hr, hqueued⟩ := dequeue_queued h t
      rw [hindex, hq, List.erase_cons_head] at hqueued
      rw [hindex] at hr
      rw [hhead, hq]
      refine .inr ⟨n, t, rest, r, Nat.lt_succ_self n, hq, ?_, by simp [hr], hqueued⟩
      intro p hp hpn
      omega

structure Static (s s' : Sched) : Prop where
  threads : s'.threads = s.threads
  process : ∀ t, (s'.thread t).process = (s.thread t).process
  priority : ∀ t, (s'.thread t).priority = (s.thread t).priority
  kstackVirt : ∀ t, (s'.thread t).kstackVirt = (s.thread t).kstackVirt
  processes : s'.processes = s.processes
  members : ∀ p, (s'.process p).threads = (s.process p).threads
  cr3 : ∀ p, (s'.process p).cr3 = (s.process p).cr3
  idleThread : s'.idleThread = s.idleThread

theorem Static.refl (s : Sched) : Static s s :=
  ⟨rfl, fun _ => rfl, fun _ => rfl, fun _ => rfl, rfl, fun _ => rfl, fun _ => rfl, rfl⟩

theorem Static.symm (h : Static s s') : Static s' s :=
  ⟨h.threads.symm, fun t => (h.process t).symm, fun t => (h.priority t).symm,
    fun t => (h.kstackVirt t).symm, h.processes.symm, fun p => (h.members p).symm,
    fun p => (h.cr3 p).symm, h.idleThread.symm⟩

theorem Static.trans {a b c : Sched} (h : Static a b) (h' : Static b c) : Static a c where
  threads := h'.threads.trans h.threads
  process := fun t => (h'.process t).trans (h.process t)
  priority := fun t => (h'.priority t).trans (h.priority t)
  kstackVirt := fun t => (h'.kstackVirt t).trans (h.kstackVirt t)
  processes := h'.processes.trans h.processes
  members := fun p => (h'.members p).trans (h.members p)
  cr3 := fun p => (h'.cr3 p).trans (h.cr3 p)
  idleThread := h'.idleThread.trans h.idleThread

/-- Only states and saved contexts of threads have changed, besides fields that are not records. -/
theorem Static.of_records (hthreads : s'.threads = s.threads)
    (hthread : ∀ t, ∃ state saved, s'.thread t = { s.thread t with state := state, saved := saved })
    (hproc : s'.process = s.process) (hprocesses : s'.processes = s.processes)
    (hidle : s'.idleThread = s.idleThread) : Static s s' := by
  refine ⟨hthreads, ?_, ?_, ?_, hprocesses,
    fun p => by rw [hproc], fun p => by rw [hproc], hidle⟩
  all_goals
    intro t
    obtain ⟨state, saved, heq⟩ := hthread t
    rw [heq]

theorem Static.congr {s₁ : Sched} (h : Static s s₁) (hthread : s'.thread = s₁.thread)
    (hthreads : s'.threads = s₁.threads) (hproc : s'.process = s₁.process)
    (hprocesses : s'.processes = s₁.processes) (hidle : s'.idleThread = s₁.idleThread) :
    Static s s' :=
  h.trans (Static.of_records hthreads (fun t => ⟨_, _, by rw [hthread]⟩) hproc hprocesses hidle)

/-- Storing into a process record the end of the process. -/
theorem update_static {proc : ℕ} {r : ProcessRecord}
    (hthreads : r.threads = (s.process proc).threads) (hcr3 : r.cr3 = (s.process proc).cr3) :
    Static s { s with process := update s.process proc r } :=
  ⟨rfl, fun _ => rfl, fun _ => rfl, fun _ => rfl, rfl,
    apply_update_of_eq ProcessRecord.threads hthreads,
    apply_update_of_eq ProcessRecord.cr3 hcr3, rfl⟩

theorem setState_static (s : Sched) (t : ℕ) (state : ThreadState) :
    Static s (s.setState t state) := by
  refine Static.of_records rfl (fun u => ?_) rfl rfl rfl
  by_cases heq : u = t
  · subst u
    exact ⟨state, _, update_self _ _ _⟩
  · exact ⟨_, _, update_of_ne heq _ _⟩

theorem setQueue_static (s : Sched) (pri : ℕ) (r : (ℕ → Option ℕ) × Ends ℕ) :
    Static s (s.setQueue pri r) := Static.of_records rfl (fun _ => ⟨_, _, rfl⟩) rfl rfl rfl

theorem enqueue_static (s : Sched) (t : ℕ) : Static s (schedulerEnqueue s t) :=
  (setQueue_static s _ _).trans (setState_static _ t .ready)

theorem dequeue_static (h : schedulerDequeue s t = some s') : Static s s' := by
  obtain ⟨r, _, rfl⟩ := Option.map_eq_some_iff.mp h
  exact setQueue_static s _ r

theorem requeueOld_static (s : Sched) (old : Option ℕ) : Static s (requeueOld s old) := by
  cases old with
  | none => exact Static.refl s
  | some o =>
    simp only [requeueOld]
    split
    · exact (setState_static s o .ready).trans (enqueue_static _ o)
    · exact Static.refl s

theorem saveContext_thread (s : Sched) (old : Option ℕ) (u : ℕ) :
    ∃ saved, (saveContext s old).thread u = { s.thread u with saved := saved } := by
  cases old with
  | none => exact ⟨_, rfl⟩
  | some o =>
    by_cases heq : u = o
    · subst u
      exact ⟨.inSchedule, update_self _ _ _⟩
    · exact ⟨_, update_of_ne heq _ _⟩

theorem switchTo_static (s : Sched) (old : Option ℕ) (next : ℕ) :
    Static s (switchTo s old next) := by
  have hann : Static s (announce (requeueOld s old) next) :=
    ((requeueOld_static s old).trans (setState_static _ next .running)).congr rfl rfl rfl rfl rfl
  cases old with
  | none => exact hann
  | some o =>
    have hload : Static s (loadCr3 (announce (requeueOld s (some o)) next) (some o) next) := by
      simp only [loadCr3]
      split
      · exact hann.congr rfl rfl rfl rfl rfl
      · exact hann
    refine hload.trans (Static.of_records rfl (fun u => ?_) rfl rfl rfl)
    exact ⟨_, saveContext_thread _ (some o) u⟩

def requeued (s : Sched) (q : ℕ → List ℕ) : Option ℕ → ℕ → List ℕ
  | some o =>
      if (s.thread o).state = .running then
        update q (queueIndex (s.thread o)) (q (queueIndex (s.thread o)) ++ [o])
      else q
  | none => q

theorem requeueOld_queued (h : Queued s q)
    (hold : ∀ o, old = some o → o < s.threads) : Queued (requeueOld s old) (requeued s q old) := by
  cases old with
  | none => exact h
  | some o =>
    simp only [requeueOld, requeued]
    split
    · rename_i hrun
      -- A running thread is not ready, so it is in no queue yet.
      have hout : Outside q o := h.outside_of_state (by simp [hrun])
      have henqueue := enqueue_queued (h.setState hout .ready) (hold o rfl) hout
      rwa [queueIndex_setState] at henqueue
    · exact h

theorem outside_requeued (h : Outside q t) (hne : old ≠ some t) : Outside (requeued s q old) t := by
  cases old with
  | none => exact h
  | some o =>
    have hto : t ≠ o := fun heq => hne (heq ▸ rfl)
    simp only [requeued]
    split
    · refine h.update ?_
      rw [List.mem_append, List.mem_singleton]
      rintro (hmem | heq)
      · exact h _ (queueIndex_lt _) hmem
      · exact hto heq
    · exact h

theorem resume_eq (h : s.currentThread = some t) : resume s = { s with schedLock := false } := by
  unfold resume
  split
  · split
    · rfl
    · rfl
  · rename_i hnone
    cases h.symm.trans hnone

theorem saveContext_queued (h : Queued s q) (old : Option ℕ) : Queued (saveContext s old) q := by
  cases old with
  | none => exact h
  | some o =>
    refine ⟨h.holds, fun pri hpri u hu => ?_⟩
    obtain ⟨saved, heq⟩ := saveContext_thread s (some o) u
    rw [heq]
    exact h.member pri hpri u hu

theorem loadCr3_queued (h : Queued s q) (old : Option ℕ) (next : ℕ) :
    Queued (loadCr3 s old next) q := by
  cases old with
  | none => exact h
  | some o =>
    simp only [loadCr3]
    split
    · exact ⟨h.holds, h.member⟩
    · exact h

theorem switchTo_current (s : Sched) (old : Option ℕ) (next : ℕ) :
    (switchTo s old next).currentThread = some next := by
  cases old with
  | none => rfl
  | some o =>
    simp only [switchTo, saveContext, loadCr3]
    split <;> rfl

theorem switchTo_process (s : Sched) (old : Option ℕ) (next : ℕ) :
    (switchTo s old next).currentProcess = some (s.thread next).process := by
  have hproc := (requeueOld_static s old).process next
  cases old with
  | none => rfl
  | some o =>
    simp only [switchTo, saveContext, loadCr3]
    split
    · exact congrArg some hproc
    · exact congrArg some hproc

theorem switchTo_running (hne : old ≠ some next) :
    ((switchTo s old next).thread next).state = .running := by
  cases old with
  | none => simp [switchTo, saveContext, loadCr3, announce, Sched.setState]
  | some o =>
    have hno : next ≠ o := fun heq => hne (heq ▸ rfl)
    simp only [switchTo, saveContext, update_of_ne hno, loadCr3]
    split
    · simp [announce, Sched.setState]
    · simp [announce, Sched.setState]

theorem switchTo_queued (h : Queued s q) (hold : ∀ o, old = some o → o < s.threads)
    (hnext : Outside q next)
    (hne : old ≠ some next) : Queued (switchTo s old next) (requeued s q old) := by
  have hrun := (requeueOld_queued h hold).setState (outside_requeued hnext hne) .running
  have hann : Queued (announce (requeueOld s old) next) (requeued s q old) :=
    ⟨hrun.holds, hrun.member⟩
  exact saveContext_queued (loadCr3_queued hann old next) old

/-- The first thread of a queue is in none once taken out. -/
theorem Queued.outside_rest (h : Queued s q) (hpri : pri < schedNumPriorities)
    (hq : q pri = t :: rest) : Outside (update q pri rest) t := by
  have hout := outside_erase h t
  rwa [(h.first hpri hq).2.1, hq, List.erase_cons_head] at hout

/-- When `schedule` is called: the current thread, whatever its state, is in no queue, and is the
idle thread only if that is running. -/
structure Orderly (s : Sched) (q : ℕ → List ℕ) : Prop where
  queued : Queued s q
  lock : s.schedLock = false
  idle : s.idleThread < s.threads
  members : ∀ p t, t ∈ (s.process p).threads → t < s.threads ∧ (s.thread t).process = p
  current : ∀ t, s.currentThread = some t → t < s.threads ∧ Outside q t ∧ s.currentProcess =
    some (s.thread t).process
  idleRuns : s.currentThread = some s.idleThread → (s.thread s.idleThread).state = .running

structure Between (s : Sched) (q : ℕ → List ℕ) : Prop extends Orderly s q where
  running : ∀ t, s.currentThread = some t → (s.thread t).state = .running

/-- What is left of `Orderly` if the idle thread may block as well. It then stays current without
running, and `scheduler_wake` queues it. -/
structure Arranged (s : Sched) (q : ℕ → List ℕ) : Prop where
  queued : Queued s q
  lock : s.schedLock = false
  idle : s.idleThread < s.threads
  members : ∀ p t, t ∈ (s.process p).threads → t < s.threads ∧ (s.thread t).process = p
  current : ∀ t, s.currentThread = some t → t < s.threads ∧ s.currentProcess =
    some (s.thread t).process
  outside : ∀ t, s.currentThread = some t → t ≠ s.idleThread → Outside q t

structure Settled (s : Sched) (q : ℕ → List ℕ) : Prop extends Arranged s q where
  running : ∀ t, s.currentThread = some t → t ≠ s.idleThread → (s.thread t).state = .running

def IdleRuns (s : Sched) : Prop :=
  s.currentThread = some s.idleThread → (s.thread s.idleThread).state = .running

theorem Orderly.arranged (h : Orderly s q) : Arranged s q :=
  ⟨h.queued, h.lock, h.idle, h.members, fun t ht => ⟨(h.current t ht).1, (h.current t ht).2.2⟩,
    fun t ht _ => (h.current t ht).2.1⟩

theorem Between.settled (h : Between s q) : Settled s q :=
    ⟨h.arranged, fun t ht _ => h.running t ht⟩

/-- A current thread that runs is in no queue, so only the idle thread differs. -/
theorem Settled.between (h : Settled s q) (hidle : IdleRuns s) : Between s q := by
  have hrun : ∀ t, s.currentThread = some t → (s.thread t).state = .running := by
    intro t ht
    by_cases heq : t = s.idleThread
    · subst t
      exact hidle ht
    · exact h.running t ht heq
  refine ⟨⟨h.queued, h.lock, h.idle, h.members, fun t ht => ?_, hidle⟩, hrun⟩
  have hout : Outside q t := h.queued.outside_of_state (by simp [hrun t ht])
  exact ⟨(h.current t ht).1, hout, (h.current t ht).2⟩

def Settles (s : Sched) (r : Option Sched) : Prop :=
  ∃ s' q', r = some s' ∧ Settled s' q' ∧ (IdleRuns s → IdleRuns s')

theorem Settles.settled (h : Settles s r) (heq : r = some s') : ∃ q', Settled s' q' ∧
    (IdleRuns s → IdleRuns s') := by
  obtain ⟨s₁, q', heq₁, hset⟩ := h
  cases heq₁.symm.trans heq
  exact ⟨q', hset⟩

theorem Settles.between (h : Settles s r) (hidle : IdleRuns s) (heq : r = some s') :
    ∃ q', Between s' q' := by
  obtain ⟨q', hset, hruns⟩ := h.settled heq
  exact ⟨q', hset.between (hruns hidle)⟩

theorem Settles.isSome (h : Settles s r) : r.isSome := by
  obtain ⟨s', _, heq, _⟩ := h
  exact Option.isSome_of_eq_some heq

theorem between_switchTo (h : Arranged s q) {s₁ : Sched} {q₁ : ℕ → List ℕ}
    (hstat : Static s s₁) (hqueued : Queued s₁ q₁) (hnext : next < s.threads)
    (hout : Outside q₁ next) (hne : s.currentThread ≠ some next) :
    let s' := resume (switchTo s₁ s.currentThread next)
    Between s' (requeued s₁ q₁ s.currentThread) ∧ Static s s' := by
  have hpre : ∀ o, s.currentThread = some o → o < s₁.threads := fun o ho => by
    rw [hstat.threads]
    exact (h.current o ho).1
  have hswitch := switchTo_queued hqueued hpre hout hne
  have hcur := switchTo_current s₁ s.currentThread next
  have hproc := switchTo_process s₁ s.currentThread next
  have hrun := switchTo_running (s := s₁) hne
  have hall : Static s (switchTo s₁ s.currentThread next) :=
    hstat.trans (switchTo_static s₁ s.currentThread next)
  have hself :
    (s₁.thread next).process = ((switchTo s₁ s.currentThread next).thread next).process :=
    ((switchTo_static s₁ s.currentThread next).process next).symm
  have houtside := outside_requeued (s := s₁) hout hne
  rw [resume_eq hcur]
  generalize switchTo s₁ s.currentThread next = s₂ at hswitch hcur hproc hrun hall hself
  have hthat : ∀ t, s₂.currentThread = some t → t = next :=
    fun t ht => Option.some.inj (ht.symm.trans hcur)
  refine ⟨⟨⟨⟨hswitch.holds, hswitch.member⟩, rfl, ?_, ?_, ?_, ?_⟩, ?_⟩,
    hall.congr rfl rfl rfl rfl rfl⟩
  · rw [hall.idleThread, hall.threads]
    exact h.idle
  · intro p t ht
    rw [hall.members] at ht
    rw [hall.threads, hall.process]
    exact h.members p t ht
  · intro t ht
    obtain rfl := hthat t ht
    refine ⟨?_, houtside, hproc.trans (congrArg some hself)⟩
    rw [hall.threads]
    exact hnext
  · intro ht
    obtain heq := hthat _ ht
    rw [heq]
    exact hrun
  · intro t ht
    obtain rfl := hthat t ht
    exact hrun

/-- What `schedule` does: it leaves the idle thread alone if none is ready, switches to it from
another thread, or switches to the first thread of the highest queue. A thread woken while current
can be that thread itself; it is put back into the queue. -/
theorem schedule_queued (h : Queued s q) (hlock : s.schedLock = false) :
    ((∀ pri < schedNumPriorities, q pri = []) ∧ s.currentThread = some s.idleThread ∧
      schedule s = some s) ∨
    ((∀ pri < schedNumPriorities, q pri = []) ∧ s.currentThread ≠ some s.idleThread ∧ schedule s =
        some (resume (switchTo { s with schedLock := true } s.currentThread s.idleThread))) ∨
    ∃ pri t rest r, pri < schedNumPriorities ∧ q pri = t :: rest ∧
      (∀ p, pri < p → p < schedNumPriorities → q p = []) ∧
      Queued (s.setQueue pri r) (update q pri rest) ∧
      (s.currentThread ≠ some t ∧ schedule s = some (resume
          (switchTo ({ s with schedLock := true }.setQueue pri r) s.currentThread t)) ∨
      s.currentThread = some t ∧ schedule s = some (schedulerEnqueue (s.setQueue pri r) t)) := by
  let s₀ : Sched := { s with schedLock := true }
  have hqueued : Queued s₀ q := ⟨h.holds, h.member⟩
  have hst : schedule s = (dispatch s₀).map (fun r => if r.2 then resume r.1 else r.1) := by
    rw [schedule, if_neg (by simp [hlock])]
  have hunlocked : { s₀ with schedLock := false } = s := by
    rw [← hlock]
  rcases pickBelow_queued hqueued le_rfl with
    ⟨hpick, hnil⟩ | ⟨pri, t, rest, r, hpri, hq, habove, hpick, hrest⟩
  · by_cases hidle : s.currentThread = some s.idleThread
    · have hdisp : dispatch s₀ = some ({ s₀ with schedLock := false }, false) := by
        simp only [dispatch, pickNext, hpick]
        exact if_pos hidle
      refine .inl ⟨hnil, hidle, ?_⟩
      rw [hst, hdisp, hunlocked]
      rfl
    · have hdisp : dispatch s₀ = some (switchTo s₀ s.currentThread s.idleThread, true) := by
        simp only [dispatch, pickNext, hpick]
        exact if_neg hidle
      refine .inr (.inl ⟨hnil, hidle, ?_⟩)
      rw [hst, hdisp]
      rfl
  · refine .inr (.inr ⟨pri, t, rest, r, hpri, hq, habove, ⟨hrest.holds, hrest.member⟩, ?_⟩)
    by_cases hcur : s.currentThread = some t
    · have hdisp : dispatch s₀ =
          some ({ schedulerEnqueue (s₀.setQueue pri r) t with schedLock := false }, false) := by
        simp only [dispatch, pickNext, hpick]
        exact if_pos hcur.symm
      refine .inr ⟨hcur, ?_⟩
      rw [hst, hdisp]
      change some (schedulerEnqueue ({ s₀ with schedLock := false }.setQueue pri r) t) = _
      rw [hunlocked]
    · have hdisp : dispatch s₀ = some (switchTo (s₀.setQueue pri r) s.currentThread t, true) := by
        simp only [dispatch, pickNext, hpick]
        exact if_neg fun heq => hcur heq.symm
      refine .inl ⟨hcur, ?_⟩
      rw [hst, hdisp]
      rfl

/-- Only the idle thread can be in a queue while it is current. -/
theorem Arranged.eq_idle (h : Arranged s q) (hcur : s.currentThread = some t)
    (hpri : pri < schedNumPriorities) (hq : q pri = t :: rest) : t = s.idleThread := by
  by_contra hne
  refine h.outside t hcur hne pri hpri ?_
  rw [hq]
  exact List.mem_cons_self

theorem resume_switchTo_current (s : Sched) (old : Option ℕ) (next : ℕ) :
    (resume (switchTo s old next)).currentThread = some next := by
  have hcur := switchTo_current s old next
  rw [resume_eq hcur]
  exact hcur

theorem locked_static (s : Sched) : Static s { s with schedLock := true } :=
  (Static.refl s).congr rfl rfl rfl rfl rfl

/-- The switches of `schedule`: to the idle thread if no thread is ready. -/
theorem switchTo_idle_between (h : Arranged s q) (hnil : ∀ pri < schedNumPriorities, q pri = [])
    (hidle : s.currentThread ≠ some s.idleThread) :
    let s' := resume (switchTo { s with schedLock := true } s.currentThread s.idleThread)
    Between s' (requeued s q s.currentThread) ∧ Static s s' := by
  exact between_switchTo h (locked_static s) ⟨h.queued.holds, h.queued.member⟩ h.idle
    (outside_of_empty hnil _) hidle

theorem switchTo_first_between (h : Arranged s q) {r : (ℕ → Option ℕ) × Ends ℕ}
    (hpri : pri < schedNumPriorities) (hq : q pri = t :: rest)
    (hrest : Queued (s.setQueue pri r) (update q pri rest)) (hne : s.currentThread ≠ some t) :
    let s' := resume (switchTo ({ s with schedLock := true }.setQueue pri r) s.currentThread t)
    Between s' (requeued s (update q pri rest) s.currentThread) ∧ Static s s' := by
  exact between_switchTo h ((locked_static s).trans (setQueue_static _ pri r))
    ⟨hrest.holds, hrest.member⟩ (h.queued.first hpri hq).1 (h.queued.outside_rest hpri hq) hne

/-- In an orderly state the thread switched to is never the current one. -/
theorem schedule_cases (h : Orderly s q) :
    ((∀ pri < schedNumPriorities, q pri = []) ∧ s.currentThread = some s.idleThread ∧
      schedule s = some s) ∨
    ((∀ pri < schedNumPriorities, q pri = []) ∧ s.currentThread ≠ some s.idleThread ∧
      ∃ s', schedule s = some s' ∧ Between s' (requeued s q s.currentThread) ∧ Static s s' ∧
        s'.currentThread = some s.idleThread) ∨
    ∃ pri t rest, pri < schedNumPriorities ∧ q pri = t :: rest ∧
      (∀ p, pri < p → p < schedNumPriorities → q p = []) ∧ ∃ s', schedule s = some s' ∧
        Between s' (requeued s (update q pri rest) s.currentThread) ∧ Static s s' ∧
        s'.currentThread = some t := by
  rcases schedule_queued h.arranged.queued h.arranged.lock with hstay | ⟨hnil, hidle, heq⟩ |
    ⟨pri, t, rest, r, hpri, hq, habove, hrest, ⟨hne, heq⟩ | ⟨hcur, _⟩⟩
  · exact .inl hstay
  · obtain ⟨hbetween, hstat⟩ := switchTo_idle_between h.arranged hnil hidle
    exact .inr (.inl ⟨hnil, hidle, _, heq, hbetween, hstat, resume_switchTo_current _ _ _⟩)
  · obtain ⟨hbetween, hstat⟩ := switchTo_first_between h.arranged hpri hq hrest hne
    exact .inr (.inr ⟨pri, t, rest, hpri, hq, habove, _, heq, hbetween, hstat,
      resume_switchTo_current _ _ _⟩)
  · refine absurd ?_ ((h.current t hcur).2.1 pri hpri)
    rw [hq]
    exact List.mem_cons_self

/-- What is known of the current thread, its record unchanged. -/
theorem Arranged.of_static (h : Arranged s q) (hstat : Static s s') (hqueued : Queued s' q')
    (hlock : s'.schedLock = s.schedLock) (hcur : s'.currentThread = s.currentThread)
    (hproc : s'.currentProcess = s.currentProcess)
    (houtside : ∀ t, s.currentThread = some t → t ≠ s.idleThread → Outside q' t) :
    Arranged s' q' := by
  refine ⟨hqueued, hlock.trans h.lock, ?_, ?_, ?_, ?_⟩
  · rw [hstat.idleThread, hstat.threads]
    exact h.idle
  · intro p t ht
    rw [hstat.members] at ht
    rw [hstat.threads, hstat.process]
    exact h.members p t ht
  · intro t ht
    rw [hcur] at ht
    rw [hstat.threads, hstat.process, hproc]
    exact h.current t ht
  · intro t ht hne
    rw [hcur] at ht
    rw [hstat.idleThread] at hne
    exact houtside t ht hne

/-- Queueing a thread that is in no queue. Only the idle one can be current then. -/
theorem enqueue_settled (h : Settled s q) (ht : t < s.threads) (hout : Outside q t)
    (hnot : s.currentThread = some t → t = s.idleThread) :
    ∃ q', Settled (schedulerEnqueue s t) q' := by
  have hstate : ∀ u, u ≠ t → (schedulerEnqueue s t).thread u = s.thread u := by
    intro u hu
    simp only [schedulerEnqueue, Sched.setState, Sched.setQueue, update_of_ne hu]
  have hother : ∀ u, s.currentThread = some u → u ≠ s.idleThread → u ≠ t := by
    intro u hu hne heq
    subst u
    exact hne (hnot hu)
  refine ⟨_, h.toArranged.of_static (enqueue_static s t)
    (enqueue_queued h.queued ht hout) rfl rfl rfl ?_, fun u hu hne => ?_⟩
  · intro u hu hne
    refine (h.outside u hu hne).update ?_
    rw [List.mem_append, List.mem_singleton]
    rintro (hmem | heq)
    · exact h.outside u hu hne _ (queueIndex_lt _) hmem
    · exact hother u hu hne heq
  · rw [hstate u (hother u hu hne)]
    exact h.running u hu hne

theorem schedule_settles (h : Arranged s q) : Settles s (schedule s) := by
  rcases schedule_queued h.queued h.lock with ⟨hnil, hidle, heq⟩ | ⟨hnil, hidle, heq⟩ |
    ⟨pri, t, rest, r, hpri, hq, _, hrest, ⟨hne, heq⟩ | ⟨hcur, heq⟩⟩
  · refine ⟨s, q, heq, ⟨h, fun t ht hne => ?_⟩, id⟩
    exact absurd (Option.some.inj (ht.symm.trans hidle)) hne
  · have hbetween := (switchTo_idle_between h hnil hidle).1
    exact ⟨_, _, heq, hbetween.settled, fun _ => hbetween.idleRuns⟩
  · have hbetween := (switchTo_first_between h hpri hq hrest hne).1
    exact ⟨_, _, heq, hbetween.settled, fun _ => hbetween.idleRuns⟩
  · obtain rfl := h.eq_idle hcur hpri hq
    have honly : ∀ u, s.currentThread = some u → u = s.idleThread :=
      fun u hu => Option.some.inj (hu.symm.trans hcur)
    have hset : Settled (s.setQueue pri r) (update q pri rest) :=
      ⟨h.of_static (setQueue_static s pri r) hrest rfl rfl rfl
        (fun u hu hne => absurd (honly u hu) hne), fun u hu hne => absurd (honly u hu) hne⟩
    obtain ⟨q', hset'⟩ := enqueue_settled hset h.idle (h.queued.outside_rest hpri hq) fun _ => rfl
    refine ⟨_, q', heq, hset', fun hruns => ?_⟩
    -- A thread in a queue is ready, so the idle thread was not running.
    have hready := (h.queued.first hpri hq).2.2
    exact absurd (hready.symm.trans (hruns hcur)) (by simp)

theorem Settled.withTicks (h : Settled s q) (tickCounter pitTicks : UInt64) :
    Settled { s with tickCounter := tickCounter, pitTicks := pitTicks } q :=
  ⟨⟨⟨h.queued.holds, h.queued.member⟩, h.lock, h.idle, h.members, h.current, h.outside⟩, h.running⟩

theorem schedulerTick_settles (h : Settled s q) : Settles s (schedulerTick s) := by
  simp only [schedulerTick]
  split
  · exact schedule_settles (h.withTicks 0 s.pitTicks).toArranged
  · exact ⟨_, q, rfl, h.withTicks _ _, id⟩

theorem schedulerTimerHandler_settles (h : Settled s q) : Settles s (schedulerTimerHandler s) := by
  simp only [schedulerTimerHandler]
  split
  · exact schedulerTick_settles (h.withTicks s.tickCounter (s.pitTicks + 1))
  · exact ⟨_, q, rfl, h.withTicks s.tickCounter _, id⟩

/-- `scheduler_block` writes the state first, but the queue it searches does not depend on it. -/
theorem dequeue_setState (s : Sched) (t : ℕ) (state : ThreadState) :
    schedulerDequeue (s.setState t state) t = (schedulerDequeue s t).map
      (fun s => s.setState t state) := by
  simp only [schedulerDequeue, queueIndex_setState, Option.map_map]
  rfl

section

variable (h : Settled s q)
include h

theorem markBlocked_arranged (hcur : s.currentThread = some t) (reason : ThreadState) :
    ∃ r q', let s' := (s.setQueue (queueIndex (s.thread t)) r).setState t reason
      markBlocked s reason = some s' ∧ Arranged s' q' := by
  obtain ⟨r, hr, hqueued⟩ := dequeue_queued h.queued t
  have harr :=
    h.toArranged.of_static ((setQueue_static s _ r).trans (setState_static _ t reason))
    (hqueued.setState (outside_erase h.queued t) reason) rfl rfl rfl
    (fun u hu hne => (h.outside u hu hne).erase (queueIndex_lt _) t)
  exact ⟨r, _, by simp [markBlocked, hcur, dequeue_setState, hr], harr⟩

/-- Blocking leaves the idle thread running unless it blocks itself. -/
theorem schedulerBlock_settles (reason : ThreadState) :
    ∃ s' q', schedulerBlock s reason = some s' ∧ Settled s' q' ∧
      (s.currentThread ≠ some s.idleThread → IdleRuns s') := by
  simp only [schedulerBlock]
  split
  · rename_i hnone
    refine ⟨s, q, rfl, h, fun _ hcur => ?_⟩
    cases hnone.symm.trans hcur
  · rename_i t hcur
    obtain ⟨r, q₁, hmark, harr⟩ := markBlocked_arranged h hcur reason
    obtain ⟨s', q', heq, hset, hruns⟩ := schedule_settles harr
    exact ⟨s', q', by rw [hmark]; exact heq, hset, fun hidle => hruns (fun h => absurd h hidle)⟩

theorem Settled.setState (hout : Outside q t)
    (hnot : s.currentThread = some t → t = s.idleThread) (state : ThreadState) :
    Settled (s.setState t state) q := by
  refine ⟨h.toArranged.of_static (setState_static s t state) (h.queued.setState hout state)
    rfl rfl rfl h.outside, fun u hu hne => ?_⟩
  have hut : u ≠ t := by
    intro heq
    subst u
    exact hne (hnot hu)
  simp only [Sched.setState, update_of_ne hut]
  exact h.running u hu hne

theorem schedulerWake_settles (ht : t < s.threads) : Settles s (some (schedulerWake s t)) := by
  unfold schedulerWake
  split
  · rename_i hstate
    have hnotRunning : (s.thread t).state ≠ .running := by rcases hstate with h | h <;> simp [h]
    have hout : Outside q t := h.queued.outside_of_state (by rcases hstate with h | h <;> simp [h])
    have hnot : s.currentThread = some t → t = s.idleThread := by
      intro hcur
      by_contra hne
      exact hnotRunning (h.running t hcur hne)
    obtain ⟨q', hset⟩ := enqueue_settled (h.setState hout hnot .ready) ht hout hnot
    refine ⟨_, q', rfl, hset, fun hruns hcur => ?_⟩
    have hne : s.idleThread ≠ t := fun heq => hnotRunning (heq ▸ hruns hcur)
    simp only [schedulerEnqueue, Sched.setState, Sched.setQueue, update_of_ne hne]
    exact hruns hcur
  · exact ⟨s, q, rfl, h, id⟩

theorem createProcess_settles (cr3 : UInt64) : Settles s (some (createProcess s cr3).1) := by
  refine ⟨_, q, rfl, ⟨⟨⟨h.queued.holds, h.queued.member⟩, h.lock, h.idle, ?_, h.current, h.outside⟩,
    h.running⟩, id⟩
  intro p u hu
  simp only [createProcess] at hu ⊢
  by_cases heq : p = s.processes
  · subst p
    rw [update_self] at hu
    exact absurd hu List.not_mem_nil
  · rw [update_of_ne heq] at hu
    exact h.members p u hu

end

/-- A new thread leaves the records of the others alone. -/
theorem threadCreate_thread (s : Sched) (proc : ℕ) (kstackVirt : UInt64) (priority : UInt8)
    (hu : u < s.threads) :
    (setPriority (threadCreate s proc kstackVirt).1 s.threads priority).thread u = s.thread u := by
  have hne : u ≠ s.threads := Nat.ne_of_lt hu
  simp only [setPriority, threadCreate, update_of_ne hne]

theorem threadCreate_settled (h : Settled s q) (proc : ℕ) (kstackVirt : UInt64) (priority : UInt8) :
    Settled (setPriority (threadCreate s proc kstackVirt).1 s.threads priority) q ∧
      Outside q s.threads ∧ s.currentThread ≠ some s.threads := by
  have hold : ∀ u < s.threads, _ := fun u => threadCreate_thread s proc kstackVirt priority
  have hout : Outside q s.threads :=
    fun pri hpri hmem => Nat.lt_irrefl _ (h.queued.member pri hpri _ hmem).1
  have hnot : s.currentThread ≠ some s.threads := fun hcur => Nat.lt_irrefl _ (h.current _ hcur).1
  refine ⟨⟨⟨⟨?_, ?_⟩, h.lock, Nat.lt_succ_of_lt h.idle, ?_, ?_, h.outside⟩, ?_⟩, hout, hnot⟩
  · intro pri hpri
    apply (h.queued.holds pri hpri).frame
    intro u hu
    have hne : u ≠ s.threads := Nat.ne_of_lt (h.queued.member pri hpri u hu).1
    simp only [setPriority, threadCreate, update_of_ne hne]
  · intro pri hpri u hu
    obtain ⟨hlt, hindex⟩ := h.queued.member pri hpri u hu
    rw [hold u hlt]
    exact ⟨Nat.lt_succ_of_lt hlt, hindex⟩
  · intro p u hu
    have hnew : u = s.threads ∧ p = proc ∨ u ∈ (s.process p).threads := by
      simp only [setPriority, threadCreate] at hu
      by_cases heq : p = proc
      · subst p
        rw [update_self] at hu
        rcases List.mem_cons.mp hu with rfl | hu
        · exact .inl ⟨rfl, rfl⟩
        · exact .inr hu
      · rw [update_of_ne heq] at hu
        exact .inr hu
    rcases hnew with ⟨rfl, rfl⟩ | hu
    · refine ⟨Nat.lt_succ_self _, ?_⟩
      simp [setPriority, threadCreate]
    · obtain ⟨hlt, hproc⟩ := h.members p u hu
      rw [hold u hlt]
      exact ⟨Nat.lt_succ_of_lt hlt, hproc⟩
  · intro u hu
    obtain ⟨hlt, hproc⟩ := h.current u hu
    rw [hold u hlt]
    exact ⟨Nat.lt_succ_of_lt hlt, hproc⟩
  · intro u hu hne
    rw [hold u (h.current u hu).1]
    exact h.running u hu hne

theorem spawn_thread (s : Sched) (proc : ℕ) (kstackVirt : UInt64) (priority : UInt8)
    (hu : u < s.threads) : (spawn s proc kstackVirt priority).thread u = s.thread u := by
  have hne : u ≠ s.threads := Nat.ne_of_lt hu
  simp only [spawn, threadCreate, setPriority, schedulerEnqueue, Sched.setState, Sched.setQueue,
    update_of_ne hne]

theorem spawn_settles (h : Settled s q) (proc : ℕ) (kstackVirt : UInt64) (priority : UInt8) :
    Settles s (some (spawn s proc kstackVirt priority)) := by
  obtain ⟨hset, hout, hnot⟩ := threadCreate_settled h proc kstackVirt priority
  obtain ⟨q', hset'⟩ := enqueue_settled hset (Nat.lt_succ_self _) hout fun h => absurd h hnot
  refine ⟨_, q', rfl, hset', fun hruns hcur => ?_⟩
  have hidle := spawn_thread s proc kstackVirt priority h.idle
  exact (congrArg Thread.state hidle).trans (hruns hcur)

/-- The loop of `process_exit` marks every thread of its list dead and no other. -/
theorem killThreads_arranged (h : Arranged s q) (l : List ℕ) :
    ∃ s' q', killThreads l s = some s' ∧ Arranged s' q' ∧ Static s s' ∧ s'.process = s.process ∧
      s'.currentThread = s.currentThread ∧ s'.currentProcess = s.currentProcess ∧
      ∀ u, (s'.thread u).state = if u ∈ l then .dead else (s.thread u).state := by
  induction l generalizing s q with
  | nil => exact ⟨s, q, rfl, h, Static.refl s, rfl, rfl, rfl, fun u => by simp⟩
  | cons t rest ih =>
    rw [killThreads]
    by_cases hdead : (s.thread t).state = .dead
    · rw [if_pos hdead]
      obtain ⟨s', q', hkill, harr, hstat, hproc, hcur, hrun, hstates⟩ := ih h
      refine ⟨s', q', hkill, harr, hstat, hproc, hcur, hrun, fun u => ?_⟩
      rw [hstates u]
      by_cases heq : u = t
      · subst u
        simp [hdead]
      · simp [heq]
    · rw [if_neg hdead]
      obtain ⟨r, hr, hqueued⟩ := dequeue_queued h.queued t
      have hstat : Static s ((s.setQueue (queueIndex (s.thread t)) r).setState t .dead) :=
        (setQueue_static s _ r).trans (setState_static _ t .dead)
      have harr :=
        h.of_static hstat (hqueued.setState (outside_erase h.queued t) .dead) rfl rfl
        rfl (fun u hu hne => (h.outside u hu hne).erase (queueIndex_lt _) t)
      obtain ⟨s', q', hkill, harr', hstat', hproc, hcur, hrun, hstates⟩ := ih harr
      rw [hr]
      refine ⟨s', q', hkill, harr', hstat.trans hstat', hproc, hcur, hrun, fun u => ?_⟩
      rw [hstates u]
      by_cases heq : u = t
      · subst u
        simp [Sched.setState]
      · simp [Sched.setState, Sched.setQueue, heq]

/-- `process_exit` up to its call of `schedule`. The running thread is only marked dead if its
process exits. -/
theorem markExited_arranged (h : Settled s q) {proc : ℕ} (code : Int32)
    (hidle : (s.thread s.idleThread).process ≠ proc) : ∃ s' q', markExited s proc code = some s' ∧
    Arranged s' q' ∧ s'.process = update s.process proc
      { s.process proc with exitCode := code, zombie := true } ∧
    (∀ u, (s'.thread u).process = (s.thread u).process) ∧
    s'.threads = s.threads ∧ s'.processes = s.processes ∧ s'.idleThread = s.idleThread ∧
    s'.currentThread = s.currentThread ∧ s'.currentProcess = s.currentProcess ∧
    (∀ u, (s'.thread u).state =
      if u ∈ (s.process proc).threads then .dead else (s.thread u).state) ∧
    (IdleRuns s → IdleRuns s') := by
  let s₁ : Sched :=
    { s with
      process := update s.process proc { s.process proc with exitCode := code, zombie := true } }
  have hmembers : ∀ p, (s₁.process p).threads = (s.process p).threads :=
    apply_update_of_eq ProcessRecord.threads (by rfl)
  have harr : Arranged s₁ q := ⟨⟨h.queued.holds, h.queued.member⟩, h.lock, h.idle,
      fun p t ht => h.members p t (hmembers p ▸ ht), h.current, h.outside⟩
  obtain ⟨s', q', hkill, harr', hstat, hproc, hcur, hrun, hstates⟩ :=
    killThreads_arranged harr (s.process proc).threads
  refine ⟨s', q', hkill, harr', hproc, hstat.process, hstat.threads, hstat.processes,
    hstat.idleThread, hcur, hrun, hstates, fun hruns => ?_⟩
  intro hidleCurrent
  rw [hstat.idleThread] at hidleCurrent ⊢
  rw [hstates, if_neg (fun hmem => hidle (h.members proc _ hmem).2)]
  exact hruns (hcur.symm.trans hidleCurrent)

theorem processExit_settles (h : Settled s q) {proc : ℕ} (code : Int32)
    (hidle : (s.thread s.idleThread).process ≠ proc) : Settles s (processExit s proc code) := by
  obtain ⟨s₁, q₁, hmark, harr, _, _, _, _, hidleThread, hcur, hproc, hstates, hruns⟩ :=
    markExited_arranged h code hidle
  simp only [processExit, hmark]
  split
  · obtain ⟨s', q', heq, hset, hruns'⟩ := schedule_settles harr
    exact ⟨s', q', heq, hset, fun hr => hruns' (hruns hr)⟩
  · rename_i hother
    refine ⟨s₁, q₁, rfl, ⟨harr, fun u hu hne => ?_⟩, hruns⟩
    have hu' : s.currentThread = some u := hcur.symm.trans hu
    have hnot : u ∉ (s.process proc).threads := by
      intro hmem
      apply hother
      rw [hproc, ← (h.members proc u hmem).2]
      exact (h.current u hu').2
    rw [hstates u, if_neg hnot]
    exact h.running u hu' (hidleThread ▸ hne)

/-- `scheduler_start` passes control without an old thread. -/
theorem resume_announce (s : Sched) (first : ℕ) (cr3 : UInt64) :
    resume { announce s first with cr3 := cr3, schedActive := true } =
      { resume (switchTo s none first) with cr3 := cr3, schedActive := true } := by
  rw [resume_eq rfl, resume_eq (switchTo_current _ _ _)]
  rfl

/-- `scheduler_start` passes control to the first thread of the highest queue or to the idle
thread. -/
theorem schedulerStart_eq (h : Arranged s q) :
    ∃ s₁ q₁ first cr3, Static s s₁ ∧ s₁.thread = s.thread ∧ s₁.process = s.process ∧ Queued s₁ q₁ ∧
      first < s.threads ∧ Outside q₁ first ∧
      (first = s.idleThread ∨ (s.thread first).state = .ready) ∧ schedulerStart s =
        some { resume (switchTo s₁ none first) with cr3 := cr3, schedActive := true } := by
  rcases pickBelow_queued h.queued le_rfl with
    ⟨hpick, hnil⟩ | ⟨pri, t, rest, r, hpri, hq, _, hpick, hrest⟩
  · refine ⟨s, q, s.idleThread,
      (s.process ((announce s s.idleThread).thread s.idleThread).process).cr3,
      Static.refl s, rfl, rfl, h.queued, h.idle, outside_of_empty hnil _, .inl rfl, ?_⟩
    simp only [schedulerStart, pickNext, hpick, ← resume_announce]
    rfl
  · obtain ⟨hlt, _, hready⟩ := h.queued.first hpri hq
    refine ⟨s.setQueue pri r, _, t,
      (s.process ((announce (s.setQueue pri r) t).thread t).process).cr3,
      setQueue_static s pri r, rfl, rfl, hrest, hlt, h.queued.outside_rest hpri hq, .inr hready, ?_⟩
    simp only [schedulerStart, pickNext, hpick, ← resume_announce]
    rfl

theorem schedulerStart_settles (h : Settled s q) (hfirst : s.currentThread = none) :
    Settles s (schedulerStart s) := by
  obtain ⟨s₁, q₁, first, cr3, hstat, _, _, hqueued, hlt, hout, _, heq⟩ :=
    schedulerStart_eq h.toArranged
  have hswitch := between_switchTo h.toArranged hstat hqueued hlt hout
    (by rw [hfirst]; exact Option.some_ne_none first |>.symm)
  rw [hfirst] at hswitch
  obtain ⟨⟨⟨⟨hholds, hmember⟩, hlock, hidle, hmembers, hcur, hruns⟩, hrun⟩, _⟩ := hswitch
  have hbetween : Between { resume (switchTo s₁ none first) with cr3 := cr3, schedActive := true }
      (requeued s₁ q₁ none) := ⟨⟨⟨hholds, hmember⟩, hlock, hidle, hmembers, hcur, hruns⟩, hrun⟩
  exact ⟨_, _, heq, hbetween.settled, fun _ => hbetween.idleRuns⟩

theorem schedulerInit_between (cr3 idleCr3 idleStack : UInt64) (shell : Option (UInt64 × UInt64)) :
    ∃ q, Between (schedulerInit (Sched.boot cr3) idleCr3 idleStack shell) q := by
  have hidle : Between (createIdle (Sched.boot cr3) idleCr3 idleStack) (fun _ => []) := by
    refine ⟨⟨⟨fun pri _ => ⟨rfl, rfl, List.nodup_nil⟩,
      fun pri _ t ht => absurd ht List.not_mem_nil⟩, rfl,
      Nat.zero_lt_one, ?_, fun t ht => ?_, fun h => ?_⟩, fun t ht => ?_⟩
    · intro p t ht
      by_cases hp : p = 0
      · subst p
        obtain rfl : t = 0 := List.mem_singleton.mp ht
        exact ⟨Nat.zero_lt_one, rfl⟩
      · simp only [createIdle, setPriority, threadCreate, createProcess, Sched.boot,
          update_of_ne hp] at ht
        exact absurd ht List.not_mem_nil
    · exact absurd ht (by simp [createIdle, setPriority, threadCreate, createProcess, Sched.boot])
    · exact absurd h (by simp [createIdle, setPriority, threadCreate, createProcess, Sched.boot])
    · exact absurd ht (by simp [createIdle, setPriority, threadCreate, createProcess, Sched.boot])
  cases shell with
  | none => exact ⟨_, hidle⟩
  | some shell =>
    obtain ⟨q₁, hmade, hruns⟩ := (createProcess_settles hidle.settled shell.1).settled rfl
    obtain ⟨q₂, hspawned, hruns'⟩ :=
      (spawn_settles hmade (createProcess (createIdle (Sched.boot cr3) idleCr3 idleStack) shell.1).2
        shell.2 schedPriorityNormal).settled rfl
    exact ⟨q₂, hspawned.between (hruns' (hruns hidle.idleRuns))⟩

/-- The operations of the scheduler. The thread that blocks is not the idle one, and its process
does not exit. -/
inductive Step : Sched → Sched → Prop
  | spawn (s : Sched) (proc : ℕ) (kstackVirt : UInt64) (priority : UInt8) :
      Step s (spawn s proc kstackVirt priority)
  | createProcess (s : Sched) (cr3 : UInt64) : Step s (createProcess s cr3).1
  | start {s s' : Sched} (hfirst : s.currentThread = none) (h : schedulerStart s = some s') :
      Step s s'
  | schedule {s s' : Sched} (h : schedule s = some s') : Step s s'
  | tick {s s' : Sched} (h : schedulerTick s = some s') : Step s s'
  | timer {s s' : Sched} (h : schedulerTimerHandler s = some s') : Step s s'
  | block {s s' : Sched} {reason : ThreadState} (hidle : s.currentThread ≠ some s.idleThread)
      (h : schedulerBlock s reason = some s') : Step s s'
  | wake (s : Sched) {t : ℕ} (ht : t < s.threads) : Step s (schedulerWake s t)
  | exit {s s' : Sched} {proc : ℕ} {code : Int32} (hidle : (s.thread s.idleThread).process ≠ proc)
      (h : processExit s proc code = some s') : Step s s'

theorem step_between {s' : Sched} (h : Between s q) (hstep : Step s s') : ∃ q', Between s' q' := by
  have hruns : IdleRuns s := h.idleRuns
  cases hstep with
  | spawn proc kstackVirt priority =>
    exact (spawn_settles h.settled proc kstackVirt priority).between hruns rfl
  | createProcess cr3 => exact (createProcess_settles h.settled cr3).between hruns rfl
  | start hfirst heq => exact (schedulerStart_settles h.settled hfirst).between hruns heq
  | schedule heq => exact (schedule_settles h.arranged).between hruns heq
  | tick heq => exact (schedulerTick_settles h.settled).between hruns heq
  | timer heq => exact (schedulerTimerHandler_settles h.settled).between hruns heq
  | block hidle heq =>
    obtain ⟨s₁, q₁, heq₁, hset, hruns₁⟩ := schedulerBlock_settles h.settled _
    cases heq₁.symm.trans heq
    exact ⟨q₁, hset.between (hruns₁ hidle)⟩
  | wake ht => exact (schedulerWake_settles h.settled ht).between hruns rfl
  | exit hidle heq => exact (processExit_settles h.settled _ hidle).between hruns heq

/-- The queues are finite lists without a cycle that end in their tail pointers; a queued thread
is ready, in the queue of its priority only; and the current thread is in none. -/
def WellQueued (s : Sched) : Prop :=
  ∃ q : ℕ → List ℕ, (∀ pri, pri < schedNumPriorities →
      Holds s.nextInQueue ⟨s.readyHead pri, s.readyTail pri⟩ (q pri)) ∧
    (∀ pri, pri < schedNumPriorities → ∀ t ∈ q pri, t < s.threads ∧ (s.thread t).state = .ready ∧
      queueIndex (s.thread t) = pri ∧ ∀ other, other < schedNumPriorities → t ∈ q other →
        other = pri) ∧ ∀ t, s.currentThread = some t → ∀ pri, pri < schedNumPriorities → t ∉ q pri

/-- Every operation ends: no traversal runs in a circle. -/
def Returns (s : Sched) : Prop :=
  (schedule s).isSome ∧ (schedulerTick s).isSome ∧ (schedulerTimerHandler s).isSome ∧
    (s.currentThread = none → (schedulerStart s).isSome) ∧
    (s.currentThread ≠ some s.idleThread → ∀ reason, (schedulerBlock s reason).isSome) ∧
    ∀ proc code, (s.thread s.idleThread).process ≠ proc → (processExit s proc code).isSome

theorem Between.wellQueued (h : Between s q) : WellQueued s := by
  refine ⟨q, h.queued.holds, fun pri hpri t ht => ?_, fun t ht => (h.current t ht).2.1⟩
  obtain ⟨hlt, hindex, hready⟩ := h.queued.member pri hpri t ht
  refine ⟨hlt, hready, hindex, fun other hother hmem => ?_⟩
  exact (h.queued.member other hother t hmem).2.1.symm.trans hindex

theorem Between.returns (h : Between s q) : Returns s := by
  refine ⟨(schedule_settles h.arranged).isSome, (schedulerTick_settles h.settled).isSome,
    (schedulerTimerHandler_settles h.settled).isSome,
    fun hfirst => (schedulerStart_settles h.settled hfirst).isSome, fun _ reason => ?_,
    fun proc code hidle => (processExit_settles h.settled code hidle).isSome⟩
  obtain ⟨s', _, heq, _⟩ := schedulerBlock_settles h.settled reason
  exact Option.isSome_of_eq_some heq

theorem reachable_between {cr3 idleCr3 idleStack : UInt64} {shell : Option (UInt64 × UInt64)}
    (hrun : Reachable Step (schedulerInit (Sched.boot cr3) idleCr3 idleStack shell) s) :
    ∃ q, Between s q :=
  hrun.invariant (fun s => ∃ q, Between s q)
    (fun _ _ h hstep => h.elim fun _ h => step_between h hstep)
    (schedulerInit_between cr3 idleCr3 idleStack shell)

/-- The run queues stay well formed over every run, and every operation ends. -/
theorem run_queues_well_formed {cr3 idleCr3 idleStack : UInt64} {shell : Option (UInt64 × UInt64)}
    (hrun : Reachable Step (schedulerInit (Sched.boot cr3) idleCr3 idleStack shell) s) :
    WellQueued s ∧ Returns s := by
  obtain ⟨q, h⟩ := reachable_between hrun
  exact ⟨h.wellQueued, h.returns⟩

/-- The shell runs, a thread of higher priority becomes ready, the timer ticks. -/
theorem run_queues_well_formed_ticked :
    ∃ s s', schedulerStart (schedulerInit (Sched.boot 0x1000) 0x2000 0x3000
      (some (0x4000, 0x5000))) = some s ∧
      schedulerTick (spawn s 1 0x6000 7) = some s' ∧ WellQueued s' ∧ Returns s' := by
  obtain ⟨q, h⟩ := schedulerInit_between 0x1000 0x2000 0x3000 (some (0x4000, 0x5000))
  obtain ⟨s, q, hst, h, _⟩ := schedulerStart_settles h.settled rfl
  obtain ⟨q, h, _⟩ := (spawn_settles h 1 0x6000 7).settled rfl
  obtain ⟨s', _, htick, _⟩ := schedulerTick_settles h
  exact ⟨s, s', hst, htick, run_queues_well_formed
    (((Relation.ReflTransGen.single (Step.start rfl hst)).tail (Step.spawn s 1 0x6000 7)).tail
      (Step.tick htick))⟩

end NexusKernel.RunQueues
