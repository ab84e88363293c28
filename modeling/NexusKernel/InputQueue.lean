import Mathlib.Data.List.Infix

/-!
The queue of input events: a ring of 256 slots for at most 255 events. Interrupt handlers push,
and a full queue drops its oldest event. A poll tests for an empty queue before it takes the lock,
so interrupts may push in between.
-/

namespace NexusKernel.InputQueue

open Function

variable {α σ : Type}

abbrev inputQueueSize : ℕ := 256

structure EventQueue (α : Type) where
  eventQueue : ℕ → α
  queueHead : ℕ
  queueTail : ℕ

def inputPushEvent (q : EventQueue α) (event : α) : EventQueue α :=
  let next := (q.queueHead + 1) % inputQueueSize
  { eventQueue := update q.eventQueue q.queueHead event
    queueHead := next
    queueTail := if next = q.queueTail then (q.queueTail + 1) % inputQueueSize else q.queueTail }

def inputHasEvent (q : EventQueue α) : Bool := q.queueHead ≠ q.queueTail

def takeEvent (q : EventQueue α) : Option α × EventQueue α :=
  if q.queueHead = q.queueTail then (none, q)
  else (some (q.eventQueue q.queueTail), { q with queueTail := (q.queueTail + 1) % inputQueueSize })

def inputManagerInit (zero : α) : EventQueue α := ⟨fun _ => zero, 0, 0⟩

structure Queue (σ α : Type) where
  push : σ → α → σ
  hasEvent : σ → Bool
  take : σ → Option α × σ

def ring : Queue (EventQueue α) α := ⟨inputPushEvent, inputHasEvent, takeEvent⟩

@[irreducible] def capacity : ℕ := 255

/-- The bounded queue: a push keeps the last 255 events. -/
def fifo : Queue (List α) α where
  push l event := (l ++ [event]).drop (l.length + 1 - capacity)
  hasEvent l := !l.isEmpty
  take l := (l.head?, l.tail)

/-- A queue in use: whether a poll is between its test and its locked section, the events returned
and all pushed. -/
structure State (σ α : Type) where
  queue : σ
  polling : Bool
  polled : List α
  pushed : List α

inductive Action (α : Type) where
  | push (event : α)
  | test
  | locked

def step (o : Queue σ α) (s : State σ α) : Action α → State σ α
  | .push event => { s with queue := o.push s.queue event, pushed := s.pushed ++ [event] }
  | .test => { s with polling := s.polling || o.hasEvent s.queue }
  | .locked =>
      if s.polling then
        { s with
          queue := (o.take s.queue).2
          polling := false
          polled := s.polled ++ (o.take s.queue).1.toList }
      else s

structure Bounded (q : EventQueue α) : Prop where
  head : q.queueHead < 256
  tail : q.queueTail < 256

def window (events : ℕ → α) (tail n : ℕ) : List α :=
    (List.range n).map fun i => events ((tail + i) % 256)

def contents (q : EventQueue α) : List α :=
  window q.eventQueue q.queueTail ((q.queueHead + 256 - q.queueTail) % 256)

variable {q : EventQueue α} {events : ℕ → α} {tail n : ℕ}

theorem window_succ :
    window events tail (n + 1) = window events tail n ++ [events ((tail + n) % 256)] := by
  simp [window, List.range_succ]

theorem window_cons (h : tail < 256) :
    window events tail (n + 1) = events tail :: window events ((tail + 1) % 256) n := by
  simp [window, List.range_succ_eq_map, Nat.mod_eq_of_lt h, comp_def, Nat.add_assoc, Nat.add_comm 1]

theorem push_contents (h : Bounded q) (event : α) :
    Bounded (ring.push q event) ∧ contents (ring.push q event) = fifo.push (contents q) event := by
  obtain ⟨hhead, htail⟩ := h
  generalize hn : (q.queueHead + 256 - q.queueTail) % 256 = n
  have hat : q.queueHead = (q.queueTail + n) % 256 := by omega
  have hlen : (contents q).length = n := by simp [contents, window, hn]
  -- The slot of the head is the one behind the events that wait.
  have hnext : window (update q.eventQueue q.queueHead event) q.queueTail (n + 1) =
      contents q ++ [event] := by
    rw [window_succ, ← hat, update_self, contents, hn]
    congr 1
    apply List.map_congr_left
    intro i hi
    have hlt := List.mem_range.mp hi
    exact update_of_ne (by omega) _ _
  simp only [fifo]
  rw [hlen, ← hnext]
  simp only [ring, inputPushEvent, inputQueueSize, contents, capacity]
  by_cases hfull : (q.queueHead + 1) % 256 = q.queueTail
  · obtain rfl : n = 255 := by omega
    rw [if_pos hfull]
    refine ⟨⟨Nat.mod_lt _ (by decide), Nat.mod_lt _ (by decide)⟩, ?_⟩
    rw [window_cons htail,
      show ((q.queueHead + 1) % 256 + 256 - (q.queueTail + 1) % 256) % 256 = 255 by omega]
    rfl
  · rw [if_neg hfull]
    refine ⟨⟨Nat.mod_lt _ (by decide), htail⟩, ?_⟩
    rw [show ((q.queueHead + 1) % 256 + 256 - q.queueTail) % 256 = n + 1 by omega,
      show n + 1 - 255 = 0 by omega]
    rfl

theorem take_contents (h : Bounded q) : Bounded (ring.take q).2 ∧
    (ring.take q).1 = (fifo.take (contents q)).1 ∧ contents (ring.take q).2 =
      (fifo.take (contents q)).2 := by
  obtain ⟨hhead, htail⟩ := h
  simp only [ring, fifo, takeEvent]
  by_cases hnil : q.queueHead = q.queueTail
  · simp [hnil, contents, window, Bounded.mk, htail]
  · obtain ⟨n, hn⟩ : ∃ n, (q.queueHead + 256 - q.queueTail) % 256 = n + 1 :=
      Nat.exists_eq_succ_of_ne_zero (by omega)
    have hrest : contents q = q.eventQueue q.queueTail :: window q.eventQueue
        ((q.queueTail + 1) % 256) n := by
      rw [contents, hn, window_cons htail]
    rw [if_neg hnil, hrest]
    refine ⟨⟨hhead, Nat.mod_lt _ (by decide)⟩, rfl, ?_⟩
    simp only [contents, inputQueueSize, List.tail_cons]
    congr 1
    omega

theorem hasEvent_contents (h : Bounded q) : ring.hasEvent q = fifo.hasEvent (contents q) := by
  obtain ⟨hhead, htail⟩ := h
  have hz : (q.queueHead + 256 - q.queueTail) % 256 = 0 ↔ q.queueHead = q.queueTail := by omega
  rw [Bool.eq_iff_iff]
  simp [ring, fifo, inputHasEvent, contents, window, hz]

/-- The ring and the bounded queue in the same use. What was returned and what waits are in the
order of the pushes; what waits was pushed last. -/
structure Same (s : State (EventQueue α) α) (t : State (List α) α) : Prop where
  bounded : Bounded s.queue
  queue : contents s.queue = t.queue
  polling : s.polling = t.polling
  polled : s.polled = t.polled
  pushed : s.pushed = t.pushed
  order : (t.polled ++ t.queue).Sublist t.pushed
  last : t.queue <:+ t.pushed

theorem step_same {s : State (EventQueue α) α} {t : State (List α) α} (h : Same s t)
    (a : Action α) : Same (step ring s a) (step fifo t a) := by
  obtain ⟨hbounded, hqueue, hpolling, hpolled, hpushed, horder, hlast⟩ := h
  cases a with
  | push event =>
    obtain ⟨hbounded', hpush⟩ := push_contents hbounded event
    have hdrop : fifo.push t.queue event <:+ t.queue ++ [event] := by
      exact List.drop_suffix _ _
    simp only [step]
    refine ⟨hbounded', by rw [hpush, hqueue], hpolling, hpolled, by rw [hpushed], ?_, ?_⟩
    · have hall := horder.append_right [event]
      rw [List.append_assoc] at hall
      exact (hdrop.sublist.append_left _).trans hall
    · obtain ⟨pre, hpre⟩ := hlast
      exact hdrop.trans ⟨pre, by rw [← hpre, List.append_assoc]⟩
  | test =>
    have htest := hasEvent_contents hbounded
    exact ⟨hbounded,
      hqueue, by simp only [step, hpolling, htest, hqueue], hpolled, hpushed, horder, hlast⟩
  | locked =>
    obtain ⟨hbounded', hhead, htail⟩ := take_contents hbounded
    rw [hqueue] at hhead htail
    simp only [step, hpolling]
    split
    · refine ⟨hbounded', htail,
        rfl, by simp only [hpolled, hhead], hpushed, ?_, (List.tail_suffix _).trans hlast⟩
      have hsplit : t.queue.head?.toList ++ t.queue.tail = t.queue := by cases t.queue <;> rfl
      simpa only [List.append_assoc, fifo, hsplit] using horder
    · exact ⟨hbounded, hqueue, hpolling, hpolled, hpushed, horder, hlast⟩

/-- At every moment the ring holds what the bounded queue does, and has returned the same. -/
theorem input_queue_bounded_fifo (zero : α) (actions : List (Action α)) :
    Same (actions.foldl (step ring) ⟨inputManagerInit zero, false, [], []⟩)
      (actions.foldl (step fifo) ⟨[], false, [], []⟩) := by
  induction actions using List.reverseRecOn with
  | nil =>
    exact ⟨⟨Nat.zero_lt_succ _,
      Nat.zero_lt_succ _⟩, by simp [contents, window, inputManagerInit], rfl, rfl,
      rfl, .refl _, List.suffix_refl _⟩
  | append_singleton actions a ih =>
    rw [List.foldl_append, List.foldl_append]
    exact step_same ih a

end NexusKernel.InputQueue
