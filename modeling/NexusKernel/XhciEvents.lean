import Mathlib.Logic.Function.Iterate

/-!
The event ring of the USB controller and its two readers: a thread that waits for the completion
of its TRB, and the interrupt handler. Both move the same index and cycle bit, and both pass over
events not theirs. Between any two accesses of the thread the controller may post events, the
handler may run and time may pass.
-/

namespace NexusKernel.XhciEvents

open Function

structure Trb where
  parameter : UInt64
  status : UInt32
  control : UInt32

structure Reader where
  evtDequeue : ℕ
  evtCycle : Bool

/-- `posted` counts the events of the controller, `erdp` is how far it may overwrite them. -/
structure State where
  ring : ℕ → Trb
  posted : ℕ
  erdp : ℕ
  reader : Reader
  ticks : UInt64

def cycleBit (control : UInt32) : Bool := control &&& 1 = 1

def trbGetType (control : UInt32) : UInt32 := (control >>> 10) &&& 0x3F

def trbSlotId (control : UInt32) : UInt32 := (control >>> 24) &&& 0xFF

def trbGetCc (status : UInt32) : UInt32 := (status >>> 24) &&& 0xFF

def lapCycle (n : ℕ) : Bool := n / 64 % 2 = 0

/-- The loop of `xhci_process_events`. Behind a whole lap the cycle bits differ, so 65 rounds are
enough. -/
def processEvents (ring : ℕ → Trb) : ℕ → Reader → Reader
  | 0, r => r
  | fuel + 1, r =>
      if cycleBit (ring r.evtDequeue).control ≠ r.evtCycle then r
      else processEvents ring fuel (if 64 ≤ r.evtDequeue + 1 then ⟨0, !r.evtCycle⟩
        else ⟨r.evtDequeue + 1, r.evtCycle⟩)

def xhciProcessEvents (s : State) : State :=
  let r := processEvents s.ring 65 s.reader
  { s with
    reader := r
    erdp := if r.evtDequeue = s.reader.evtDequeue then s.erdp else r.evtDequeue }

inductive Act where
  | post (evt : Trb)
  | irq
  | tick

/-- The controller posts if it has a free slot; the cycle bit is that of its lap. -/
def act (s : State) : Act → State
  | .post evt =>
      if (s.posted + 1) % 64 ≠ s.erdp ∧ cycleBit evt.control = lapCycle s.posted then
        { s with ring := update s.ring (s.posted % 64) evt, posted := s.posted + 1 }
      else s
  | .irq => xhciProcessEvents s
  | .tick => { s with ticks := s.ticks + 1 }

/-- What happens before each access of the thread in one round of its loop, and before the
deadline test (10). -/
abbrev Round := ℕ → List Act

def wrap (g : Round) (s : State) : State :=
  if 64 ≤ s.reader.evtDequeue then
    let s := (g 8).foldl act { s with reader := ⟨0, s.reader.evtCycle⟩ }
    { s with reader := ⟨s.reader.evtDequeue, !s.reader.evtCycle⟩ }
  else s

/-- The index is moved behind the event, and the controller is told. -/
def advance (g : Round) (s : State) : State :=
  let s := (g 6).foldl act s
  let s := { s with reader := ⟨s.reader.evtDequeue + 1, s.reader.evtCycle⟩ }
  let s := (g 9).foldl act (wrap g ((g 7).foldl act s))
  { s with erdp := s.reader.evtDequeue }

variable (type : UInt32) (phys deadline : UInt64)

/-- One round of `xhci_wait_command`, with type 33, or of `usb_control_transfer`, with type 32,
which reads the control word again for the type. -/
def round (g : Round) (s : State) : State × Option Trb :=
  let s := (g 0).foldl act s
  let slot := s.reader.evtDequeue
  let s := (g 1).foldl act s
  let ctrl := (s.ring slot).control
  let s := (g 2).foldl act s
  if cycleBit ctrl ≠ s.reader.evtCycle then (s, none)
  else
    let s := (g 3).foldl act s
    let ctrl := if type = 32 then (s.ring slot).control else ctrl
    let s := (g 4).foldl act s
    if trbGetType ctrl = type ∧ (s.ring slot).parameter = phys then
      let s := (g 5).foldl act s
      (advance g s, some ⟨phys, (s.ring slot).status, ctrl⟩)
    else (advance g s, none)

inductive Outcome where
  | waiting (s : State)
  | timedOut (s : State)
  | returned (s : State) (evt : Trb)

def wait : List Round → State → Outcome
  | [], s => .waiting s
  | g :: rest, s =>
      let s := (g 10).foldl act s
      if s.ticks < deadline then
        match round type phys g s with
        | (s, none) => wait rest s
        | (s, some evt) => .returned s evt
      else .timedOut s

def commandResult (evt : Trb) : Int32 × Option (UInt32 × UInt32) :=
  (0, some (trbSlotId evt.control, trbGetCc evt.status))

def xhciWaitCommand (rounds : List Round) (s : State) : Option (Int32 × Option (UInt32 × UInt32)) :=
  match wait 33 phys deadline rounds s with
  | .waiting _ => none
  | .timedOut _ => some (-1, none)
  | .returned _ evt => some (commandResult evt)

/-- The reader has passed `k` events, and the ring holds those behind them. -/
structure Synced (s : State) (k : ℕ) : Prop where
  le : k ≤ s.posted
  room : ∃ e ≤ k, s.erdp = e % 64 ∧ s.posted ≤ e + 63
  cycles : ∀ n, s.posted ≤ n → n < s.posted + 64 → cycleBit (s.ring (n % 64)).control ≠ lapCycle n

/-- Events may have been posted since `s`, none over those from `k` on. -/
structure Kept (s s' : State) (k : ℕ) : Prop where
  synced : Synced s' k
  posted : s.posted ≤ s'.posted
  ring : ∀ n, k ≤ n → n < s.posted → s'.ring (n % 64) = s.ring (n % 64)

def Quiet (g : Round) : Prop := ∀ i, .irq ∉ g i

/-- The handler may run before the round, not within it. -/
def Calm (g : Round) : Prop := ∀ i, 0 < i → i < 10 → .irq ∉ g i

variable {type phys deadline} {s s' s'' : State} {k n : ℕ} {g : Round}

theorem Kept.trans (h : Kept s s' k) (h' : Kept s' s'' k) : Kept s s'' k :=
  ⟨h'.synced, Nat.le_trans h.posted h'.posted, fun n hn hlt =>
    (h'.ring n hn (Nat.lt_of_lt_of_le hlt h.posted)).trans (h.ring n hn hlt)⟩

theorem Synced.succ (h : Synced s k) (hlt : k < s.posted) : Synced s (k + 1) := by
  obtain ⟨e, hle, herdp, hroom⟩ := h.room
  exact ⟨hlt, ⟨e, Nat.le_succ_of_le hle, herdp, hroom⟩, h.cycles⟩

theorem Kept.succ (h : Kept s s' k) (hlt : k < s'.posted) : Kept s s' (k + 1) :=
  ⟨h.synced.succ hlt, h.posted, fun n hn => h.ring n (Nat.le_of_succ_le hn)⟩

section

variable {rounds : List Round} {p : ℕ}

end

def boot : State := ⟨fun _ => ⟨0, 0, 0⟩, 0, 0, ⟨0, true⟩, 0⟩

def completion : Trb := ⟨0x1000, 0x1000000, 0x8401⟩

def idle : Round := fun i => if i = 10 then [.tick] else []

def taken (t : UInt64) : State :=
  { xhciProcessEvents (act boot (.post completion)) with ticks := t }

end NexusKernel.XhciEvents
