import NexusKernel.Lib.Iterations
import NexusKernel.UsbEnumeration
import Mathlib.Logic.Relation

/-!
Whether `driver_probe_device` returns. It calls the drivers with the driver lock held, which
disables interrupts. Most waits of a driver for its device are given up when enough ticks have
passed, but only timer interrupts make ticks. Other waits count their polls, and some loops go by
what the device has sent.
-/

namespace NexusKernel.DriverProbing

open Lib.Iterations Relation UsbEnumeration

/-- What ends a wait: success or failure, and the bytes transferred. -/
structure Answer where
  ok : Bool
  data : ℕ → UInt8

/-- What the device answers to each poll, if anything, and the timer interrupts due then. -/
structure World where
  answer : ℕ → Option Answer
  timer : ℕ → ℕ

structure Clock where
  ticks : UInt64
  polls : ℕ

/-- `lock` is what the driver lock has saved of the interrupt flag, while it is held. -/
structure Cpu where
  clock : Clock
  interrupts : Bool
  lock : Option Bool

/-- The code of a driver: looks at the ticks, waits until they are `expired`, waits of at most
`count` polls, and loops of its own. -/
inductive Code : Type → Type 1 where
  | pure {α : Type} (a : α) : Code α
  | bind {α β : Type} (p : Code α) (f : α → Code β) : Code β
  | getTicks : Code UInt64
  | waits (expired : UInt64 → Bool) : Code (Option Answer)
  | polls (count : ℕ) : Code (Option Answer)
  | loop {σ α : Type} (body : σ → Code (σ ⊕ α)) (s : σ) : Code α

instance codeMonad : Monad Code where
  pure := .pure
  bind := .bind

variable {α β σ D : Type} (w : World) (interrupts : Bool)

def Clock.poll (c : Clock) : Clock where
  ticks := if interrupts then c.ticks + UInt64.ofNat (w.timer c.polls) else c.ticks
  polls := c.polls + 1

def waitStep (expired : UInt64 → Bool) (c : Clock) : Option (Clock ⊕ (Option Answer × Clock)) :=
  match w.answer c.polls with
  | some answer => some (.inr (some answer, c.poll w interrupts))
  | none =>
      if expired (c.poll w interrupts).ticks then some (.inr (none, c.poll w interrupts))
      else some (.inl (c.poll w interrupts))

def pollUpTo : ℕ → Clock → Option Answer × Clock
  | 0, c => (none, c)
  | n + 1, c =>
      match w.answer c.polls with
      | some answer => (some answer, c.poll w interrupts)
      | none => pollUpTo n (c.poll w interrupts)

def loopStep (run : σ → Clock → Option ((σ ⊕ α) × Clock)) (t : σ × Clock) :
    Option ((σ × Clock) ⊕ (α × Clock)) :=
  (run t.1 t.2).map fun out => out.1.map (·, out.2) (·, out.2)

/-- Loops without a count get `n` rounds. -/
def Code.run (n : ℕ) : {α : Type} → Code α → Clock → Option (α × Clock)
  | _, .pure a, c => some (a, c)
  | _, .bind p f, c => (p.run n c).bind fun out => (f out.1).run n out.2
  | _, .getTicks, c => some (c.ticks, c)
  | _, .waits expired, c => iterate (waitStep w interrupts expired) n c
  | _, .polls count, c => some (pollUpTo w interrupts count c)
  | _, .loop body s, c => iterate (loopStep fun s c => (body s).run n c) n (s, c)

structure Driver (D : Type) where
  probe : Option (D → Bool)
  init : Option (D → Code Int32)

def Code.Runs (p : Code α) (c : Clock) (out : α × Clock) : Prop := ∃ n, p.run w false n c = some out

/-- One round of a loop leads to the next. -/
def Round (body : σ → Code (σ ⊕ α)) (t t' : σ × Clock) : Prop :=
  (body t.1).Runs w t.2 (.inl t'.1, t'.2)

/-- Every wait that is reached has expired or is answered, and every loop has finitely many
rounds. -/
def Code.Ends : {α : Type} → Code α → Clock → Prop
  | _, .pure _, _ => True
  | _, .bind p f, c => p.Ends c ∧ ∀ out, p.Runs w c out → (f out.1).Ends out.2
  | _, .getTicks, _ => True
  | _, .waits expired, c => expired c.ticks = true ∨ ∃ k, w.answer (c.polls + k) ≠ none
  | _, .polls _, _ => True
  | _, .loop body s, c =>
      (∀ t, ReflTransGen (Round w body) (s, c) t → (body t.1).Ends t.2) ∧
        Acc (fun t' t => Round w body t t') (s, c)

variable {w interrupts} {c c' : Clock} {n m : ℕ} {p : Code α} {f : α → Code β}

theorem loopStep_mono {run run' : σ → Clock → Option ((σ ⊕ α) × Clock)}
    (hruns : ∀ s c out, run s c = some out → run' s c = some out) (t : σ × Clock)
    (turn : (σ × Clock) ⊕ (α × Clock)) (h : loopStep run t = some turn) :
    loopStep run' t = some turn := by
  obtain ⟨mid, hrun, hmid⟩ := Option.map_eq_some_iff.mp h
  exact Option.map_eq_some_iff.mpr ⟨mid, hruns _ _ _ hrun, hmid⟩

theorem run_mono {out : α × Clock} (h : p.run w interrupts n c = some out) (hle : n ≤ m) :
    p.run w interrupts m c = some out := by
  induction p generalizing c with
  | pure a => exact h
  | bind p f ihp ihf =>
    obtain ⟨mid, hp, hf⟩ := Option.bind_eq_some_iff.mp h
    exact Option.bind_eq_some_iff.mpr ⟨mid, ihp hp, ihf mid.1 hf⟩
  | getTicks => exact h
  | waits expired => exact iterate_mono (fun _ _ hstep => hstep) h hle
  | polls count => exact h
  | loop body s ih => exact iterate_mono (loopStep_mono fun s _ _ hrun => ih s hrun) h hle

theorem Code.Runs.unique {a b : α × Clock} (ha : p.Runs w c a) (hb : p.Runs w c b) : a = b := by
  obtain ⟨n, hn⟩ := ha
  obtain ⟨m, hm⟩ := hb
  exact Option.some.inj ((run_mono hn (le_max_left n m)).symm.trans
    (run_mono hm (le_max_right n m)))

theorem runs_bind {out : β × Clock} : (p.bind f).Runs w c out ↔
    ∃ mid, p.Runs w c mid ∧ (f mid.1).Runs w mid.2 out := by
  constructor
  · rintro ⟨n, h⟩
    obtain ⟨mid, hp, hf⟩ := Option.bind_eq_some_iff.mp h
    exact ⟨mid, ⟨n, hp⟩, n, hf⟩
  · rintro ⟨mid, ⟨n, hp⟩, m, hf⟩
    exact ⟨max n m, Option.bind_eq_some_iff.mpr
      ⟨mid, run_mono hp (le_max_left n m), run_mono hf (le_max_right n m)⟩⟩

/-- Without interrupts a wait that has not expired ends when the device answers. -/
theorem iterate_ne_none_iff {expired : UInt64 → Bool} (hopen : expired c.ticks = false) :
    iterate (waitStep w false expired) n c ≠ none ↔ ∃ k < n, w.answer (c.polls + k) ≠ none := by
  induction n generalizing c with
  | zero => simp [iterate]
  | succ n ih =>
    rw [Nat.exists_lt_succ_left]
    cases hanswer : w.answer c.polls with
    | some answer => simp [iterate, waitStep, hanswer]
    | none =>
      have hstep : waitStep w false expired c = some (.inl (c.poll w false)) := by
        simp [waitStep, hanswer, Clock.poll, hopen]
      simpa [iterate, hstep, hanswer, Clock.poll, Nat.add_assoc, Nat.add_comm 1] using
        ih (c := c.poll w false) hopen

theorem waits_iff {expired : UInt64 → Bool} :
    (∃ out, (Code.waits expired).Runs w c out) ↔ (Code.waits expired).Ends w c := by
  cases hexpired : expired c.ticks with
  | true =>
    refine iff_of_true ?_ (.inl hexpired)
    suffices h : ∃ out, iterate (waitStep w false expired) 1 c = some out from
      h.imp fun out hout => ⟨1, hout⟩
    cases hanswer : w.answer c.polls <;> simp [iterate, waitStep, hanswer, Clock.poll, hexpired]
  | false =>
    constructor
    · rintro ⟨out, n, h⟩
      obtain ⟨k, -, hk⟩ := (iterate_ne_none_iff hexpired).mp (Option.ne_none_iff_exists'.mpr ⟨_, h⟩)
      exact .inr ⟨k, hk⟩
    · rintro (hold | ⟨k, hk⟩)
      · cases hexpired.symm.trans hold
      · obtain ⟨out, hout⟩ := Option.ne_none_iff_exists'.mp
          ((iterate_ne_none_iff hexpired).mpr ⟨k, Nat.lt_succ_self k, hk⟩)
        exact ⟨out, k + 1, hout⟩

section

variable {body : σ → Code (σ ⊕ α)} {s : σ} {t t' : σ × Clock} {out : α × Clock}

theorem runs_loop_last {a : α} (h : (body s).Runs w c (.inr a, c')) :
    (Code.loop body s).Runs w c (a, c') := by
  obtain ⟨n, h⟩ := h
  refine ⟨n + 1, ?_⟩
  rw [Code.run, iterate, loopStep, run_mono h (Nat.le_succ n)]
  rfl

theorem runs_loop_next (h : Round w body t t') (hrest : (Code.loop body t'.1).Runs w t'.2 out) :
    (Code.loop body t.1).Runs w t.2 out := by
  obtain ⟨n, h⟩ := h
  obtain ⟨m, hrest⟩ := hrest
  refine ⟨max n m + 1, ?_⟩
  rw [Code.run, iterate, loopStep, run_mono h (Nat.le_succ_of_le (le_max_left n m))]
  exact iterate_mono (loopStep_mono fun _ _ _ hrun =>
    run_mono hrun (Nat.le_succ_of_le (le_max_right n m))) hrest (le_max_right n m)

theorem loop_iff (hbody : ∀ s c, (∃ out, (body s).Runs w c out) ↔ (body s).Ends w c) :
    (∃ out, (Code.loop body s).Runs w c out) ↔ (Code.loop body s).Ends w c := by
  constructor
  · rintro ⟨out, n, h⟩
    suffices hall : ∀ k t, iterate (loopStep fun s c => (body s).run w false n c) k t = some out →
        (∀ t', ReflTransGen (Round w body) t t' → (body t'.1).Ends w t'.2) ∧
          Acc (fun t' t => Round w body t t') t from hall n (s, c) h
    -- a round has at most one successor, from which fewer rounds are left
    intro k
    induction k with
    | zero => intro t h; cases h
    | succ k ih =>
      intro t h
      obtain ⟨turn, hstep, hturn⟩ := Option.bind_eq_some_iff.mp h
      obtain ⟨mid, hrun, rfl⟩ := Option.map_eq_some_iff.mp hstep
      have hruns : (body t.1).Runs w t.2 mid := ⟨n, hrun⟩
      have hnext : ∀ t', Round w body t t' → _ := fun t' hround => ih t' (by
        obtain rfl := hround.unique hruns
        exact hturn)
      refine ⟨fun t' hreach => ?_, .intro t fun t' hround => (hnext t' hround).2⟩
      rcases hreach.cases_head with rfl | ⟨t₁, hround, hrest⟩
      · exact (hbody _ _).mp ⟨mid, hruns⟩
      · exact (hnext t₁ hround).1 t' hrest
  · rintro ⟨hreach, hacc⟩
    suffices hall : ∀ t, Acc (fun t' t => Round w body t t') t →
        (∀ t', ReflTransGen (Round w body) t t' → (body t'.1).Ends w t'.2) →
          ∃ out, (Code.loop body t.1).Runs w t.2 out from hall (s, c) hacc hreach
    intro t hacc
    induction hacc with
    | intro t _ ih =>
      intro hreach
      obtain ⟨⟨turn, c'⟩, hruns⟩ := (hbody _ _).mpr (hreach t .refl)
      cases turn with
      | inl s' =>
        have hround : Round w body t (s', c') := hruns
        obtain ⟨out, hout⟩ := ih (s', c') hround fun t' hrest => hreach t' (.head hround hrest)
        exact ⟨out, runs_loop_next hround hout⟩
      | inr a => exact ⟨(a, c'), runs_loop_last hruns⟩

end

theorem runs_iff_ends (p : Code α) (c : Clock) : (∃ out, p.Runs w c out) ↔ p.Ends w c := by
  induction p generalizing c with
  | pure a => exact iff_of_true ⟨(a, c), 0, rfl⟩ trivial
  | bind p f ihp ihf =>
    simp only [runs_bind, Code.Ends, ← ihp, ← ihf]
    constructor
    · rintro ⟨out, mid, hp, hf⟩
      exact ⟨⟨mid, hp⟩, fun mid' hp' => ⟨out, hp.unique hp' ▸ hf⟩⟩
    · rintro ⟨⟨mid, hp⟩, hf⟩
      obtain ⟨out, hout⟩ := hf mid hp
      exact ⟨out, mid, hp, hout⟩
  | getTicks => exact iff_of_true ⟨(c.ticks, c), 0, rfl⟩ trivial
  | waits expired => exact waits_iff
  | polls count => exact iff_of_true ⟨_, 0, rfl⟩ trivial
  | loop body s ih => exact loop_iff ih

def succeeded (answer : Option Answer) : Bool := answer.elim false Answer.ok

/-- The loop over the descriptors behind the configuration descriptor. -/
def walkDescriptors (buf : ℕ → UInt8) : Code Unit :=
  .loop (fun ptr => .pure (if ptr < total buf then .inl (ptr + (buf ptr).toNat)
    else .inr ())) (buf 0).toNat

/-- `while (pit_get_ticks() < deadline)` around the poll, `timeout` ticks from now. -/
def pollWithin (timeout : UInt64) : Code (Option Answer) := do
  let deadline := (← .getTicks) + timeout
  if (← .getTicks) < deadline then .waits (deadline ≤ ·) else pure none

def xhciWaitCommand : Code (Option Answer) := pollWithin 5000

def usbControlTransfer : Code (Option Answer) := pollWithin 5000

def usbEnumerateDevice : Code Int32 := do
  if succeeded (← pollWithin 250) then
    if succeeded (← xhciWaitCommand) then
      if succeeded (← xhciWaitCommand) then
        let _ ← usbControlTransfer
        let _ ← usbControlTransfer
        let config ← usbControlTransfer
        if succeeded config then walkDescriptors (config.elim (fun _ => 0) Answer.data)
        pure 0
      else pure (-1)
    else pure (-1)
  else pure (-1)

theorem round_walk {buf : ℕ → UInt8} {t t' : ℕ × Clock} :
    Round w (fun ptr => .pure (if ptr < total buf then .inl (ptr + (buf ptr).toNat)
      else (.inr () : ℕ ⊕ Unit))) t t' ↔
    t.1 < total buf ∧ t' = (t.1 + (buf t.1).toNat, t.2) := by
  simp only [Round, Code.Runs, Code.run, exists_const, Option.some.injEq, Prod.mk.injEq]
  split <;> simp_all [Prod.ext_iff, eq_comm]

/-- The descriptors are passed exactly if none that is visited has length zero. -/
theorem walkDescriptors_ends_iff (buf : ℕ → UInt8) :
    (walkDescriptors buf).Ends w c ↔ ∀ ptr, Visited buf ptr → buf ptr ≠ 0 := by
  simp only [walkDescriptors, Code.Ends, implies_true, true_and, round_walk]
  generalize hR : (fun t' t : ℕ × Clock => t.1 < total buf ∧ t' = (t.1 + (buf t.1).toNat, t.2)) = R
  have hnext : ∀ ptr t, R t (ptr, c) ↔ ptr < total buf ∧ t = (ptr + (buf ptr).toNat, c) := by
    simp [← hR]
  have hirrefl : ∀ t, Acc R t → ¬ R t t := fun t hacc => by
    induction hacc with
    | intro t _ ih => exact fun hself => ih t hself hself
  constructor
  · intro hacc ptr hvisited
    have hptr : ptr < total buf ∧ Acc R (ptr, c) := by
      induction hvisited with
      | first hlt => exact ⟨hlt, hacc⟩
      | next _ hlt ih => exact ⟨hlt, ih.2.inv ((hnext _ _).mpr ⟨ih.1, rfl⟩)⟩
    exact fun hz => hirrefl _ hptr.2 ((hnext ptr _).mpr ⟨hptr.1, by simp [hz]⟩)
  · intro hall
    suffices h : ∀ n ptr, total buf - ptr = n → (ptr < total buf → Visited buf ptr) →
        Acc R (ptr, c) from h _ _ rfl .first
    intro n
    induction n using Nat.strongRecOn with
    | _ n ih =>
      refine fun ptr hn hvisited => .intro _ fun t ht => ?_
      obtain ⟨hlt, rfl⟩ := (hnext ptr t).mp ht
      have hpos : 0 < (buf ptr).toNat :=
        Nat.pos_of_ne_zero fun h => hall ptr (hvisited hlt) (UInt8.toNat_inj.mp h)
      exact ih _ (by omega) _ rfl fun hmore => (hvisited hlt).next hmore

@[simp] theorem run_bind (p : Code α) (f : α → Code β) : (p >>= f).run w interrupts n c =
    (p.run w interrupts n c).bind fun out => (f out.1).run w interrupts n out.2 := rfl

@[simp] theorem run_pure (a : α) : (pure a : Code α).run w interrupts n c = some (a, c) := rfl

section

variable {data : ℕ → ℕ → UInt8} (hdata : ∀ n, w.answer n = some ⟨true, data n⟩)
include hdata

theorem run_pollWithin {timeout : UInt64} (hlater : c.ticks < c.ticks + timeout) :
    (pollWithin timeout).run w false (n + 1) c =
      some (some ⟨true, data c.polls⟩, ⟨c.ticks, c.polls + 1⟩) := by
  simp [pollWithin, Code.run, hlater, iterate, waitStep, hdata, Clock.poll]

/-- A device that answers every poll with success is enumerated exactly if no descriptor that is
visited has length zero. -/
theorem usbEnumerateDevice_ends_iff (hticks : c.ticks < c.ticks + 250)
    (hticks' : c.ticks < c.ticks + 5000) : usbEnumerateDevice.Ends w c ↔
      ∀ ptr, Visited (data (c.polls + 5)) ptr → data (c.polls + 5) ptr ≠ 0 := by
  rw [← walkDescriptors_ends_iff (w := w) (c := ⟨c.ticks, c.polls + 6⟩), ← runs_iff_ends,
    ← runs_iff_ends]
  have hrun : ∀ n, usbEnumerateDevice.run w false (n + 1) c =
      ((walkDescriptors (data (c.polls + 5))).run w false (n + 1) ⟨c.ticks, c.polls + 6⟩).map
        (fun out => (0, out.2)) := by
    intro n
    simp only [usbEnumerateDevice, xhciWaitCommand, usbControlTransfer, run_bind,
      run_pollWithin hdata, hticks, hticks', succeeded, Option.bind_some, if_true,
      Option.elim_some, run_pure]
    cases (walkDescriptors (data (c.polls + 5))).run w false (n + 1) ⟨c.ticks, c.polls + 6⟩ <;> rfl
  constructor
  · rintro ⟨out, n, hout⟩
    have hmore := (hrun n).symm.trans (run_mono hout (Nat.le_succ n))
    obtain ⟨mid, hmid, -⟩ := Option.map_eq_some_iff.mp hmore
    exact ⟨mid, n + 1, hmid⟩
  · rintro ⟨out, n, hout⟩
    exact ⟨(0, out.2), n + 1, by rw [hrun, run_mono hout (Nat.le_succ n)]; rfl⟩

end

end NexusKernel.DriverProbing
