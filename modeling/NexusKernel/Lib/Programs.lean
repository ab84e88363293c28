/-!
Programs that ask questions of the system they run in and go on with the answers. A program may
get stuck, after a fault or out of fuel. Under a system that always answers alike, it has a result
and a list of questions asked.
-/

namespace NexusKernel.Lib.Programs

inductive Program (Q A α : Type) where
  | done (result : α)
  | stuck
  | ask (q : Q) (next : A → Program Q A α)

variable {Q A α β : Type}

namespace Program

def bind : Program Q A α → (α → Program Q A β) → Program Q A β
  | done a, f => f a
  | stuck, _ => stuck
  | ask q next, f => ask q (fun answer => (next answer).bind f)

instance : Monad (Program Q A) where
  pure := done
  bind := bind

variable (answer : Q → A)

/-- The result, unless the program gets stuck. -/
def run : Program Q A α → Option α
  | done a => some a
  | stuck => none
  | ask q next => (next (answer q)).run

def asked : Program Q A α → List Q
  | done _ => []
  | stuck => []
  | ask q next => q :: (next (answer q)).asked

@[simp] theorem run_pure (a : α) : (pure a : Program Q A α).run answer = some a := rfl

@[simp] theorem run_stuck : (stuck : Program Q A α).run answer = none := rfl

@[simp] theorem run_ask (q : Q) (next : A → Program Q A α) :
    (ask q next).run answer = (next (answer q)).run answer := rfl

@[simp] theorem asked_pure (a : α) : (pure a : Program Q A α).asked answer = [] := rfl

@[simp] theorem asked_stuck : (stuck : Program Q A α).asked answer = [] := rfl

@[simp] theorem asked_ask (q : Q) (next : A → Program Q A α) :
    (ask q next).asked answer = q :: (next (answer q)).asked answer := rfl

@[simp] theorem run_bind (p : Program Q A α) (f : α → Program Q A β) :
    (p >>= f).run answer = (p.run answer).bind (fun a => (f a).run answer) := by
  induction p with
  | done a => rfl
  | stuck => rfl
  | ask q next ih => exact ih (answer q)

variable {p : Program Q A α} {f : α → Program Q A β}

/-- The questions of two programs in sequence: those of the second depend on the first's result. -/
theorem mem_asked_bind {q : Q} : q ∈ (p >>= f).asked answer ↔
    q ∈ p.asked answer ∨ ∃ a, p.run answer = some a ∧ q ∈ (f a).asked answer := by
  change q ∈ (p.bind f).asked answer ↔ _
  induction p with
  | done a =>
    constructor
    · exact fun hq => .inr ⟨a, rfl, hq⟩
    · rintro (hq | ⟨b, hb, hq⟩)
      · exact absurd hq List.not_mem_nil
      · cases hb
        exact hq
  | stuck =>
    constructor
    · exact fun hq => absurd hq List.not_mem_nil
    · rintro (hq | ⟨b, hb, -⟩)
      · exact hq
      · exact absurd hb (by simp [run])
  | ask q' next ih =>
    simp only [bind, asked, run, List.mem_cons, ih (answer q'), or_assoc]

def Asks (P : Q → Prop) (p : Program Q A α) : Prop := ∀ q ∈ p.asked answer, P q

variable {answer} {P : Q → Prop}

@[simp] theorem asks_pure (a : α) : (pure a : Program Q A α).Asks answer P :=
  fun _ hq => absurd hq List.not_mem_nil

@[simp] theorem asks_stuck : (stuck : Program Q A α).Asks answer P :=
  fun _ hq => absurd hq List.not_mem_nil

variable {c : Prop} {p p' : Program Q A α}

theorem asks_ite [Decidable c] (hp : c → p.Asks answer P)
    (hp' : ¬ c → p'.Asks answer P) : (if c then p else p').Asks answer P := by
  split
  · exact hp ‹c›
  · exact hp' ‹¬ c›

theorem asks_guard [Decidable c] {a : α} (hp : ¬ c → p.Asks answer P) :
    (if c then pure a else p).Asks answer P := asks_ite (fun _ => asks_pure a) hp

theorem asks_bind : (p >>= f).Asks answer P ↔
    p.Asks answer P ∧ ∀ a, p.run answer = some a → (f a).Asks answer P := by
  constructor
  · intro h
    exact ⟨fun q hq => h q ((mem_asked_bind answer).mpr (.inl hq)),
      fun a ha q hq => h q ((mem_asked_bind answer).mpr (.inr ⟨a, ha, hq⟩))⟩
  · rintro ⟨hfirst, hthen⟩ q hq
    rcases (mem_asked_bind answer).mp hq with hq | ⟨a, ha, hq⟩
    · exact hfirst q hq
    · exact hthen a ha q hq

def Ensures (answer : Q → A) (post : α → Prop) (p : Program Q A α) : Prop :=
    ∀ a, p.run answer = some a → post a

variable {post : α → Prop}

theorem ensures_pure {a : α} (h : post a) : (pure a : Program Q A α).Ensures answer post := by
  intro b hb
  cases hb
  exact h

theorem ensures_stuck : (stuck : Program Q A α).Ensures answer post := nofun

theorem ensures_ite [Decidable c] (hp : c → p.Ensures answer post)
    (hp' : ¬ c → p'.Ensures answer post) : (if c then p else p').Ensures answer post := by
  split
  · exact hp ‹c›
  · exact hp' ‹¬ c›

theorem ensures_bind {p : Program Q A β} {f : β → Program Q A α}
    (h : ∀ b, p.run answer = some b → (f b).Ensures answer post) :
    (p >>= f).Ensures answer post := by
  intro a ha
  rw [run_bind] at ha
  obtain ⟨b, hb, hfb⟩ := Option.bind_eq_some_iff.mp ha
  exact h b hb a hfb

end Program

end NexusKernel.Lib.Programs
