import Mathlib.Logic.Function.Basic

/-!
Computations that load from and store to a memory cell by cell. Over a flat memory a task touches
a list of cells and depends on no others. Over a state that may refuse accesses it ends as over
the flat memory unless one of its accesses is refused.
-/

namespace NexusKernel.Lib.MemoryTasks

open Function

inductive Task (A B α : Type) where
  | done (result : α)
  | load (addr : A) (next : B → Task A B α)
  | store (addr : A) (value : B) (next : Task A B α)

variable {A B α β σ : Type}

namespace Task

def bind : Task A B α → (α → Task A B β) → Task A B β
  | done a, f => f a
  | load a next, f => load a (fun b => (next b).bind f)
  | store a b next, f => store a b (next.bind f)

instance : Monad (Task A B) where
  pure := done
  bind := bind

def ReadOnly : Task A B α → Prop
  | done _ => True
  | load _ next => ∀ b, (next b).ReadOnly
  | store _ _ _ => False

variable {mem : A → B} {t : Task A B α}

theorem ReadOnly.bind {f : α → Task A B β} (ht : t.ReadOnly) (hf : ∀ a, (f a).ReadOnly) :
    (t >>= f).ReadOnly := by
  induction t with
  | done a => exact hf a
  | load a next ih => exact fun b => ih b (ht b)
  | store a b next ih => exact ht.elim

variable [DecidableEq A]

def run (mem : A → B) : Task A B α → α × (A → B)
  | done a => (a, mem)
  | load a next => (next (mem a)).run mem
  | store a b next => next.run (update mem a b)

/-- The accesses of a task in order, each with whether it is a store. -/
def accesses (mem : A → B) : Task A B α → List (A × Bool)
  | done _ => []
  | load a next => (a, false) :: (next (mem a)).accesses mem
  | store a b next => (a, true) :: next.accesses (update mem a b)

@[simp] theorem run_pure (mem : A → B) (a : α) : (pure a : Task A B α).run mem = (a, mem) := rfl

@[simp] theorem accesses_pure (mem : A → B) (a : α) : (pure a : Task A B α).accesses mem = [] := rfl

@[simp] theorem run_bind (mem : A → B) (t : Task A B α) (f : α → Task A B β) :
    (t >>= f).run mem = (f (t.run mem).1).run (t.run mem).2 := by
  induction t generalizing mem with
  | done a => rfl
  | load a next ih => exact ih (mem a) mem
  | store a b next ih => exact ih (update mem a b)

@[simp] theorem accesses_bind (mem : A → B) (t : Task A B α) (f : α → Task A B β) :
    (t >>= f).accesses mem = t.accesses mem ++ (f (t.run mem).1).accesses (t.run mem).2 := by
  induction t generalizing mem with
  | done a => rfl
  | load a next ih => exact congrArg _ (ih (mem a) mem)
  | store a b next ih => exact congrArg _ (ih (update mem a b))

theorem ReadOnly.run (ht : t.ReadOnly) (mem : A → B) : (t.run mem).2 = mem := by
  induction t with
  | done a => rfl
  | load a next ih => exact ih (mem a) (ht (mem a))
  | store a b next ih => exact ht.elim

/-- A task sees no more of the memory than the cells it touches. -/
theorem run_congr {mem' : A → B} (S : A → Prop)
    (hin : ∀ x ∈ t.accesses mem, S x.1) (hagree : ∀ a, S a → mem' a = mem a) :
    (t.run mem').1 = (t.run mem).1 ∧ ∀ a, S a → (t.run mem').2 a = (t.run mem).2 a := by
  induction t generalizing mem mem' with
  | done a => exact ⟨rfl, hagree⟩
  | load a next ih =>
    obtain ⟨ha, hnext⟩ := List.forall_mem_cons.mp hin
    simp only [run, hagree a ha]
    exact ih (mem a) hnext hagree
  | store a b next ih =>
    obtain ⟨_, hnext⟩ := List.forall_mem_cons.mp hin
    refine ih hnext fun c hc => ?_
    by_cases hca : c = a
    · simp [hca]
    · simpa [hca] using hagree c hc

def loads : List A → Task A B (List B)
  | [] => done []
  | a :: rest => load a (fun b => (loads rest).bind (fun bs => done (b :: bs)))

def stores : List (A × B) → Task A B Unit
  | [] => done ()
  | (a, b) :: rest => store a b (stores rest)

@[simp] theorem run_loads (mem : A → B) (addrs : List A) :
    (loads addrs).run mem = (addrs.map mem, mem) := by
  induction addrs with
  | nil => rfl
  | cons a rest ih =>
    have hstep := run_bind mem (loads rest) fun bs => done (mem a :: bs)
    rw [ih] at hstep
    exact hstep

@[simp] theorem accesses_loads (mem : A → B) (addrs : List A) :
    (loads addrs : Task A B (List B)).accesses mem = addrs.map (fun a => (a, false)) := by
  induction addrs with
  | nil => rfl
  | cons a rest ih =>
    have hstep := accesses_bind mem (loads rest) fun bs => done (mem a :: bs)
    rw [ih] at hstep
    exact congrArg ((a, false) :: ·) (hstep.trans (List.append_nil _))

@[simp] theorem accesses_stores (mem : A → B) (cells : List (A × B)) :
    (stores cells).accesses mem = cells.map (fun cell => (cell.1, true)) := by
  induction cells generalizing mem with
  | nil => rfl
  | cons cell rest ih => exact congrArg ((cell.1, true) :: ·) (ih (update mem cell.1 cell.2))

section

variable (get : σ → A → Option (B × σ)) (put : σ → A → B → Option σ)

def attempt : Task A B α → σ → Option (α × σ)
  | done a, s => some (a, s)
  | load a next, s => (get s a).bind (fun out => (next out.1).attempt out.2)
  | store a b next, s => (put s a b).bind next.attempt

/-- The accesses `ok` allows, of the cells in `D`, are those of a flat memory that the state
represents; others are refused. -/
structure Guarded (Rep : σ → (A → B) → Prop) (D : A → Prop) (ok : A × Bool → Prop) : Prop where
  load : ∀ s mem a, Rep s mem → D a → ok (a, false) → get s a = some (mem a, s)
  noLoad : ∀ s mem a, Rep s mem → D a → ¬ok (a, false) → get s a = none
  store : ∀ s mem a b, Rep s mem → D a → ok (a, true) → ∃ s', put s a b = some s' ∧
    Rep s' (update mem a b)
  noStore : ∀ s mem a b, Rep s mem → D a → ¬ok (a, true) → put s a b = none

variable {get put} {Rep : σ → (A → B) → Prop} {D : A → Prop} {ok : A × Bool → Prop} {s : σ}

theorem attempt_of_allowed (h : Guarded get put Rep D ok) (hrep : Rep s mem)
    (hallowed : ∀ x ∈ t.accesses mem, D x.1 ∧ ok x) :
    ∃ s', t.attempt get put s = some ((t.run mem).1, s') ∧ Rep s' (t.run mem).2 := by
  induction t generalizing s mem with
  | done a => exact ⟨s, rfl, hrep⟩
  | load a next ih =>
    obtain ⟨⟨hD, hok⟩, hnext⟩ := List.forall_mem_cons.mp hallowed
    simp only [attempt, h.load s mem a hrep hD hok]
    exact ih (mem a) hrep hnext
  | store a b next ih =>
    obtain ⟨⟨hD, hok⟩, hnext⟩ := List.forall_mem_cons.mp hallowed
    obtain ⟨s', hput, hrep'⟩ := h.store s mem a b hrep hD hok
    simp only [attempt, hput]
    exact ih hrep' hnext

theorem attempt_of_refused (h : Guarded get put Rep D ok) (hrep : Rep s mem)
    (hD : ∀ x ∈ t.accesses mem, D x.1)
    (href : ∃ x ∈ t.accesses mem, ¬ok x) : t.attempt get put s = none := by
  induction t generalizing s mem with
  | done a => simp [accesses] at href
  | load a next ih =>
    obtain ⟨ha, hnext⟩ := List.forall_mem_cons.mp hD
    by_cases hok : ok (a, false)
    · simp only [attempt, h.load s mem a hrep ha hok]
      refine ih (mem a) hrep hnext ?_
      simpa [accesses, hok] using href
    · simp [attempt, h.noLoad s mem a hrep ha hok]
  | store a b next ih =>
    obtain ⟨ha, hnext⟩ := List.forall_mem_cons.mp hD
    by_cases hok : ok (a, true)
    · obtain ⟨s', hput, hrep'⟩ := h.store s mem a b hrep ha hok
      simp only [attempt, hput]
      refine ih hrep' hnext ?_
      simpa [accesses, hok] using href
    · simp [attempt, h.noStore s mem a b hrep ha hok]

end

end Task

end NexusKernel.Lib.MemoryTasks
