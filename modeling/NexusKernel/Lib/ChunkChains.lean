import Mathlib.Data.List.Basic

/-!
Linked chains of chunks of one length, up to an end mark. The bytes of a chain are those of its
chunks in order.
-/

namespace NexusKernel.Lib.ChunkChains

variable {α β : Type*}

section

variable (next : α → α) (Last : α → Prop)

def Follows : α → List α → Prop
  | c, [] => Last c
  | c, d :: rest => c = d ∧ ¬ Last d ∧ Follows (next d) rest

variable {next Last} {c d : α} {l rest : List α}

theorem Follows.cons (h : Follows next Last c l) (hne : l ≠ []) :
    ∃ rest, l = c :: rest ∧ ¬ Last c ∧ Follows next Last (next c) rest := by
  cases l with
  | nil => exact absurd rfl hne
  | cons d rest =>
    obtain ⟨rfl, hgoing, hrest⟩ := h
    exact ⟨rest, rfl, hgoing, hrest⟩

end

section

variable {chunk : α → List β} {b : ℕ} {l : List α}

/-- Behind the first `k` chunks come those of the rest. -/
theorem drop_chunks (h : ∀ a, (chunk a).length = b) (l : List α) (k : ℕ) (hk : k ≤ l.length) :
    (l.flatMap chunk).drop (k * b) = (l.drop k).flatMap chunk := by
  induction k generalizing l with
  | zero => rw [Nat.zero_mul, List.drop_zero, List.drop_zero]
  | succ k ih =>
    cases l with
    | nil => exact absurd hk (Nat.not_succ_le_zero k)
    | cons a rest =>
      rw [List.flatMap_cons, Nat.succ_mul, Nat.add_comm, ← List.drop_drop, List.drop_left' (h a)]
      exact ih rest (Nat.le_of_succ_le_succ hk)

theorem take_drop_append {o : ℕ} (first l : List β) (ho : o ≤ first.length) (n : ℕ) :
    ((first ++ l).drop o).take n =
    (first.drop o).take (min (first.length - o) n) ++ l.take (n - (first.length - o)) := by
  rw [List.drop_append_of_le_length ho, List.take_append, List.length_drop]
  congr 1
  rw [List.take_eq_take_iff, List.length_drop]
  omega

end

end NexusKernel.Lib.ChunkChains
