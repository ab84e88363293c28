import Mathlib.Data.List.Range

/-!
Counted loops over an explicit state, with and without early exit, and their invariant rules. A
loop body receives the counter and the state.
-/

namespace NexusKernel.Lib.Loops

variable {σ : Type*}

/-- `for (i = 0; i < n; i++) s = body i s`. -/
def forUpTo (body : ℕ → σ → σ) : ℕ → σ → σ
  | 0, s => s
  | n + 1, s => body n (forUpTo body n s)

@[simp] theorem forUpTo_zero (body : ℕ → σ → σ) (s : σ) : forUpTo body 0 s = s := rfl

theorem forUpTo_succ (body : ℕ → σ → σ) (n : ℕ) (s : σ) :
    forUpTo body (n + 1) s = body n (forUpTo body n s) := rfl

variable {s : σ} {n : ℕ}

/-- A property indexed by the finished iterations, true on entry and advanced by each, holds at
the end. -/
theorem forUpTo_invariant {body : ℕ → σ → σ} (P : ℕ → σ → Prop)
    (hst : P 0 s) (hstep : ∀ i t, i < n → P i t → P (i + 1) (body i t)) :
    P n (forUpTo body n s) := by
  induction n with
  | zero => exact hst
  | succ n ih =>
    have hprefix : P n (forUpTo body n s) := ih fun i t hi ht => hstep i t (Nat.lt_succ_of_lt hi) ht
    exact hstep n _ (Nat.lt_succ_self n) hprefix

/-- The same loop, left as soon as an iteration reports `false`. -/
def forWhile (body : ℕ → σ → σ × Bool) : ℕ → σ → σ × Bool
  | 0, s => (s, true)
  | n + 1, s =>
      if (forWhile body n s).2 then body n (forWhile body n s).1 else forWhile body n s

variable {body : ℕ → σ → σ × Bool}

/-- A property indexed by a count that an iteration raises by at most one, and by one if the loop
goes on. -/
theorem forWhile_indexed (P : ℕ → σ → Prop) (hst : P 0 s)
    (hstep : ∀ i t, i < n → P i t → ∃ j ≤ i + 1, ((body i t).2 = true → j = i + 1) ∧
      P j (body i t).1) :
    ∃ i ≤ n, ((forWhile body n s).2 = true → i = n) ∧ P i (forWhile body n s).1 := by
  induction n with
  | zero => exact ⟨0, Nat.le_refl 0, fun _ => rfl, hst⟩
  | succ n ih =>
    obtain ⟨i, hi, hdone, hpre⟩ := ih fun i t hi ht => hstep i t (Nat.lt_succ_of_lt hi) ht
    unfold forWhile
    split
    · rename_i hgoing
      obtain rfl := hdone hgoing
      exact hstep i _ (Nat.lt_succ_self i) hpre
    · rename_i hleft
      exact ⟨i, Nat.le_succ_of_le hi, fun hgoing => absurd hgoing hleft, hpre⟩

/-- A property indexed by the number of finished iterations, however the loop is
left. -/
theorem forWhile_counted (P : ℕ → σ → Prop)
    (hst : P 0 s) (hstep : ∀ i t, i < n → P i t → P (i + 1) (body i t).1) :
    ∃ i ≤ n, ((forWhile body n s).2 = true → i = n) ∧ P i (forWhile body n s).1 := by
  exact forWhile_indexed P hst fun i t hi ht => ⟨i + 1, Nat.le_refl (i + 1), fun _ => rfl,
    hstep i t hi ht⟩

/-- An invariant of every iteration survives the loop. -/
theorem forWhile_invariant (P : σ → Prop)
    (hst : P s) (hstep : ∀ i t, i < n → P t → P (body i t).1) : P (forWhile body n s).1 := by
  obtain ⟨_, _, _, hend⟩ := forWhile_counted (fun _ => P) hst hstep
  exact hend

/-- A property indexed by the iterations that did not report `false`. -/
theorem forWhile_successes (P : ℕ → σ → Prop)
    (hst : P 0 s) (hgo : ∀ i t, P i t → (body i t).2 = true → P (i + 1) (body i t).1)
    (hstop : ∀ i t, P i t → (body i t).2 = false → P i (body i t).1) :
    ∃ i ≤ n, ((forWhile body n s).2 = true → i = n) ∧ P i (forWhile body n s).1 := by
  refine forWhile_indexed P hst fun i t _ ht => ?_
  cases hlast : (body i t).2 with
  | true => exact ⟨i + 1, Nat.le_refl (i + 1), fun _ => rfl, hgo i t ht hlast⟩
  | false => exact ⟨i, Nat.le_succ i, fun h => Bool.noConfusion h, hstop i t ht hlast⟩

/-- A loop none of whose iterations reports `false` runs to its end. -/
theorem forWhile_complete (body : ℕ → σ → σ × Bool) (P : ℕ → σ → Prop)
    (hst : P 0 s) (hstep : ∀ i t, i < n → P i t → (body i t).2 = true ∧ P (i + 1) (body i t).1) :
    (forWhile body n s).2 = true ∧ P n (forWhile body n s).1 := by
  induction n with
  | zero => exact ⟨rfl, hst⟩
  | succ n ih =>
    obtain ⟨hgoing, hprefix⟩ := ih fun i t hi ht => hstep i t (Nat.lt_succ_of_lt hi) ht
    rw [forWhile, if_pos hgoing]
    exact hstep n _ (Nat.lt_succ_self n) hprefix

/-- What holds after every `false` iteration holds when the loop was left. -/
theorem forWhile_left (Q : σ → Prop)
    (hstop : ∀ i t, (body i t).2 = false → Q (body i t).1) (hleft : (forWhile body n s).2 = false) :
    Q (forWhile body n s).1 := by
  induction n with
  | zero => exact Bool.noConfusion hleft
  | succ n ih =>
    unfold forWhile at hleft ⊢
    split at hleft
    · rename_i hgoing
      rw [if_pos hgoing]
      exact hstop _ _ hleft
    · rename_i hstopped
      rw [if_neg hstopped]
      exact ih (by simpa using hstopped)

theorem forWhile_first (hstop : (body 0 s).2 = false) (n : ℕ) :
    forWhile body (n + 1) s = body 0 s := by
  induction n with
  | zero => rfl
  | succ n ih => rw [forWhile, ih, if_neg (by simp [hstop])]

def forEachWhile {α : Type*} (body : α → σ → σ × Bool) : List α → σ → σ × Bool
  | [], s => (s, true)
  | a :: rest, s => if (body a s).2 then forEachWhile body rest (body a s).1 else body a s

section

variable {α : Type*} {body : α → σ → σ × Bool}

theorem forEachWhile_append (as bs : List α) (s : σ) : forEachWhile body (as ++ bs) s =
    if (forEachWhile body as s).2 then forEachWhile body bs (forEachWhile body as s).1
    else forEachWhile body as s := by
  induction as generalizing s with
  | nil => rfl
  | cons a as ih =>
    simp only [List.cons_append, forEachWhile]
    by_cases hgoing : (body a s).2 = true
    · simpa only [hgoing, if_true] using ih (body a s).1
    · simp [hgoing]

theorem forEachWhile_singleton (a : α) (s : σ) : forEachWhile body [a] s = body a s := by
  simp only [forEachWhile]
  split
  · rename_i hgoing
    exact Prod.ext rfl hgoing.symm
  · rfl

/-- A counted loop whose rounds only look up a member of a list. -/
theorem forWhile_eq_forEachWhile (member : ℕ → α) (n : ℕ) (s : σ) :
    forWhile (fun i => body (member i)) n s = forEachWhile body ((List.range n).map member) s := by
  induction n with
  | zero => rfl
  | succ n ih =>
    rw [List.range_succ, List.map_append, forEachWhile_append, ← ih, List.map_cons, List.map_nil,
      forEachWhile_singleton]
    rfl

theorem forEachWhile_filter (keep : α → Bool) (as : List α) (s : σ) :
    forEachWhile (fun a s => if keep a then body a s else (s, true)) as s =
      forEachWhile body (as.filter keep) s := by
  induction as generalizing s with
  | nil => rfl
  | cons a as ih =>
    cases hkeep : keep a with
    | true | false => simp [forEachWhile, hkeep, ih]

/-- A property indexed by the members still to come, however the loop is left. -/
theorem forEachWhile_invariant (body : α → σ → σ × Bool) (P : ℕ → σ → Prop) (as : List α)
    (hst : P as.length s) (hstep : ∀ n a t, a ∈ as → P (n + 1) t → P n (body a t).1) :
    ∃ n, P n (forEachWhile body as s).1 := by
  induction as generalizing s with
  | nil => exact ⟨0, hst⟩
  | cons a as ih =>
    have hnext := hstep as.length a s List.mem_cons_self hst
    unfold forEachWhile
    split
    · exact ih hnext fun n b t hb => hstep n b t (List.mem_cons_of_mem a hb)
    · exact ⟨as.length, hnext⟩

end

end NexusKernel.Lib.Loops
