import Mathlib.Data.Fintype.EquivFin

/-!
Loops that step from state to state until they return or fault. Over finitely many states, a loop
returns exactly if no state comes back and no fault is met.
-/

namespace NexusKernel.Lib.Iterations

variable {σ ρ : Type*}

def iterate (step : σ → Option (σ ⊕ ρ)) : ℕ → σ → Option ρ
  | 0, _ => none
  | n + 1, s => (step s).bind (Sum.elim (iterate step n) some)

def stateAt (step : σ → Option (σ ⊕ ρ)) (s : σ) : ℕ → Option σ
  | 0 => some s
  | n + 1 => (stateAt step s n).bind (fun t => (step t).bind Sum.getLeft?)

def Returns (step : σ → Option (σ ⊕ ρ)) (s : σ) : Prop := ∃ n r, iterate step n s = some r

def NeverRepeats (step : σ → Option (σ ⊕ ρ)) (s : σ) : Prop :=
  ∀ i j t, stateAt step s i = some t → stateAt step s j = some t → i = j

def NeverFaults (step : σ → Option (σ ⊕ ρ)) (s : σ) : Prop :=
  ∀ i t, stateAt step s i = some t → step t ≠ none

variable {step : σ → Option (σ ⊕ ρ)} {s t : σ} {i j : ℕ} {r : ρ}

theorem iterate_mono {step' : σ → Option (σ ⊕ ρ)} {m n : ℕ}
    (hturns : ∀ t turn, step t = some turn → step' t = some turn)
    (h : iterate step n s = some r) (hle : n ≤ m) : iterate step' m s = some r := by
  induction n generalizing s m with
  | zero => exact absurd h (by simp [iterate])
  | succ n ih =>
    obtain ⟨turn, hstep, hturn⟩ := Option.bind_eq_some_iff.mp h
    cases m with
    | zero => omega
    | succ m =>
      refine Option.bind_eq_some_iff.mpr ⟨turn, hturns s turn hstep, ?_⟩
      cases turn with
      | inl u => exact ih hturn (Nat.le_of_succ_le_succ hle)
      | inr r' => exact hturn

/-- What comes behind a state depends on the state only. -/
theorem stateAt_add (h : stateAt step s i = some t) (k : ℕ) :
    stateAt step s (i + k) = stateAt step t k := by
  induction k with
  | zero => exact h
  | succ k ih => rw [← Nat.add_assoc, stateAt, ih, stateAt]

theorem exists_stateAt_of_le (hle : i ≤ j) (h : stateAt step s j = some t) :
    ∃ u, stateAt step s i = some u := by
  induction j, hle using Nat.le_induction generalizing t with
  | base => exact ⟨t, h⟩
  | succ j _ ih =>
    obtain ⟨u, hu, -⟩ := Option.bind_eq_some_iff.mp h
    exact ih hu

theorem stateAt_one (h : step s = some (.inl t)) (n : ℕ) :
    stateAt step s (n + 1) = stateAt step t n := by
  have hfirst : stateAt step s 1 = some t := by simp [stateAt, h]
  rw [Nat.add_comm, stateAt_add hfirst]

theorem exists_step_of_stateAt (h : stateAt step s (i + 1) = some t) :
    ∃ u, step s = some (.inl u) ∧ stateAt step u i = some t := by
  obtain ⟨u, hu⟩ := exists_stateAt_of_le (Nat.le_add_left 1 i) h
  have hstep : (step s).bind Sum.getLeft? = some u := hu
  obtain ⟨turn, hturn, hleft⟩ := Option.bind_eq_some_iff.mp hstep
  obtain rfl := Sum.getLeft?_eq_some_iff.mp hleft
  exact ⟨u, hturn, (stateAt_one hturn i).symm.trans h⟩

/-- What holds of all states holds of the first and of those behind it. -/
theorem forall_stateAt_succ {P : σ → Prop} {n : ℕ} :
    (∀ i < n + 1, ∀ t, stateAt step s i = some t → P t) ↔
    P s ∧ ∀ u, step s = some (.inl u) → ∀ i < n, ∀ t, stateAt step u i = some t → P t := by
  constructor
  · intro h
    refine ⟨h 0 (Nat.succ_pos n) s rfl, fun u hu i hi t ht => ?_⟩
    exact h (i + 1) (Nat.succ_lt_succ hi) t ((stateAt_one hu i).trans ht)
  · rintro ⟨hfirst, hrest⟩ i hi t ht
    cases i with
    | zero => exact Option.some.inj ht ▸ hfirst
    | succ i =>
      obtain ⟨u, hturn, hu⟩ := exists_step_of_stateAt ht
      exact hrest u hturn i (Nat.lt_of_succ_lt_succ hi) t hu

theorem returns_iff_last : Returns step s ↔ ∃ n t r, stateAt step s n = some t ∧
    step t = some (.inr r) := by
  constructor
  · rintro ⟨n, r, h⟩
    induction n generalizing s with
    | zero => exact absurd h (by simp [iterate])
    | succ n ih =>
      obtain ⟨turn, hstep, hturn⟩ := Option.bind_eq_some_iff.mp h
      cases turn with
      | inl u =>
        obtain ⟨k, t, r', hlast, hreturn⟩ := ih hturn
        exact ⟨k + 1, t, r', (stateAt_one hstep k).trans hlast, hreturn⟩
      | inr r' => exact ⟨0, s, r', rfl, hstep⟩
  · rintro ⟨n, t, r, hlast, hreturn⟩
    induction n generalizing s with
    | zero =>
      cases hlast
      exact ⟨1, r, by simp [iterate, hreturn]⟩
    | succ n ih =>
      obtain ⟨u, hturn, hu⟩ := exists_step_of_stateAt hlast
      obtain ⟨k, r', hk⟩ := ih hu
      exact ⟨k + 1, r', by simp [iterate, hturn, hk]⟩

theorem stateAt_ne_some_of_end (hend : stateAt step s i = none) (hle : i ≤ j) :
    stateAt step s j ≠ some t := by
  intro h
  obtain ⟨u, hu⟩ := exists_stateAt_of_le hle h
  cases hend.symm.trans hu

theorem stateAt_after_return (hlast : stateAt step s i = some t)
    (hreturn : step t = some (.inr r)) : stateAt step s (i + 1) = none := by
  simp [stateAt, hlast, hreturn]

theorem returns_neverRepeats (h : Returns step s) : NeverRepeats step s := by
  obtain ⟨n, t, r, hlast, hreturn⟩ := returns_iff_last.mp h
  have hnone := stateAt_after_return hlast hreturn
  -- From two equal states on the rest of the loop is the same, so it does not end.
  have hlt : ∀ i j u, stateAt step s i = some u → stateAt step s j = some u → ¬ i < j := by
    intro i j u hi hj hij
    have hjn : j ≤ n := by
      by_contra hbeyond
      exact stateAt_ne_some_of_end hnone (Nat.lt_of_not_le hbeyond) hj
    have hshift : stateAt step s (i + (n + 1 - j)) = none := by
      rw [stateAt_add hi, ← stateAt_add hj, Nat.add_sub_cancel' (by omega), hnone]
    exact stateAt_ne_some_of_end hshift (by omega) hlast
  intro i j u hi hj
  have hij := hlt i j u hi hj
  have hji := hlt j i u hj hi
  omega

theorem not_returns_of_repeat (hi : stateAt step s i = some t) (hj : stateAt step s j = some t)
    (hne : i ≠ j) : ¬ Returns step s :=
  fun hreturns => hne (returns_neverRepeats hreturns i j t hi hj)

theorem returns_neverFaults (h : Returns step s) : NeverFaults step s := by
  obtain ⟨n, t, r, hlast, hreturn⟩ := returns_iff_last.mp h
  intro i u hi hfault
  have hend : stateAt step s (i + 1) = none := by
    simp [stateAt, hi, hfault]
  rcases Nat.lt_trichotomy i n with hless | rfl | hmore
  · exact stateAt_ne_some_of_end hend hless hlast
  · cases hi.symm.trans hlast
    cases hfault.symm.trans hreturn
  · exact stateAt_ne_some_of_end (stateAt_after_return hlast hreturn) hmore hi

theorem returns_iff [Finite σ] : Returns step s ↔ NeverRepeats step s ∧ NeverFaults step s := by
  constructor
  · exact fun h => ⟨returns_neverRepeats h, returns_neverFaults h⟩
  · rintro ⟨hrepeats, hfaults⟩
    by_contra hnot
    have hgoing : ∀ n, ∃ t, stateAt step s n = some t := by
      intro n
      induction n with
      | zero => exact ⟨s, rfl⟩
      | succ n ih =>
        obtain ⟨t, ht⟩ := ih
        obtain ⟨turn, hturn⟩ := Option.ne_none_iff_exists'.mp (hfaults n t ht)
        cases turn with
        | inl u => exact ⟨u, by simp [stateAt, ht, hturn]⟩
        | inr r => exact absurd (returns_iff_last.mpr ⟨n, t, r, ht, hturn⟩) hnot
    choose state hstate using hgoing
    refine not_injective_infinite_finite state ?_
    intro i j hij
    exact hrepeats i j (state i) (hstate i) (hij ▸ hstate j)

end NexusKernel.Lib.Iterations
