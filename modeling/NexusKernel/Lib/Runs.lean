import Mathlib.Logic.Relation

/-!
Runs of a system given by its step relation: what every step keeps, every run
keeps.
-/

namespace NexusKernel.Lib.Runs

variable {σ : Type*} {Step : σ → σ → Prop}

abbrev Reachable (Step : σ → σ → Prop) (s t : σ) : Prop := Relation.ReflTransGen Step s t

theorem Reachable.invariant {s t : σ} (Inv : σ → Prop)
    (hstep : ∀ a b, Inv a → Step a b → Inv b) (hst : Inv s)
    (hrun : Reachable Step s t) : Inv t := by
  induction hrun with
  | refl => exact hst
  | tail _ hlast ih => exact hstep _ _ ih hlast

def runEvents {ε : Type*} (allowed : σ → ε → Prop) [∀ s e, Decidable (allowed s e)]
    (advance : σ → ε → Option σ) (s : σ) : List ε → Option σ
  | [] => some s
  | e :: rest =>
      if allowed s e then (advance s e).bind (fun s => runEvents allowed advance s rest) else none

theorem reachable_of_runEvents {ε : Type*} {allowed : σ → ε → Prop} [∀ s e, Decidable (allowed s e)]
    {advance : σ → ε → Option σ} {s t : σ} {events : List ε}
    (h : runEvents allowed advance s events = some t) :
    Reachable (fun a b => ∃ e, allowed a e ∧ advance a e = some b) s t := by
  induction events generalizing s with
  | nil =>
    cases h
    exact .refl
  | cons e rest ih =>
    rw [runEvents] at h
    split at h
    · rename_i hallowed
      obtain ⟨s', hadvance, hrest⟩ := Option.bind_eq_some_iff.mp h
      exact (ih hrest).head ⟨e, hallowed, hadvance⟩
    · simp at h

end NexusKernel.Lib.Runs
