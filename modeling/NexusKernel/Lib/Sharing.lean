import Mathlib.Data.Finset.Card

/-!
Objects shared by counted slots. A slot in use names at most one object and may allow writing to
it. `Shared` says that the counter of an object is never below the number of slots naming it, and
that a writable slot shares its object with no other.

The rules below keep `Shared` over what a copy-on-write scheme does: point a slot to a fresh
object, allow writing through a slot that is alone, copy slots without write permission, and drop
slots.
-/

namespace NexusKernel.Lib.Sharing

structure Slot (α : Type*) where
  target : Option α
  write : Bool

variable {ι α : Type*} [DecidableEq α]

def users (S : Finset ι) (slot : ι → Slot α) (a : α) : ℕ :=
  (S.filter fun x => (slot x).target = some a).card

def Exact (S : Finset ι) (slot : ι → Slot α) (count : α → ℕ) (covered : α → Prop) : Prop :=
  ∀ a, covered a → 0 < users S slot a → count a = users S slot a

structure Shared (S : Finset ι) (slot : ι → Slot α) (count : α → ℕ) (covered : α → Prop) :
    Prop where
  counted : ∀ a, covered a → users S slot a ≤ count a
  alone : ∀ x ∈ S, (slot x).write = true → ∀ a, (slot x).target = some a → users S slot a = 1

variable {S T : Finset ι} {slot slot' : ι → Slot α} {count count' : α → ℕ} {covered : α → Prop}
variable {a b : α} {x y : ι}

theorem users_pos (hx : x ∈ S) (ha : (slot x).target = some a) : 0 < users S slot a :=
  Finset.card_pos.mpr ⟨x, Finset.mem_filter.mpr ⟨hx, ha⟩⟩

theorem exists_of_users_pos (h : 0 < users S slot a) : ∃ x ∈ S, (slot x).target = some a := by
  obtain ⟨x, hx⟩ := Finset.card_pos.mp h
  exact ⟨x, (Finset.mem_filter.mp hx).1, (Finset.mem_filter.mp hx).2⟩

theorem eq_of_users_le_one (h : users S slot a ≤ 1) (hx : x ∈ S) (hy : y ∈ S)
    (hxa : (slot x).target = some a) (hya : (slot y).target = some a) : x = y :=
  Finset.card_le_one.mp h x (Finset.mem_filter.mpr ⟨hx, hxa⟩) y (Finset.mem_filter.mpr ⟨hy, hya⟩)

theorem users_singleton (x : ι) (slot : ι → Slot α) (a : α) :
    users {x} slot a = if (slot x).target = some a then 1 else 0 := by
  unfold users
  rw [Finset.filter_singleton]
  split <;> simp

theorem users_congr (h : ∀ x ∈ S, (slot' x).target = (slot x).target) (a : α) :
    users S slot' a = users S slot a := by
  apply congrArg Finset.card
  apply Finset.filter_congr
  intro x hx
  rw [h x hx]

theorem Shared.mono (h : Shared S slot count covered) (hsame : ∀ x ∈ S, slot' x = slot x)
    (hnum : ∀ a, covered a → 0 < users S slot a → count a ≤ count' a) :
    Shared S slot' count' covered := by
  have husers := users_congr fun x hx => congrArg Slot.target (hsame x hx)
  constructor
  · intro a ha
    rw [husers]
    have hcov := h.counted a ha
    by_cases hpos : 0 < users S slot a
    · exact hcov.trans (hnum a ha hpos)
    · omega
  · intro x hx hwrite a ha
    rw [hsame x hx] at hwrite ha
    rw [husers]
    exact h.alone x hx hwrite a ha

theorem Exact.mono (h : Exact S slot count covered) (hsame : ∀ x ∈ S, (slot' x).target =
      (slot x).target) (hnum : ∀ a, covered a → 0 < users S slot a → count' a = count a) :
    Exact S slot' count' covered := by
  intro a ha hpos
  rw [users_congr hsame] at hpos ⊢
  rw [hnum a ha hpos]
  exact h a ha hpos

variable [DecidableEq ι]

theorem users_union (hdisj : Disjoint S T) (slot : ι → Slot α) (a : α) :
    users (S ∪ T) slot a = users S slot a + users T slot a := by
  unfold users
  rw [Finset.filter_union, Finset.card_union_of_disjoint]
  exact Finset.disjoint_filter_filter hdisj

theorem users_sdiff (hsub : T ⊆ S) (slot : ι → Slot α) (a : α) :
    users S slot a = users (S \ T) slot a + users T slot a := by
  rw [← users_union Finset.sdiff_disjoint, Finset.sdiff_union_of_subset hsub]

section

variable (hx : x ∈ S) (hsame : ∀ y ∈ S, y ≠ x → slot' y = slot y)
include hx hsame

/-- When one slot changes, the counts move by what it named. -/
theorem users_change (a : α) : users S slot' a + users {x} slot a =
    users S slot a + users {x} slot' a := by
  have hrest : users (S \ {x}) slot' a = users (S \ {x}) slot a := by
    apply users_congr
    intro y hy
    obtain ⟨hyS, hyx⟩ := Finset.mem_sdiff.mp hy
    rw [hsame y hyS (by simpa using hyx)]
  rw [users_sdiff (Finset.singleton_subset_iff.mpr hx) slot',
    users_sdiff (Finset.singleton_subset_iff.mpr hx) slot]
  omega

/-- The counts after a slot is pointed to an object nobody names. -/
theorem users_retarget (hnew : (slot' x).target = some b) (hfresh : users S slot b = 0) :
    users S slot' b = 1 ∧ ∀ a, a ≠ b → users S slot' a + users {x} slot a = users S slot a := by
  have hmove := users_change hx hsame
  have hold : (slot x).target ≠ some b := by
    intro heq
    have := users_pos hx heq
    omega
  constructor
  · have hb := hmove b
    rw [users_singleton, users_singleton, if_neg hold, if_pos hnew] at hb
    omega
  · intro a hab
    have hx' : (slot' x).target ≠ some a := by
      rw [hnew]
      exact fun heq => hab (Option.some.inj heq).symm
    have ha := hmove a
    rw [users_singleton x slot', if_neg hx'] at ha
    omega

end

section

variable (h : Shared S slot count covered)
include h

/-- A slot is pointed to a fresh object; its old one may lose a count. -/
theorem Shared.retarget (hx : x ∈ S)
    (hsame : ∀ y ∈ S, y ≠ x → slot' y = slot y) (hnew : (slot' x).target = some b)
    (hfresh : users S slot b = 0) (hb : covered b → 0 < count' b)
    (hnum : ∀ a, covered a → a ≠ b → 0 < users S slot a → count a ≤ count' a + users {x} slot a) :
    Shared S slot' count' covered := by
  obtain ⟨hb', hmove⟩ := users_retarget hx hsame hnew hfresh
  constructor
  · intro a ha
    by_cases hab : a = b
    · subst a
      have := hb ha
      omega
    · have hcov := h.counted a ha
      have := hmove a hab
      by_cases hpos : 0 < users S slot a
      · have hle := hnum a ha hab hpos
        omega
      · omega
  · intro y hy hwrite a ha
    by_cases hyx : y = x
    · subst y
      obtain rfl : b = a := Option.some.inj (hnew.symm.trans ha)
      exact hb'
    · rw [hsame y hy hyx] at hwrite ha
      have hone := h.alone y hy hwrite a ha
      have hab : a ≠ b := by
        intro heq
        rw [heq] at hone
        omega
      -- No other slot names `a`, so the slot that moved did not.
      have hxa : (slot x).target ≠ some a := fun hxa =>
        hyx (eq_of_users_le_one (le_of_eq hone) hy hx ha hxa)
      have := hmove a hab
      rw [users_singleton, if_neg hxa] at this
      omega

/-- A slot with a single count may be given write permission. -/
theorem Shared.grant (hsame : ∀ y ∈ S, y ≠ x → slot' y = slot y)
    (hkeep : (slot' x).target = (slot x).target)
    (hlast : ∀ a, (slot x).target = some a → users S slot a ≤ 1) :
    Shared S slot' count covered := by
  have htgt : ∀ y ∈ S, (slot' y).target = (slot y).target := by
    intro y hy
    by_cases hyx : y = x
    · rw [hyx, hkeep]
    · rw [hsame y hy hyx]
  constructor
  · intro a ha
    rw [users_congr htgt]
    exact h.counted a ha
  · intro y hy hwrite a ha
    rw [users_congr htgt]
    rw [htgt y hy] at ha
    by_cases hyx : y = x
    · subst y
      have hle := hlast a ha
      have hpos := users_pos hy ha
      omega
    · rw [hsame y hy hyx] at hwrite
      exact h.alone y hy hwrite a ha

/-- The slots of `S` are partly copied to the new slots `T`, losing their write permission in both
places. -/
theorem Shared.copy (hdisj : Disjoint S T)
    (hold : ∀ x ∈ S, (slot' x).target = (slot x).target ∧ ((slot' x).write = true →
      (slot x).write = true)) (hnew : ∀ y ∈ T, (slot' y).write = true → (slot' y).target = none)
    (hsource : ∀ y ∈ T, ∀ a, (slot' y).target = some a → ∃ x ∈ S, (slot x).target = some a ∧
      (slot' x).write = false)
    (hnum : ∀ a, covered a → 0 < users S slot a → count a + users T slot' a ≤ count' a) :
    Shared (S ∪ T) slot' count' covered := by
  have husers : ∀ a, users (S ∪ T) slot' a = users S slot a + users T slot' a := by
    intro a
    rw [users_union hdisj, users_congr (fun x hx => (hold x hx).1)]
  constructor
  · intro a ha
    rw [husers]
    have hcov := h.counted a ha
    by_cases hpos : 0 < users S slot a
    · have hle := hnum a ha hpos
      omega
    · -- Nothing names `a` in the original, so nothing names it in the copy.
      have hnone : users T slot' a = 0 := by
        by_contra hne
        obtain ⟨y, hy, hya⟩ := exists_of_users_pos (Nat.pos_of_ne_zero hne)
        obtain ⟨z, hz, hza, _⟩ := hsource y hy a hya
        exact hpos (users_pos hz hza)
      omega
  · intro x hx hwrite a ha
    rcases Finset.mem_union.mp hx with hx | hx
    · obtain ⟨hkeep, hback⟩ := hold x hx
      rw [hkeep] at ha
      have hone := h.alone x hx (hback hwrite) a ha
      have hnone : users T slot' a = 0 := by
        by_contra hpos
        obtain ⟨y, hy, hya⟩ := exists_of_users_pos (Nat.pos_of_ne_zero hpos)
        obtain ⟨z, hz, hza, hzw⟩ := hsource y hy a hya
        -- The copied slot is the only one with this object, and it was made read-only.
        obtain rfl := eq_of_users_le_one (le_of_eq hone) hx hz ha hza
        rw [hwrite] at hzw
        exact Bool.noConfusion hzw
      rw [husers, hone, hnone]
    · rw [hnew x hx hwrite] at ha
      cases ha

/-- Dropping slots, each giving up at most its counts. -/
theorem Shared.drop (hsub : T ⊆ S)
    (hnum : ∀ a, covered a → 0 < users (S \ T) slot a → count a - users T slot a ≤ count' a) :
    Shared (S \ T) slot count' covered := by
  constructor
  · intro a ha
    have hcov := h.counted a ha
    have hsplit := users_sdiff hsub slot a
    by_cases hpos : 0 < users (S \ T) slot a
    · have := hnum a ha hpos
      omega
    · omega
  · intro x hx hwrite a ha
    have hone := h.alone x (Finset.mem_sdiff.mp hx).1 hwrite a ha
    have hsplit := users_sdiff hsub slot a
    have hpos := users_pos hx ha
    omega

end

section

variable (h : Exact S slot count covered)
include h

theorem Exact.retarget (hx : x ∈ S)
    (hsame : ∀ y ∈ S, y ≠ x → slot' y = slot y) (hnew : (slot' x).target = some b)
    (hfresh : users S slot b = 0) (hb : covered b → count' b = 1)
    (hnum : ∀ a, covered a → a ≠ b → 0 < users S slot a → count a = count' a + users {x} slot a) :
    Exact S slot' count' covered := by
  obtain ⟨hone, hmove⟩ := users_retarget hx hsame hnew hfresh
  intro a ha hpos
  by_cases hab : a = b
  · subst a
    rw [hb ha, hone]
  · have hchange := hmove a hab
    have hpre : 0 < users S slot a := by omega
    have hcounted := hnum a ha hab hpre
    have hexact := h a ha hpre
    omega

theorem Exact.copy (hdisj : Disjoint S T) (hold : ∀ x ∈ S, (slot' x).target = (slot x).target)
    (hsource : ∀ y ∈ T, ∀ a, (slot' y).target = some a → 0 < users S slot a)
    (hnum : ∀ a, covered a → 0 < users S slot a → count' a = count a + users T slot' a) :
    Exact (S ∪ T) slot' count' covered := by
  intro a ha hpos
  rw [users_union hdisj, users_congr hold] at hpos ⊢
  have hpre : 0 < users S slot a := by
    by_contra hz
    obtain ⟨y, hy, hya⟩ := exists_of_users_pos (show 0 < users T slot' a by omega)
    exact hz (hsource y hy a hya)
  rw [hnum a ha hpre, h a ha hpre]

theorem Exact.drop (hsub : T ⊆ S)
    (hnum : ∀ a, covered a → 0 < users (S \ T) slot a → count' a = count a - users T slot a) :
    Exact (S \ T) slot count' covered := by
  intro a ha hpos
  have hsplit := users_sdiff hsub slot a
  have hexact := h a ha (by omega)
  rw [hnum a ha hpos]
  omega

end

end NexusKernel.Lib.Sharing
