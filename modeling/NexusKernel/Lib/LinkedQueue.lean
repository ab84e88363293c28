import Mathlib.Data.List.Nodup

/-!
Queues linked through a field of their elements, with pointers to the first and the last element.
Several queues may share the field, one map from elements to successors; `Holds` says that a pair
of end pointers and this map represent a list. Each operation is described by the list it leaves
and by the elements it does not touch, so other queues keep theirs by `Holds.frame`.
-/

namespace NexusKernel.Lib.LinkedQueue

open Function

variable {K : Type*}

structure Ends (K : Type*) where
  head : Option K
  tail : Option K

/-- From `head` the successors run through the list and end with it. -/
def Linked (next : K → Option K) : Option K → List K → Prop
  | head, [] => head = none
  | head, t :: rest => head = some t ∧ Linked next (next t) rest

structure Holds (next : K → Option K) (q : Ends K) (l : List K) : Prop where
  linked : Linked next q.head l
  tail : q.tail = l.getLast?
  nodup : l.Nodup

variable {next next' : K → Option K} {q : Ends K} {head : Option K} {l pre rest : List K} {t p : K}
  {fuel : ℕ}

/-- A list depends on the successors of its own elements only. -/
theorem Linked.congr (h : Linked next head l) (hsame : ∀ x ∈ l, next' x = next x) :
    Linked next' head l := by
  induction l generalizing head with
  | nil => exact h
  | cons x rest ih =>
    refine ⟨h.1, ?_⟩
    rw [hsame x List.mem_cons_self]
    exact ih h.2 fun y hy => hsame y (List.mem_cons_of_mem x hy)

theorem Linked.head_eq (h : Linked next head l) : head = l.head? := by
  cases l with
  | nil => exact h
  | cons x rest => exact h.1

theorem Linked.unique {l' : List K} (h : Linked next head l)
    (h' : Linked next head l') : l = l' := by
  induction l generalizing head l' with
  | nil =>
    obtain rfl : head = none := h
    cases l' with
    | nil => rfl
    | cons x rest => exact absurd h'.1 (by simp)
  | cons x rest ih =>
    obtain ⟨rfl, hrest⟩ := h
    cases l' with
    | nil => exact absurd h' (Option.some_ne_none x)
    | cons y rest' =>
      obtain ⟨hxy, hrest'⟩ := h'
      cases hxy
      rw [ih hrest hrest']

theorem Holds.frame (h : Holds next q l) (hsame : ∀ x ∈ l, next' x = next x) : Holds next' q l :=
  ⟨h.linked.congr hsame, h.tail, h.nodup⟩

/-- Behind `p` the list may be exchanged by giving `p` another successor. -/
theorem Linked.relink {suffix : List K} (h : Linked next head (pre ++ p :: suffix))
    (hpre : ∀ x ∈ pre, next' x = next x) (hrest : Linked next' (next' p) rest) :
    Linked next' head (pre ++ p :: rest) := by
  induction pre generalizing head with
  | nil => exact ⟨h.1, hrest⟩
  | cons x pre ih =>
    refine ⟨h.1, ?_⟩
    rw [hpre x List.mem_cons_self]
    exact ih h.2 fun y hy => hpre y (List.mem_cons_of_mem x hy)

theorem Linked.drop (h : Linked next head (pre ++ p :: rest)) : Linked next (next p) rest := by
  induction pre generalizing head with
  | nil => exact h.2
  | cons x pre ih => exact ih h.2

/-- An element is taken out by giving the one before it its successor. -/
theorem Linked.skip (h : Linked next head (pre ++ p :: t :: rest))
    (hnodup : (pre ++ p :: t :: rest).Nodup)
    (hsame : ∀ x, x ≠ p → x ≠ t → next' x = next x) (hnext : next' p = next t) :
    Linked next' head (pre ++ p :: rest) := by
  obtain ⟨-, hsuffix, hdisj⟩ := List.nodup_append.mp hnodup
  obtain ⟨hp, ht⟩ := List.nodup_cons.mp hsuffix
  refine h.relink (fun x hx => hsame x (hdisj x hx p (by simp)) (hdisj x hx t (by simp))) ?_
  rw [hnext]
  refine h.drop.2.congr fun x hx => hsame x ?_ ?_
  · exact fun heq => hp (heq ▸ List.mem_cons_of_mem t hx)
  · exact fun heq => (List.nodup_cons.mp ht).1 (heq ▸ hx)

variable [DecidableEq K]

/-- Appending `t`: its successor is cleared, then it becomes the only element or the last one's
successor. -/
def push (next : K → Option K) (q : Ends K) (t : K) : (K → Option K) × Ends K :=
  match q.head, q.tail with
  | none, _ => (update next t none, ⟨some t, some t⟩)
  | some h, none => (update next t none, ⟨some h, some t⟩)
  | some h, some u => (update (update next t none) u (some t), ⟨some h, some t⟩)

def unlink (next : K → Option K) (q : Ends K) (prev : Option K) (cur : K) :
    (K → Option K) × Ends K :=
  match prev with
  | none =>
      (update next cur none, ⟨next cur, if q.tail = some cur then none else q.tail⟩)
  | some p =>
      (update (update next p (next cur)) cur none, ⟨q.head, if q.tail = some cur
        then some p else q.tail⟩)

/-- The search for `t` along the queue, without result if not ended after `fuel` elements. -/
def removeFrom (next : K → Option K) (q : Ends K) (t : K) :
    ℕ → Option K → Option K → Option ((K → Option K) × Ends K)
  | _, _, none => some (next, q)
  | 0, _, some _ => none
  | fuel + 1, prev, some cur =>
      if cur = t then some (unlink next q prev cur)
      else removeFrom next q t fuel (some cur) (next cur)

def remove (fuel : ℕ) (next : K → Option K) (q : Ends K) (t : K) :
    Option ((K → Option K) × Ends K) := removeFrom next q t fuel none q.head

theorem push_holds (h : Holds next q l) (ht : t ∉ l) :
    Holds (push next q t).1 (push next q t).2 (l ++ [t]) := by
  obtain ⟨qhead, qtail⟩ := q
  have hnodup : (l ++ [t]).Nodup := List.nodup_middle.mpr (by simpa [ht] using h.nodup)
  rcases List.eq_nil_or_concat' l with rfl | ⟨pre, u, rfl⟩
  · obtain rfl : qhead = none := h.linked
    refine ⟨⟨rfl, ?_⟩, rfl, hnodup⟩
    exact update_self t none next
  · have htail : qtail = some u := by
      simpa only [List.getLast?_concat] using h.tail
    subst htail
    have hut : u ≠ t := fun heq => ht (heq ▸ List.mem_append_right pre (List.mem_singleton_self u))
    have hupre : u ∉ pre := by simpa using (List.nodup_cons.mp (List.nodup_middle.mp h.nodup)).1
    cases qhead with
    | none => cases pre <;> exact absurd h.linked.1 (by simp)
    | some first =>
      refine ⟨?_, by simp [push], hnodup⟩
      simp only [push, List.append_assoc, List.singleton_append]
      refine h.linked.relink ?_ ⟨?_, ?_⟩
      · intro x hx
        have hxu : x ≠ u := fun heq => hupre (heq ▸ hx)
        have hxt : x ≠ t := fun heq => ht (heq ▸ List.mem_append_left [u] hx)
        rw [update_of_ne hxu, update_of_ne hxt]
      · rw [update_self]
      · rw [update_of_ne hut.symm, update_self]
        rfl

theorem push_elsewhere (h : Holds next q l) {x : K} (hxt : x ≠ t) (hx : x ∉ l) :
    (push next q t).1 x = next x := by
  obtain ⟨qhead, qtail⟩ := q
  have htail : qtail = l.getLast? := h.tail
  unfold push
  split
  · exact update_of_ne hxt _ _
  · exact update_of_ne hxt _ _
  · rename_i u _ heq
    have hxu : x ≠ u := by
      rintro rfl
      exact hx (List.mem_of_getLast? (htail.symm.trans heq))
    simp only [update_of_ne hxu, update_of_ne hxt]

theorem unlink_holds (h : Holds next q (pre ++ t :: rest)) :
    Holds (unlink next q pre.getLast? t).1 (unlink next q pre.getLast? t).2 (pre ++ rest) ∧
      ∀ x, x ∉ pre ++ t :: rest → (unlink next q pre.getLast? t).1 x = next x := by
  obtain ⟨htnot, hnodup⟩ := List.nodup_cons.mp (List.nodup_middle.mp h.nodup)
  -- The last element changes exactly if it is `t`.
  have htail : (if q.tail = some t then pre.getLast? else q.tail) = (pre ++ rest).getLast? := by
    rw [h.tail]
    rcases List.eq_nil_or_concat' rest with rfl | ⟨rest', u, rfl⟩
    · simp
    · have hut : u ≠ t := by
        rintro rfl
        exact htnot (by simp)
      have hlast : (pre ++ t :: (rest' ++ [u])).getLast? = some u := by
        rw [← List.cons_append, ← List.append_assoc, List.getLast?_concat]
      rw [hlast, if_neg (by simpa using hut), ← List.append_assoc, List.getLast?_concat]
  rcases List.eq_nil_or_concat' pre with rfl | ⟨pre', p, rfl⟩
  · refine ⟨⟨?_, htail, hnodup⟩, ?_⟩
    · apply h.linked.drop.congr
      intro x hx
      have hxt : x ≠ t := fun heq => htnot (heq ▸ hx)
      exact update_of_ne hxt _ _
    · intro x hx
      have hxt : x ≠ t := fun heq => hx (heq ▸ List.mem_cons_self)
      exact update_of_ne hxt _ _
  · have hprev : (pre' ++ [p]).getLast? = some p := List.getLast?_concat
    have hpt : p ≠ t := fun heq => htnot (by simp [heq])
    obtain ⟨hlinked, -, hall⟩ := h
    rw [List.append_assoc] at hlinked hall
    rw [hprev] at htail ⊢
    refine ⟨⟨?_, htail, hnodup⟩, ?_⟩
    · rw [List.append_assoc]
      refine hlinked.skip hall ?_ ?_
      · intro x hxp hxt
        simp only [unlink, update_of_ne hxt, update_of_ne hxp]
      · simp only [unlink, update_of_ne hpt, update_self]
    · intro x hx
      have hxt : x ≠ t := fun heq => hx (by simp [heq])
      have hxp : x ≠ p := fun heq => hx (by simp [heq])
      simp only [unlink, update_of_ne hxt, update_of_ne hxp]

theorem removeFrom_holds (h : Holds next q (pre ++ rest)) (ht : t ∉ pre)
    (hhead : Linked next head rest) (hfuel : rest.length ≤ fuel) :
    ∃ r, removeFrom next q t fuel pre.getLast? head = some r ∧
      Holds r.1 r.2 (pre ++ rest.erase t) ∧ ∀ x, x ∉ pre ++ rest → r.1 x = next x := by
  induction rest generalizing pre head fuel with
  | nil =>
    obtain rfl : head = none := hhead
    refine ⟨(next, q), ?_, h, fun _ _ => rfl⟩
    cases fuel <;> rfl
  | cons x rest ih =>
    obtain ⟨rfl, hnext⟩ := hhead
    obtain ⟨fuel, rfl⟩ : ∃ k, fuel = k + 1 := ⟨fuel - 1, by simp at hfuel; omega⟩
    by_cases hx : x = t
    · subst x
      refine ⟨unlink next q pre.getLast? t, by rw [removeFrom, if_pos rfl], ?_⟩
      rw [List.erase_cons_head]
      exact unlink_holds h
    · rw [removeFrom, if_neg hx]
      have happend : pre ++ x :: rest = (pre ++ [x]) ++ rest := by simp
      have hagain : Holds next q ((pre ++ [x]) ++ rest) := by rwa [← happend]
      obtain ⟨r, hr, hholds, helse⟩ := ih hagain
        (by simpa [ht] using fun heq => hx heq.symm) hnext (by simpa using hfuel)
      rw [List.getLast?_concat] at hr
      refine ⟨r, hr, ?_, fun y hy => helse y (by rwa [← happend])⟩
      rw [List.erase_cons_tail (by simpa using hx)]
      simpa using hholds

/-- Removing an element erases it from the list, if it is there. -/
theorem remove_holds (h : Holds next q l) (t : K) (hfuel : l.length ≤ fuel) :
    ∃ r, remove fuel next q t = some r ∧ Holds r.1 r.2 (l.erase t) ∧ ∀ x, x ∉ l → r.1 x = next x :=
  removeFrom_holds (h) List.not_mem_nil h.linked hfuel

variable {P : K → Prop} {r : (K → Option K) × Ends K}

structure Within (P : K → Prop) (next : K → Option K) (q : Ends K) : Prop where
  next : ∀ x y, next x = some y → P y
  head : ∀ x, q.head = some x → P x

theorem Within.set (h : ∀ x y, next x = some y → P y) {v : Option K} (hv : ∀ y, v = some y → P y)
    (t : K) : ∀ x y, update next t v x = some y → P y :=
  (forall_update_iff next fun _ v => ∀ y, v = some y → P y).mpr ⟨hv, fun x _ => h x⟩

theorem push_within (h : Within P next q) (ht : P t) :
    Within P (push next q t).1 (push next q t).2 := by
  have hself : ∀ y, some t = some y → P y := fun y hy => Option.some.inj hy ▸ ht
  have hclear := Within.set h.next (v := none) nofun t
  unfold push
  split
  · exact ⟨hclear, hself⟩
  · rename_i x hhead _
    exact ⟨hclear, fun y hy => h.head y (hhead.trans hy)⟩
  · rename_i x u hhead _
    exact ⟨Within.set hclear hself u, fun y hy => h.head y (hhead.trans hy)⟩

theorem unlink_within (h : Within P next q) (prev : Option K) (cur : K) :
    Within P (unlink next q prev cur).1 (unlink next q prev cur).2 := by
  have hnone : ∀ y, (none : Option K) = some y → P y := nofun
  cases prev with
  | none => exact ⟨Within.set h.next hnone cur, fun y hy => h.next cur y hy⟩
  | some p =>
    exact ⟨Within.set (Within.set h.next (fun y hy => h.next cur y hy) p) hnone cur, h.head⟩

theorem removeFrom_within (h : Within P next q) {prev : Option K}
    (heq : removeFrom next q t fuel prev head = some r) : Within P r.1 r.2 := by
  fun_induction removeFrom next q t fuel prev head with
  | case1 => exact Option.some.inj heq ▸ h
  | case2 => simp at heq
  | case3 fuel prev => exact Option.some.inj heq ▸ unlink_within h prev t
  | case4 fuel prev x _ ih => exact ih heq

end NexusKernel.Lib.LinkedQueue
