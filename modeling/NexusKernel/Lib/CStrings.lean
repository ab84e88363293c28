import Mathlib.Data.List.Basic
import Mathlib.Data.List.TakeWhile

/-!
Strings of C in arrays of bytes: the bytes before the terminating zero. A store outside its array
has no result, so a copy has one exactly if it stays inside its destination.
-/

namespace NexusKernel.Lib.CStrings

variable {a src : List UInt8} {i n : ℕ}

def store (a : List UInt8) (i : ℕ) (b : UInt8) : Option (List UInt8) :=
  if i < a.length then some (a.set i b) else none

def cString (a : List UInt8) : List UInt8 := a.takeWhile (· ≠ 0)

def strcpyAt (a : List UInt8) (i : ℕ) : List UInt8 → Option (List UInt8)
  | [] => store a i 0
  | b :: src => (store a i b).bind (fun a => strcpyAt a (i + 1) src)

def strcpy (a src : List UInt8) : Option (List UInt8) := strcpyAt a 0 src

/-- The loops of `strncpy` from index `i` on, `n` bytes to go; behind the string come zeros. -/
def strncpyAt (a : List UInt8) (i : ℕ) : ℕ → List UInt8 → Option (List UInt8)
  | 0, _ => some a
  | n + 1, [] => (store a i 0).bind (fun a => strncpyAt a (i + 1) n [])
  | n + 1, b :: src => (store a i b).bind (fun a => strncpyAt a (i + 1) n src)

def strncpy (a src : List UInt8) (n : ℕ) : Option (List UInt8) := strncpyAt a 0 n src

def strrchr (s : List UInt8) (c : UInt8) : Option ℕ :=
  match s with
  | [] => none
  | b :: rest =>
      match strrchr rest c with
      | some i => some (i + 1)
      | none => if b = c then some 0 else none

/-! ### Copies

At each step the array is the part written already and the rest. -/

theorem store_nil (pre : List UInt8) (b : UInt8) : store pre pre.length b = none :=
  if_neg (Nat.lt_irrefl _)

theorem store_cons (pre : List UInt8) (x b : UInt8) (rest : List UInt8) :
    store (pre ++ x :: rest) pre.length b = some ((pre ++ [b]) ++ rest) := by
  rw [store, if_pos (by simp), List.set_append_right _ _ le_rfl, Nat.sub_self, List.set_cons_zero,
    List.append_assoc, List.singleton_append]

theorem length_snoc (pre : List UInt8) (b : UInt8) : pre.length + 1 = (pre ++ [b]).length := by
  simp

theorem strcpyAt_eq (pre rest src : List UInt8) : strcpyAt (pre ++ rest) pre.length src =
    if src.length < rest.length then some (pre ++ (src ++ 0 :: rest.drop (src.length + 1)))
    else none := by
  induction src generalizing pre rest with
  | nil =>
    cases rest with
    | nil => simp [strcpyAt, store_nil]
    | cons x rest => simp [strcpyAt, store_cons]
  | cons b src ih =>
    cases rest with
    | nil =>
      rw [strcpyAt, List.append_nil, store_nil]
      rfl
    | cons x rest =>
      rw [strcpyAt, store_cons, Option.bind_some, length_snoc pre b, ih]
      simp

/-- `strcpy` stays inside its array if the zero has room too. -/
theorem strcpy_eq (a src : List UInt8) : strcpy a src =
    if src.length < a.length then some (src ++ 0 :: a.drop (src.length + 1)) else none := by
  simpa only [strcpy, List.nil_append, List.length_nil] using strcpyAt_eq [] a src

theorem strcpy_ne_none_iff (a src : List UInt8) : strcpy a src ≠ none ↔ src.length < a.length := by
  rw [strcpy_eq]
  split <;> simp [*]

theorem strncpyAt_eq (pre rest src : List UInt8) (n : ℕ) :
    strncpyAt (pre ++ rest) pre.length n src =
    if n ≤ rest.length then
      some (pre ++ (src.take n ++ List.replicate (n - src.length) 0 ++ rest.drop n))
    else none := by
  induction n generalizing pre rest src with
  | zero => simp [strncpyAt]
  | succ n ih =>
    cases rest with
    | nil => cases src <;> simp [strncpyAt, store_nil]
    | cons x rest =>
      cases src with
      | nil =>
        rw [strncpyAt, store_cons, Option.bind_some, length_snoc pre 0, ih]
        simp [List.replicate_succ]
      | cons b src =>
        rw [strncpyAt, store_cons, Option.bind_some, length_snoc pre b, ih]
        simp

theorem strncpy_eq (a src : List UInt8) (n : ℕ) : strncpy a src n =
    if n ≤ a.length then some (src.take n ++ List.replicate (n - src.length) 0 ++ a.drop n)
    else none := by
  simpa only [strncpy, List.nil_append, List.length_nil] using strncpyAt_eq [] a src n

theorem cString_append_zero (h : 0 ∉ src) (rest : List UInt8) :
    cString (src ++ 0 :: rest) = src := by
  have hall : ∀ b ∈ src, decide (b ≠ 0) = true := by
    intro b hb
    rw [decide_eq_true_iff]
    rintro rfl
    exact h hb
  rw [cString, List.takeWhile_append_of_pos hall]
  simp

theorem strrchr_eq_none_iff (s : List UInt8) (c : UInt8) : strrchr s c = none ↔ c ∉ s := by
  fun_induction strrchr s c with
  | case1 => simp
  | case2 b rest i hrest ih =>
    have hmem : c ∈ rest := by simpa [hrest] using ih
    simp [hmem]
  | case3 => simp
  | case4 b rest hrest hb ih => simp [ih.mp hrest, Ne.symm hb]

/-- The last `c` splits the string; behind it there is none. -/
theorem strrchr_eq_some {s : List UInt8} {c : UInt8} (h : strrchr s c = some i) :
    s = s.take i ++ c :: s.drop (i + 1) ∧ c ∉ s.drop (i + 1) := by
  fun_induction strrchr s c generalizing i with
  | case1 => simp at h
  | case2 b rest j hrest ih =>
    cases h
    obtain ⟨hsplit, hnot⟩ := ih hrest
    refine ⟨?_, hnot⟩
    rw [List.take_succ_cons, List.drop_succ_cons, List.cons_append, ← hsplit]
  | case3 rest hrest =>
    cases h
    exact ⟨by simp, (strrchr_eq_none_iff rest c).mp hrest⟩
  | case4 => simp at h

theorem strrchr_append {name : List UInt8} {c : UInt8} (dir : List UInt8) (h : c ∉ name) :
    strrchr (dir ++ c :: name) c = some dir.length := by
  induction dir with
  | nil =>
    rw [List.nil_append, strrchr, (strrchr_eq_none_iff name c).mpr h]
    exact if_pos rfl
  | cons b dir ih =>
    rw [List.cons_append, strrchr, ih]
    rfl

theorem length_cString_strcpy {b : List UInt8} (h : strcpy a src = some b) :
    (cString b).length < a.length := by
  rw [strcpy_eq] at h
  split at h
  · rename_i hroom
    cases h
    rw [cString, List.takeWhile_append]
    split
    · simpa using hroom
    · exact (List.takeWhile_sublist _).length_le.trans_lt hroom
  · simp at h

end NexusKernel.Lib.CStrings
