import Mathlib.Data.Nat.Bitwise

/-!
Numbers in fields of up to eight bytes, least significant first, put together by shifts and
disjunctions of 64 bits; the bytes above a signed field are filled up if its highest bit is set.
-/

namespace NexusKernel.Lib.SignedFields

def unsigned (b : ℕ → UInt8) (pos : ℕ) : ℕ → ℕ
  | 0 => 0
  | n + 1 => unsigned b pos n + 256 ^ n * (b (pos + n)).toNat

def signed (b : ℕ → UInt8) (pos n : ℕ) : ℤ :=
  if 2 * unsigned b pos n < 256 ^ n then unsigned b pos n else unsigned b pos n - 256 ^ n

variable (b : ℕ → UInt8) (pos : ℕ)

theorem unsigned_lt (n : ℕ) : unsigned b pos n < 256 ^ n := by
  induction n with
  | zero => simp [unsigned]
  | succ n ih =>
    have hbyte : 256 ^ n * (b (pos + n)).toNat ≤ 256 ^ n * 255 :=
      Nat.mul_le_mul_left _ (Nat.le_of_lt_succ (b (pos + n)).toNat_lt)
    rw [unsigned]
    omega

theorem pow_eight (n : ℕ) : 256 ^ n = 2 ^ (8 * n) := by
  rw [Nat.pow_mul]

variable {n : ℕ}

theorem unsigned_lt_word (hn : n ≤ 8) : unsigned b pos n < 2 ^ 64 := by
  have hle : 256 ^ n ≤ 256 ^ 8 := Nat.pow_le_pow_right (by omega) hn
  have hlt := unsigned_lt b pos n
  omega

def gather (n : ℕ) : UInt64 :=
  (List.range n).foldl (fun acc i => acc ||| ((b (pos + i)).toUInt64 <<< UInt64.ofNat (8 * i))) 0

theorem toNat_shifted (x : UInt8) {i : ℕ} (hi : i < 8) :
    (x.toUInt64 <<< UInt64.ofNat (8 * i)).toNat = 2 ^ (8 * i) * x.toNat := by
  have hplace : (UInt64.ofNat (8 * i)).toNat % 64 = 8 * i := by
    rw [UInt64.toNat_ofNat']
    omega
  have hbyte : 2 ^ (8 * i) * x.toNat < 2 ^ 64 := by
    have hx := x.toNat_lt
    calc 2 ^ (8 * i) * x.toNat < 2 ^ (8 * i) * 2 ^ 8 :=
      Nat.mul_lt_mul_of_pos_left hx (Nat.two_pow_pos _)
      _ = 2 ^ (8 * (i + 1)) := by rw [← Nat.pow_add]; rfl
      _ ≤ 2 ^ 64 := Nat.pow_le_pow_right (by omega) (by omega)
  rw [UInt64.toNat_shiftLeft, hplace, UInt8.toNat_toUInt64, Nat.shiftLeft_eq, Nat.mul_comm,
    Nat.mod_eq_of_lt hbyte]

theorem toNat_or_shifted {w : UInt64} (x : UInt8) {i : ℕ} (hi : i < 8) (hw : w.toNat < 256 ^ i) :
    (w ||| (x.toUInt64 <<< UInt64.ofNat (8 * i))).toNat = w.toNat + 256 ^ i * x.toNat := by
  rw [pow_eight] at hw ⊢
  rw [UInt64.toNat_or, toNat_shifted x hi, Nat.or_comm,
    ← Nat.two_pow_add_eq_or_of_lt hw, Nat.add_comm]

theorem toNat_gather (hn : n ≤ 8) : (gather b pos n).toNat = unsigned b pos n := by
  induction n with
  | zero => rfl
  | succ n ih =>
    have hprev := ih (by omega)
    have hstep : gather b pos (n + 1) = gather b pos n ||| ((b (pos + n)).toUInt64 <<< UInt64.ofNat
        (8 * n)) := by
      rw [gather, List.range_succ, List.foldl_append]
      rfl
    rw [hstep, toNat_or_shifted _ (by omega) (hprev ▸ unsigned_lt b pos n), hprev, unsigned]

/-- The word with ones in the bytes from `n` on, `m` of them. -/
theorem toNat_fill {w : UInt64} {n m : ℕ} (hw : w.toNat < 256 ^ n) (hm : n + m ≤ 8) :
    ((List.range' n m).foldl (fun acc i => acc ||| (0xFF <<< UInt64.ofNat (8 * i)))
      w).toNat + 256 ^ n = w.toNat + 256 ^ (n + m) := by
  induction m with
  | zero => rfl
  | succ m ih =>
    have hprev := ih (by omega)
    have hlt :
      ((List.range' n m).foldl (fun acc i => acc ||| (0xFF <<< UInt64.ofNat (8 * i))) w).toNat <
        256 ^ (n + m) := by omega
    have hones := toNat_or_shifted 0xFF (by omega : n + m < 8) hlt
    rw [List.range'_concat, List.foldl_append, Nat.one_mul]
    refine (congrArg (· + 256 ^ n) hones).trans ?_
    simp only [UInt8.reduceToNat, Nat.pow_succ, ← Nat.add_assoc] at hprev ⊢
    omega

theorem high_bit (x : UInt8) : x &&& 0x80 ≠ 0 ↔ 128 ≤ x.toNat := by
  have hand : (x &&& 0x80).toNat = (x.toNat.testBit 7).toNat * 2 ^ 7 := by
    exact Nat.and_two_pow x.toNat 7
  have hlt := x.toNat_lt
  rw [ne_eq, ← UInt8.toNat_inj, hand, Nat.testBit_eq_decide_div_mod_eq]
  by_cases hbit : x.toNat / 2 ^ 7 % 2 = 1
  · simp only [hbit, decide_true, Bool.toNat_true, UInt8.reduceToNat]
    omega
  · simp only [hbit, decide_false, Bool.toNat_false, UInt8.reduceToNat]
    omega

theorem high_bit_iff (hpos : 0 < n) (hn : n ≤ 8) :
    (gather b pos n >>> UInt64.ofNat ((n - 1) * 8)).toUInt8 &&& 0x80 ≠ 0 ↔
      256 ^ n ≤ 2 * unsigned b pos n := by
  obtain ⟨n, rfl⟩ := Nat.exists_eq_add_of_lt hpos
  rw [Nat.zero_add] at hn ⊢
  have hplace : (UInt64.ofNat ((n + 1 - 1) * 8)).toNat % 64 = 8 * n := by
    rw [UInt64.toNat_ofNat']
    omega
  have hlow := unsigned_lt b pos n
  have hbyte : (gather b pos (n + 1) >>> UInt64.ofNat ((n + 1 - 1) * 8)).toUInt8 = b (pos + n) := by
    apply UInt8.toNat_inj.mp
    have hdiv : unsigned b pos (n + 1) / 2 ^ (8 * n) = (b (pos + n)).toNat := by
      rw [unsigned, ← pow_eight, Nat.add_mul_div_left _ _ (Nat.pow_pos (by omega)),
        Nat.div_eq_of_lt hlow, Nat.zero_add]
    rw [UInt64.toNat_toUInt8, UInt64.toNat_shiftRight, hplace, toNat_gather b pos hn,
      Nat.shiftRight_eq_div_pow, hdiv]
    exact Nat.mod_eq_of_lt (b (pos + n)).toNat_lt
  rw [hbyte, high_bit, unsigned]
  constructor
  · intro hhigh
    have hmul : 256 ^ n * 128 ≤ 256 ^ n * (b (pos + n)).toNat := Nat.mul_le_mul_left _ hhigh
    omega
  · intro hhigh
    by_contra hnot
    have hmul : 256 ^ n * (b (pos + n)).toNat ≤ 256 ^ n * 127 := Nat.mul_le_mul_left _ (by omega)
    omega

def gatherSigned (n : ℕ) : UInt64 :=
  if n > 0 ∧ (gather b pos n >>> UInt64.ofNat ((n - 1) * 8)).toUInt8 &&& 0x80 ≠ 0 then
    (List.range' n (8 - n)).foldl (fun acc i => acc ||| (0xFF <<< UInt64.ofNat (8 * i)))
      (gather b pos n)
  else gather b pos n

theorem toNat_ofInt (x : ℤ) : (UInt64.ofInt x).toNat = (x % 2 ^ 64).toNat := by
  rw [UInt64.ofInt, UInt64.toNat_ofNat']
  omega

theorem gatherSigned_eq (hn : n ≤ 8) : gatherSigned b pos n = UInt64.ofInt (signed b pos n) := by
  have hword := unsigned_lt_word b pos hn
  have hgather := toNat_gather b pos hn
  apply UInt64.toNat_inj.mp
  rw [toNat_ofInt, signed, gatherSigned]
  by_cases hsign : n > 0 ∧ (gather b pos n >>> UInt64.ofNat ((n - 1) * 8)).toUInt8 &&& 0x80 ≠ 0
  · have hhigh := (high_bit_iff b pos hsign.1 hn).mp hsign.2
    have hfill := toNat_fill (hgather ▸ unsigned_lt b pos n) (by omega : n + (8 - n) ≤ 8)
    rw [Nat.add_sub_cancel' hn] at hfill
    rw [if_pos hsign]
    have hcast : ((256 ^ n : ℕ) : ℤ) = 256 ^ n := by push_cast; rfl
    have hlt := unsigned_lt b pos n
    omega
  · have hsmall : 2 * unsigned b pos n < 256 ^ n := by
      by_contra hnot
      rcases Nat.eq_zero_or_pos n with rfl | hpos
      · simp [unsigned] at hnot
      · exact hsign ⟨hpos, (high_bit_iff b pos hpos hn).mpr (Nat.not_lt.mp hnot)⟩
    rw [if_neg hsign]
    omega

section

variable {b} {b' : ℕ → UInt8} {pos} {size : ℕ} (h : ∀ k < size, b k = b' k)
include h

theorem unsigned_agree (hn : pos + n ≤ size) : unsigned b pos n = unsigned b' pos n := by
  induction n with
  | zero => rfl
  | succ n ih => rw [unsigned, unsigned, ih (by omega), h (pos + n) (by omega)]

end

end NexusKernel.Lib.SignedFields
