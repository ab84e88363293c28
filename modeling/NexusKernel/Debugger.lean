import Mathlib.Data.List.MinMax

/-!
Symbols of the debugger (debugger/src/dbg_symbols.c). An address is named by the function symbol
nearest below it.
-/

namespace NexusKernel.Debugger

variable {addr : UInt64}

structure Elf64Sym where
  stName : UInt32
  stInfo : UInt8
  stValue : UInt64
  stSize : UInt64

structure Best where
  name : Option UInt32
  base : UInt64
  dist : UInt64

/-- One turn of the loop of `dbg_resolve_symbol`; type 2 is `STT_FUNC`. -/
def consider (addr : UInt64) (best : Best) (sym : Elf64Sym) : Best :=
  if sym.stInfo &&& 0xF ≠ 2 then best
  else if sym.stValue = 0 then best
  else if addr < sym.stValue then best
  else
    let dist := addr - sym.stValue
    if 0 < sym.stSize ∧ sym.stSize ≤ dist then best
    else if dist < best.dist then ⟨some sym.stName, sym.stValue, dist⟩ else best

def dbgResolveSymbol (symReady : Bool) (symTable : List Elf64Sym) (addr : UInt64) :
    Option (UInt32 × UInt64) :=
  if symReady then
    let best := symTable.foldl (consider addr) ⟨none, 0, 0xFFFFFFFFFFFFFFFF⟩
    best.name.map fun name => (name, addr - best.base)
  else none

def Covers (addr : UInt64) (sym : Elf64Sym) : Prop :=
  sym.stInfo &&& 0xF = 2 ∧ sym.stValue ≠ 0 ∧ sym.stValue ≤ addr ∧
    (sym.stSize = 0 ∨ addr.toNat < sym.stValue.toNat + sym.stSize.toNat)

instance (addr : UInt64) : DecidablePred (Covers addr) :=
    fun _ => inferInstanceAs (Decidable (_ ∧ _))

/-- The first of the covering symbols with the greatest value. -/
def innermost (addr : UInt64) (symTable : List Elf64Sym) : Option Elf64Sym :=
  (symTable.filter (Covers addr)).argmax fun sym => sym.stValue.toNat

def Best.of (addr : UInt64) : Option Elf64Sym → Best
  | none => ⟨none, 0, 0xFFFFFFFFFFFFFFFF⟩
  | some sym => ⟨some sym.stName, sym.stValue, addr - sym.stValue⟩

variable {sym t : Elf64Sym}

theorem consider_eq (addr : UInt64) (best : Best) (sym : Elf64Sym) : consider addr best sym =
    if Covers addr sym ∧ addr - sym.stValue < best.dist then .of addr (some sym) else best := by
  by_cases hle : sym.stValue ≤ addr
  · have hsize : (0 < sym.stSize ∧ sym.stSize ≤ addr - sym.stValue) ↔
        ¬ (sym.stSize = 0 ∨ addr.toNat < sym.stValue.toNat + sym.stSize.toNat) := by
      rw [UInt64.le_iff_toNat_le, UInt64.toNat_sub_of_le _ _ hle, UInt64.lt_iff_toNat_lt,
        ← UInt64.toNat_inj, UInt64.toNat_zero]
      have := UInt64.le_iff_toNat_le.mp hle
      omega
    have hlt : ¬ addr < sym.stValue := UInt64.not_lt.mpr hle
    simp only [consider, Covers, hsize, hlt, Best.of]
    grind
  · have hlt : addr < sym.stValue := UInt64.not_le.mp hle
    simp [consider, Covers, hle, hlt]

theorem Covers.dist (h : Covers addr sym) :
    (addr - sym.stValue).toNat + sym.stValue.toNat = addr.toNat := by
  have := UInt64.le_iff_toNat_le.mp h.2.2.1
  rw [UInt64.toNat_sub_of_le _ _ h.2.2.1]
  omega

/-- A nearer symbol is one with a greater value; at first all are near enough, as none lies at 0. -/
theorem consider_of_covers (ht : Covers addr t) {found : Option Elf64Sym}
    (hfound : ∀ sym ∈ found, Covers addr sym) : consider addr (.of addr found) t =
      .of addr (found.elim (some t) fun sym => if sym.stValue.toNat < t.stValue.toNat then some t
        else some sym) := by
  have hdist := ht.dist
  rw [consider_eq]
  cases found with
  | none =>
    refine if_pos ⟨ht, UInt64.lt_iff_toNat_lt.mpr ?_⟩
    have hpos : t.stValue.toNat ≠ 0 := fun h0 => ht.2.1 (UInt64.toNat_inj.mp h0)
    have hmax : (Best.of addr none).dist.toNat = 2 ^ 64 - 1 := rfl
    have := addr.toNat_lt
    omega
  | some sym =>
    have hdist' := (hfound sym rfl).dist
    have hiff : addr - t.stValue < (Best.of addr (some sym)).dist ↔
        sym.stValue.toNat < t.stValue.toNat := by
      rw [UInt64.lt_iff_toNat_lt]
      change _ < (addr - sym.stValue).toNat ↔ _
      omega
    by_cases hlt : sym.stValue.toNat < t.stValue.toNat <;> simp [ht, hiff, hlt]

theorem foldl_consider (addr : UInt64) (symTable : List Elf64Sym) :
    symTable.foldl (consider addr) (.of addr none) = .of addr (innermost addr symTable) := by
  induction symTable using List.reverseRecOn with
  | nil => rfl
  | append_singleton symTable t ih =>
    rw [List.foldl_append, ih, List.foldl_cons, List.foldl_nil]
    by_cases ht : Covers addr t
    · have hstep : consider addr (.of addr (innermost addr symTable)) t = _ :=
        consider_of_covers ht
          fun sym hsym => by simpa using List.of_mem_filter (List.argmax_mem hsym)
      have hfilter : (symTable ++ [t]).filter (Covers addr) = symTable.filter (Covers addr) ++
        [t] := by simp [ht]
      rw [hstep, innermost, innermost, hfilter, List.argmax_concat]
      cases (symTable.filter (Covers addr)).argmax fun sym => sym.stValue.toNat <;> rfl
    · simp [consider_eq, ht, innermost]

theorem dbg_resolve_symbol_innermost (symTable : List Elf64Sym) (addr : UInt64) :
    dbgResolveSymbol true symTable addr =
      (innermost addr symTable).map fun sym => (sym.stName, addr - sym.stValue) := by
  have hloop : symTable.foldl (consider addr) ⟨none, 0, 0xFFFFFFFFFFFFFFFF⟩ = _ :=
    foldl_consider addr symTable
  rw [dbgResolveSymbol, if_pos rfl, hloop]
  cases innermost addr symTable <;> rfl

end NexusKernel.Debugger
