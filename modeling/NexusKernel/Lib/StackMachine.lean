import Mathlib.Algebra.Group.Nat.Defs
import Mathlib.Data.List.Nodup

/-!
A processor with a stack in byte-addressed memory. Addresses wrap around, so a block of memory is
given by its first address and the distances from there. Instructions other than calls and returns
do not show the instruction pointer: it says where execution goes on after the sequence.
-/

namespace NexusKernel.Lib.StackMachine

open Function

abbrev Bytes := UInt64 → UInt8

def leNat : List UInt8 → ℕ
  | [] => 0
  | b :: rest => b.toNat + 256 * leNat rest

def loadWord (mem : Bytes) (a : UInt64) : UInt64 :=
  UInt64.ofNat (leNat ((List.range 8).map (fun i => mem (a + UInt64.ofNat i))))

def storeWord (mem : Bytes) (a v : UInt64) : Bytes := fun x =>
  if (x - a).toNat < 8 then UInt8.ofNat (v.toNat / 256 ^ (x - a).toNat) else mem x

variable {mem mem' : Bytes} {a b v s sp x : UInt64} {ws rest vs : List UInt64}

theorem distance_self_add {k : ℕ} (hk : k < 2 ^ 64) (s : UInt64) :
    (s + UInt64.ofNat k - s).toNat = k := by
  rw [UInt64.add_comm, UInt64.add_sub_cancel]
  exact UInt64.toNat_ofNat_of_lt' hk

theorem loadWord_congr (h : ∀ x, (x - a).toNat < 8 → mem' x = mem x) :
    loadWord mem' a = loadWord mem a := by
  have hbyte : ∀ i ∈ List.range 8, mem' (a + UInt64.ofNat i) = mem (a + UInt64.ofNat i) := by
    intro i hi
    have hi' : i < 8 := List.mem_range.mp hi
    apply h
    rwa [distance_self_add (by omega)]
  rw [loadWord, loadWord, List.map_congr_left hbyte]

theorem storeWord_outside (h : 8 ≤ (x - a).toNat) (v : UInt64) : storeWord mem a v x = mem x :=
  if_neg (Nat.not_lt.mpr h)

theorem loadWord_storeWord (mem : Bytes) (a v : UInt64) : loadWord (storeWord mem a v) a = v := by
  have hbyte : ∀ i < 8, storeWord mem a v (a + UInt64.ofNat i) =
      UInt8.ofNat (v.toNat / 256 ^ i) := by
    intro i hi
    rw [storeWord, distance_self_add (by omega), if_pos hi]
  have hv := v.toNat_lt
  rw [loadWord, ← UInt64.toNat_inj]
  simp only [List.range, List.range.loop, List.map_cons, List.map_nil, leNat, hbyte, Nat.reduceLT,
    UInt8.toNat_ofNat', UInt64.toNat_ofNat']
  omega

theorem loadWord_storeWord_apart (h : ∀ x, (x - b).toNat < 8 → 8 ≤ (x - a).toNat) (v : UInt64) :
    loadWord (storeWord mem a v) b = loadWord mem b :=
  loadWord_congr (fun x hx => storeWord_outside (h x hx) v)

def Holds (mem : Bytes) (s : UInt64) : List UInt64 → Prop
  | [] => True
  | w :: ws => loadWord mem s = w ∧ Holds mem (s + 8) ws

theorem distance_trans (s sp x : UInt64) (h : (sp - s).toNat + (x - sp).toNat < 2 ^ 64) :
    (x - s).toNat = (sp - s).toNat + (x - sp).toNat := by
  have hsum : x - s = (sp - s) + (x - sp) := by grind
  rw [hsum, UInt64.toNat_add, Nat.mod_eq_of_lt h]

theorem distance_add {k n : ℕ} (hx : (x - (s + UInt64.ofNat k)).toNat < n) (hn : k + n ≤ 2 ^ 64) :
    (x - s).toNat = k + (x - (s + UInt64.ofNat k)).toNat := by
  have hk := distance_self_add (k := k) (by omega) s
  rw [distance_trans s (s + UInt64.ofNat k) x (by omega), hk]

theorem distance_sub {k : ℕ} (hk : k ≤ (sp - s).toNat) :
    (sp - UInt64.ofNat k - s).toNat = (sp - s).toNat - k := by
  have hlt := (sp - s).toNat_lt
  have hnat : (UInt64.ofNat k).toNat = k := UInt64.toNat_ofNat_of_lt' (by grind)
  have hsum : sp - UInt64.ofNat k - s = (sp - s) - UInt64.ofNat k := by grind
  rw [hsum, UInt64.toNat_sub_of_le _ _ (UInt64.le_iff_toNat_le.mpr (by rw [hnat]; exact hk)), hnat]

theorem Holds.congr (h : Holds mem s ws) (hsmall : 8 * ws.length ≤ 2 ^ 64)
    (hsame : ∀ x, (x - s).toNat < 8 * ws.length → mem' x = mem x) : Holds mem' s ws := by
  induction ws generalizing s with
  | nil => trivial
  | cons w ws ih =>
    rw [List.length_cons] at hsmall hsame
    refine ⟨(loadWord_congr (fun x hx => hsame x (by omega))).trans h.1, ih h.2 (by omega) ?_⟩
    intro x hx
    apply hsame
    have hdist : (x - s).toNat = 8 + (x - (s + 8)).toNat := distance_add hx (by omega)
    omega

theorem holds_append : Holds mem s (ws ++ rest) ↔
    Holds mem s ws ∧ Holds mem (s + UInt64.ofNat (8 * ws.length)) rest := by
  induction ws generalizing s with
  | nil => simp [Holds]
  | cons w ws ih =>
    have haddr : s + 8 + UInt64.ofNat (8 * ws.length) = s + UInt64.ofNat (8 * (ws.length + 1)) := by
      rw [Nat.mul_succ, UInt64.ofNat_add]
      grind
    rw [List.cons_append, Holds, Holds, ih, haddr, List.length_cons, and_assoc]

def pushAll (mem : Bytes) (sp : UInt64) : List UInt64 → Bytes × UInt64
  | [] => (mem, sp)
  | v :: vs => pushAll (storeWord mem (sp - 8) v) (sp - 8) vs

theorem pushAll_sp (mem : Bytes) (sp : UInt64) (vs : List UInt64) :
    (pushAll mem sp vs).2 = sp - UInt64.ofNat (8 * vs.length) := by
  induction vs generalizing mem sp with
  | nil => simp [pushAll]
  | cons v vs ih =>
    rw [pushAll, List.length_cons, Nat.mul_succ, UInt64.ofNat_add]
    grind

theorem pushAll_append (mem : Bytes) (sp : UInt64) (vs ws : List UInt64) :
    pushAll mem sp (vs ++ ws) = pushAll (pushAll mem sp vs).1 (pushAll mem sp vs).2 ws := by
  induction vs generalizing mem sp with
  | nil => rfl
  | cons v vs ih => exact ih (storeWord mem (sp - 8) v) (sp - 8)

theorem Holds.push (h : Holds mem sp rest) (hsmall : 8 * (rest.length + 1) ≤ 2 ^ 64) (v : UInt64) :
    Holds (storeWord mem (sp - 8) v) (sp - 8) (v :: rest) := by
  refine ⟨loadWord_storeWord mem (sp - 8) v, ?_⟩
  rw [UInt64.sub_add_cancel]
  refine h.congr (by omega) fun x hx => storeWord_outside ?_ v
  have hback : sp - 8 + UInt64.ofNat 8 = sp := UInt64.sub_add_cancel sp 8
  have hdist := distance_add (by rwa [hback]) (by omega)
  omega

theorem Holds.pushAll (h : Holds mem sp rest) (vs : List UInt64)
    (hsmall : 8 * (vs.length + rest.length) ≤ 2 ^ 64) :
    Holds (pushAll mem sp vs).1 (pushAll mem sp vs).2 (vs.reverse ++ rest) := by
  induction vs generalizing mem sp rest with
  | nil => exact h
  | cons v vs ih =>
    rw [List.length_cons] at hsmall
    have hnext := ih (h.push (by omega) v) (by rw [List.length_cons]; omega)
    rwa [List.reverse_cons, List.append_assoc]

/-- Pushes change only the bytes below the stack pointer they use. -/
theorem pushAll_outside (hsmall : 8 * vs.length ≤ 2 ^ 64)
    (hx : 8 * vs.length ≤ (x - (pushAll mem sp vs).2).toNat) : (pushAll mem sp vs).1 x = mem x := by
  induction vs generalizing mem sp with
  | nil => rfl
  | cons v vs ih =>
    rw [pushAll_sp] at hx
    rw [List.length_cons] at hsmall hx
    have hsp : sp - 8 = sp - UInt64.ofNat (8 * (vs.length + 1)) + UInt64.ofNat (8 * vs.length) := by
      rw [Nat.mul_succ, UInt64.ofNat_add]
      grind
    rw [pushAll, ih (by omega)]
    · apply storeWord_outside
      by_contra hnear
      rw [hsp] at hnear
      have hdist := distance_add (Nat.not_le.mp hnear) (by omega)
      omega
    · rw [pushAll_sp]
      have hnext : sp - 8 - UInt64.ofNat (8 * vs.length) =
          sp - UInt64.ofNat (8 * (vs.length + 1)) := by
        grind
      rw [hnext]
      omega

/-- Pushes on a stack with room for them write nothing outside its block. -/
theorem pushAll_beside {n : ℕ} (hroom : 8 * vs.length ≤ (sp - s).toNat) (htop : (sp - s).toNat ≤ n)
    (hx : n ≤ (x - s).toNat) : (pushAll mem sp vs).1 x = mem x := by
  have hlt := (sp - s).toNat_lt
  apply pushAll_outside (by omega)
  rw [pushAll_sp]
  have hdist := distance_sub hroom
  by_contra hnear
  have htrans := distance_trans s (sp - UInt64.ofNat (8 * vs.length)) x (by omega)
  omega

inductive Reg where
  | rax | rbx | rcx | rdx | rsi | rdi | rbp | rsp
  | r8 | r9 | r10 | r11 | r12 | r13 | r14 | r15
  deriving DecidableEq, Repr

structure Cpu where
  reg : Reg → UInt64
  rip : UInt64
  rflags : UInt64
  mem : Bytes

namespace Cpu

def set (c : Cpu) (r : Reg) (v : UInt64) : Cpu := { c with reg := update c.reg r v }

def push (c : Cpu) (v : UInt64) : Cpu :=
  { c with
    reg := update c.reg .rsp (c.reg .rsp - 8)
    mem := storeWord c.mem (c.reg .rsp - 8) v }

def top (c : Cpu) : UInt64 := loadWord c.mem (c.reg .rsp)

def drop (c : Cpu) : Cpu := c.set .rsp (c.reg .rsp + 8)

end Cpu

inductive Instr where
  | push (r : Reg)
  | pop (r : Reg)
  /-- `push qword [a]`. -/
  | pushMem (a : UInt64)
  /-- `pop qword [a]`. -/
  | popMem (a : UInt64)
  | mov (dst src : Reg)
  /-- `mov dst, [a]`. -/
  | load (dst : Reg) (a : UInt64)
  /-- `mov [a], src`. -/
  | store (a : UInt64) (src : Reg)
  /-- `mov [ptr], src`. -/
  | storeVia (ptr src : Reg)
  /-- `mov dword [a], 0`. -/
  | clearDword (a : UInt64)
  | add (dst : Reg) (n : UInt64)
  /-- `call r`, with the address of the next instruction. -/
  | call (r : Reg) (next : UInt64)
  /-- `call target`. -/
  | callTo (target next : UInt64)
  | ret
  | sti
  | cli
  | sysret
  deriving DecidableEq, Repr

def sysretFlags (v : UInt64) : UInt64 := v &&& 0x3C7FD7 ||| 2

def step : Instr → Cpu → Cpu
  | .push r, c => c.push (c.reg r)
  | .pop r, c => c.drop.set r c.top
  | .pushMem a, c => c.push (loadWord c.mem a)
  | .popMem a, c => { c.drop with mem := storeWord c.mem a c.top }
  | .mov dst src, c => c.set dst (c.reg src)
  | .load dst a, c => c.set dst (loadWord c.mem a)
  | .store a src, c => { c with mem := storeWord c.mem a (c.reg src) }
  | .storeVia ptr src, c => { c with mem := storeWord c.mem (c.reg ptr) (c.reg src) }
  | .clearDword a, c => { c with mem := fun x => if (x - a).toNat < 4 then 0 else c.mem x }
  | .add dst n, c => c.set dst (c.reg dst + n)
  | .call r next, c => { c.push next with rip := c.reg r }
  | .callTo target next, c => { c.push next with rip := target }
  | .ret, c => { c.drop with rip := c.top }
  | .sti, c => { c with rflags := c.rflags ||| 0x200 }
  | .cli, c => { c with rflags := c.rflags &&& ~~~0x200 }
  | .sysret, c => { c with rip := c.reg .rcx, rflags := sysretFlags (c.reg .r11) }

def run (code : List Instr) (c : Cpu) : Cpu := code.foldl (fun c i => step i c) c

variable {c c' : Cpu} {rs : List Reg} {r : Reg}

@[simp] theorem run_nil (c : Cpu) : run [] c = c := rfl

@[simp] theorem run_cons (i : Instr) (code : List Instr) (c : Cpu) :
    run (i :: code) c = run code (step i c) := rfl

theorem run_append (code code' : List Instr) (c : Cpu) :
    run (code ++ code') c = run code' (run code c) := List.foldl_append

theorem step_ret_mem (c : Cpu) : (step .ret c).mem = c.mem := rfl

theorem run_pushes (rs : List Reg) (hrsp : .rsp ∉ rs) (c : Cpu) : run (rs.map .push) c = { c with
      reg := update c.reg .rsp (pushAll c.mem (c.reg .rsp) (rs.map c.reg)).2
      mem := (pushAll c.mem (c.reg .rsp) (rs.map c.reg)).1 } := by
  induction rs generalizing c with
  | nil => simp [pushAll]
  | cons r rs ih =>
    obtain ⟨_, hrs⟩ := not_or.mp (mt List.mem_cons.mpr hrsp)
    have hregs : rs.map (c.push (c.reg r)).reg = rs.map c.reg := by
      apply List.map_congr_left
      intro q hq
      have hne : q ≠ .rsp := fun heq => hrs (heq ▸ hq)
      exact update_of_ne hne _ _
    rw [List.map_cons, run_cons, step, ih hrs, hregs]
    simp [Cpu.push, pushAll]

theorem run_pops_mem (rs : List Reg) (c : Cpu) : (run (rs.map .pop) c).mem = c.mem := by
  induction rs generalizing c with
  | nil => rfl
  | cons r rs ih =>
    rw [List.map_cons, run_cons, ih]
    rfl

/-- What popping registers does when the stack holds the words `ws`. -/
structure Popped (rs : List Reg) (ws : List UInt64) (c c' : Cpu) : Prop where
  mem : c'.mem = c.mem
  rip : c'.rip = c.rip
  rflags : c'.rflags = c.rflags
  sp : c'.reg .rsp = c.reg .rsp + UInt64.ofNat (8 * rs.length)
  regs : rs.map c'.reg = ws
  others : ∀ r, r ∉ rs → r ≠ .rsp → c'.reg r = c.reg r

theorem run_pops (rs : List Reg) (hnodup : rs.Nodup) (hrsp : .rsp ∉ rs)
    (hlen : ws.length = rs.length)
    (h : Holds c.mem (c.reg .rsp) ws) : Popped rs ws c (run (rs.map .pop) c) := by
  induction rs generalizing c ws with
  | nil =>
    obtain rfl := List.length_eq_zero_iff.mp hlen
    exact ⟨rfl, rfl, rfl, by simp, rfl, fun _ _ _ => rfl⟩
  | cons r rs ih =>
    obtain ⟨w, ws, rfl⟩ := List.exists_cons_of_length_eq_add_one hlen
    obtain ⟨hne, hrs⟩ := not_or.mp (mt List.mem_cons.mpr hrsp)
    obtain ⟨hr, hnodup⟩ := List.nodup_cons.mp hnodup
    have hsp : (step (.pop r) c).reg .rsp = c.reg .rsp + 8 := by
      simp [step, Cpu.drop, Cpu.set, hne]
    have hnext := ih hnodup hrs (by simpa using hlen) (by rw [hsp]; exact h.2)
    rw [List.map_cons, run_cons]
    refine ⟨hnext.mem, hnext.rip, hnext.rflags, ?_, ?_, ?_⟩
    · rw [hnext.sp, List.length_cons, Nat.mul_succ, UInt64.ofNat_add]
      grind
    · rw [List.map_cons, hnext.regs, hnext.others r hr (Ne.symm hne)]
      exact congrArg (· :: ws) ((update_self _ _ _).trans h.1)
    · intro q hq hqsp
      obtain ⟨hqr, hqrs⟩ := not_or.mp (mt List.mem_cons.mpr hq)
      rw [hnext.others q hqrs hqsp]
      simp [step, Cpu.drop, Cpu.set, hqr, hqsp]

end NexusKernel.Lib.StackMachine
