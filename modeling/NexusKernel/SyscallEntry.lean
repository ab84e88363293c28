import NexusKernel.Lib.Runs
import NexusKernel.Lib.StackMachine

/-!
The way into a system call and back. The entry code leaves the instruction pointer, the flags, the
stack pointer and six registers on the kernel stack and takes them from there again; argument
registers are moved to where C expects them and not restored. Meanwhile other threads may make
system calls of their own, through the same scratch word.
-/

namespace NexusKernel.SyscallEntry

open Lib.Runs Lib.StackMachine Function Reg

structure Symbols where
  syscallEntry : UInt64
  userRspScratch : UInt64
  kernelRspScratch : UInt64
  syscallDispatch : UInt64
  /-- Behind the call of `syscall_dispatch`. -/
  back : UInt64
  apart : ∀ x, (x - kernelRspScratch).toNat < 8 → 8 ≤ (x - userRspScratch).toNat

structure KernelStack (S : Symbols) where
  page : UInt64
  user : ∀ x, (x - S.userRspScratch).toNat < 8 → 4096 ≤ (x - page).toNat
  kernel : ∀ x, (x - S.kernelRspScratch).toNat < 8 → 4096 ≤ (x - page).toNat

/-- The `syscall` instruction; `rip` already points behind it, and the flags of `IA32_FMASK` are
cleared. -/
def syscallInstr (S : Symbols) (fmask : UInt64) (c : Cpu) : Cpu :=
  { (c.set .rcx c.rip).set .r11 c.rflags with
    rip := S.syscallEntry
    rflags := c.rflags &&& ~~~fmask }

def pushedRegs : List Reg := [.rcx, .r11, .rbp, .rbx, .r12, .r13, .r14, .r15]

def entryCode (S : Symbols) : List Instr :=
  .store S.userRspScratch .rsp :: .load .rsp S.kernelRspScratch :: (pushedRegs.map .push ++
    [.pushMem S.userRspScratch, .sti, .push .r9, .mov .r9 .r8, .mov .r8 .r10, .mov .rcx .rdx,
      .mov .rdx .rsi, .mov .rsi .rdi, .mov .rdi .rax, .callTo S.syscallDispatch S.back])

def exitCode (S : Symbols) : List Instr :=
  .add .rsp 8 :: .cli :: .popMem S.userRspScratch :: (pushedRegs.reverse.map .pop ++
    [.load .rsp S.userRspScratch, .sysret])

def InFrame (page x : UInt64) : Prop := (x - (page + 4024)).toNat < 72

/-- Steps while a thread with the stack page `page` is in the dispatcher: C code, of any thread,
that respects the frame of the caller, and the entry and exit code of other threads. -/
inductive During (S : Symbols) (fmask page : UInt64) : Cpu → Cpu → Prop
  | code (c c' : Cpu) : (∀ x, InFrame page x → c'.mem x = c.mem x) → During S fmask page c c'
  | enters (c : Cpu) (other : KernelStack S) :
      (∀ x, (x - other.page).toNat < 4096 → 4096 ≤ (x - page).toNat) →
      loadWord c.mem S.kernelRspScratch = other.page + 4096 →
      During S fmask page c (run (entryCode S) (syscallInstr S fmask c))
  | leaves (c : Cpu) : During S fmask page c (run (exitCode S) c)

/-- The dispatcher as its caller sees it: the stack pointer is behind the return address and the
registers a C function preserves are as before. -/
structure Dispatched (S : Symbols) (fmask page : UInt64) (c c' : Cpu) : Prop where
  run : Reachable (During S fmask page) c c'
  rip : c'.rip = c.top
  sp : c'.reg .rsp = c.reg .rsp + 8
  saved : ∀ r ∈ [Reg.rbx, .rbp, .r12, .r13, .r14, .r15], c'.reg r = c.reg r

structure Preserved (user after : Cpu) : Prop where
  rip : after.rip = user.rip
  rflags : after.rflags = user.rflags
  regs : ∀ r, r ≠ .rax → r ≠ .rcx → r ≠ .r11 → after.reg r = user.reg r

def argumentRegs : List Reg := [.rdi, .rsi, .rdx, .r10, .r8, .r9]

variable {S : Symbols} {fmask x : UInt64} {k : KernelStack S} {u c c' : Cpu}

def userWords (u : Cpu) : List UInt64 :=
  [u.rip, u.rflags, u.reg .rbp, u.reg .rbx, u.reg .r12, u.reg .r13, u.reg .r14, u.reg .r15]

def entryWords (S : Symbols) (u : Cpu) : List UInt64 :=
  userWords u ++ [u.reg .rsp, u.reg .r9, S.back]

def switched (S : Symbols) (fmask : UInt64) (u : Cpu) : Cpu :=
  step (.load .rsp S.kernelRspScratch) (step (.store S.userRspScratch .rsp)
    (syscallInstr S fmask u))

theorem switched_mem (S : Symbols) (fmask : UInt64) (u : Cpu) :
    (switched S fmask u).mem = storeWord u.mem S.userRspScratch (u.reg .rsp) := by
  simp [switched, step, syscallInstr, Cpu.set]

theorem switched_rsp (htop : loadWord u.mem S.kernelRspScratch = k.page + 4096) :
    (switched S fmask u).reg .rsp = k.page + 4096 := by
  simp only [switched, step, syscallInstr, Cpu.set, update_self]
  rw [loadWord_storeWord_apart S.apart, htop]

theorem switched_regs (S : Symbols) (fmask : UInt64) (u : Cpu) :
    pushedRegs.map (switched S fmask u).reg = userWords u := by
  simp [pushedRegs, userWords, switched, step, syscallInstr, Cpu.set]

theorem switched_r9 (S : Symbols) (fmask : UInt64) (u : Cpu) :
    (switched S fmask u).reg .r9 = u.reg .r9 := by
  simp [switched, step, syscallInstr, Cpu.set]

theorem top_distance (page : UInt64) : (page + 4096 - page).toNat = 4096 :=
  distance_self_add (by decide) page

variable {page : UInt64}

/-- Pushes from the top of a stack page stay in the page. -/
theorem pushAll_page {mem : Bytes} {vs : List UInt64} (hsmall : 8 * vs.length ≤ 4096)
    (hx : 4096 ≤ (x - page).toNat) : (pushAll mem (page + 4096) vs).1 x = mem x :=
  pushAll_beside (by rw [top_distance]; exact hsmall) (Nat.le_of_eq (top_distance page)) hx

def callCode (S : Symbols) : List Instr :=
  [.pushMem S.userRspScratch, .sti, .push .r9, .mov .r9 .r8, .mov .r8 .r10, .mov .rcx .rdx,
    .mov .rdx .rsi, .mov .rsi .rdi, .mov .rdi .rax, .callTo S.syscallDispatch S.back]

theorem run_entryCode (S : Symbols) (fmask : UInt64) (u : Cpu) :
    run (entryCode S) (syscallInstr S fmask u) =
    run (callCode S) (run (pushedRegs.map .push) (switched S fmask u)) := by
  rw [entryCode, run_cons, run_cons, run_append]
  rfl

theorem entryCode_args (S : Symbols) (fmask : UInt64) (u : Cpu) :
    [rdi, .rsi, .rdx, .rcx, .r8, .r9].map (run (entryCode S) (syscallInstr S fmask u)).reg =
      [rax, .rdi, .rsi, .rdx, .r10, .r8].map u.reg := by
  rw [run_entryCode, run_pushes pushedRegs (by decide)]
  have hregs : ∀ r ∈ [rax, .rdi, .rsi, .rdx, .r10, .r8], (switched S fmask u).reg r = u.reg r := by
    simp [switched, step, syscallInstr, Cpu.set]
  simp only [List.forall_mem_cons, List.not_mem_nil, false_implies, implies_true, and_true] at hregs
  obtain ⟨hrax, hrdi, hrsi, hrdx, hr10, hr8⟩ := hregs
  simp [callCode, step, Cpu.push, Cpu.set, hrax, hrdi, hrsi, hrdx, hr10, hr8]

/-- The entry code pushes eleven words on the thread's stack. -/
theorem entryCode_stack (fmask : UInt64) (htop : loadWord u.mem S.kernelRspScratch =
      k.page + 4096) :
    let c := run (entryCode S) (syscallInstr S fmask u)
    let stack := pushAll (storeWord u.mem S.userRspScratch (u.reg .rsp)) (k.page + 4096)
      (entryWords S u)
    c.mem = stack.1 ∧ c.reg .rsp = stack.2 := by
  have hpushes := run_pushes pushedRegs (by decide) (switched S fmask u)
  have hr9 := switched_r9 S fmask u
  rw [switched_mem, switched_rsp htop, switched_regs] at hpushes
  -- the scratch word is read back behind the first eight pushes
  have hscratch : loadWord (pushAll (storeWord u.mem S.userRspScratch (u.reg .rsp)) (k.page + 4096)
      (userWords u)).1 S.userRspScratch = u.reg .rsp := by
    have hsmall : 8 * (userWords u).length ≤ 4096 := by simp [userWords]
    rw [loadWord_congr (fun x hx => pushAll_page hsmall (k.user x hx)), loadWord_storeWord]
  rw [entryWords, pushAll_append, run_entryCode, hpushes]
  generalize pushAll (storeWord u.mem S.userRspScratch (u.reg .rsp)) (k.page + 4096) (userWords u) =
    stack at hscratch
  simp [callCode, run_cons, run_nil, step, Cpu.push, Cpu.set, pushAll, hscratch, hr9, update_of_ne]

theorem entryCode_rsp (htop : loadWord u.mem S.kernelRspScratch = k.page + 4096) :
    (run (entryCode S) (syscallInstr S fmask u)).reg .rsp = k.page + 4008 := by
  rw [(entryCode_stack fmask htop).2, pushAll_sp]
  change k.page + 4096 - 88 = k.page + 4008
  grind

def Framed (page : UInt64) (u : Cpu) (mem : Bytes) : Prop :=
  Holds mem (page + 4024) (u.reg .rsp :: (userWords u).reverse)

section

variable (htop : loadWord u.mem S.kernelRspScratch = k.page + 4096)
include htop

theorem entryCode_framed : Framed k.page u (run (entryCode S) (syscallInstr S fmask u)).mem := by
  have hnil : Holds (storeWord u.mem S.userRspScratch (u.reg .rsp)) (k.page + 4096) [] := trivial
  have hwords := hnil.pushAll (entryWords S u) (by simp [entryWords, userWords])
  rw [← (entryCode_stack fmask htop).1, ← (entryCode_stack fmask htop).2,
    entryCode_rsp htop, List.append_nil] at hwords
  have hsplit : (entryWords S u).reverse =
    [S.back, u.reg .r9] ++ (u.reg .rsp :: (userWords u).reverse) := by simp [entryWords]
  have haddr : k.page + 4008 + UInt64.ofNat (8 * 2) = k.page + 4024 := by
    grind
  rw [hsplit] at hwords
  rw [Framed, ← haddr]
  exact (holds_append.mp hwords).2

/-- The entry code writes to the scratch word and the stack page. -/
theorem entryCode_elsewhere (hpage : 4096 ≤ (x - k.page).toNat)
    (hscratch : 8 ≤ (x - S.userRspScratch).toNat) :
    (run (entryCode S) (syscallInstr S fmask u)).mem x = u.mem x := by
  rw [(entryCode_stack fmask htop).1, pushAll_page (by simp [entryWords, userWords]) hpage,
    storeWord_outside hscratch]

end

def exiting (S : Symbols) (c : Cpu) : Cpu :=
  step (.popMem S.userRspScratch) (step .cli (step (.add .rsp 8) c))

theorem run_exitCode (S : Symbols) (c : Cpu) :
    run (exitCode S) c = step .sysret (step (.load .rsp S.userRspScratch)
    (run (pushedRegs.reverse.map .pop) (exiting S c))) := by
  rfl

theorem exiting_mem (S : Symbols) (c : Cpu) : (exiting S c).mem =
    storeWord c.mem S.userRspScratch (loadWord c.mem (c.reg .rsp + 8)) := by
  simp [exiting, step, Cpu.top, Cpu.set]

theorem exiting_rsp (S : Symbols) (c : Cpu) : (exiting S c).reg .rsp = c.reg .rsp + 8 + 8 := by
  simp [exiting, step, Cpu.drop, Cpu.set]

variable {r : Reg}

theorem exiting_reg (S : Symbols) (c : Cpu) (hr : r ≠ .rsp) : (exiting S c).reg r = c.reg r := by
  simp only [exiting, step, Cpu.drop, Cpu.set, update_of_ne hr]

theorem exitCode_elsewhere (hscratch : 8 ≤ (x - S.userRspScratch).toNat) :
    (run (exitCode S) c).mem x = c.mem x := by
  change (run (pushedRegs.reverse.map .pop) (exiting S c)).mem x = c.mem x
  rw [run_pops_mem, exiting_mem, storeWord_outside hscratch]

/-- The exit code gives back the frame and leaves other registers. -/
theorem exitCode_spec (hframe : Framed k.page u c.mem) (hsp : c.reg .rsp = k.page + 4016) :
    let v := run (exitCode S) c
    v.rip = u.rip ∧ v.rflags = sysretFlags u.rflags ∧ v.reg .rsp = u.reg .rsp ∧
      (∀ r ∈ pushedRegs.drop 2, v.reg r = u.reg r) ∧
      ∀ r, r ∉ pushedRegs → r ≠ .rsp → v.reg r = c.reg r := by
  have haddr : k.page + 4016 + 8 = k.page + 4024 := by grind
  have hmem : (exiting S c).mem = storeWord c.mem S.userRspScratch (u.reg .rsp) := by
    rw [exiting_mem, hsp, haddr, hframe.1]
  have hwords : Holds (exiting S c).mem ((exiting S c).reg .rsp) (userWords u).reverse := by
    rw [exiting_rsp, hsp, haddr]
    refine hframe.2.congr (by simp [userWords]) fun x hx => storeWord_outside ?_ _
    by_contra hscratch
    have hfar := k.user x (Nat.not_le.mp hscratch)
    have hnear : (x - (k.page + 4024 + 8)).toNat < 64 := hx
    have haddr' : k.page + 4024 + 8 = k.page + 4032 := by grind
    rw [haddr'] at hnear
    have hdist : (x - k.page).toNat = 4032 + (x - (k.page + 4032)).toNat :=
      distance_add hnear (by omega)
    omega
  have hpops := run_pops pushedRegs.reverse (by decide) (by decide) rfl hwords
  have hscratch : loadWord (run (pushedRegs.reverse.map .pop) (exiting S c)).mem S.userRspScratch =
      u.reg .rsp := by
    rw [run_pops_mem, hmem, loadWord_storeWord]
  rw [run_exitCode]
  generalize run (pushedRegs.reverse.map .pop) (exiting S c) = c₁ at hpops hscratch
  have hregs : pushedRegs.map c₁.reg = userWords u := by
    have hreverse := hpops.regs
    rwa [List.map_reverse, List.reverse_inj] at hreverse
  simp only [pushedRegs, userWords, List.map_cons, List.map_nil, List.cons.injEq, and_true] at hregs
  obtain ⟨hrcx, hr11, hrbp, hrbx, hr12, hr13, hr14, hr15⟩ := hregs
  refine ⟨?_, ?_, ?_, ?_, ?_⟩
  · simpa only [step, Cpu.set, ne_eq, reduceCtorEq, not_false_eq_true, update_of_ne] using hrcx
  · simp [step, Cpu.set, update_of_ne, hr11]
  · simpa only [step, Cpu.set, update_self] using hscratch
  · simp [pushedRegs, step, Cpu.set, hrbp, hrbx, hr12, hr13, hr14, hr15]
  · intro r hr hrsp
    have hkept := hpops.others r (by rwa [List.mem_reverse]) hrsp
    rw [exiting_reg S c hrsp] at hkept
    simpa only [step, Cpu.set, update_of_ne hrsp] using hkept

theorem inFrame_page (hx : InFrame page x) : (x - page).toNat < 4096 := by
  have hx' : (x - (page + UInt64.ofNat 4024)).toNat < 72 := hx
  have hdist := distance_add hx' (by omega)
  omega

theorem Framed.congr {mem mem' : Bytes} (h : Framed page u mem)
    (hsame : ∀ x, InFrame page x → mem' x = mem x) : Framed page u mem' := by
  unfold Framed at h ⊢
  refine h.congr (by simp [userWords]) fun x hx => hsame x ?_
  simpa [InFrame, userWords] using hx

theorem During.frame (h : During S fmask k.page c c') (hx : InFrame k.page x) :
    c'.mem x = c.mem x := by
  have hpage := inFrame_page hx
  have hscratch : 8 ≤ (x - S.userRspScratch).toNat := by
    by_contra hnear
    have hfar := k.user x (Nat.not_le.mp hnear)
    omega
  cases h with
  | code _ hkept => exact hkept x hx
  | enters other hother htop =>
    have hout : 4096 ≤ (x - other.page).toNat := by
      by_contra hnear
      have hfar := hother x (Nat.not_le.mp hnear)
      omega
    exact entryCode_elsewhere htop hout hscratch
  | leaves => exact exitCode_elsewhere hscratch

/-- Whatever the threads do during the call, the frame stays. -/
theorem during_framed (hrun : Reachable (During S fmask k.page) c c') (h : Framed k.page u c.mem) :
    Framed k.page u c'.mem := by
  induction hrun with
  | refl => exact h
  | tail _ hstep ih => exact ih.congr fun x hx => hstep.frame hx

/-- What the user program gets back: the saved state, and the registers with which the dispatcher
returned. -/
theorem dispatched_exit (htop : loadWord u.mem S.kernelRspScratch = k.page + 4096)
    (hdisp : Dispatched S fmask k.page (run (entryCode S) (syscallInstr S fmask u)) c) :
    let v := run (exitCode S) c
    v.rip = u.rip ∧ v.rflags = sysretFlags u.rflags ∧ v.reg .rsp = u.reg .rsp ∧
      (∀ r ∈ pushedRegs.drop 2, v.reg r = u.reg r) ∧
      ∀ r, r ∉ pushedRegs → r ≠ .rsp → v.reg r = c.reg r := by
  have hframe := during_framed hdisp.run (entryCode_framed htop)
  apply exitCode_spec hframe
  rw [hdisp.sp, entryCode_rsp htop]
  grind

theorem argumentRegs_kept : ∀ r ∈ argumentRegs, r ∉ pushedRegs ∧ r ≠ .rsp ∧ r ≠ .rax ∧ r ≠ .rcx ∧
    r ≠ .r11 := by
  decide

/-- A register a system call may not change is the stack pointer, saved on the stack, or one of an
argument. -/
theorem reg_cases (hrax : r ≠ .rax) (hrcx : r ≠ .rcx) (hr11 : r ≠ .r11) :
    r = .rsp ∨ r ∈ pushedRegs.drop 2 ∨ r ∈ argumentRegs := by
  cases r <;> first | contradiction | decide

/-- A user program finds its state again exactly if the dispatcher happens to return with the
argument registers as they were. -/
theorem syscall_preserves_iff (S : Symbols) (k : KernelStack S) (fmask : UInt64) (u c : Cpu)
    (hflags : sysretFlags u.rflags = u.rflags) (htop : loadWord u.mem S.kernelRspScratch =
      k.page + 4096)
    (hdisp : Dispatched S fmask k.page (run (entryCode S) (syscallInstr S fmask u)) c) :
    Preserved u (run (exitCode S) c) ↔ ∀ r ∈ argumentRegs, c.reg r = u.reg r := by
  obtain ⟨hrip, hrflags, hrsp, hsaved, hothers⟩ := dispatched_exit htop hdisp
  generalize run (exitCode S) c = v at hrip hrflags hrsp hsaved hothers ⊢
  constructor
  · intro h r hr
    obtain ⟨hkept, hrsp, hrax, hrcx, hr11⟩ := argumentRegs_kept r hr
    rw [← hothers r hkept hrsp]
    exact h.regs r hrax hrcx hr11
  · intro h
    refine ⟨hrip, hrflags.trans hflags, fun r hrax hrcx hr11 => ?_⟩
    rcases reg_cases hrax hrcx hr11 with rfl | hr | hr
    · exact hrsp
    · exact hsaved r hr
    · obtain ⟨hkept, hrsp, _⟩ := argumentRegs_kept r hr
      rw [hothers r hkept hrsp, h r hr]

def symbols : Symbols where
  syscallEntry := 0x9000
  userRspScratch := 0x8000
  kernelRspScratch := 0x8008
  syscallDispatch := 0xA000
  back := 0x9040
  apart x := by
    have hlt := x.toNat_lt
    simp only [UInt64.toNat_sub]
    simp
    omega

def kernelStack : KernelStack symbols where
  page := 0x1000
  user x := by
    have hlt := x.toNat_lt
    simp only [UInt64.toNat_sub, symbols]
    simp
    omega
  kernel x := by
    have hlt := x.toNat_lt
    simp only [UInt64.toNat_sub, symbols]
    simp
    omega

def userCpu : Cpu where
  reg r := match r with
    | .rax => 39
    | .rdi => 5
    | .rsp => 0x700000
    | _ => 0
  rip := 0x400000
  rflags := 0x202
  mem := storeWord (fun _ => 0) symbols.kernelRspScratch (kernelStack.page + 4096)

theorem userCpu_top : loadWord userCpu.mem symbols.kernelRspScratch = kernelStack.page + 4096 :=
  loadWord_storeWord _ _ _

def returning (c : Cpu) (regs : List Reg) (value : Reg → UInt64) : Cpu :=
  { c with
    reg := fun r => if r = .rsp then c.reg .rsp + 8 else if r ∈ regs then value r else c.reg r
    rip := c.top }

theorem returning_reg (c : Cpu) {regs : List Reg} (value : Reg → UInt64) (hrsp : r ≠ .rsp)
    (hr : r ∉ regs) : (returning c regs value).reg r = c.reg r := by
  simp [returning, hrsp, hr]

theorem returning_dispatched (S : Symbols) (fmask page : UInt64) (c : Cpu) (regs : List Reg)
    (value : Reg → UInt64) (hregs : ∀ r ∈ [rbx, .rbp, .r12, .r13, .r14, .r15], r ∉ regs) :
    Dispatched S fmask page c (returning c regs value) := by
  refine ⟨.single (.code _ _ (fun _ _ => rfl)), rfl, rfl, fun r hr => ?_⟩
  have hrsp : r ≠ .rsp := fun heq => absurd (heq ▸ hr) (by decide)
  exact returning_reg c value hrsp (hregs r hr)

theorem syscall_preserved_by_restoring : ∃ c, Dispatched symbols 0x200 kernelStack.page
      (run (entryCode symbols) (syscallInstr symbols 0x200 userCpu)) c ∧
    Preserved userCpu (run (exitCode symbols) c) := by
  have hdisp := returning_dispatched symbols 0x200 kernelStack.page
    (run (entryCode symbols) (syscallInstr symbols 0x200 userCpu)) argumentRegs
      userCpu.reg (by decide)
  refine ⟨_, hdisp, ?_⟩
  rw [syscall_preserves_iff symbols kernelStack 0x200 userCpu _ (by decide) userCpu_top hdisp]
  intro r hr
  obtain ⟨_, hrsp, _⟩ := argumentRegs_kept r hr
  simp [returning, hrsp, hr]

/-- Even a dispatcher that touches no register returns with the number of the system call in
`rdi`. -/
theorem syscall_clobbers_rdi : ∃ c, Dispatched symbols 0x200 kernelStack.page
      (run (entryCode symbols) (syscallInstr symbols 0x200 userCpu)) c ∧
    userCpu.reg .rdi = 5 ∧ (run (exitCode symbols) c).reg .rdi = 39 ∧
    ¬Preserved userCpu (run (exitCode symbols) c) := by
  have hdisp := returning_dispatched symbols 0x200 kernelStack.page
    (run (entryCode symbols) (syscallInstr symbols 0x200 userCpu)) [] userCpu.reg (by decide)
  have hrdi : (run (exitCode symbols) (returning (run (entryCode symbols)
      (syscallInstr symbols 0x200 userCpu)) [] userCpu.reg)).reg .rdi = 39 := by
    rfl
  refine ⟨_, hdisp, rfl, hrdi, fun h => ?_⟩
  have hkept := h.regs .rdi (by decide) (by decide) (by decide)
  cases hkept

end NexusKernel.SyscallEntry
