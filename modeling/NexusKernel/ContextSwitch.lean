import NexusKernel.Lib.Runs
import NexusKernel.Lib.StackMachine

/-!
Switching between threads. `switch_context` leaves six registers and the return address on the
stack it leaves and takes them from the stack it goes to; `thread_create` builds such a stack.
Between two switches the running thread may do anything except write to the stack pages of other
threads or to their saved stack pointers.
-/

namespace NexusKernel.ContextSwitch

open Lib.Runs Lib.StackMachine Function

def restore : List Instr := [.pop .r15, .pop .r14, .pop .r13, .pop .r12, .pop .rbp, .pop .rbx, .ret]

def switchContext : List Instr :=
  [.push .rbx, .push .rbp, .push .r12, .push .r13, .push .r14, .push .r15,
    .storeVia .rdi .rsp, .mov .rsp .rsi] ++ restore

def firstSwitch : List Instr := .mov .rsp .rsi :: restore

def threadEntryStub (schedLock back : UInt64) : List Instr :=
  [.clearDword schedLock, .sti, .pop .rdi, .pop .rsi, .pop .rdx, .mov .rax .rdi, .mov .rdi .rsi,
    .mov .rsi .rdx, .call .rax back]

def threadKernelStackSize : UInt64 := 4096

def clearPage (mem : Bytes) (page : UInt64) : Bytes := fun x =>
  if (x - page).toNat < 4096 then 0 else mem x

def threadCreate (mem : Bytes) (page cell stub entryRip arg1 arg2 : UInt64) : Bytes :=
  let kstack := pushAll (clearPage mem page) (page + threadKernelStackSize)
    [arg2, arg1, entryRip, stub, 0, 0, 0, 0, 0, 0]
  storeWord kstack.1 cell kstack.2

structure Layout (ι : Type) where
  page : ι → UInt64
  cell : ι → UInt64
  stub : UInt64
  schedLock : UInt64
  back : UInt64
  aligned : ∀ i, (page i).toNat % 4096 = 0
  pages : ∀ i j, i ≠ j → ∀ x, (x - page i).toNat < 4096 → 4096 ≤ (x - page j).toNat
  cells : ∀ i j, i ≠ j → ∀ x, (x - cell i).toNat < 8 → 8 ≤ (x - cell j).toNat
  outside : ∀ i j x, (x - cell i).toNat < 8 → 4096 ≤ (x - page j).toNat
  lock : ∀ i x, (x - schedLock).toNat < 4 → 4096 ≤ (x - page i).toNat

/-- What a thread waits for: to start with its arguments, or to return from `switch_context` to
`ret` with its registers. -/
inductive Status where
  | absent
  | fresh (entryRip arg1 arg2 : UInt64)
  | running
  | suspended (ret : UInt64) (reg : Reg → UInt64)

structure State (ι : Type) where
  cpu : Cpu
  current : Option ι
  status : ι → Status

def callSwitch (c : Cpu) (oldRspOut newRsp ret : UInt64) : Cpu :=
  ((c.set .rdi oldRspOut).set .rsi newRsp).push ret

variable {ι : Type}

def switchTo (L : Layout ι) (c : Cpu) (i j : ι) (ret : UInt64) : Cpu :=
  run switchContext (callSwitch c (L.cell i) (loadWord c.mem (L.cell j)) ret)

def startFirst (L : Layout ι) (c : Cpu) (j : ι) : Cpu :=
  run firstSwitch (c.set .rsi (loadWord c.mem (L.cell j)))

/-- Memory with the stacks and stack pointers of all threads but the current one. -/
def Spared (L : Layout ι) (s : State ι) (mem : Bytes) : Prop :=
  ∀ j, s.status j ≠ .absent → s.current ≠ some j →
    ∀ x, (x - L.page j).toNat < 4096 ∨ (x - L.cell j).toNat < 8 → mem x = s.cpu.mem x

structure Frame (L : Layout ι) (mem : Bytes) (j : ι) (sp : UInt64) (ws : List UInt64) : Prop where
  cell : loadWord mem (L.cell j) = sp
  words : Holds mem sp ws
  inside : (sp - L.page j).toNat + 8 * ws.length ≤ 4096

def newWords (L : Layout ι) (entryRip arg1 arg2 : UInt64) : List UInt64 :=
  [0, 0, 0, 0, 0, 0, L.stub, entryRip, arg1, arg2]

def savedWords (reg : Reg → UInt64) (ret : UInt64) : List UInt64 :=
  [reg .r15, reg .r14, reg .r13, reg .r12, reg .rbp, reg .rbx, ret]

def Waits (L : Layout ι) (mem : Bytes) (j : ι) : Status → Prop
  | .absent => True
  | .fresh entryRip arg1 arg2 => Frame L mem j (L.page j + 4016) (newWords L entryRip arg1 arg2)
  | .running => True
  | .suspended ret reg => Frame L mem j (reg .rsp - 56) (savedWords reg ret)

def State.Initial (s : State ι) : Prop := s.current = none ∧ ∀ j, s.status j = .absent

structure Sound (L : Layout ι) (s : State ι) : Prop where
  waits : ∀ j, Waits L s.cpu.mem j (s.status j)
  current : ∀ j, s.status j = .running ↔ s.current = some j

variable {L : Layout ι} {mem mem' : Bytes} {c c' : Cpu} {i j : ι} {s s' : State ι}
variable {sp ret x entryRip arg1 arg2 : UInt64} {ws saved rest : List UInt64}

theorem Frame.congr (h : Frame L mem j sp ws)
    (hsame : ∀ x, (x - L.page j).toNat < 4096 ∨ (x - L.cell j).toNat < 8 → mem' x = mem x) :
    Frame L mem' j sp ws := by
  have hin := h.inside
  refine ⟨(loadWord_congr (fun x hx => hsame x (.inr hx))).trans h.cell,
    h.words.congr (by omega) (fun x hx => hsame x (.inl ?_)), hin⟩
  have hdist := distance_trans (L.page j) sp x (by omega)
  omega

variable {status : Status}

theorem Waits.congr (h : Waits L mem j status) (hsame : status ≠ .absent → status ≠ .running →
      ∀ x, (x - L.page j).toNat < 4096 ∨ (x - L.cell j).toNat < 8 → mem' x = mem x) :
    Waits L mem' j status := by
  cases status with
  | absent | running => trivial
  | fresh entryRip arg1 arg2 | suspended ret reg => exact Frame.congr h (hsame (by simp) (by simp))

theorem Sound.initial (h : s.Initial) : Sound L s := by
  refine ⟨fun j => ?_, fun j => ?_⟩
  · rw [h.2 j]
    trivial
  · rw [h.1, h.2 j]
    simp

theorem Sound.execute (h : Sound L s) {c : Cpu} (hspared : Spared L s c.mem) :
    Sound L { s with cpu := c } := by
  refine ⟨fun j => (h.waits j).congr (fun habs hrun x hx => ?_), h.current⟩
  exact hspared j habs (fun hcur => hrun ((h.current j).mpr hcur)) x hx

def calleeSaved : List Reg := [.rbx, .rbp, .r12, .r13, .r14, .r15]

theorem switchContext_eq :
    switchContext = calleeSaved.map .push ++ .storeVia .rdi .rsp :: .mov .rsp .rsi :: restore := rfl

theorem restore_eq : restore = calleeSaved.reverse.map .pop ++ [.ret] := rfl

structure Restored (c : Cpu) (saved : List UInt64) (ret : UInt64) (c' : Cpu) : Prop where
  mem : c'.mem = c.mem
  regs : calleeSaved.reverse.map c'.reg = saved
  rip : c'.rip = ret
  sp : c'.reg .rsp = c.reg .rsp + 56

theorem run_restore (saved rest : List UInt64) (hlen : saved.length = 6)
    (h : Holds c.mem (c.reg .rsp) (saved ++ ret :: rest)) :
    Restored c saved ret (run restore c) := by
  have hnum : calleeSaved.reverse.length = 6 := by decide
  have h48 : UInt64.ofNat (8 * 6) = 48 := by decide
  obtain ⟨hsaved, hret, _⟩ := holds_append.mp h
  have hpops := run_pops calleeSaved.reverse (by decide) (by decide) hlen hsaved
  rw [restore_eq, run_append, run_cons, run_nil]
  generalize run (calleeSaved.reverse.map .pop) c = c₁ at hpops
  have hsp := hpops.sp
  rw [hnum, h48] at hsp
  rw [hlen, h48] at hret
  refine ⟨(step_ret_mem c₁).trans hpops.mem, ?_, ?_, ?_⟩
  · rw [← hpops.regs]
    apply List.map_congr_left
    intro r hr
    have hne : r ≠ .rsp := fun heq => absurd (heq ▸ hr) (by decide)
    exact update_of_ne hne _ _
  · simp only [step, Cpu.top, hsp, hpops.mem]
    exact hret
  · simp only [step, Cpu.drop, Cpu.set, update_self, hsp]
    rw [UInt64.add_assoc, show (48 : UInt64) + 8 = 56 by decide]

def savedMem (L : Layout ι) (c : Cpu) (i : ι) (ret : UInt64) : Bytes :=
  storeWord (pushAll c.mem (c.reg .rsp) (ret :: calleeSaved.map c.reg)).1 (L.cell i)
    (pushAll c.mem (c.reg .rsp) (ret :: calleeSaved.map c.reg)).2

theorem callSwitch_regs (c : Cpu) (oldRspOut newRsp ret : UInt64) :
    calleeSaved.map (callSwitch c oldRspOut newRsp ret).reg = calleeSaved.map c.reg := by
  simp [calleeSaved, callSwitch, Cpu.set, Cpu.push]

theorem switchTo_eq (L : Layout ι) (c : Cpu) (i j : ι) (ret : UInt64) :
    ∃ c₁ : Cpu, switchTo L c i j ret = run restore c₁ ∧ c₁.mem = savedMem L c i ret ∧
      c₁.reg .rsp = loadWord c.mem (L.cell j) := by
  have hpushes := run_pushes calleeSaved (by decide)
    (callSwitch c (L.cell i) (loadWord c.mem (L.cell j)) ret)
  rw [callSwitch_regs] at hpushes
  refine ⟨step (.mov .rsp .rsi) (step (.storeVia .rdi .rsp) (run (calleeSaved.map .push)
    (callSwitch c (L.cell i) (loadWord c.mem (L.cell j)) ret))), ?_, ?_, ?_⟩
  · rw [switchTo, switchContext_eq, run_append, run_cons, run_cons]
  · rw [hpushes, savedMem, pushAll]
    simp [step, Cpu.set, callSwitch, Cpu.push, update_of_ne]
  · rw [hpushes]
    simp [step, Cpu.set, callSwitch, Cpu.push]

theorem saved_sp (mem : Bytes) (c : Cpu) (ret : UInt64) :
    (pushAll mem (c.reg .rsp) (ret :: calleeSaved.map c.reg)).2 = c.reg .rsp - 56 := by
  rw [pushAll_sp, List.length_cons]
  congr 1

/-- A thread whose words are inside its stack page waits once its stack pointer is stored. -/
theorem stored_frame {sp : UInt64} {words : List UInt64} (hwords : Holds mem sp words)
    (hin : (sp - L.page i).toNat + 8 * words.length ≤ 4096) :
    Frame L (storeWord mem (L.cell i) sp) i sp words := by
  refine ⟨loadWord_storeWord _ _ _, hwords.congr (by omega) (fun x hx => ?_), hin⟩
  apply storeWord_outside
  by_contra hcell
  have hfar := L.outside i i x (Nat.not_le.mp hcell)
  have htrans := distance_trans (L.page i) sp x (by omega)
  omega

section

variable (hroom : 56 ≤ (c.reg .rsp - L.page i).toNat) (hpage : (c.reg .rsp - L.page i).toNat ≤ 4096)
include hroom hpage

/-- After `switch_context` the thread waits with its registers on its stack. -/
theorem saved_frame (ret : UInt64) :
    Frame L (savedMem L c i ret) i (c.reg .rsp - 56) (savedWords c.reg ret) := by
  have hdist : (c.reg .rsp - 56 - L.page i).toNat = (c.reg .rsp - L.page i).toNat - 56 :=
    distance_sub hroom
  have hnil : Holds c.mem (c.reg .rsp) [] := trivial
  have hwords := hnil.pushAll (ret :: calleeSaved.map c.reg) (by simp [calleeSaved])
  rw [saved_sp] at hwords
  rw [savedMem, saved_sp]
  refine stored_frame hwords ?_
  simp only [savedWords, List.length_cons, List.length_nil]
  omega

/-- Only the stack page and the stack pointer of the thread are written. -/
theorem savedMem_elsewhere (hx : 4096 ≤ (x - L.page i).toNat)
    (hcell : 8 ≤ (x - L.cell i).toNat) : savedMem L c i ret x = c.mem x := by
  rw [savedMem, storeWord_outside hcell]
  exact pushAll_beside hroom hpage hx

end

theorem created_sp (mem : Bytes) (page stub entryRip arg1 arg2 : UInt64) :
    (pushAll mem (page + threadKernelStackSize)
    [arg2, arg1, entryRip, stub, 0, 0, 0, 0, 0, 0]).2 = page + 4016 := by
  rw [pushAll_sp]
  change page + 4096 - 80 = page + 4016
  grind

/-- A new thread waits with entry point and arguments on its stack. -/
theorem created_frame (L : Layout ι) (mem : Bytes) (j : ι) (entryRip arg1 arg2 : UInt64) :
    Frame L (threadCreate mem (L.page j) (L.cell j) L.stub entryRip arg1 arg2) j (L.page j + 4016)
      (newWords L entryRip arg1 arg2) := by
  have hdist : (L.page j + 4016 - L.page j).toNat = 4016 := distance_self_add (by decide) (L.page j)
  have hnil : Holds (clearPage mem (L.page j)) (L.page j + threadKernelStackSize) [] := trivial
  have hwords := hnil.pushAll [arg2, arg1, entryRip, L.stub, 0, 0, 0, 0, 0, 0] (by simp)
  rw [created_sp] at hwords
  simp only [threadCreate, created_sp]
  refine stored_frame hwords ?_
  simp only [hdist, newWords, List.length_cons, List.length_nil]
  omega

theorem created_elsewhere (hpage : 4096 ≤ (x - L.page j).toNat) (hcell : 8 ≤ (x - L.cell j).toNat) :
    threadCreate mem (L.page j) (L.cell j) L.stub entryRip arg1 arg2 x = mem x := by
  have htop : (L.page j + threadKernelStackSize - L.page j).toNat = 4096 :=
    distance_self_add (by decide) (L.page j)
  simp only [threadCreate]
  rw [storeWord_outside hcell, pushAll_beside (by rw [htop]; simp) (Nat.le_of_eq htop) hpage,
    clearPage, if_neg (by omega)]

/-- The stack and the stack pointer of one thread are none of another's. -/
theorem Layout.apart {k : ι} (hne : k ≠ j) (hx : (x - L.page k).toNat < 4096 ∨
      (x - L.cell k).toNat < 8) : 4096 ≤ (x - L.page j).toNat ∧ 8 ≤ (x - L.cell j).toNat := by
  rcases hx with hpage | hcell
  · refine ⟨L.pages k j hne x hpage, ?_⟩
    by_contra hcell
    have hfar := L.outside j k x (Nat.not_le.mp hcell)
    omega
  · exact ⟨L.outside k j x hcell, L.cells k j hne x hcell⟩

/-- Where a waiting thread goes on: at the return address with its registers, or at its entry
point with its arguments and the stack of a call. -/
def Arrives (L : Layout ι) (c : Cpu) : Status → Prop
  | .suspended ret reg => c.rip = ret ∧ ∀ r ∈ .rsp :: calleeSaved, c.reg r = reg r
  | .fresh entryRip arg1 arg2 => c.rip = L.stub ∧
      let c' := run (threadEntryStub L.schedLock L.back) c
      c'.rip = entryRip ∧ c'.reg .rdi = arg1 ∧ c'.reg .rsi = arg2 ∧ (c'.reg .rsp).toNat % 16 = 8
  | .absent => False
  | .running => False

theorem threadEntryStub_eq (schedLock back : UInt64) : threadEntryStub schedLock back =
      .clearDword schedLock :: .sti :: ([Reg.rdi, .rsi, .rdx].map .pop ++
        [.mov .rax .rdi, .mov .rdi .rsi, .mov .rsi .rdx, .call .rax back]) := rfl

/-- The stub takes entry point and arguments from the stack and calls. -/
theorem threadEntryStub_enters (hmem : Holds c.mem (c.reg .rsp) [entryRip, arg1, arg2])
    (hsp : c.reg .rsp = L.page j + 4072) :
    let c' := run (threadEntryStub L.schedLock L.back) c
    c'.rip = entryRip ∧ c'.reg .rdi = arg1 ∧ c'.reg .rsi = arg2 ∧ c'.reg .rsp =
      L.page j + 4088 := by
  have hdist : (L.page j + 4072 - L.page j).toNat = 4072 := distance_self_add (by decide) (L.page j)
  have hmem' : Holds (step .sti (step (.clearDword L.schedLock) c)).mem (c.reg .rsp)
      [entryRip, arg1, arg2] := by
    refine hmem.congr (by simp) fun x hx => if_neg (fun hlock => ?_)
    have hfar := L.lock j x hlock
    have hx' : (x - (L.page j + 4072)).toNat < 24 := hsp ▸ hx
    have htrans := distance_trans (L.page j) (L.page j + 4072) x (by omega)
    omega
  have hpops := run_pops [.rdi, .rsi, .rdx] (by decide) (by decide) rfl hmem'
  rw [threadEntryStub_eq, run_cons, run_cons, run_append]
  generalize run ([Reg.rdi, .rsi, .rdx].map .pop)
    (step .sti (step (.clearDword L.schedLock) c)) = c₁ at hpops
  have hregs := hpops.regs
  have hsp₁ := hpops.sp
  rw [show UInt64.ofNat (8 * [Reg.rdi, .rsi, .rdx].length) = 24 by decide] at hsp₁
  simp only [List.map_cons, List.map_nil, List.cons.injEq, and_true] at hregs
  obtain ⟨hrdi, hrsi, hrdx⟩ := hregs
  simp only [run_cons, run_nil, step, Cpu.set, Cpu.push, ne_eq, reduceCtorEq, not_false_eq_true,
    update_of_ne, update_self, hrdi, hrsi, hrdx, hsp₁, true_and]
  grind

variable {c₁ : Cpu}

theorem arrives_suspended {reg : Reg → UInt64} (h : Frame L c₁.mem j (reg .rsp - 56)
      (savedWords reg ret)) (hsp : c₁.reg .rsp = loadWord c₁.mem (L.cell j)) :
    Arrives L (run restore c₁) (.suspended ret reg) := by
  rw [h.cell] at hsp
  have hrestored := run_restore (calleeSaved.reverse.map reg) [] (by simp [calleeSaved])
    (hsp ▸ h.words)
  refine ⟨hrestored.rip, fun r hr => ?_⟩
  rcases List.mem_cons.mp hr with rfl | hr
  · rw [hrestored.sp]
    grind
  · exact List.map_inj_left.mp hrestored.regs r (List.mem_reverse.mpr hr)

theorem arrives_fresh (h : Frame L c₁.mem j (L.page j + 4016) (newWords L entryRip arg1 arg2))
    (hsp : c₁.reg .rsp = loadWord c₁.mem (L.cell j)) :
    Arrives L (run restore c₁) (.fresh entryRip arg1 arg2) := by
  rw [h.cell] at hsp
  have hrestored := run_restore [0, 0, 0, 0, 0, 0] [entryRip, arg1, arg2] rfl (hsp ▸ h.words)
  have hsp' : (run restore c₁).reg .rsp = L.page j + 4072 := by
    rw [hrestored.sp]
    grind
  have hmem : Holds (run restore c₁).mem ((run restore c₁).reg .rsp) [entryRip, arg1, arg2] := by
    have hwords : Holds c₁.mem (L.page j + 4016)
      ([0, 0, 0, 0, 0, 0, L.stub] ++ [entryRip, arg1, arg2]) := h.words
    have haddr : L.page j + 4016 + UInt64.ofNat (8 * 7) = L.page j + 4072 := by
      grind
    rw [hsp', ← haddr]
    exact (holds_append.mp hwords).2
  obtain ⟨hrip, hrdi, hrsi, hrsp⟩ := threadEntryStub_enters hmem hsp'
  refine ⟨hrestored.rip, hrip, hrdi, hrsi, ?_⟩
  have halign := L.aligned j
  rw [hrsp]
  change ((L.page j).toNat + 4088) % 2 ^ 64 % 16 = 8
  omega

theorem arrives_of_waits (hwaits : Waits L c₁.mem j status)
    (habs : status ≠ .absent) (hrun : status ≠ .running)
    (hsp : c₁.reg .rsp = loadWord c₁.mem (L.cell j)) : Arrives L (run restore c₁) status := by
  cases status with
  | absent => exact absurd rfl habs
  | running => exact absurd rfl hrun
  | fresh entryRip arg1 arg2 => exact arrives_fresh hwaits hsp
  | suspended ret reg => exact arrives_suspended hwaits hsp

variable [DecidableEq ι]

/-- Steps of the system. A thread that calls `switch_context` is in its stack page, with room for
seven words. -/
inductive Step (L : Layout ι) : State ι → State ι → Prop
  | execute (s : State ι) (c : Cpu) : Spared L s c.mem → Step L s { s with cpu := c }
  | create (s : State ι) (j : ι) (entryRip arg1 arg2 : UInt64) : s.status j = .absent →
      Step L s { s with
        cpu := { s.cpu with
          mem := threadCreate s.cpu.mem (L.page j) (L.cell j) L.stub entryRip arg1 arg2 }
        status := update s.status j (.fresh entryRip arg1 arg2) }
  | first (s : State ι) (j : ι) : s.current = none → s.status j ≠ .absent →
      Step L s ⟨startFirst L s.cpu j, some j, update s.status j .running⟩
  | switch (s : State ι) (i j : ι) (ret : UInt64) : s.current = some i → j ≠ i →
      s.status j ≠ .absent → 56 ≤ (s.cpu.reg .rsp - L.page i).toNat →
      (s.cpu.reg .rsp - L.page i).toNat ≤ 4096 → Step L s ⟨switchTo L s.cpu i j ret, some j,
        update (update s.status i (.suspended ret s.cpu.reg)) j .running⟩

theorem Sound.create (h : Sound L s) (habs : s.status j = .absent)
    (entryRip arg1 arg2 : UInt64) : Sound L { s with
    cpu := { s.cpu with
      mem := threadCreate s.cpu.mem (L.page j) (L.cell j) L.stub entryRip arg1 arg2 }
    status := update s.status j (.fresh entryRip arg1 arg2) } := by
  refine ⟨(forall_update_iff _ (Waits L _)).mpr
    ⟨created_frame L s.cpu.mem j entryRip arg1 arg2, fun k hk => ?_⟩, fun k => ?_⟩
  · refine (h.waits k).congr fun _ _ x hx => ?_
    obtain ⟨hpage, hcell⟩ := L.apart hk hx
    exact created_elsewhere hpage hcell
  · by_cases hk : k = j
    · subst k
      have hcur : s.current ≠ some j := fun hcur =>
        absurd ((h.current j).mpr hcur) (by simp [habs])
      simp [hcur]
    · simpa only [update_of_ne hk] using h.current k

/-- Registers and return address go where the thread finds them. -/
theorem Sound.switch (h : Sound L s) (hroom : 56 ≤ (s.cpu.reg .rsp - L.page i).toNat)
    (hpage : (s.cpu.reg .rsp - L.page i).toNat ≤ 4096) (ret : UInt64) (k : ι) :
    Waits L (savedMem L s.cpu i ret) k (update s.status i (.suspended ret s.cpu.reg) k) := by
  revert k
  refine (forall_update_iff _ (Waits L _)).mpr ⟨saved_frame hroom hpage ret, fun k hk => ?_⟩
  refine (h.waits k).congr fun _ _ x hx => ?_
  obtain ⟨hfar, hcell⟩ := L.apart hk hx
  exact savedMem_elsewhere hroom hpage hfar hcell

theorem sound_started {c : Cpu} {status : ι → Status} (hwaits : ∀ k, Waits L c.mem k (status k))
    (hidle : ∀ k ≠ j, status k ≠ .running) : Sound L ⟨c, some j, update status j .running⟩ := by
  refine ⟨(forall_update_iff _ (Waits L _)).mpr ⟨trivial, fun k _ => hwaits k⟩, fun k => ?_⟩
  by_cases hk : k = j
  · subst k
    simp
  · simp [update_of_ne hk, hidle k hk, Ne.symm hk]

theorem Sound.step (h : Sound L s) (hstep : Step L s s') : Sound L s' := by
  cases hstep with
  | execute c hspared => exact h.execute hspared
  | create j entryRip arg1 arg2 habs => exact h.create habs entryRip arg1 arg2
  | first j hcur hj =>
    refine sound_started (fun k => ?_) fun k _ hrun => ?_
    · exact h.waits k
    · exact absurd ((h.current k).mp hrun) (by simp [hcur])
  | switch i j ret hi hne hj hroom hpage =>
    refine sound_started (fun k => ?_) fun k _ hrun => ?_
    · exact h.switch hroom hpage ret k
    · by_cases hki : k = i
      · subst k
        simp at hrun
      · rw [update_of_ne hki] at hrun
        exact hki (Option.some.inj (((h.current k).mp hrun).symm.trans hi))

/-- In every run, a thread switched to goes on where it was switched away from, with its
registers; a new thread enters its entry point with its arguments. -/
theorem context_switch_transparent {s₀ : State ι} (hinit : s₀.Initial)
    (hrun : Reachable (Step L) s₀ s) (hstep : Step L s s') (hpre : s.current ≠ some j)
    (hafter : s'.current = some j) : Arrives L s'.cpu (s.status j) := by
  have h := hrun.invariant (Sound L) (fun _ _ => Sound.step) (Sound.initial hinit)
  have hrunning : s.status j ≠ .running := fun hstatus => hpre ((h.current j).mp hstatus)
  cases hstep with
  | execute c hspared | create k entryRip arg1 arg2 habs => exact absurd hafter hpre
  | first k hcur hk =>
    obtain rfl := Option.some.inj hafter
    refine arrives_of_waits (h.waits k) hk hrunning ?_
    simp [Lib.StackMachine.step, Cpu.set]
  | switch i k ret hi hne hk hroom hpage =>
    obtain rfl := Option.some.inj hafter
    obtain ⟨c₁, hcode, hmem, hsp⟩ := switchTo_eq L s.cpu i k ret
    have hwaits := h.switch hroom hpage ret k
    rw [update_of_ne hne, ← hmem] at hwaits
    rw [hcode]
    refine arrives_of_waits hwaits hk hrunning (hsp.trans ?_)
    rw [hmem]
    refine (loadWord_congr (fun x hx => ?_)).symm
    obtain ⟨hfar, hcell⟩ := L.apart hne (.inr hx)
    exact savedMem_elsewhere hroom hpage hfar hcell

theorem distance_toNat (x a : UInt64) : (x - a).toNat = (2 ^ 64 - a.toNat + x.toNat) % 2 ^ 64 :=
  UInt64.toNat_sub x a

def pairLayout : Layout Bool where
  page i := if i then 0x2000 else 0x1000
  cell i := if i then 0x5008 else 0x5000
  stub := 0x9000
  schedLock := 0x6000
  back := 0x9020
  aligned i := by cases i <;> decide
  pages i j hne x := by
    have hlt := x.toNat_lt
    cases i <;> cases j <;> simp [distance_toNat] at hne ⊢ <;> omega
  cells i j hne x := by
    have hlt := x.toNat_lt
    cases i <;> cases j <;> simp [distance_toNat] at hne ⊢ <;> omega
  outside i j x := by
    have hlt := x.toNat_lt
    cases i <;> cases j <;> simp [distance_toNat] <;> omega
  lock i x := by
    cases i <;> simp [distance_toNat] <;> omega

def bootState : State Bool := ⟨⟨fun _ => 0, 0, 0, fun _ => 0⟩, none, fun _ => .absent⟩

/-- Both threads are created, and the first is started. -/
theorem pair_started : ∃ s, Reachable (Step pairLayout) bootState s ∧ s.current = some false ∧
    s.status true ≠ .absent ∧ s.cpu.reg .rsp = 0x1800 := by
  have h₁ := Step.create (L := pairLayout) bootState false 0x100 1 2 rfl
  generalize hs₁ : ({ bootState with cpu := _, status := _ } : State Bool) = s₁ at h₁
  have hstatus₁ : s₁.status true = .absent ∧ s₁.status false ≠ .absent ∧ s₁.current = none := by
    subst hs₁
    simp [bootState]
  have h₂ := Step.create (L := pairLayout) s₁ true 0x200 3 4 hstatus₁.1
  generalize hs₂ : ({ s₁ with cpu := _, status := _ } : State Bool) = s₂ at h₂
  have hstatus₂ : s₂.status true ≠ .absent ∧ s₂.status false ≠ .absent ∧ s₂.current = none := by
    subst hs₂
    simp [hstatus₁]
  have h₃ := Step.first (L := pairLayout) s₂ false hstatus₂.2.2 hstatus₂.2.1
  generalize hs₃ : (State.mk _ (some false) _ : State Bool) = s₃ at h₃
  have hstatus₃ : s₃.status true ≠ .absent ∧ s₃.current = some false := by
    subst hs₃
    simp [hstatus₂]
  have h₄ := Step.execute (L := pairLayout) s₃ (s₃.cpu.set .rsp 0x1800) fun _ _ _ _ _ => rfl
  exact ⟨_, .tail (.tail (.tail (.tail .refl h₁) h₂) h₃) h₄, hstatus₃.2, hstatus₃.1, rfl⟩

/-- The first thread gives way to the second and gets the processor back. -/
theorem context_switch_transparent_pair : ∃ s s' : State Bool, s.current = some true ∧
    s'.current = some false ∧ (∃ reg, s.status false = .suspended 0x111 reg ∧ reg .rsp = 0x1800) ∧
    Arrives pairLayout s'.cpu (s.status false) := by
  obtain ⟨s₁, hrun, hcur, hstatus, hsp⟩ := pair_started
  have h₂ := Step.switch (L := pairLayout) s₁ false true 0x111 hcur (by decide) hstatus
    (by rw [hsp]; decide) (by rw [hsp]; decide)
  generalize hs₂ : (State.mk _ (some true) _ : State Bool) = s₂ at h₂
  have hstatus₂ : s₂.status false = .suspended 0x111 s₁.cpu.reg ∧ s₂.current = some true := by
    subst hs₂
    simp
  have h₃ := Step.execute (L := pairLayout) s₂ (s₂.cpu.set .rsp 0x2800) fun _ _ _ _ _ => rfl
  generalize hs₃ : ({ s₂ with cpu := s₂.cpu.set .rsp 0x2800 } : State Bool) = s₃ at h₃
  have hstatus₃ : s₃.status false = .suspended 0x111 s₁.cpu.reg ∧ s₃.current = some true ∧
      s₃.cpu.reg .rsp = 0x2800 := by
    subst hs₃
    exact ⟨hstatus₂.1, hstatus₂.2, rfl⟩
  have h₄ := Step.switch (L := pairLayout) s₃ true false 0x222 hstatus₃.2.1 (by decide)
    (by simp [hstatus₃.1]) (by rw [hstatus₃.2.2]; decide) (by rw [hstatus₃.2.2]; decide)
  generalize hs₄ : (State.mk _ (some false) _ : State Bool) = s₄ at h₄
  have hcur₄ : s₄.current = some false := by
    subst hs₄
    rfl
  refine ⟨s₃, s₄, hstatus₃.2.1, hcur₄, ⟨_, hstatus₃.1, hsp⟩, ?_⟩
  exact context_switch_transparent ⟨rfl, fun _ => rfl⟩ (.tail (.tail hrun h₂) h₃) h₄
    (by simp [hstatus₃.2.1]) hcur₄

end NexusKernel.ContextSwitch
