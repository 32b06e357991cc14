import Flan.Proc.GsBase
import Flan.Sys.Entry

/-! System calls from end to end: `syscall_entry_asm` of `sys/syscalls/syscall_handler.asm`, from the `syscall` of a
user thread to the `sysret` that goes back to it. The stack is that of the CPU, and its address is the first word of
the CPU's record, where the GS base points in the kernel. -/
namespace Flan.Sys
open Flan.Lib Flan.Proc

/-! ### The source -/

/-- The change of stacks: the first word of the record has the user's stack pointer only in between. -/
def syscallStack : List Instr :=
  [.swapgs, .xchg .rsp (.gs 0), .push (.mem (.gs 0)), .mov (.mem (.gs 0)) (.reg .rsp), .add (.mem (.gs 0)) (.imm 8)]

def syscallFrameCode : List Instr :=
  [.push (.imm 0x43), .push (.mem (.base .rsp 8)), .push (.reg .r11), .push (.imm 0x3b), .push (.reg .rcx), .push (.imm 0)]

def syscallArgs : List Instr :=
  [.mov (.reg .rcx) (.reg .r10), .cld, .mov (.reg .r11) (.imm 0x30), .mov (.seg .ds) (.reg .r11), .mov (.seg .es) (.reg .r11)]

/-- `syscall_entry_asm` up to its call through `syscall_table`. -/
def syscallEnter (table ret : BitVec 64) : List Instr :=
  syscallStack ++ syscallFrameCode ++ savedRegs.map (fun r => .push (.reg r)) ++ pushSelectors .r11 ++ syscallArgs ++
  [.call (.scaled table .rax) ret]

/-- And after it. The words of `rdx` and `rax` are passed over: they have the results. -/
def syscallLeave : List Instr :=
  popSelectors .r11 ++
  [.r15, .r14, .r13, .r12, .r11, .r10, .r9, .r8, .rbp, .rdi, .rsi].map .pop ++
  [.add (.reg .rsp) (.imm 8)] ++
  [.rcx, .rbx].map .pop ++
  [.add (.reg .rsp) (.imm 0x38), .pop .rsp, .cli, .swapgs, .sysret]

/-! ### The way in -/

section Enter
variable (table ret : BitVec 64) (s : Machine)

/-- The stack of the CPU. -/
def kernelStack : BitVec 64 := s.load s.kgsBase.toNat

/-- The frame that the handler of a call could look at. -/
def syscallFrame : InterruptFrame :=
  { savedFrame s.syscall 0 with
    rip := s.rip.toNat
    cs := 0x3b
    rflags := s.rflags.toNat
    rsp := (s.reg .rsp).toNat
    ss := 0x43 }

/-- The stack and the record of the CPU are apart. -/
structure StackApart : Prop where
  room : 200 ≤ (kernelStack s).toNat
  apart : s.kgsBase.toNat + 208 ≤ (kernelStack s).toNat ∨ (kernelStack s).toNat ≤ s.kgsBase.toNat

theorem addr_gs (t : Machine) : t.addr (.gs 0) = t.gsBase.toNat := congrArg BitVec.toNat (BitVec.add_zero _)

theorem exec_xchg_gs (w : Machine) : w.exec (.xchg .rsp (.gs 0)) =
    (w.setReg .rsp (w.load w.gsBase.toNat)).setMem (write64 w.mem w.gsBase.toNat (w.reg .rsp).toNat) := by
  simp only [Machine.exec, Machine.write, Machine.read, addr_gs]
  rfl

theorem exec_push_gs (w : Machine) : w.exec (.push (.mem (.gs 0))) = w.push (w.load w.gsBase.toNat) := by
  simp only [Machine.exec, Machine.read, addr_gs]

theorem exec_mov_gs (w : Machine) : w.exec (.mov (.mem (.gs 0)) (.reg .rsp)) =
    w.setMem (write64 w.mem w.gsBase.toNat (w.reg .rsp).toNat) := by
  simp only [Machine.exec, Machine.read, Machine.write, addr_gs]

theorem exec_add_gs (w : Machine) (v : BitVec 64) : w.exec (.add (.mem (.gs 0)) (.imm v)) =
    w.setMem (write64 w.mem w.gsBase.toNat (w.load w.gsBase.toNat + v).toNat) := by
  simp only [Machine.exec, Machine.read, Machine.write, addr_gs]

theorem load_write64 (w : Machine) (m : Mem) (a : Nat) (v : BitVec 64) : (w.setMem (write64 m a v.toNat)).load a = v := by
  simp only [Machine.load, Machine.setMem, read64_write64_same v.isLt, BitVec.ofNat_toNat, BitVec.setWidth_eq]

/-- The memory after the change of stacks from `rsp` to `ks`, for a record at `a`. -/
def stackChanged (m : Mem) (a : Nat) (rsp ks : BitVec 64) : Mem :=
  write64 (write64 (write64 (write64 m a rsp.toNat) (ks - 8).toNat rsp.toNat) a (ks - 8).toNat) a ks.toNat

theorem push_setReg (w : Machine) (ks v : BitVec 64) (m : Mem) : ((w.setReg .rsp ks).setMem m).push v =
    (w.setReg .rsp (ks - 8)).setMem (write64 m (ks - 8).toNat v.toNat) := by
  simp only [Machine.push, Machine.setReg, Machine.setMem, Function.update_self, Function.update_idem]

theorem run_syscallStack (t : Machine) : t.run syscallStack =
    (t.swapgs.setReg .rsp (kernelStack t - 8)).setMem
      (stackChanged t.mem t.kgsBase.toNat (t.reg .rsp) (kernelStack t)) := by
  generalize hb : t.swapgs = b
  have hrsp : t.reg .rsp = b.reg .rsp := by rw [← hb]; rfl
  have hmem : t.mem = b.mem := by rw [← hb]; rfl
  have hbase : t.kgsBase = b.gsBase := by rw [← hb]; rfl
  have hks : kernelStack t = b.load b.gsBase.toNat := by rw [← hb]; rfl
  rw [hrsp, hmem, hbase, hks]
  generalize hk : b.load b.gsBase.toNat = ks
  have hgs : ∀ x m, ((b.setReg .rsp x).setMem m).gsBase = b.gsBase := fun _ _ => rfl
  have hreg : ∀ x m, ((b.setReg .rsp x).setMem m).reg .rsp = x := fun x m => b.setReg_self .rsp x
  have hset : ∀ x m m', ((b.setReg .rsp x).setMem m).setMem m' = (b.setReg .rsp x).setMem m' := fun _ _ _ => rfl
  have hloc : ∀ x m, ((b.setReg .rsp x).setMem m).mem = m := fun _ _ => rfl
  calc t.run syscallStack
    _ = (((t.swapgs.exec (.xchg .rsp (.gs 0))).exec (.push (.mem (.gs 0)))).exec (.mov (.mem (.gs 0)) (.reg .rsp))).exec
          (.add (.mem (.gs 0)) (.imm 8)) := rfl
    _ = _ := by
        rw [hb, exec_xchg_gs, hk, exec_push_gs, hgs, load_write64, push_setReg, exec_mov_gs, hgs, hreg, hset, hloc,
          exec_add_gs, hgs, load_write64, hset, hloc, BitVec.sub_add_cancel]
        rfl

/-- The machine on the stack of the CPU. -/
def syscallOnStack : Machine := s.syscall.run syscallStack

theorem syscallOnStack_eq : syscallOnStack s = (s.syscall.swapgs.setReg .rsp (kernelStack s - 8)).setMem
    (stackChanged s.mem s.kgsBase.toNat (s.reg .rsp) (kernelStack s)) :=
  run_syscallStack s.syscall

variable {s}

theorem StackApart.sub (h : StackApart s) : (kernelStack s - 8).toNat = (kernelStack s).toNat - 8 := by
  have hle : (8 : BitVec 64) ≤ kernelStack s := by
    rw [BitVec.le_def]
    show 8 ≤ (kernelStack s).toNat
    have := h.room
    omega
  exact BitVec.toNat_sub_of_le hle

theorem stackChanged_rsp (h : StackApart s) :
    read64 (stackChanged s.mem s.kgsBase.toNat (s.reg .rsp) (kernelStack s)) ((kernelStack s).toNat - 8) = (s.reg .rsp).toNat := by
  have hroom := h.room
  have hapart := h.apart
  rw [stackChanged, h.sub, read64_write64_apart (by omega), read64_write64_apart (by omega),
    read64_write64_same (s.reg .rsp).isLt]

/-- The record has the address of the stack again. -/
theorem stackChanged_record (m : Mem) (a : Nat) (rsp ks : BitVec 64) : read64 (stackChanged m a rsp ks) a = ks.toNat :=
  read64_write64_same ks.isLt

theorem stackChanged_outside (h : StackApart s) {x : Nat} (hx : x < (kernelStack s).toNat - 8 ∨ (kernelStack s).toNat ≤ x)
    (hrec : x < s.kgsBase.toNat ∨ s.kgsBase.toNat + 8 ≤ x) :
    stackChanged s.mem s.kgsBase.toNat (s.reg .rsp) (kernelStack s) x = s.mem x := by
  have hroom := h.room
  rw [stackChanged, h.sub, write64_outside hrec, write64_outside hrec, write64_outside (by omega), write64_outside hrec]

theorem syscallOnStack_stacked (h : StackApart s) : Stacked (kernelStack s).toNat (syscallOnStack s).mem (syscallOnStack s)
    [(s.reg .rsp).toNat] := by
  have hroom := h.room
  have hrsp : (syscallOnStack s).reg .rsp = kernelStack s - 8 := by
    rw [syscallOnStack_eq]
    exact s.syscall.swapgs.setReg_self .rsp (kernelStack s - 8)
  refine ⟨?_, ⟨?_, trivial⟩, fun _ _ => rfl⟩
  · rw [hrsp, h.sub]
    exact Nat.sub_add_cancel (by omega)
  · rw [hrsp, h.sub, syscallOnStack_eq]
    exact stackChanged_rsp h

/-- The word above the one on top. -/
theorem read_second {top w : Nat} {m₀ : Mem} {t : Machine} {x : BitVec 64} (h : Stacked top m₀ t [w, x.toNat])
    (htop : top < 2 ^ 64) : t.read (.mem (.base .rsp 8)) = x := by
  have hrsp := h.rsp
  simp only [List.length_cons, List.length_nil] at hrsp
  have hadd : (t.reg .rsp + 8).toNat = (t.reg .rsp).toNat + 8 := Machine.rsp_add (k := 8) (by omega)
  have hword := h.words.get (k := 1) rfl
  simp only [Machine.read, Machine.load, Machine.addr, hadd]
  rw [hword, BitVec.ofNat_toNat, BitVec.setWidth_eq]

theorem run_syscallFrameCode {top : Nat} {m₀ : Mem} {t : Machine} {x : BitVec 64} (h : Stacked top m₀ t [x.toNat])
    (hroom : 16 ≤ top) (htop : top < 2 ^ 64) :
    t.run syscallFrameCode = [0x43, x, t.reg .r11, 0x3b, t.reg .rcx, 0].foldl Machine.push t := by
  have hread : (t.push 0x43).load ((t.push 0x43).addr (.base .rsp 8)) = x :=
    read_second (h.push (show 8 * (1 + 1) ≤ top by omega) 0x43) htop
  simp only [syscallFrameCode, Machine.run, List.foldl_cons, List.foldl_nil, Machine.exec, Machine.read, hread,
    Machine.push_reg _ _ (show Reg.r11 ≠ .rsp by decide), Machine.push_reg _ _ (show Reg.rcx ≠ .rsp by decide)]

/-- The machine when the general registers are saved. -/
def syscallSaved (s : Machine) : Machine :=
  (savedRegs.map s.syscall.reg).foldl Machine.push
    ([0x43, s.reg .rsp, s.rflags, 0x3b, s.rip, 0].foldl Machine.push (syscallOnStack s))

theorem syscallOnStack_reg (s : Machine) {r : Reg} (hr : r ≠ .rsp) : (syscallOnStack s).reg r = s.syscall.reg r := by
  rw [syscallOnStack_eq]
  exact Function.update_of_ne hr ..

theorem syscall_r11 (s : Machine) : s.syscall.reg .r11 = s.rflags := by
  simp only [Machine.syscall, Machine.setReg, Machine.setSeg, Function.update_self]

theorem syscall_rcx (s : Machine) : s.syscall.reg .rcx = s.rip := by
  simp [Machine.syscall, Machine.setReg, Machine.setSeg]

theorem syscall_reg (s : Machine) {r : Reg} (hcx : r ≠ .rcx) (h11 : r ≠ .r11) : s.syscall.reg r = s.reg r := by
  simp only [Machine.syscall, Machine.setReg, Machine.setSeg, Function.update_of_ne hcx, Function.update_of_ne h11]

theorem run_syscallSave (h : StackApart s) :
    s.syscall.run (syscallStack ++ syscallFrameCode ++ savedRegs.map (fun r => .push (.reg r))) = syscallSaved s := by
  have hroom := h.room
  have hframe := run_syscallFrameCode (syscallOnStack_stacked h) (by omega) (BitVec.isLt _)
  rw [syscallOnStack_reg s (by decide), syscallOnStack_reg s (by decide), syscall_r11, syscall_rcx] at hframe
  obtain ⟨a, m, heq⟩ := Machine.pushes_eq (syscallOnStack s) [0x43, s.reg .rsp, s.rflags, 0x3b, s.rip, 0]
  have hsame : savedRegs.map ([0x43, s.reg .rsp, s.rflags, 0x3b, s.rip, 0].foldl Machine.push (syscallOnStack s)).reg =
      savedRegs.map s.syscall.reg := by
    rw [heq]
    refine List.map_congr_left fun r hr => ?_
    have hne : r ≠ .rsp := by
      intro heq
      rw [heq] at hr
      exact absurd hr (by decide)
    exact (Function.update_of_ne hne ..).trans (syscallOnStack_reg s hne)
  rw [Machine.run_append, Machine.run_append]
  change ((syscallOnStack s).run _).run _ = _
  rw [hframe, Machine.run_pushes (by decide), hsame]
  rfl

theorem syscallSaved_stacked (h : StackApart s) : Stacked (kernelStack s).toNat (syscallOnStack s).mem (syscallSaved s)
    ((words (syscallFrame s)).drop 2 ++ [(s.reg .rsp).toNat]) := by
  have hroom := h.room
  have hframe := (syscallOnStack_stacked h).pushes [0x43, s.reg .rsp, s.rflags, 0x3b, s.rip, 0]
    (show 8 * (1 + 6) ≤ (kernelStack s).toNat by omega)
  exact hframe.pushes (savedRegs.map s.syscall.reg) (show 8 * (7 + 15) ≤ (kernelStack s).toNat by omega)

theorem syscallSaved_eq (s : Machine) : ∃ a m, syscallSaved s = (s.syscall.swapgs.setReg .rsp a).setMem m := by
  obtain ⟨a, m, hframe⟩ := Machine.pushes_eq (syscallOnStack s) [0x43, s.reg .rsp, s.rflags, 0x3b, s.rip, 0]
  obtain ⟨b, m', hregs⟩ := Machine.pushes_eq ((syscallOnStack s |>.setReg .rsp a).setMem m) (savedRegs.map s.syscall.reg)
  refine ⟨b, m', ?_⟩
  rw [syscallSaved, hframe, hregs, syscallOnStack_eq]
  simp only [Machine.setReg, Machine.setMem, Function.update_idem]

/-- The machine when the whole frame is on the stack. -/
def syscallFramed (s : Machine) : Machine := (syscallSaved s).run (pushSelectors .r11)

theorem syscallFramed_stacked (h : StackApart s) : Stacked (kernelStack s).toNat (syscallOnStack s).mem (syscallFramed s)
    (words (syscallFrame s) ++ [(s.reg .rsp).toNat]) := by
  have hroom := h.room
  obtain ⟨a, m, heq⟩ := syscallSaved_eq s
  have hseg : ∀ x, x ≠ .cs → x ≠ .ss → (syscallSaved s).seg x = s.syscall.seg x := by
    intro x _ _
    rw [heq]
    rfl
  have hframed := stacked_selectors (r := .r11) (by decide) (syscallSaved_stacked h)
    (show 8 * (22 + 2) ≤ (kernelStack s).toNat by omega)
  rw [hseg .es (by decide) (by decide), hseg .ds (by decide) (by decide)] at hframed
  exact hframed

theorem run_syscallArgs (t : Machine) : t.run syscallArgs = { t with
    reg := Function.update (Function.update t.reg .rcx (t.reg .r10)) .r11 0x30
    seg := Function.update (Function.update t.seg .ds 0x30) .es 0x30
    rflags := t.rflags &&& ~~~0x400 } := by
  simp only [syscallArgs, Machine.run, List.foldl_cons, List.foldl_nil, Machine.exec, Machine.read, Machine.write,
    Machine.setReg, Machine.setSeg, Function.update_self]
  rfl

/-- What the handler of a system call finds. -/
structure SyscallEntry (table : BitVec 64) (s u : Machine) : Prop where
  rip : u.rip = s.load (table + 8 * s.reg .rax).toNat
  args : ∀ r, r ≠ .rcx → r ≠ .r11 → r ≠ .rsp → u.reg r = s.reg r
  fourth : u.reg .rcx = s.reg .r10
  rsp : (u.reg .rsp).toNat + 200 = (kernelStack s).toNat
  frame : frameAt u.mem ((u.reg .rsp).toNat + 8) = syscallFrame s
  userStack : read64 u.mem ((u.reg .rsp).toNat + 192) = (s.reg .rsp).toNat
  seg : u.seg = fun x => if x = .cs then (s.star >>> 32).setWidth 16 &&& 0xfffc else
    if x = .ss then (s.star >>> 32).setWidth 16 + 8 else 0x30
  msrs : msrs u = msrs s.swapgs
  record : read64 u.mem s.kgsBase.toNat = (kernelStack s).toNat
  outside : ∀ x, x < (u.reg .rsp).toNat ∨ (kernelStack s).toNat ≤ x → x < s.kgsBase.toNat ∨ s.kgsBase.toNat + 8 ≤ x →
    u.mem x = s.mem x

/-- The machine at the first instruction of the handler. -/
def syscallEntered (table ret : BitVec 64) (s : Machine) : Machine := s.syscall.run (syscallEnter table ret)

theorem syscallFramed_rest (s : Machine) : (∀ r, r ≠ .rsp → r ≠ .r11 → (syscallFramed s).reg r = s.syscall.reg r) ∧
    (syscallFramed s).seg = s.syscall.seg ∧ msrs (syscallFramed s) = msrs s.swapgs := by
  obtain ⟨a, m, heq⟩ := syscallSaved_eq s
  obtain ⟨hseg, hmsrs, -⟩ := pushSelectors_rest (syscallSaved s) .r11
  refine ⟨?_, ?_, ?_⟩
  · intro r hr h11
    rw [syscallFramed, run_pushSelectors, heq]
    simp only [Machine.push, Machine.setReg, Machine.setMem, Function.update_of_ne hr, Function.update_of_ne h11]
    rfl
  · rw [syscallFramed, hseg, heq]
    rfl
  · rw [syscallFramed, hmsrs, heq]
    rfl

theorem syscallEntry (table ret : BitVec 64) (h : StackApart s)
    (htable : (table + 8 * s.reg .rax).toNat + 208 ≤ (kernelStack s).toNat ∨ (kernelStack s).toNat ≤ (table + 8 * s.reg .rax).toNat)
    (hrecord : (table + 8 * s.reg .rax).toNat + 8 ≤ s.kgsBase.toNat ∨ s.kgsBase.toNat + 8 ≤ (table + 8 * s.reg .rax).toNat) :
    SyscallEntry table s (syscallEntered table ret s) := by
  have hroom := h.room
  have hframed := syscallFramed_stacked h
  obtain ⟨hregs, hseg, hmsrs⟩ := syscallFramed_rest s
  have hargs := run_syscallArgs (syscallFramed s)
  have hentered : syscallEntered table ret s =
      ((syscallFramed s).run syscallArgs).exec (.call (.scaled table .rax) ret) := by
    rw [syscallEntered, syscallEnter, Machine.run_append, Machine.run_append, Machine.run_append, run_syscallSave h]
    rfl
  generalize (syscallFramed s).run syscallArgs = w at hargs hentered
  generalize syscallFramed s = t at hframed hregs hseg hmsrs hargs
  have hw := hframed.keep (t := w) (by rw [hargs]; rfl) (by rw [hargs])
  have hpushed := hw.push (show 8 * (24 + 1) ≤ (kernelStack s).toNat by omega) ret
  have hbottom : ((w.push ret).reg .rsp).toNat + 200 = (kernelStack s).toNat := hpushed.rsp
  have houtside : ∀ x, x < ((w.push ret).reg .rsp).toNat ∨ (kernelStack s).toNat ≤ x →
      x < s.kgsBase.toNat ∨ s.kgsBase.toNat + 8 ≤ x → (w.push ret).mem x = s.mem x := by
    intro x hx hrec
    rw [hpushed.outside x hx, syscallOnStack_eq]
    exact stackChanged_outside h (by omega) hrec
  have hkept : ∀ r, r ≠ .rcx → r ≠ .r11 → r ≠ .rsp → w.reg r = s.reg r := by
    intro r hcx h11 hsp
    rw [hargs]
    simp only [Function.update_of_ne hcx, Function.update_of_ne h11]
    rw [hregs r hsp h11, syscall_reg s hcx h11]
  have hreg : ∀ r, r ≠ .rsp → (syscallEntered table ret s).reg r = w.reg r := by
    intro r hr
    rw [hentered]
    exact w.call_reg _ ret hr
  have hmem : (syscallEntered table ret s).mem = (w.push ret).mem := by rw [hentered]; rfl
  have hrsp : (syscallEntered table ret s).reg .rsp = (w.push ret).reg .rsp := by rw [hentered]; rfl
  have hwords := stackWords_append.mp hpushed.words.2
  refine ⟨?_, ?_, ?_, ?_, ?_, ?_, ?_, ?_, ?_, ?_⟩
  · have hload : (syscallEntered table ret s).rip = w.load (table + 8 * s.reg .rax).toNat := by
      rw [hentered, ← hkept .rax (by decide) (by decide) (by decide)]
      rfl
    have hsame : read64 w.mem (table + 8 * s.reg .rax).toNat = read64 s.mem (table + 8 * s.reg .rax).toNat := by
      refine read64_congr fun x hl hr => ?_
      have hwrsp := hw.rsp
      rw [hw.outside x (by
        simp only [List.length_append, List.length_cons, List.length_nil, words] at hwrsp
        omega), syscallOnStack_eq]
      exact stackChanged_outside h (by omega) (by omega)
    rw [hload, Machine.load, Machine.load, hsame]
  · intro r hcx h11 hsp
    rw [hreg r hsp, hkept r hcx h11 hsp]
  · rw [hreg .rcx (by decide), hargs]
    simp only [Function.update_of_ne (show Reg.rcx ≠ .r11 by decide), Function.update_self]
    rw [hregs .r10 (by decide) (by decide), syscall_reg s (by decide) (by decide)]
  · rw [hrsp]
    exact hbottom
  · rw [hmem, hrsp, ← wordsAt_words]
    exact hwords.1
  · have hlen : (words (syscallFrame s)).length = 23 := rfl
    have huser := hwords.2.1
    rw [hlen, Nat.add_assoc] at huser
    rw [hmem, hrsp]
    exact huser
  · rw [hentered]
    show w.seg = _
    rw [hargs, hseg]
    funext x
    cases x <;> rfl
  · rw [hentered, ← hmsrs]
    show Flan.Sys.msrs w = _
    rw [hargs]
    rfl
  · have hapart := h.apart
    have hsame : read64 (w.push ret).mem s.kgsBase.toNat = read64 (syscallOnStack s).mem s.kgsBase.toNat :=
      read64_congr fun x hl hr => hpushed.outside x (by omega)
    rw [hmem, hsame, syscallOnStack_eq]
    exact stackChanged_record ..
  · intro x hx hrec
    rw [hrsp] at hx
    rw [hmem]
    exact houtside x hx hrec

end Enter

/-! ### The way out -/

/-- A handler that comes back as the calling convention has it, and that leaves the stack of its caller alone. -/
structure SyscallReturn (u t : Machine) : Prop where
  rsp : t.reg .rsp = u.reg .rsp + 8
  frame : frameAt t.mem ((u.reg .rsp).toNat + 8) = frameAt u.mem ((u.reg .rsp).toNat + 8)
  userStack : read64 t.mem ((u.reg .rsp).toNat + 192) = read64 u.mem ((u.reg .rsp).toNat + 192)
  msrs : msrs t = msrs u

section Leave
variable {t : Machine} {f : InterruptFrame} {x : Nat}

/-- The words from one on. -/
theorem words_from (h : StackWords t.mem (t.reg .rsp).toNat (words f ++ [x])) {k : Nat} (hk : k ≤ 24)
    (hroom : (t.reg .rsp).toNat + 192 < 2 ^ 64) :
    StackWords t.mem (t.reg .rsp + BitVec.ofNat 64 (8 * k)).toNat ((words f ++ [x]).drop k) := by
  rw [← List.take_append_drop k (words f ++ [x]), stackWords_append] at h
  have hlen : ((words f ++ [x]).take k).length = k := by
    rw [List.length_take]
    exact Nat.min_eq_left hk
  rw [hlen] at h
  rw [Machine.rsp_add (by omega)]
  exact h.2

theorem run_addRsp (t : Machine) (v : BitVec 64) : t.run [.add (.reg .rsp) (.imm v)] = t.setReg .rsp (t.reg .rsp + v) := rfl

/-- The words are popped into their registers but for `rdx` and `rax`, and the last is the stack pointer. -/
theorem run_syscallLeave (h : StackWords t.mem (t.reg .rsp).toNat (words f ++ [x])) (hroom : (t.reg .rsp).toNat + 192 < 2 ^ 64) :
    t.run syscallLeave = ((({ t with
      reg := Function.update (Function.update (Function.update (frameReg f) .rsp (BitVec.ofNat 64 x)) .rax (t.reg .rax)) .rdx
        (t.reg .rdx)
      seg := Function.update (Function.update t.seg .es (BitVec.ofNat 16 f.es)) .ds (BitVec.ofNat 16 f.ds) } : Machine).exec
        .cli).exec .swapgs).exec .sysret := by
  have hadd : ∀ k, k < 193 → (t.reg .rsp + BitVec.ofNat 64 k).toNat = (t.reg .rsp).toNat + k := fun k hk =>
    Machine.rsp_add (by omega)
  -- the selectors
  have hselectors := run_popSelectors (r := .r11) (by decide) h (by omega)
  obtain ⟨u, hu, hurest, humem, hurax, hurdx, hursp⟩ : ∃ u, t.run (popSelectors .r11) = u ∧
      u = { t with reg := u.reg, seg := Function.update (Function.update t.seg .es (BitVec.ofNat 16 f.es)) .ds (BitVec.ofNat 16 f.ds) } ∧
      u.mem = t.mem ∧ u.reg .rax = t.reg .rax ∧ u.reg .rdx = t.reg .rdx ∧ u.reg .rsp = t.reg .rsp + BitVec.ofNat 64 16 := by
    refine ⟨_, hselectors, ?_, ?_, ?_, ?_, ?_⟩ <;> rfl
  -- eleven registers
  obtain ⟨reg, hrun, hpopped, hkept, hrsp⟩ := @Machine.run_pops u
    [.r15, .r14, .r13, .r12, .r11, .r10, .r9, .r8, .rbp, .rdi, .rsi] (((words f ++ [x]).drop 2).take 11)
    ((words f ++ [x]).drop 13) (by decide) (by decide) rfl
    (by rw [hursp, hadd 16 (by omega)]; exact lt_of_le_of_lt (by simp [words]) hroom)
    (by
      have hfrom := words_from h (k := 2) (by omega) hroom
      rw [humem, hursp]
      exact hfrom)
  have hrsp112 : reg .rsp + 8 = t.reg .rsp + BitVec.ofNat 64 112 := by
    rw [hrsp, hursp, BitVec.add_assoc, BitVec.add_assoc]
    rfl
  -- `rcx` and `rbx`
  obtain ⟨reg', hrun', hpopped', hkept', hrsp'⟩ := @Machine.run_pops ({ u with reg := reg }.setReg .rsp (reg .rsp + 8))
    [.rcx, .rbx] [f.rcx, f.rbx] ((words f ++ [x]).drop 16) (by decide) (by decide) rfl
    (by rw [Machine.setReg_self, hrsp112, hadd 112 (by omega)]; exact lt_of_le_of_lt (by simp) hroom)
    (by
      have hfrom := words_from h (k := 14) (by omega) hroom
      rw [Machine.setReg_self, hrsp112]
      show StackWords u.mem _ _
      rw [humem]
      exact hfrom)
  rw [Machine.setReg_self, hrsp112, BitVec.add_assoc] at hrsp'
  have hrsp184 : reg' .rsp + 0x38 = t.reg .rsp + BitVec.ofNat 64 184 := by
    rw [hrsp', BitVec.add_assoc]
    rfl
  -- the user's stack pointer
  have hlast : read64 t.mem (t.reg .rsp + BitVec.ofNat 64 184).toNat = x := (words_from h (k := 23) (by omega) hroom).1
  simp only [words, List.cons_append, List.drop_succ_cons, List.drop_zero, List.take_succ_cons, List.take_zero,
    List.zip_cons_cons, List.zip_nil_right, List.forall_mem_cons] at hpopped hpopped'
  obtain ⟨h15, h14, h13, h12, h11, h10, h9, h8, hrbp, hrdi, hrsi, -⟩ := hpopped
  obtain ⟨hrcx, hrbx, -⟩ := hpopped'
  have hother : ∀ r, r ∉ [Reg.rcx, .rbx] → r ≠ .rsp → reg' r = reg r := by
    intro r hr hsp
    rw [hkept' r hr hsp]
    exact Function.update_of_ne hsp ..
  have hreg : Function.update reg' .rsp (BitVec.ofNat 64 x) = Function.update (Function.update
      (Function.update (frameReg f) .rsp (BitVec.ofNat 64 x)) .rax (t.reg .rax)) .rdx (t.reg .rdx) := by
    have hrax : reg' .rax = t.reg .rax := by
      rw [hother .rax (by decide) (by decide), hkept .rax (by decide) (by decide), hurax]
    have hrdx : reg' .rdx = t.reg .rdx := by
      rw [hother .rdx (by decide) (by decide), hkept .rdx (by decide) (by decide), hurdx]
    funext r
    cases r
    case rsp => rfl
    case rax => exact hrax
    case rdx => exact hrdx
    case rcx => exact hrcx
    case rbx => exact hrbx
    all_goals exact (hother _ (by decide) (by decide)).trans (by assumption)
  calc t.run syscallLeave
    _ = ((((({ u with reg := reg' } : Machine).setReg .rsp (reg' .rsp + 0x38)).exec (.pop .rsp)).exec .cli).exec .swapgs).exec
          .sysret := by
        rw [syscallLeave, Machine.run_append, Machine.run_append, Machine.run_append, Machine.run_append, hu, hrun, run_addRsp,
          hrun']
        rfl
    _ = (((({ u with reg := Function.update reg' .rsp (BitVec.ofNat 64 x) } : Machine)).exec .cli).exec .swapgs).exec .sysret := by
        have hpop : (({ u with reg := reg' } : Machine).setReg .rsp (reg' .rsp + 0x38)).exec (.pop .rsp) =
            { u with reg := Function.update reg' .rsp (BitVec.ofNat 64 x) } := by
          simp only [Machine.exec, Machine.stackWord, Machine.load, Machine.setReg, Function.update_self, Function.update_idem,
            Nat.mul_zero, Nat.add_zero, hrsp184, humem, hlast]
        rw [hpop]
    _ = _ := by
        rw [hreg, hurest]

end Leave

/-! ### There and back -/

/-- The user thread after the call: the result is in `rax` and `rdx`, and `syscall` itself has used `rcx` and `r11`. -/
def syscallResult (s t : Machine) : Machine :=
  { s with
    reg := Function.update (Function.update (Function.update (Function.update s.reg .rax (t.reg .rax)) .rdx (t.reg .rdx))
      .rcx s.rip) .r11 s.rflags
    rflags := s.rflags &&& 0x3c7fd7 ||| 2
    mem := t.mem }

/-- A system call of a user thread comes to the entry of `syscall_table` that `rax` selects, on the stack of the CPU
and with its six arguments in place, and the CPU's record has the address of that stack for the next one; and once
the handler has returned, the thread goes on with every register as it was but those of the result, `rcx` and `r11`. -/
theorem syscall_round_trip (table ret : BitVec 64) (s : Machine) (h : StackApart s)
    (htable : (table + 8 * s.reg .rax).toNat + 208 ≤ (kernelStack s).toNat ∨ (kernelStack s).toNat ≤ (table + 8 * s.reg .rax).toNat)
    (hrecord : (table + 8 * s.reg .rax).toNat + 8 ≤ s.kgsBase.toNat ∨ s.kgsBase.toNat + 8 ≤ (table + 8 * s.reg .rax).toNat)
    (hstar : s.star = BitVec.ofNat 64 msrStar) (hcs : s.seg .cs = 0x43) (hss : s.seg .ss = 0x3b) :
    SyscallEntry table s (syscallEntered table ret s) ∧
    ∀ t, SyscallReturn (syscallEntered table ret s) t → t.run syscallLeave = syscallResult s t := by
  have hentry := syscallEntry table ret h htable hrecord
  refine ⟨hentry, fun t ht => ?_⟩
  generalize syscallEntered table ret s = u at hentry ht
  have hlt := (kernelStack s).isLt
  have hbottom := hentry.rsp
  have hrsp : (t.reg .rsp).toNat = (u.reg .rsp).toNat + 8 := by
    rw [ht.rsp]
    exact Machine.rsp_add (k := 8) (by omega)
  have hwords : StackWords t.mem (t.reg .rsp).toNat (words (syscallFrame s) ++ [(s.reg .rsp).toNat]) := by
    rw [hrsp, stackWords_append]
    refine ⟨wordsAt_words.mpr (ht.frame.trans hentry.frame), ?_, trivial⟩
    have hlen : (words (syscallFrame s)).length = 23 := rfl
    rw [hlen, Nat.add_assoc]
    exact ht.userStack.trans hentry.userStack
  rw [run_syscallLeave hwords (by omega)]
  obtain ⟨hgs, hkgs, htstar, hlstar, hfmask⟩ := Msrs.mk.inj (ht.msrs.trans hentry.msrs)
  simp only [Machine.swapgs] at hgs hkgs htstar hlstar hfmask
  have hof : ∀ v : BitVec 64, BitVec.ofNat 64 v.toNat = v := fun v => by rw [BitVec.ofNat_toNat, BitVec.setWidth_eq]
  have hrcx : BitVec.ofNat 64 (syscallFrame s).rcx = s.rip := (hof _).trans (syscall_rcx s)
  have hr11 : BitVec.ofNat 64 (syscallFrame s).r11 = s.rflags := (hof _).trans (syscall_r11 s)
  have hregs : Function.update (Function.update (Function.update (frameReg (syscallFrame s)) .rsp
      (BitVec.ofNat 64 (s.reg .rsp).toNat)) .rax (t.reg .rax)) .rdx (t.reg .rdx) = (syscallResult s t).reg := by
    funext r
    cases r
    case rcx => exact hrcx
    case r11 => exact hr11
    all_goals first | rfl | exact hof _
  have hcode : ((s.star >>> 48).setWidth 16 + 16) ||| 3 = s.seg .cs := by
    rw [hstar, hcs]
    decide
  have hstack : ((s.star >>> 48).setWidth 16 + 8) ||| 3 = s.seg .ss := by
    rw [hstar, hss]
    decide
  have hseg : Function.update (Function.update (Function.update (Function.update t.seg .es (BitVec.ofNat 16 (syscallFrame s).es)) .ds
      (BitVec.ofNat 16 (syscallFrame s).ds)) .cs (s.seg .cs)) .ss (s.seg .ss) = s.seg := by
    have hof16 : ∀ v : BitVec 16, BitVec.ofNat 16 v.toNat = v := fun v => by rw [BitVec.ofNat_toNat, BitVec.setWidth_eq]
    funext x
    cases x
    case cs => rfl
    case ss => rfl
    all_goals exact hof16 _
  simp only [Machine.exec, Machine.swapgs, Machine.setSeg, hcode, hstack, hregs, hseg, hgs, hkgs, htstar, hlstar, hfmask]
  rfl

/-- A thread that calls `syscall_log`. -/
def callingThread : Machine :=
  { userThread with
    reg := Function.update userThread.reg .rax 0
    mem := write64 (fun _ => 0) 0x5000 0x10000 }

theorem callingThread_stack : kernelStack callingThread = 0x10000 := by decide

theorem handlerReturn_syscall (u : Machine) : SyscallReturn u (u.setReg .rsp (u.reg .rsp + 8)) :=
  ⟨u.setReg_self .., rfl, rfl, rfl⟩

def callEntered : Machine := syscallEntered 0x30000 0x9100 callingThread

theorem call_returns : (callEntered.setReg .rsp (callEntered.reg .rsp + 8)).run syscallLeave =
    syscallResult callingThread (callEntered.setReg .rsp (callEntered.reg .rsp + 8)) := by
  have hstack : (kernelStack callingThread).toNat = 0x10000 := by rw [callingThread_stack]; rfl
  have htable : (0x30000 + 8 * callingThread.reg .rax : BitVec 64).toNat = 0x30000 := by decide
  have hbase : callingThread.kgsBase.toNat = 0x5000 := rfl
  refine (syscall_round_trip 0x30000 0x9100 callingThread ⟨?_, ?_⟩ ?_ ?_ ?_ ?_ ?_).2 _ (handlerReturn_syscall _)
  · omega
  · omega
  · omega
  · omega
  · decide
  · decide
  · decide

end Flan.Sys
