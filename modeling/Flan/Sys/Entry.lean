import Flan.Lib.X64
import Flan.Proc.Sched

/-! Interrupts from end to end: the gates of `sys/idt/idt.c`, the stubs of `sys/idt/isr.asm` and the switch to a
thread of `proc/sched.c`, which go through a `struct interrupt_frame` on a stack. -/
namespace Flan.Sys
open Flan.Lib Flan.Proc

/-! ### The source -/

/-- `idt_gate_t`. -/
structure IdtGate where
  offsetLow16 : BitVec 16
  selector : BitVec 16
  ist : BitVec 8
  flags : BitVec 8
  offsetMid16 : BitVec 16
  offsetHigh32 : BitVec 32
  reserved : BitVec 32

def encodeIdtEntry (handler : BitVec 64) (flags : BitVec 8) : IdtGate where
  offsetLow16 := handler.setWidth 16
  selector := 0x28
  ist := 0
  flags := flags
  offsetMid16 := (handler >>> 16).setWidth 16
  offsetHigh32 := (handler >>> 32).setWidth 32
  reserved := 0

/-- The table that `idt_init` makes of the addresses `isr_stubs`. -/
def idtInit (isrStubs : Nat → BitVec 64) : Nat → IdtGate := fun i => encodeIdtEntry (isrStubs i) 0x8e

def idtSetIst (idt : Nat → IdtGate) (vector : Nat) (ist : BitVec 8) : Nat → IdtGate :=
  Function.update idt vector { idt vector with ist := ist }

/-- The table after `idt_init` and the calls of `idt_set_ist` since. -/
def idtAfter (isrStubs : Nat → BitVec 64) (sets : List (Nat × BitVec 8)) : Nat → IdtGate :=
  sets.foldl (fun idt c => idtSetIst idt c.1 c.2) (idtInit isrStubs)

/-- A gate as the processor reads it. -/
def IdtGate.gate (d : IdtGate) : Gate where
  offset := d.offsetHigh32 ++ d.offsetMid16 ++ d.offsetLow16
  selector := d.selector
  ist := (d.ist.setWidth 3).toNat

def savedRegs : List Reg :=
  [.rax, .rbx, .rcx, .rdx, .rsi, .rdi, .rbp, .r8, .r9, .r10, .r11, .r12, .r13, .r14, .r15]

def restoredRegs : List Reg :=
  [.r15, .r14, .r13, .r12, .r11, .r10, .r9, .r8, .rbp, .rdi, .rsi, .rdx, .rcx, .rbx, .rax]

/-- The vectors for which the processor pushes an error code. -/
def errorVectors : List Nat := [8, 10, 11, 12, 13, 14, 17, 30]

/-- A stub up to the selectors. -/
def stubSave (v : Nat) : List Instr :=
  (if v ∈ errorVectors then [] else [.push (.imm 0)]) ++
  [.swapgsIfEq (.base .rsp 16) 0x3b] ++
  savedRegs.map (fun r => .push (.reg r))

/-- The selectors are pushed and popped by way of a register. -/
def pushSelectors (r : Reg) : List Instr :=
  [.mov (.reg r) (.seg .ds), .push (.reg r), .mov (.reg r) (.seg .es), .push (.reg r)]

def popSelectors (r : Reg) : List Instr :=
  [.pop r, .mov (.seg .es) (.reg r), .pop r, .mov (.seg .ds) (.reg r)]

/-- The arguments of the handler, whose address is in the array `isr`. -/
def stubArgs (isr : BitVec 64) (v : Nat) : List Instr :=
  [.cld,
   .mov (.reg .rax) (.imm 0x30), .mov (.seg .ds) (.reg .rax), .mov (.seg .es) (.reg .rax), .mov (.seg .ss) (.reg .rax),
   .mov (.reg .rdi) (.imm (BitVec.ofNat 64 v)), .mov (.reg .rax) (.imm (BitVec.ofNat 64 (v * 8))),
   .mov (.reg .rbx) (.imm isr), .add (.reg .rbx) (.reg .rax),
   .mov (.reg .rsi) (.reg .rsp), .xor (.reg .rbp) (.reg .rbp)]

/-- A stub up to its call of the handler, which returns to `ret`. -/
def stubEnter (isr ret : BitVec 64) (v : Nat) : List Instr :=
  stubSave v ++ pushSelectors .rax ++ stubArgs isr v ++ [.call (.base .rbx 0) ret]

/-- What a stub and `switch_to_thread` both begin with on their way out. -/
def popFrame : List Instr :=
  popSelectors .rax ++
  restoredRegs.map .pop ++
  [.add (.reg .rsp) (.imm 8)]

/-- A stub after the handler has returned. -/
def stubLeave : List Instr := popFrame ++ [.swapgsIfEq (.base .rsp 8) 0x3b, .iretq]

def switchToThreadAsm (state : BitVec 64) : List Instr :=
  [.mov (.reg .rsp) (.imm state)] ++ popFrame ++ [.swapgs, .iretq]

/-! ### Frames in memory -/

def words (f : InterruptFrame) : List Nat :=
  [f.es, f.ds, f.r15, f.r14, f.r13, f.r12, f.r11, f.r10, f.r9, f.r8, f.rbp, f.rdi, f.rsi, f.rdx, f.rcx, f.rbx, f.rax,
   f.err, f.rip, f.cs, f.rflags, f.rsp, f.ss]

/-- The `struct interrupt_frame` at an address. -/
def frameAt (m : Mem) (p : Nat) : InterruptFrame where
  es := read64 m p
  ds := read64 m (p + 8)
  r15 := read64 m (p + 16)
  r14 := read64 m (p + 24)
  r13 := read64 m (p + 32)
  r12 := read64 m (p + 40)
  r11 := read64 m (p + 48)
  r10 := read64 m (p + 56)
  r9 := read64 m (p + 64)
  r8 := read64 m (p + 72)
  rbp := read64 m (p + 80)
  rdi := read64 m (p + 88)
  rsi := read64 m (p + 96)
  rdx := read64 m (p + 104)
  rcx := read64 m (p + 112)
  rbx := read64 m (p + 120)
  rax := read64 m (p + 128)
  err := read64 m (p + 136)
  rip := read64 m (p + 144)
  cs := read64 m (p + 152)
  rflags := read64 m (p + 160)
  rsp := read64 m (p + 168)
  ss := read64 m (p + 176)

theorem wordsAt_words {m : Mem} {p : Nat} {f : InterruptFrame} : StackWords m p (words f) ↔ frameAt m p = f := by
  cases f
  simp only [words, StackWords, frameAt, InterruptFrame.mk.injEq, and_true, Nat.add_assoc, Nat.reduceAdd]

theorem frameAt_congr {m m' : Mem} {p : Nat} (h : ∀ x, p ≤ x → x < p + 184 → m' x = m x) : frameAt m' p = frameAt m p :=
  wordsAt_words.mp ((wordsAt_words.mpr rfl).congr h)

/-- The frame of the registers that an interrupt finds. -/
def savedFrame (s : Machine) (err : BitVec 64) : InterruptFrame where
  es := (s.seg .es).toNat
  ds := (s.seg .ds).toNat
  r15 := (s.reg .r15).toNat
  r14 := (s.reg .r14).toNat
  r13 := (s.reg .r13).toNat
  r12 := (s.reg .r12).toNat
  r11 := (s.reg .r11).toNat
  r10 := (s.reg .r10).toNat
  r9 := (s.reg .r9).toNat
  r8 := (s.reg .r8).toNat
  rbp := (s.reg .rbp).toNat
  rdi := (s.reg .rdi).toNat
  rsi := (s.reg .rsi).toNat
  rdx := (s.reg .rdx).toNat
  rcx := (s.reg .rcx).toNat
  rbx := (s.reg .rbx).toNat
  rax := (s.reg .rax).toNat
  err := err.toNat
  rip := s.rip.toNat
  cs := (s.seg .cs).toNat
  rflags := s.rflags.toNat
  rsp := (s.reg .rsp).toNat
  ss := (s.seg .ss).toNat

/-- The registers that a frame gives. -/
def frameReg (f : InterruptFrame) : Reg → BitVec 64
  | .rax => BitVec.ofNat 64 f.rax
  | .rbx => BitVec.ofNat 64 f.rbx
  | .rcx => BitVec.ofNat 64 f.rcx
  | .rdx => BitVec.ofNat 64 f.rdx
  | .rsi => BitVec.ofNat 64 f.rsi
  | .rdi => BitVec.ofNat 64 f.rdi
  | .rbp => BitVec.ofNat 64 f.rbp
  | .rsp => BitVec.ofNat 64 f.rsp
  | .r8 => BitVec.ofNat 64 f.r8
  | .r9 => BitVec.ofNat 64 f.r9
  | .r10 => BitVec.ofNat 64 f.r10
  | .r11 => BitVec.ofNat 64 f.r11
  | .r12 => BitVec.ofNat 64 f.r12
  | .r13 => BitVec.ofNat 64 f.r13
  | .r14 => BitVec.ofNat 64 f.r14
  | .r15 => BitVec.ofNat 64 f.r15

def frameSeg (f : InterruptFrame) : Seg → BitVec 16
  | .cs => BitVec.ofNat 16 f.cs
  | .ds => BitVec.ofNat 16 f.ds
  | .es => BitVec.ofNat 16 f.es
  | .ss => BitVec.ofNat 16 f.ss

/-- A machine that goes on where a frame says. -/
def resume (t : Machine) (f : InterruptFrame) : Machine :=
  { t with
    reg := frameReg f
    seg := frameSeg f
    rip := BitVec.ofNat 64 f.rip
    rflags := BitVec.ofNat 64 f.rflags }

theorem resume_savedFrame (t s : Machine) (err : BitVec 64) :
    resume t (savedFrame s err) = { t with reg := s.reg, seg := s.seg, rip := s.rip, rflags := s.rflags } := by
  have hreg : frameReg (savedFrame s err) = s.reg := by
    funext r
    cases r <;> exact BitVec.ofNat_toNat ..
  have hseg : frameSeg (savedFrame s err) = s.seg := by
    funext x
    cases x <;> exact BitVec.ofNat_toNat ..
  have hrip : BitVec.ofNat 64 (savedFrame s err).rip = s.rip := BitVec.ofNat_toNat ..
  have hrflags : BitVec.ofNat 64 (savedFrame s err).rflags = s.rflags := BitVec.ofNat_toNat ..
  rw [resume, hreg, hseg, hrip, hrflags]

/-! ### The way out -/

section Leave
variable {t : Machine} {f : InterruptFrame}

theorem run_popSelectors {es ds : Nat} {ws : List Nat} {r : Reg} (hr : .rsp ≠ r)
    (h : StackWords t.mem (t.reg .rsp).toNat (es :: ds :: ws)) (hroom : (t.reg .rsp).toNat + 16 < 2 ^ 64) :
    t.run (popSelectors r) = { t with
      reg := Function.update (Function.update t.reg .rsp (t.reg .rsp + 16)) r (BitVec.ofNat 64 ds)
      seg := Function.update (Function.update t.seg .es (BitVec.ofNat 16 es)) .ds (BitVec.ofNat 16 ds) } := by
  have hadd : (t.reg .rsp + 8).toNat = (t.reg .rsp).toNat + 8 := Machine.rsp_add (k := 8) (by omega)
  have hes : read64 t.mem (t.reg .rsp).toNat = es := h.1
  have hds : read64 t.mem (t.reg .rsp + 8).toNat = ds := by
    rw [hadd]
    exact h.2.1
  have hsum : t.reg .rsp + 8 + 8 = t.reg .rsp + 16 := BitVec.add_assoc ..
  have hwidth : ∀ w : Nat, (BitVec.ofNat 64 w).setWidth 16 = BitVec.ofNat 16 w := fun w =>
    BitVec.setWidth_ofNat_of_le (by decide) w
  simp only [popSelectors, Machine.run, List.foldl_cons, List.foldl_nil, Machine.exec, Machine.stackWord, Machine.load,
    Machine.write, Machine.read, Machine.setReg, Machine.setSeg, Nat.mul_zero, Nat.add_zero, Function.update_self,
    Function.update_of_ne hr, hes, hds, hsum, hwidth]
  rw [Function.update_comm hr, Function.update_idem, Function.update_comm hr.symm, Function.update_idem]

theorem run_popFrame (h : StackWords t.mem (t.reg .rsp).toNat (words f)) (hroom : (t.reg .rsp).toNat + 184 < 2 ^ 64) :
    t.run popFrame = { t with
      reg := Function.update (frameReg f) .rsp (t.reg .rsp + 144)
      seg := Function.update (Function.update t.seg .es (BitVec.ofNat 16 f.es)) .ds (BitVec.ofNat 16 f.ds) } := by
  have hsplit : words f = [f.es, f.ds] ++ (((words f).drop 2).take 15 ++ (words f).drop 17) := rfl
  rw [popFrame, Machine.run_append, Machine.run_append, run_popSelectors (by decide) h (by omega)]
  generalize hu : ({ t with
    reg := Function.update (Function.update t.reg .rsp (t.reg .rsp + 16)) .rax (BitVec.ofNat 64 f.ds)
    seg := Function.update (Function.update t.seg .es (BitVec.ofNat 16 f.es)) .ds (BitVec.ofNat 16 f.ds) } : Machine) = u
  have hursp : u.reg .rsp = t.reg .rsp + 16 := by rw [← hu]; rfl
  have humem : u.mem = t.mem := by rw [← hu]
  have hadd : (u.reg .rsp).toNat = (t.reg .rsp).toNat + 16 := by
    rw [hursp]
    exact Machine.rsp_add (k := 16) (by omega)
  have hwords : StackWords u.mem (u.reg .rsp).toNat (((words f).drop 2).take 15 ++ (words f).drop 17) := by
    rw [hsplit, stackWords_append] at h
    rw [humem, hadd]
    exact h.2
  obtain ⟨reg, hrun, hpopped, -, hrsp⟩ := Machine.run_pops restoredRegs (by decide) (by decide) rfl
    (by rw [hadd]; exact lt_of_le_of_lt (by simp [words]) hroom) hwords
  have hsum : reg .rsp + 8 = t.reg .rsp + 144 := by
    rw [hrsp, hursp, BitVec.add_assoc, BitVec.add_assoc]
    rfl
  simp only [restoredRegs, words, List.drop_succ_cons, List.drop_zero, List.take_succ_cons, List.take_zero,
    List.zip_cons_cons, List.zip_nil_right, List.forall_mem_cons] at hpopped
  obtain ⟨h15, h14, h13, h12, h11, h10, h9, h8, hrbp, hrdi, hrsi, hrdx, hrcx, hrbx, hrax, -⟩ := hpopped
  have hreg : Function.update reg .rsp (t.reg .rsp + 144) = Function.update (frameReg f) .rsp (t.reg .rsp + 144) := by
    funext r
    cases r <;> first | rfl | assumption
  rw [hrun]
  simp only [Machine.run, List.foldl_cons, List.foldl_nil, Machine.exec, Machine.write, Machine.read, Machine.setReg,
    hsum, hreg]
  rw [← hu]

theorem words_tail (h : StackWords t.mem (t.reg .rsp).toNat (words f)) (hroom : (t.reg .rsp).toNat + 184 < 2 ^ 64) :
    StackWords t.mem (t.reg .rsp + 144).toNat [f.rip, f.cs, f.rflags, f.rsp, f.ss] := by
  have hsplit : words f = (words f).take 18 ++ [f.rip, f.cs, f.rflags, f.rsp, f.ss] := rfl
  rw [hsplit, stackWords_append] at h
  have hadd : (t.reg .rsp + 144).toNat = (t.reg .rsp).toNat + 144 := Machine.rsp_add (k := 144) (by omega)
  rw [hadd]
  exact h.2

/-- The rest of the frame is for `iretq`. -/
theorem popFrame_iretq (h : StackWords t.mem (t.reg .rsp).toNat (words f)) (hroom : (t.reg .rsp).toNat + 184 < 2 ^ 64) :
    (t.run popFrame).exec .iretq = resume t f := by
  have hpop := run_popFrame h hroom
  have hwords : StackWords (t.run popFrame).mem ((t.run popFrame).reg .rsp).toNat [f.rip, f.cs, f.rflags, f.rsp, f.ss] := by
    rw [hpop]
    simp only [Function.update_self]
    exact words_tail h hroom
  have hwidth : ∀ w : Nat, (BitVec.ofNat 64 w).setWidth 16 = BitVec.ofNat 16 w := fun w =>
    BitVec.setWidth_ofNat_of_le (by decide) w
  rw [Machine.exec_iretq hwords, hpop]
  simp only [Machine.setReg, Machine.setSeg, Function.update_idem, hwidth, resume]
  congr 1
  · funext r
    cases r <;> rfl
  · funext x
    cases x <;> rfl

theorem run_stubLeave (h : frameAt t.mem (t.reg .rsp).toNat = f) (hroom : (t.reg .rsp).toNat + 184 < 2 ^ 64) :
    t.run stubLeave = if f.cs = 0x3b then (resume t f).swapgs else resume t f := by
  have hwords := wordsAt_words.mpr h
  have hcs : (t.run popFrame).read (.mem (.base .rsp 8)) = BitVec.ofNat 64 f.cs := by
    have hadd : (t.reg .rsp + 144 + 8).toNat = (t.reg .rsp).toNat + 152 := by
      rw [BitVec.add_assoc]
      exact Machine.rsp_add (k := 152) (by omega)
    rw [run_popFrame hwords hroom]
    simp only [Machine.read, Machine.load, Machine.addr, Function.update_self, hadd]
    rw [← h]
    rfl
  have hlt : f.cs < 2 ^ 64 := by
    rw [← h]
    exact read64_lt ..
  have hiff : BitVec.ofNat 64 f.cs = 0x3b ↔ f.cs = 0x3b := by
    rw [← BitVec.toNat_inj, BitVec.toNat_ofNat, Nat.mod_eq_of_lt hlt]
    rfl
  calc t.run stubLeave
    _ = (if f.cs = 0x3b then (t.run popFrame).swapgs else t.run popFrame).exec .iretq := by
        rw [stubLeave, Machine.run_append]
        simp only [Machine.run, List.foldl_cons, List.foldl_nil, Machine.exec] at hcs ⊢
        simp only [hcs, hiff]
    _ = if f.cs = 0x3b then ((t.run popFrame).exec .iretq).swapgs else (t.run popFrame).exec .iretq := by
        generalize t.run popFrame = u
        split <;> rfl
    _ = if f.cs = 0x3b then (resume t f).swapgs else resume t f := by rw [popFrame_iretq hwords hroom]

theorem run_switchToThread {p : BitVec 64} (h : frameAt t.mem p.toNat = f) (hroom : p.toNat + 184 < 2 ^ 64) :
    t.run (switchToThreadAsm p) = (resume t f).swapgs := by
  have hrsp := t.setReg_self .rsp p
  have hwords : StackWords (t.setReg .rsp p).mem ((t.setReg .rsp p).reg .rsp).toNat (words f) := by
    rw [hrsp]
    exact wordsAt_words.mpr h
  calc t.run (switchToThreadAsm p)
    _ = (((t.setReg .rsp p).run popFrame).exec .iretq).swapgs := by
        have hmov : t.run [.mov (.reg .rsp) (.imm p)] = t.setReg .rsp p := rfl
        rw [switchToThreadAsm, Machine.run_append, Machine.run_append, hmov]
        generalize (t.setReg .rsp p).run popFrame = u
        rfl
    _ = (resume (t.setReg .rsp p) f).swapgs := by rw [popFrame_iretq hwords (by rw [hrsp]; exact hroom)]
    _ = (resume t f).swapgs := rfl

end Leave

/-! ### The way in -/

section Enter
variable (isr ret : BitVec 64) (v : Nat) (s : Machine) (tss : Tss) (g : Gate) (e : BitVec 64)

/-- The error code of an interrupt. -/
def errorCode : Option (BitVec 64) := if v ∈ errorVectors then some e else none

/-- Where the frame of an interrupt ends. -/
def stackTop : Nat := (s.interruptStack tss g &&& ~~~15).toNat

/-- Up to the error code, the processor and the stub push the same for every vector. -/
def stubTaken : Machine :=
  (s.interrupt tss g (errorCode v e)).run (if v ∈ errorVectors then [] else [.push (.imm 0)])

def frameErr : BitVec 64 := (errorCode v e).getD 0

/-- What is pushed before the general registers. -/
def takenWords : List (BitVec 64) :=
  [(s.seg .ss).setWidth 64, s.reg .rsp, s.rflags, (s.seg .cs).setWidth 64, s.rip] ++ [frameErr v e]

theorem stubTaken_pushes : stubTaken v s tss g e =
    { ((((takenWords v s e).foldl Machine.push (s.setReg .rsp (s.interruptStack tss g &&& ~~~15))).setSeg .cs
          g.selector).setSeg .ss (if s.user then 0 else s.seg .ss)) with
      rip := g.offset
      rflags := s.rflags &&& ~~~0x34300 } := by
  rw [takenWords, List.foldl_append, stubTaken, Machine.interrupt, List.foldl_append]
  generalize List.foldl Machine.push (s.setReg .rsp (s.interruptStack tss g &&& ~~~15))
    [(s.seg .ss).setWidth 64, s.reg .rsp, s.rflags, (s.seg .cs).setWidth 64, s.rip] = t
  by_cases hv : v ∈ errorVectors
  · simp only [frameErr, errorCode, if_pos hv]
    rfl
  · simp only [frameErr, errorCode, if_neg hv]
    rfl

theorem stubTaken_stacked (hroom : 192 ≤ stackTop s tss g) : Stacked (stackTop s tss g) s.mem (stubTaken v s tss g e)
    [(frameErr v e).toNat, s.rip.toNat, (s.seg .cs).toNat, s.rflags.toNat, (s.reg .rsp).toNat, (s.seg .ss).toNat] := by
  have htop : ((s.setReg .rsp (s.interruptStack tss g &&& ~~~15)).reg .rsp).toNat = stackTop s tss g := by
    rw [Machine.setReg_self]
    rfl
  have hbase := Stacked.empty (s.setReg .rsp (s.interruptStack tss g &&& ~~~15))
  rw [htop] at hbase
  have hpushed := hbase.pushes (takenWords v s e) (show 8 * (0 + 6) ≤ stackTop s tss g by omega)
  have hwidth : ∀ x : BitVec 16, (x.setWidth 64).toNat = x.toNat := fun x => BitVec.toNat_setWidth_of_le (by decide)
  simp only [takenWords, List.map_append, List.map_cons, List.map_nil, hwidth] at hpushed
  rw [stubTaken_pushes]
  exact hpushed.keep rfl rfl

theorem stubTaken_eq : ∃ a m, stubTaken v s tss g e =
    { ((((s.setReg .rsp a).setMem m).setSeg .cs g.selector).setSeg .ss (if s.user then 0 else s.seg .ss)) with
      rip := g.offset
      rflags := s.rflags &&& ~~~0x34300 } := by
  obtain ⟨a, m, h⟩ := Machine.pushes_eq (s.setReg .rsp (s.interruptStack tss g &&& ~~~15)) (takenWords v s e)
  refine ⟨a, m, ?_⟩
  rw [stubTaken_pushes, h]
  simp only [Machine.setReg, Function.update_idem]

/-- The GS bases are exchanged where the selector of the code was `0x3b`. -/
def stubSwapped (t : Machine) : Machine := if (s.seg .cs).toNat = 0x3b then t.swapgs else t

theorem stubSwapped_reg (t : Machine) : (stubSwapped s t).reg = t.reg := by
  unfold stubSwapped
  split <;> rfl

theorem stubSwapped_mem (t : Machine) : (stubSwapped s t).mem = t.mem := by
  unfold stubSwapped
  split <;> rfl

theorem run_swapgsIfEq {top : Nat} {m₀ : Mem} {t : Machine} {w₀ w₁ : Nat} {ws : List Nat}
    (h : Stacked top m₀ t (w₀ :: w₁ :: (s.seg .cs).toNat :: ws)) (htop : top < 2 ^ 64) :
    t.run [.swapgsIfEq (.base .rsp 16) 0x3b] = stubSwapped s t := by
  have hrsp := h.rsp
  simp only [List.length_cons] at hrsp
  have hadd : (t.reg .rsp + 16).toNat = (t.reg .rsp).toNat + 16 := Machine.rsp_add (k := 16) (by omega)
  have hcs : t.read (.mem (.base .rsp 16)) = BitVec.ofNat 64 (s.seg .cs).toNat := by
    simp only [Machine.read, Machine.load, Machine.addr, hadd]
    rw [← h.words.get (k := 2) rfl]
  have hiff : BitVec.ofNat 64 (s.seg .cs).toNat = 0x3b ↔ (s.seg .cs).toNat = 0x3b := by
    rw [← BitVec.toNat_inj, BitVec.toNat_ofNat, Nat.mod_eq_of_lt ((s.seg .cs).isLt.trans (by decide))]
    rfl
  simp only [Machine.run, List.foldl_cons, List.foldl_nil, Machine.exec, hcs, hiff, stubSwapped]

/-- The machine when the general registers are saved. -/
def stubSaved : Machine := (savedRegs.map s.reg).foldl Machine.push (stubSwapped s (stubTaken v s tss g e))

theorem stubSaved_stacked (hroom : 192 ≤ stackTop s tss g) :
    Stacked (stackTop s tss g) s.mem (stubSaved v s tss g e) ((words (savedFrame s (frameErr v e))).drop 2) := by
  have htaken := (stubTaken_stacked v s tss g e hroom).keep (t := stubSwapped s (stubTaken v s tss g e))
    (by rw [stubSwapped_reg]) (stubSwapped_mem s _)
  exact htaken.pushes (savedRegs.map s.reg) (show 8 * (6 + 15) ≤ stackTop s tss g by omega)

theorem stubSaved_eq : ∃ a m, stubSaved v s tss g e = stubSwapped s
    { ((((s.setReg .rsp a).setMem m).setSeg .cs g.selector).setSeg .ss (if s.user then 0 else s.seg .ss)) with
      rip := g.offset
      rflags := s.rflags &&& ~~~0x34300 } := by
  obtain ⟨a, m, htaken⟩ := stubTaken_eq v s tss g e
  obtain ⟨b, m', h⟩ := Machine.pushes_eq (stubSwapped s (stubTaken v s tss g e)) (savedRegs.map s.reg)
  refine ⟨b, m', ?_⟩
  rw [stubSaved, h, htaken]
  simp only [stubSwapped]
  split <;> simp only [Machine.setReg, Machine.setMem, Machine.setSeg, Machine.swapgs, Function.update_idem]

/-- The instructions of a stub up to there. -/
theorem run_stubSave (hroom : 192 ≤ stackTop s tss g) :
    (s.interrupt tss g (errorCode v e)).run (stubSave v) = stubSaved v s tss g e := by
  have hsame : savedRegs.map (stubSwapped s (stubTaken v s tss g e)).reg = savedRegs.map s.reg := by
    obtain ⟨a, m, htaken⟩ := stubTaken_eq v s tss g e
    rw [stubSwapped_reg, htaken]
    refine List.map_congr_left fun r hr => Function.update_of_ne (fun heq => ?_) ..
    rw [heq] at hr
    exact absurd hr (by decide)
  rw [stubSave, Machine.run_append, Machine.run_append]
  change ((stubTaken v s tss g e).run _).run _ = _
  rw [run_swapgsIfEq s (stubTaken_stacked v s tss g e hroom) (BitVec.isLt _), Machine.run_pushes (by decide), hsame]
  rfl

/-- The machine when the whole frame is on the stack. -/
def stubFramed : Machine := (stubSaved v s tss g e).run (pushSelectors .rax)

theorem run_pushSelectors (t : Machine) (r : Reg) : t.run (pushSelectors r) =
    (((t.setReg r ((t.seg .ds).setWidth 64)).push ((t.seg .ds).setWidth 64)).setReg r
      ((t.seg .es).setWidth 64)).push ((t.seg .es).setWidth 64) := by
  simp only [pushSelectors, Machine.run, List.foldl_cons, List.foldl_nil, Machine.exec, Machine.read, Machine.write,
    Machine.setReg_self]
  rfl

theorem stacked_selectors {top : Nat} {m₀ : Mem} {t : Machine} {ws : List Nat} {r : Reg} (hr : .rsp ≠ r)
    (h : Stacked top m₀ t ws) (hroom : 8 * (ws.length + 2) ≤ top) :
    Stacked top m₀ (t.run (pushSelectors r)) ((t.seg .es).toNat :: (t.seg .ds).toNat :: ws) := by
  have hwidth : ∀ x : BitVec 16, (x.setWidth 64).toNat = x.toNat := fun x => BitVec.toNat_setWidth_of_le (by decide)
  have hds := (h.setReg hr ((t.seg .ds).setWidth 64)).push (by omega) ((t.seg .ds).setWidth 64)
  have hes := (hds.setReg hr ((t.seg .es).setWidth 64)).push (by rw [List.length_cons]; omega) ((t.seg .es).setWidth 64)
  rw [hwidth, hwidth] at hes
  rw [run_pushSelectors]
  exact hes

theorem stubFramed_stacked (hroom : 192 ≤ stackTop s tss g) :
    Stacked (stackTop s tss g) s.mem (stubFramed v s tss g e) (words (savedFrame s (frameErr v e))) := by
  obtain ⟨a, m, heq⟩ := stubSaved_eq v s tss g e
  have hds : (stubSaved v s tss g e).seg .ds = s.seg .ds := by
    rw [heq, stubSwapped]
    split <;> rfl
  have hes : (stubSaved v s tss g e).seg .es = s.seg .es := by
    rw [heq, stubSwapped]
    split <;> rfl
  have hframed := stacked_selectors (r := .rax) (by decide) (stubSaved_stacked v s tss g e hroom) (show 8 * (21 + 2) ≤ stackTop s tss g by omega)
  rw [hds, hes] at hframed
  exact hframed

/-- The call of the handler with its arguments. -/
theorem run_stubArgs (t : Machine) : (t.run (stubArgs isr v)).reg .rdi = BitVec.ofNat 64 v ∧
    (t.run (stubArgs isr v)).reg .rsi = t.reg .rsp ∧ (t.run (stubArgs isr v)).reg .rsp = t.reg .rsp ∧
    (t.run (stubArgs isr v)).reg .rbx = isr + BitVec.ofNat 64 (v * 8) ∧
    t.run (stubArgs isr v) = { t with
      reg := (t.run (stubArgs isr v)).reg
      seg := Function.update (fun _ => 0x30) .cs (t.seg .cs)
      rflags := t.rflags &&& ~~~0x400 } := by
  simp only [stubArgs, Machine.run, List.foldl_cons, List.foldl_nil, Machine.exec, Machine.read, Machine.write,
    Machine.setReg, Machine.setSeg, Function.update_self]
  refine ⟨rfl, rfl, rfl, rfl, ?_⟩
  congr 1
  funext x
  cases x <;> rfl

/-- The model specific registers that the code here has to do with. -/
structure Msrs where
  gsBase : BitVec 64
  kgsBase : BitVec 64
  star : BitVec 64
  lstar : BitVec 64
  fmask : BitVec 64

def msrs (t : Machine) : Msrs := ⟨t.gsBase, t.kgsBase, t.star, t.lstar, t.fmask⟩

/-- What the handler of vector `v` finds, if `s` was interrupted. -/
structure HandlerEntry (u : Machine) : Prop where
  rip : u.rip = s.load (isr + BitVec.ofNat 64 (v * 8)).toNat
  vector : u.reg .rdi = BitVec.ofNat 64 v
  state : (u.reg .rsi).toNat + 184 = stackTop s tss g
  frame : frameAt u.mem (u.reg .rsi).toNat = savedFrame s (frameErr v e)
  rsp : u.reg .rsp + 8 = u.reg .rsi
  seg : u.seg = Function.update (fun _ => 0x30) .cs g.selector
  masked : u.rflags &&& 0x200 = 0
  msrs : msrs u = msrs (stubSwapped s s)
  outside : ∀ x, x < (u.reg .rsp).toNat ∨ stackTop s tss g ≤ x → u.mem x = s.mem x

/-- The machine at the first instruction of the handler. -/
def stubEntered : Machine := (s.interrupt tss g (errorCode v e)).run (stubEnter isr ret v)

theorem pushSelectors_rest (t : Machine) (r : Reg) : (t.run (pushSelectors r)).seg = t.seg ∧
    msrs (t.run (pushSelectors r)) = msrs t ∧ (t.run (pushSelectors r)).rflags = t.rflags := by
  rw [run_pushSelectors]
  exact ⟨rfl, rfl, rfl⟩

theorem stubFramed_rest : (stubFramed v s tss g e).seg .cs = g.selector ∧ msrs (stubFramed v s tss g e) = msrs (stubSwapped s s) ∧
    (stubFramed v s tss g e).rflags = s.rflags &&& ~~~0x34300 := by
  obtain ⟨a, m, heq⟩ := stubSaved_eq v s tss g e
  obtain ⟨hseg, hmsrs, hrflags⟩ := pushSelectors_rest (stubSaved v s tss g e) .rax
  rw [stubFramed, hseg, hmsrs, hrflags, heq, stubSwapped, stubSwapped]
  split
  · exact ⟨rfl, rfl, rfl⟩
  · exact ⟨rfl, rfl, rfl⟩

theorem handlerEntry (hroom : 192 ≤ stackTop s tss g)
    (hisr : (isr + BitVec.ofNat 64 (v * 8)).toNat + 200 ≤ stackTop s tss g ∨
      stackTop s tss g ≤ (isr + BitVec.ofNat 64 (v * 8)).toNat) :
    HandlerEntry isr v s tss g e (stubEntered isr ret v s tss g e) := by
  have hframed := stubFramed_stacked v s tss g e hroom
  obtain ⟨hcs, hmsrs, hrflags⟩ := stubFramed_rest v s tss g e
  obtain ⟨hrdi, hrsi, hrsp, hrbx, hargs⟩ := run_stubArgs isr v (stubFramed v s tss g e)
  have hentered : stubEntered isr ret v s tss g e =
      ((stubFramed v s tss g e).run (stubArgs isr v)).exec (.call (.base .rbx 0) ret) := by
    rw [stubEntered, stubEnter, Machine.run_append, Machine.run_append, Machine.run_append, run_stubSave v s tss g e hroom]
    rfl
  generalize (stubFramed v s tss g e).run (stubArgs isr v) = w at hrdi hrsi hrsp hrbx hargs hentered
  generalize stubFramed v s tss g e = t at hframed hcs hmsrs hrflags hrsi hrsp hargs
  have hmem : w.mem = t.mem := by rw [hargs]
  have hw := hframed.keep hrsp hmem
  have hpushed := hw.push (show 8 * (23 + 1) ≤ stackTop s tss g by omega) ret
  have hbottom : (w.reg .rsp).toNat + 184 = stackTop s tss g := hw.rsp
  have hne : ∀ {r}, r ≠ .rsp → (stubEntered isr ret v s tss g e).reg r = w.reg r := by
    intro r hr
    rw [hentered]
    exact w.call_reg _ ret hr
  have hstack : (stubEntered isr ret v s tss g e).reg .rsp = w.reg .rsp - 8 := by
    rw [hentered]
    exact w.call_rsp _ ret
  refine ⟨?_, ?_, ?_, ?_, ?_, ?_, ?_, ?_, ?_⟩
  · have hload : (stubEntered isr ret v s tss g e).rip = w.load (isr + BitVec.ofNat 64 (v * 8)).toNat := by
      rw [hentered, ← hrbx]
      simp only [Machine.exec, Machine.read, Machine.addr]
      exact congrArg (fun a : BitVec 64 => w.load a.toNat) (BitVec.add_zero _)
    have hsame : read64 w.mem (isr + BitVec.ofNat 64 (v * 8)).toNat = read64 s.mem (isr + BitVec.ofNat 64 (v * 8)).toNat :=
      read64_congr fun x hl hr => hw.outside x (by omega)
    rw [hload, Machine.load, Machine.load, hsame]
  · rw [hne (by decide), hrdi]
  · rw [hne (by decide), hrsi, ← hrsp]
    exact hbottom
  · rw [hne (by decide), hrsi, ← hrsp, ← wordsAt_words]
    have hwords := hpushed.words.2
    have hadd : ((w.push ret).reg .rsp).toNat + 8 = (w.reg .rsp).toNat := by
      have := hpushed.rsp
      have hlen : (words (savedFrame s (frameErr v e))).length = 23 := rfl
      rw [List.length_cons, hlen] at this
      omega
    rw [hadd] at hwords
    rw [hentered]
    exact hwords
  · rw [hstack, hne (by decide), hrsi, ← hrsp]
    exact BitVec.sub_add_cancel ..
  · rw [hentered]
    show w.seg = _
    rw [hargs, hcs]
  · rw [hentered]
    show w.rflags &&& 0x200 = 0
    rw [hargs, hrflags]
    have hmask : (~~~0x34300 &&& (~~~0x400 &&& 0x200) : BitVec 64) = 0 := by decide
    rw [BitVec.and_assoc, BitVec.and_assoc, hmask]
    exact BitVec.and_zero
  · rw [hentered, ← hmsrs]
    show msrs w = msrs t
    rw [hargs]
    rfl
  · rw [hentered]
    exact hpushed.outside

end Enter

/-! ### There and back -/

/-- A handler that comes back as the calling convention has it, and that leaves the frame alone. -/
structure HandlerReturn (u t : Machine) : Prop where
  rsp : t.reg .rsp = u.reg .rsp + 8
  frame : frameAt t.mem (u.reg .rsi).toNat = frameAt u.mem (u.reg .rsi).toNat
  msrs : msrs t = msrs u

/-- A handler that does nothing. -/
theorem handlerReturn_self (u : Machine) : HandlerReturn u (u.setReg .rsp (u.reg .rsp + 8)) :=
  ⟨u.setReg_self .., rfl, rfl⟩

theorem idtAfter_gate (isrStubs : Nat → BitVec 64) (sets : List (Nat × BitVec 8)) (v : Nat) :
    (idtAfter isrStubs sets v).gate.offset = isrStubs v ∧ (idtAfter isrStubs sets v).selector = 0x28 := by
  have hkeep : ∀ (sets : List (Nat × BitVec 8)) (idt : Nat → IdtGate),
      (sets.foldl (fun idt c => idtSetIst idt c.1 c.2) idt v).gate.offset = (idt v).gate.offset ∧
      (sets.foldl (fun idt c => idtSetIst idt c.1 c.2) idt v).selector = (idt v).selector := by
    intro sets
    induction sets with
    | nil => exact fun idt => ⟨rfl, rfl⟩
    | cons c sets ih =>
        intro idt
        obtain ⟨hoffset, hselector⟩ := ih (idtSetIst idt c.1 c.2)
        rw [List.foldl_cons, hoffset, hselector]
        by_cases hc : v = c.1
        · subst hc
          simp only [idtSetIst, Function.update_self, IdtGate.gate, and_self]
        · simp only [idtSetIst, Function.update_of_ne hc, and_self]
  obtain ⟨hoffset, hselector⟩ := hkeep sets (idtInit isrStubs)
  have hword := setWidth_shift_append (isrStubs v) 16 32 16
  have hall := setWidth_shift_append (isrStubs v) 0 48 16
  rw [BitVec.ushiftRight_zero, BitVec.setWidth_eq] at hall
  refine ⟨?_, hselector⟩
  rw [idtAfter, hoffset]
  simp only [idtInit, encodeIdtEntry, IdtGate.gate]
  rw [hword, hall]

theorem run_leave {isr e : BitVec 64} {v : Nat} {s : Machine} {tss : Tss} {g : Gate} {u t : Machine}
    (hu : HandlerEntry isr v s tss g e u) (ht : HandlerReturn u t) : t.run stubLeave = s.setMem t.mem := by
  have htop : stackTop s tss g < 2 ^ 64 := BitVec.isLt _
  have hrsp : t.reg .rsp = u.reg .rsi := ht.rsp.trans hu.rsp
  have hleave := run_stubLeave (t := t) (f := savedFrame s (frameErr v e))
    (by rw [hrsp, ht.frame, hu.frame]) (by rw [hrsp, hu.state]; exact htop)
  have hcs : (savedFrame s (frameErr v e)).cs = (s.seg .cs).toNat := rfl
  have hmsrs := ht.msrs.trans hu.msrs
  rw [hleave, hcs, resume_savedFrame]
  rw [stubSwapped] at hmsrs
  split
  · rename_i hsel
    rw [if_pos hsel] at hmsrs
    obtain ⟨hgs, hkgs, hstar, hlstar, hfmask⟩ := Msrs.mk.inj hmsrs
    simp only [Machine.swapgs] at hgs hkgs hstar hlstar hfmask
    simp only [Machine.swapgs, Machine.setMem, hgs, hkgs, hstar, hlstar, hfmask]
  · rename_i hsel
    rw [if_neg hsel] at hmsrs
    obtain ⟨hgs, hkgs, hstar, hlstar, hfmask⟩ := Msrs.mk.inj hmsrs
    simp only [Machine.setMem, hgs, hkgs, hstar, hlstar, hfmask]

/-- An interrupt on any vector leads through its own stub to the handler in `isr`, which is given the vector and a
frame with every register of what was interrupted, with interrupts off and nothing else written than the stack
below; and once the handler has returned, the interrupted code goes on with every register as it was. -/
theorem interrupt_transparent (isrStubs : Nat → BitVec 64) (sets : List (Nat × BitVec 8)) (isr ret e : BitVec 64) (v : Nat)
    (s : Machine) (tss : Tss) (hroom : 192 ≤ stackTop s tss (idtAfter isrStubs sets v).gate)
    (hisr : (isr + BitVec.ofNat 64 (v * 8)).toNat + 200 ≤ stackTop s tss (idtAfter isrStubs sets v).gate ∨
      stackTop s tss (idtAfter isrStubs sets v).gate ≤ (isr + BitVec.ofNat 64 (v * 8)).toNat) :
    let g := (idtAfter isrStubs sets v).gate
    (s.interrupt tss g (errorCode v e)).rip = isrStubs v ∧
    HandlerEntry isr v s tss g e (stubEntered isr ret v s tss g e) ∧ (stubEntered isr ret v s tss g e).seg .cs = 0x28 ∧
    ∀ t, HandlerReturn (stubEntered isr ret v s tss g e) t → t.run stubLeave = s.setMem t.mem := by
  intro g
  obtain ⟨hoffset, hselector⟩ := idtAfter_gate isrStubs sets v
  have hentry := handlerEntry isr ret v s tss g e hroom hisr
  refine ⟨hoffset, hentry, ?_, fun t ht => run_leave hentry ht⟩
  rw [hentry.seg]
  exact hselector

/-- A user thread at `0x400000`. -/
def userThread : Machine where
  reg := fun _ => 0x7000
  seg := fun x => if x = .cs then 0x43 else 0x3b
  rip := 0x400000
  rflags := 0x202
  gsBase := 0
  kgsBase := 0x5000
  star := 0x0033002800000000
  lstar := 0x9000
  fmask := 0x200
  mem := fun _ => 0

def oneStack : Tss := ⟨0x10000, fun _ => 0x20000⟩

def timerGates : Nat → IdtGate := idtAfter (fun v => BitVec.ofNat 64 (0x1000 + v)) [(34, 1)]

theorem timerGates_top : stackTop userThread oneStack (timerGates 34).gate = 0x20000 := by decide

def timerEntered : Machine := stubEntered 0x30000 0x9100 34 userThread oneStack (timerGates 34).gate 0

/-- The scheduler's vector, on its own stack. -/
theorem tick_transparent : (timerEntered.setReg .rsp (timerEntered.reg .rsp + 8)).run stubLeave =
    userThread.setMem timerEntered.mem := by
  have hisr : (0x30000 + BitVec.ofNat 64 (34 * 8) : BitVec 64).toNat = 0x30110 := by decide
  have hall := interrupt_transparent (fun v => BitVec.ofNat 64 (0x1000 + v)) [(34, 1)] 0x30000 0x9100 0 34 userThread oneStack
    (timerGates_top ▸ by decide) (.inr (by rw [hisr]; exact timerGates_top.trans_le (by decide)))
  exact hall.2.2.2 _ (handlerReturn_self _)

/-! ### The frames of the scheduler -/

section Frames
variable {n : Nat}

/-- The memory has the frames of the scheduler's state, each at its address. -/
def FramesAt (addr : FrameRef → Nat) (Live : FrameRef → Prop) (m : Mem) (q : Sched n) : Prop :=
  ∀ ref, Live ref → frameAt m (addr ref) = q.frames ref

/-- A frame is written by the stub of the CPU whose stack it is on, and the others stay. -/
theorem FramesAt.stub {addr : FrameRef → Nat} {Live : FrameRef → Prop} {q : Sched n} {c : Fin n} {isr e : BitVec 64}
    {v : Nat} {s u : Machine} {tss : Tss} {g : Gate} (h : FramesAt addr Live s.mem q)
    (hroom : 192 ≤ stackTop s tss g) (htop : stackTop s tss g = addr (.ist c) + 184)
    (hapart : ∀ ref, Live ref → ref ≠ .ist c → addr ref + 192 ≤ addr (.ist c) ∨ stackTop s tss g ≤ addr ref)
    (hu : HandlerEntry isr v s tss g e u) :
    FramesAt addr Live u.mem { q with frames := Function.update q.frames (.ist c) (savedFrame s (frameErr v e)) } := by
  have hp : (u.reg .rsi).toNat = addr (.ist c) := by
    have := hu.state
    omega
  have hrsp : (u.reg .rsp).toNat + 8 = addr (.ist c) := by
    have hsum := congrArg BitVec.toNat hu.rsp
    rw [BitVec.toNat_add, hp] at hsum
    have hlt := (u.reg .rsp).isLt
    have height : (8 : BitVec 64).toNat = 8 := rfl
    omega
  intro ref hlive
  by_cases href : ref = .ist c
  · subst href
    simp only [Function.update_self]
    rw [← hp, hu.frame]
  · simp only [Function.update_of_ne href]
    rw [← h ref hlive]
    have haway := hapart ref hlive href
    exact frameAt_congr fun x hl hr => hu.outside x (by omega)

/-- The machine does what the scheduler's model says a tick does to frames: the interrupted registers are where the
CPU's frame is, and the thread that is switched to goes on with the registers in the frame popped for it, if
`sched_vector` itself, which runs from `u` to `w`, writes over no frame. -/
theorem tick_refines_frames {q q' : Sched n} {c : Fin n} {fuel t : Nat} {f : InterruptFrame} (addr : FrameRef → Nat)
    (Live : FrameRef → Prop) (isr ret e : BitVec 64) (v : Nat) (s w : Machine) (tss : Tss) (g : Gate)
    (hroom : 192 ≤ stackTop s tss g)
    (hisr : (isr + BitVec.ofNat 64 (v * 8)).toNat + 200 ≤ stackTop s tss g ∨
      stackTop s tss g ≤ (isr + BitVec.ofNat 64 (v * 8)).toNat)
    (htop : stackTop s tss g = addr (.ist c) + 184)
    (hapart : ∀ ref, Live ref → ref ≠ .ist c → addr ref + 192 ≤ addr (.ist c) ∨ stackTop s tss g ≤ addr ref)
    (hlive : ∀ ref, Live ref → addr ref + 184 < 2 ^ 64)
    (hframes : FramesAt addr Live s.mem q)
    (htick : schedTick fuel q c (savedFrame s (frameErr v e)) = some (q', some (t, f)))
    (hstate : Live (q'.thread t).state)
    (hkept : ∀ ref, Live ref → frameAt w.mem (addr ref) = frameAt (stubEntered isr ret v s tss g e).mem (addr ref)) :
    FramesAt addr Live w.mem q' ∧
    w.run (switchToThreadAsm (BitVec.ofNat 64 (addr (q'.thread t).state))) = (resume w f).swapgs := by
  have hentry := handlerEntry isr ret v s tss g e hroom hisr
  have hstub := hframes.stub hroom htop hapart hentry
  rcases schedTick_spec (P := fun _ => True) (fun _ _ => trivial) trivial htick with ⟨hnone, -⟩ | ⟨t', -, hswitch, hsome⟩
  · cases hnone
  · obtain ⟨rfl, rfl⟩ := Prod.mk.inj (Option.some.inj hsome)
    have hall : FramesAt addr Live w.mem q' := by
      intro ref href
      rw [hkept ref href, hstub ref href, hswitch.frames]
    have hlt := hlive _ hstate
    have haddr : (BitVec.ofNat 64 (addr (q'.thread t).state)).toNat = addr (q'.thread t).state := by
      rw [BitVec.toNat_ofNat, Nat.mod_eq_of_lt (by omega)]
    exact ⟨hall, run_switchToThread (by rw [haddr, hall _ hstate]) (by rw [haddr]; exact hlt)⟩

end Frames

/-- An idle CPU and a new thread. -/
def newThreadWaits : Sched 1 := createThread (coreInit ⟨⟨fun _ => {}, 0, 0⟩, fun _ => {}, fun _ => {}⟩ soleCpu 10) 20 0 {}

def twoFrames : FrameRef → Nat := fun ref => if ref = .heap 20 then 0x40000 else 0x20000 - 184

/-- The tick that starts a new thread. -/
theorem tick_starts_thread : ∃ q', schedTick 5 newThreadWaits soleCpu (savedFrame userThread (frameErr 34 0)) = some (q', some (20, {})) ∧
    timerEntered.run (switchToThreadAsm (BitVec.ofNat 64 (twoFrames (q'.thread 20).state))) = (resume timerEntered {}).swapgs := by
  have htick : (schedTick 5 newThreadWaits soleCpu (savedFrame userThread (frameErr 34 0))).map
      (fun r => (r.2, (r.1.thread 20).state)) = some (some (20, {}), .heap 20) := by decide +kernel
  obtain ⟨⟨q', r⟩, hq, hr⟩ := Option.map_eq_some_iff.mp htick
  obtain ⟨rfl, hstate⟩ := Prod.mk.inj hr
  refine ⟨q', hq, ?_⟩
  have hisr : (0x30000 + BitVec.ofNat 64 (34 * 8) : BitVec 64).toNat = 0x30110 := by decide
  refine (tick_refines_frames twoFrames (fun ref => ref = .heap 20 ∨ ref = .ist 0) 0x30000 0x9100 0 34 userThread timerEntered
    oneStack (timerGates 34).gate (timerGates_top ▸ by decide) (.inr (by rw [hisr]; exact timerGates_top.trans_le (by decide)))
    ?_ ?_ ?_ ?_ hq (.inl hstate) fun _ _ => rfl).2
  · exact timerGates_top
  · rintro ref (rfl | rfl) hne
    · exact .inr (timerGates_top.trans_le (by decide))
    · exact absurd rfl hne
  · rintro ref (rfl | rfl) <;> decide
  · rintro ref (rfl | rfl) <;> decide +kernel

end Flan.Sys
