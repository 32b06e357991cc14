import Flan.Lib.Mem

/-! The part of an x86-64 processor that entry code works with: the registers, the segment selectors, the two GS
bases and the registers of `syscall`, with straight code over them. The status flags that arithmetic sets are not
kept, and neither are the checks of descriptors by which an access can fault. -/
namespace Flan.Lib

inductive Reg where
  | rax | rbx | rcx | rdx | rsi | rdi | rbp | rsp
  | r8 | r9 | r10 | r11 | r12 | r13 | r14 | r15
deriving DecidableEq

inductive Seg where
  | cs | ds | es | ss
deriving DecidableEq

structure Machine where
  reg : Reg → BitVec 64
  seg : Seg → BitVec 16
  rip : BitVec 64
  rflags : BitVec 64
  gsBase : BitVec 64
  kgsBase : BitVec 64
  star : BitVec 64
  lstar : BitVec 64
  fmask : BitVec 64
  mem : Mem

inductive Addr where
  | base (r : Reg) (offset : BitVec 64)
  | gs (offset : BitVec 64)
  | scaled (table : BitVec 64) (index : Reg)

inductive Operand where
  | reg (r : Reg)
  | seg (x : Seg)
  | imm (v : BitVec 64)
  | mem (a : Addr)

inductive Instr where
  | push (src : Operand)
  | pop (r : Reg)
  | mov (dst src : Operand)
  | xchg (r : Reg) (a : Addr)
  | add (dst src : Operand)
  | xor (dst src : Operand)
  | cld
  | cli
  | swapgs
  /-- `cmp qword [a], v` and a `jne` over a `swapgs`. -/
  | swapgsIfEq (a : Addr) (v : BitVec 64)
  /-- `call [a]`, from in front of `ret`. -/
  | call (a : Addr) (ret : BitVec 64)
  | iretq
  | sysret

namespace Machine

def setReg (s : Machine) (r : Reg) (v : BitVec 64) : Machine := { s with reg := Function.update s.reg r v }

def setSeg (s : Machine) (x : Seg) (v : BitVec 16) : Machine := { s with seg := Function.update s.seg x v }

def setMem (s : Machine) (m : Mem) : Machine := { s with mem := m }

def load (s : Machine) (a : Nat) : BitVec 64 := BitVec.ofNat 64 (read64 s.mem a)

def addr (s : Machine) : Addr → Nat
  | .base r offset => (s.reg r + offset).toNat
  | .gs offset => (s.gsBase + offset).toNat
  | .scaled table index => (table + 8 * s.reg index).toNat

def read (s : Machine) : Operand → BitVec 64
  | .reg r => s.reg r
  | .seg x => (s.seg x).setWidth 64
  | .imm v => v
  | .mem a => s.load (s.addr a)

def write (s : Machine) (v : BitVec 64) : Operand → Machine
  | .reg r => s.setReg r v
  | .seg x => s.setSeg x (v.setWidth 16)
  | .imm _ => s
  | .mem a => s.setMem (write64 s.mem (s.addr a) v.toNat)

def push (s : Machine) (v : BitVec 64) : Machine :=
  (s.setReg .rsp (s.reg .rsp - 8)).setMem (write64 s.mem (s.reg .rsp - 8).toNat v.toNat)

def swapgs (s : Machine) : Machine := { s with gsBase := s.kgsBase, kgsBase := s.gsBase }

/-- The word `k` words above the stack pointer. -/
def stackWord (s : Machine) (k : Nat) : BitVec 64 := s.load ((s.reg .rsp).toNat + 8 * k)

def exec (s : Machine) : Instr → Machine
  | .push src => s.push (s.read src)
  | .pop r => (s.setReg .rsp (s.reg .rsp + 8)).setReg r (s.stackWord 0)
  | .mov dst src => s.write (s.read src) dst
  | .xchg r a => (s.write (s.reg r) (.mem a)).setReg r (s.read (.mem a))
  | .add dst src => s.write (s.read dst + s.read src) dst
  | .xor dst src => s.write (s.read dst ^^^ s.read src) dst
  | .cld => { s with rflags := s.rflags &&& ~~~0x400 }
  | .cli => { s with rflags := s.rflags &&& ~~~0x200 }
  | .swapgs => s.swapgs
  | .swapgsIfEq a v => if s.read (.mem a) = v then s.swapgs else s
  | .call a ret => { s.push ret with rip := s.read (.mem a) }
  | .iretq =>
      { (((s.setReg .rsp (s.stackWord 3)).setSeg .cs ((s.stackWord 1).setWidth 16)).setSeg .ss
          ((s.stackWord 4).setWidth 16)) with
        rip := s.stackWord 0
        rflags := s.stackWord 2 }
  | .sysret =>
      { ((s.setSeg .cs (((s.star >>> 48).setWidth 16 + 16) ||| 3)).setSeg .ss
          (((s.star >>> 48).setWidth 16 + 8) ||| 3)) with
        rip := s.reg .rcx
        rflags := s.reg .r11 &&& 0x3c7fd7 ||| 2 }

def run (s : Machine) (code : List Instr) : Machine := code.foldl exec s

/-- The `syscall` instruction in front of `rip`. -/
def syscall (s : Machine) : Machine :=
  { ((((s.setReg .rcx s.rip).setReg .r11 s.rflags).setSeg .cs ((s.star >>> 32).setWidth 16 &&& 0xfffc)).setSeg .ss
      ((s.star >>> 32).setWidth 16 + 8)) with
    rip := s.lstar
    rflags := s.rflags &&& ~~~s.fmask }

end Machine

/-- What the processor reads of a gate and of the task state segment. -/
structure Gate where
  offset : BitVec 64
  selector : BitVec 16
  ist : Nat

structure Tss where
  rsp0 : BitVec 64
  ist : Nat → BitVec 64

namespace Machine

def user (s : Machine) : Bool := (s.seg .cs).setWidth 2 != 0

/-- The stack on which an interrupt is taken. -/
def interruptStack (s : Machine) (tss : Tss) (g : Gate) : BitVec 64 :=
  if g.ist ≠ 0 then tss.ist g.ist else if s.user then tss.rsp0 else s.reg .rsp

/-- An interrupt through an interrupt gate. -/
def interrupt (s : Machine) (tss : Tss) (g : Gate) (err : Option (BitVec 64)) : Machine :=
  let t := s.setReg .rsp (s.interruptStack tss g &&& ~~~15)
  let t := ([(s.seg .ss).setWidth 64, s.reg .rsp, s.rflags, (s.seg .cs).setWidth 64, s.rip] ++ err.toList).foldl push t
  { ((t.setSeg .cs g.selector).setSeg .ss (if s.user then 0 else s.seg .ss)) with
    rip := g.offset
    rflags := s.rflags &&& ~~~0x34300 }

end Machine

/-- Two neighbouring fields of a word are one field. -/
theorem setWidth_shift_append {w : Nat} (x : BitVec w) (k hi lo : Nat) :
    (x >>> (k + lo)).setWidth hi ++ (x >>> k).setWidth lo = (x >>> k).setWidth (hi + lo) := by
  apply BitVec.eq_of_getLsbD_eq
  intro i hlt
  rw [BitVec.getLsbD_append]
  simp only [BitVec.getLsbD_setWidth, BitVec.getLsbD_ushiftRight, hlt]
  by_cases hi' : i < lo
  · simp [hi']
  · have hin : i - lo < hi := by omega
    have hsum : k + lo + (i - lo) = k + i := by omega
    simp [hi', hin, hsum]

@[simp] theorem Machine.setReg_self (s : Machine) (r : Reg) (v : BitVec 64) : (s.setReg r v).reg r = v := by
  simp only [setReg, Function.update_self]

@[simp] theorem Machine.push_rsp (s : Machine) (v : BitVec 64) : (s.push v).reg .rsp = s.reg .rsp - 8 := by
  simp only [push, setReg, setMem, Function.update_self]

theorem Machine.push_reg (s : Machine) (v : BitVec 64) {r : Reg} (h : r ≠ .rsp) : (s.push v).reg r = s.reg r := by
  simp only [push, setReg, setMem, Function.update_of_ne h]

/-- A call pushes where it is to come back to. -/
theorem Machine.call_reg (s : Machine) (a : Addr) (ret : BitVec 64) {r : Reg} (h : r ≠ .rsp) :
    (s.exec (.call a ret)).reg r = s.reg r := by
  simp only [exec, push_reg s ret h]

theorem Machine.call_rsp (s : Machine) (a : Addr) (ret : BitVec 64) :
    (s.exec (.call a ret)).reg .rsp = s.reg .rsp - 8 := by
  simp only [exec, push_rsp]

/-! ### Words above an address -/

def StackWords (m : Mem) : Nat → List Nat → Prop
  | _, [] => True
  | a, w :: ws => read64 m a = w ∧ StackWords m (a + 8) ws

theorem stackWords_append {m : Mem} {a : Nat} {ws vs : List Nat} :
    StackWords m a (ws ++ vs) ↔ StackWords m a ws ∧ StackWords m (a + 8 * ws.length) vs := by
  induction ws generalizing a with
  | nil => simp [StackWords]
  | cons w ws ih =>
      have hsum : a + 8 * (w :: ws).length = a + 8 + 8 * ws.length := by
        rw [List.length_cons]
        omega
      rw [List.cons_append, StackWords, StackWords, ih, hsum, and_assoc]

theorem StackWords.congr {m m' : Mem} {a : Nat} {ws : List Nat} (h : StackWords m a ws)
    (heq : ∀ x, a ≤ x → x < a + 8 * ws.length → m' x = m x) : StackWords m' a ws := by
  induction ws generalizing a with
  | nil => trivial
  | cons w ws ih =>
      rw [List.length_cons] at heq
      refine ⟨?_, ih h.2 fun x hl hr => heq x (by omega) (by omega)⟩
      rw [read64_congr fun x hl hr => heq x hl (by omega)]
      exact h.1

theorem StackWords.get {m : Mem} {a k w : Nat} {ws : List Nat} (h : StackWords m a ws) (hk : ws[k]? = some w) :
    read64 m (a + 8 * k) = w := by
  induction ws generalizing a k with
  | nil => cases hk
  | cons v ws ih =>
      cases k with
      | zero => exact h.1.trans (Option.some.inj hk)
      | succ k =>
          have hget := ih h.2 hk
          rw [← hget]
          congr 1
          omega

/-! ### The stack -/

/-- The stack holds `ws` up to `top`, and nothing else has changed since the memory was `m₀`. -/
structure Stacked (top : Nat) (m₀ : Mem) (s : Machine) (ws : List Nat) : Prop where
  rsp : (s.reg .rsp).toNat + 8 * ws.length = top
  words : StackWords s.mem (s.reg .rsp).toNat ws
  outside : ∀ x, x < (s.reg .rsp).toNat ∨ top ≤ x → s.mem x = m₀ x

namespace Stacked
variable {top : Nat} {m₀ : Mem} {s t : Machine} {ws : List Nat}

theorem empty (s : Machine) : Stacked (s.reg .rsp).toNat s.mem s [] := ⟨rfl, trivial, fun _ _ => rfl⟩

theorem keep (h : Stacked top m₀ s ws) (hrsp : t.reg .rsp = s.reg .rsp) (hmem : t.mem = s.mem) : Stacked top m₀ t ws := by
  refine ⟨?_, ?_, ?_⟩
  · rw [hrsp]
    exact h.rsp
  · rw [hrsp, hmem]
    exact h.words
  · rw [hrsp, hmem]
    exact h.outside

theorem setReg (h : Stacked top m₀ s ws) {r : Reg} (hr : .rsp ≠ r) (v : BitVec 64) : Stacked top m₀ (s.setReg r v) ws :=
  h.keep (by simp only [Machine.setReg, Function.update_of_ne hr]) rfl

theorem push (h : Stacked top m₀ s ws) (hroom : 8 * (ws.length + 1) ≤ top) (v : BitVec 64) :
    Stacked top m₀ (s.push v) (v.toNat :: ws) := by
  have hrsp := h.rsp
  have hsub : (s.reg .rsp - 8).toNat = (s.reg .rsp).toNat - 8 := by
    have hle : (8 : BitVec 64) ≤ s.reg .rsp := by
      rw [BitVec.le_def]
      show 8 ≤ (s.reg .rsp).toNat
      omega
    exact BitVec.toNat_sub_of_le hle
  have hreg := s.push_rsp v
  have hmem : (s.push v).mem = write64 s.mem ((s.reg .rsp).toNat - 8) v.toNat := by rw [← hsub]; rfl
  refine ⟨?_, ⟨?_, ?_⟩, ?_⟩
  · rw [hreg, hsub, List.length_cons]
    omega
  · rw [hreg, hsub, hmem]
    exact read64_write64_same v.isLt
  · rw [hreg, hsub, hmem, Nat.sub_add_cancel (by omega)]
    exact h.words.congr fun x hl _ => write64_outside (by omega)
  · intro x hx
    rw [hreg, hsub] at hx
    rw [hmem, write64_outside (by omega)]
    exact h.outside x (by omega)

theorem pushes (h : Stacked top m₀ s ws) (vs : List (BitVec 64)) (hroom : 8 * (ws.length + vs.length) ≤ top) :
    Stacked top m₀ (vs.foldl Machine.push s) ((vs.map BitVec.toNat).reverse ++ ws) := by
  induction vs generalizing s ws with
  | nil => exact h
  | cons v vs ih =>
      rw [List.length_cons] at hroom
      have hnext := ih (h.push (by omega) v) (by rw [List.length_cons]; omega)
      rw [List.map_cons, List.reverse_cons, List.append_assoc]
      exact hnext

end Stacked

namespace Machine
variable {s : Machine}

/-- Pushing changes the stack pointer and the memory only. -/
theorem pushes_eq (s : Machine) (vs : List (BitVec 64)) :
    ∃ a m, vs.foldl push s = (s.setReg .rsp a).setMem m := by
  induction vs generalizing s with
  | nil =>
      refine ⟨s.reg .rsp, s.mem, ?_⟩
      simp only [List.foldl_nil, setReg, setMem, Function.update_eq_self]
  | cons v vs ih =>
      obtain ⟨a, m, h⟩ := ih (s.push v)
      refine ⟨a, m, h.trans ?_⟩
      simp only [push, setReg, setMem, Function.update_idem]

theorem run_append (s : Machine) (code more : List Instr) : s.run (code ++ more) = (s.run code).run more :=
  List.foldl_append ..

theorem run_pushes {rs : List Reg} (hrs : .rsp ∉ rs) :
    s.run (rs.map fun r => .push (.reg r)) = (rs.map s.reg).foldl push s := by
  induction rs generalizing s with
  | nil => rfl
  | cons r rs ih =>
      obtain ⟨hr, hrs⟩ := not_or.mp fun h => hrs (List.mem_cons.mpr h)
      have hsame : rs.map (s.push (s.reg r)).reg = rs.map s.reg :=
        List.map_congr_left fun x hx => s.push_reg _ fun heq => hrs (heq ▸ hx)
      calc s.run ((r :: rs).map fun r => .push (.reg r))
        _ = (s.push (s.reg r)).run (rs.map fun r => .push (.reg r)) := rfl
        _ = (rs.map (s.push (s.reg r)).reg).foldl push (s.push (s.reg r)) := ih hrs
        _ = ((r :: rs).map s.reg).foldl push s := by rw [hsame]; rfl

theorem rsp_add {k : Nat} (h : (s.reg .rsp).toNat + k < 2 ^ 64) :
    (s.reg .rsp + BitVec.ofNat 64 k).toNat = (s.reg .rsp).toNat + k := by
  rw [BitVec.toNat_add, BitVec.toNat_ofNat, Nat.add_mod_mod, Nat.mod_eq_of_lt h]

/-- A pop takes the first word. -/
theorem exec_pop {w : Nat} {ws : List Nat} (r : Reg) (h : StackWords s.mem (s.reg .rsp).toNat (w :: ws)) :
    s.exec (.pop r) = (s.setReg .rsp (s.reg .rsp + 8)).setReg r (BitVec.ofNat 64 w) := by
  rw [← h.1]
  rfl

/-- Pops of different registers take the words in turn. -/
theorem run_pops (rs : List Reg) {vs ws : List Nat} (hnd : rs.Nodup) (hrs : .rsp ∉ rs) (hlen : rs.length = vs.length)
    (hroom : (s.reg .rsp).toNat + 8 * vs.length < 2 ^ 64) (h : StackWords s.mem (s.reg .rsp).toNat (vs ++ ws)) :
    ∃ reg, s.run (rs.map .pop) = { s with reg := reg } ∧ (∀ p ∈ rs.zip vs, reg p.1 = BitVec.ofNat 64 p.2) ∧
      (∀ r, r ∉ rs → r ≠ .rsp → reg r = s.reg r) ∧ reg .rsp = s.reg .rsp + BitVec.ofNat 64 (8 * vs.length) := by
  induction rs generalizing s vs with
  | nil =>
      obtain rfl := List.length_eq_zero_iff.mp hlen.symm
      exact ⟨s.reg, rfl, fun p hp => (by cases hp), fun _ _ _ => rfl, (BitVec.add_zero _).symm⟩
  | cons r rs ih =>
      cases vs with
      | nil => cases hlen
      | cons v vs =>
          obtain ⟨hr, hnd⟩ := List.nodup_cons.mp hnd
          obtain ⟨hr0, hrs⟩ := not_or.mp fun h => hrs (List.mem_cons.mpr h)
          rw [List.length_cons] at hroom
          have hexec := exec_pop r h
          have hrsp : (s.exec (.pop r)).reg .rsp = s.reg .rsp + 8 := by
            rw [hexec]
            simp only [setReg, Function.update_of_ne hr0, Function.update_self]
          have hadd : ((s.exec (.pop r)).reg .rsp).toNat = (s.reg .rsp).toNat + 8 := by
            rw [hrsp]
            exact rsp_add (k := 8) (by omega)
          obtain ⟨reg, hrun, hpopped, hkept, hend⟩ := ih (s := s.exec (.pop r)) hnd hrs (Nat.succ.inj hlen)
            (by omega) (by rw [hadd]; exact h.2)
          refine ⟨reg, ?_, ?_, ?_, ?_⟩
          · exact hrun
          · intro p hp
            rcases List.mem_cons.mp hp with rfl | hp
            · rw [hkept r hr fun h => hr0 h.symm, hexec]
              exact Function.update_self ..
            · exact hpopped p hp
          · intro x hx hx0
            obtain ⟨hxr, hx⟩ := not_or.mp fun h => hx (List.mem_cons.mpr h)
            rw [hkept x hx hx0, hexec]
            simp only [setReg, Function.update_of_ne hxr, Function.update_of_ne hx0]
          · rw [hend, hrsp, List.length_cons, BitVec.add_assoc]
            congr 1
            rw [Nat.mul_succ, Nat.add_comm, BitVec.ofNat_add]
            rfl

/-- The words that `iretq` takes. -/
theorem exec_iretq {rip cs rflags rsp ss : Nat} {ws : List Nat}
    (h : StackWords s.mem (s.reg .rsp).toNat (rip :: cs :: rflags :: rsp :: ss :: ws)) : s.exec .iretq =
    { (((s.setReg .rsp (BitVec.ofNat 64 rsp)).setSeg .cs ((BitVec.ofNat 64 cs).setWidth 16)).setSeg .ss
        ((BitVec.ofNat 64 ss).setWidth 16)) with
      rip := BitVec.ofNat 64 rip
      rflags := BitVec.ofNat 64 rflags } := by
  have hword : ∀ k w, (rip :: cs :: rflags :: rsp :: ss :: ws)[k]? = some w → s.stackWord k = BitVec.ofNat 64 w := by
    intro k w hk
    rw [stackWord, load, h.get hk]
  simp only [exec, hword 0 rip rfl, hword 1 cs rfl, hword 2 rflags rfl, hword 3 rsp rfl, hword 4 ss rfl]

end Machine

end Flan.Lib
