import Flan.Memory.Vmm
import Flan.Proc.Sched

/-! Processes and the user threads that `sched_user_thread` of `proc/sched.c`
makes for them. The records of threads and vectors live on the kernel heap;
only the page tables and the memory of the stack are modelled here. -/
namespace Flan.Proc
open Flan.Lib Flan.Memory

def stackSize : Nat := 0x10000

/-- The fields of `process_t` that its memory depends on; `threads` is the
number of items of the vector. -/
structure Process where
  pagemap : Nat
  threads : Nat
  threadStackTop : Nat
  anonBase : Nat
  deriving DecidableEq

/-- What `sched_process` sets of them. -/
def freshProcess (pagemap : Nat) : Process := ⟨pagemap, 0, 0x70000000000, 0x80000000000⟩

/-- `struct auxval`. -/
structure Auxval where
  atEntry : Nat
  atPhdr : Nat
  atPhent : Nat
  atPhnum : Nat

def atPhdr : Nat := 3
def atPhent : Nat := 4
def atPhnum : Nat := 5
def atEntry : Nat := 9

/-- What `sched_user_thread` sets in a thread and in its interrupt frame. -/
structure UserThread where
  rsp : Nat
  rip : Nat
  rdi : Nat
  cs : Nat
  ds : Nat
  es : Nat
  ss : Nat
  rflags : Nat
  timeslice : Nat
  cr3 : Nat

/-! ### The first thread's stack -/

/-- Memory and the stack pointer, a physical address. -/
structure Stack where
  mem : Mem
  sp : Nat

namespace Stack

/-- A string goes below the pointer; its terminator is one of the zeros that
the stack was cleared to. -/
def pushString (st : Stack) (str : List Byte) : Stack :=
  let sp := sub64 (sub64 st.sp str.length) 1
  ⟨storeBytes st.mem sp str, sp⟩

def push (st : Stack) (v : Nat) : Stack :=
  let sp := sub64 st.sp 8
  ⟨write64 st.mem sp v, sp⟩

/-- `stack -= 2; stack[0] = key, stack[1] = value`. -/
def pushPair (st : Stack) (key value : Nat) : Stack :=
  let sp := sub64 st.sp 16
  ⟨write64 (write64 st.mem sp key) (sp + 8) value, sp⟩

/-- Down to 16 bytes, and past one word when the count of words is odd. -/
def align (st : Stack) (argvLen envpLen : Nat) : Stack :=
  let sp := st.sp / 16 * 16
  ⟨st.mem, if (argvLen + envpLen + 1) &&& 1 ≠ 0 then sub64 sp 8 else sp⟩

end Stack

/-- The loop that stores the user addresses of the strings; `old` is `old_rsp`. -/
def storePointers (m : Mem) (a old : Nat) : List (List Byte) → Mem × Nat
  | [] => (m, old)
  | str :: rest =>
      let old := sub64 old (str.length + 1)
      storePointers (write64 m a old) (a + 8) old rest

/-- A null word and below it the addresses of the strings. -/
def Stack.pushPointers (st : Stack) (old : Nat) (strs : List (List Byte)) : Stack × Nat :=
  let st := st.push 0
  let sp := sub64 st.sp (8 * strs.length)
  let r := storePointers st.mem sp old strs
  (⟨r.1, sp⟩, r.2)

/-- Auxiliary vector, environment, arguments and their count. -/
def Stack.fillVectors (st : Stack) (rsp : Nat) (argv envp : List (List Byte)) (aux : Auxval) : Stack :=
  let st := (st.push 0).push 0
  let st := st.pushPair atEntry aux.atEntry
  let st := st.pushPair atPhdr aux.atPhdr
  let st := st.pushPair atPhent aux.atPhent
  let st := st.pushPair atPhnum aux.atPhnum
  let r := st.pushPointers rsp envp
  let r := r.1.pushPointers r.2 argv
  r.1.push argv.length

/-- The strings and the vectors below them, from the top of the stack at the
physical address `top` down. -/
def Stack.fill (m : Mem) (top rsp : Nat) (argv envp : List (List Byte)) (aux : Auxval) : Stack :=
  let st := envp.foldl pushString ⟨m, top⟩
  let st := argv.foldl pushString st
  (st.align argv.length envp.length).fillVectors rsp argv envp aux

/-! ### How far the stack reaches down -/

/-- `st'` has used `n` bytes below `st` and written nowhere else. -/
structure Stack.Within (st st' : Stack) (n : Nat) : Prop where
  used : st'.sp + n = st.sp
  outside : ∀ x, x < st'.sp ∨ st.sp ≤ x → st'.mem x = st.mem x

theorem Stack.Within.refl (st : Stack) : st.Within st 0 := ⟨rfl, fun _ _ => rfl⟩

section Within
variable {st₀ st : Stack} {n : Nat}

theorem Stack.Within.push (h : st₀.Within st n) (hlt : st₀.sp < 2 ^ 64) (hn : n + 8 ≤ st₀.sp)
    (v : Nat) : st₀.Within (st.push v) (n + 8) := by
  have hused := h.used
  have hsp : sub64 st.sp 8 = st.sp - 8 := sub64_of_le (by omega) (by omega)
  refine ⟨?_, fun x hx => ?_⟩
  · simp only [Stack.push, hsp]
    omega
  · simp only [Stack.push, hsp] at hx ⊢
    rw [write64_outside (by omega), h.outside x (by omega)]

theorem Stack.Within.pushPair (h : st₀.Within st n) (hlt : st₀.sp < 2 ^ 64) (hn : n + 16 ≤ st₀.sp)
    (key value : Nat) : st₀.Within (st.pushPair key value) (n + 16) := by
  have hused := h.used
  have hsp : sub64 st.sp 16 = st.sp - 16 := sub64_of_le (by omega) (by omega)
  refine ⟨?_, fun x hx => ?_⟩
  · simp only [Stack.pushPair, hsp]
    omega
  · simp only [Stack.pushPair, hsp] at hx ⊢
    rw [write64_outside (by omega), write64_outside (by omega), h.outside x (by omega)]

theorem Stack.Within.pushString (h : st₀.Within st n) (hlt : st₀.sp < 2 ^ 64) {str : List Byte}
    (hn : n + (str.length + 1) ≤ st₀.sp) : st₀.Within (st.pushString str) (n + (str.length + 1)) := by
  have hused := h.used
  have hsp : sub64 (sub64 st.sp str.length) 1 = st.sp - (str.length + 1) := by
    rw [sub64_of_le (show str.length ≤ st.sp by omega) (by omega), sub64_of_le (by omega) (by omega)]
    omega
  refine ⟨?_, fun x hx => ?_⟩
  · simp only [Stack.pushString, hsp]
    omega
  · simp only [Stack.pushString, hsp] at hx ⊢
    rw [storeBytes_outside (by omega), h.outside x (by omega)]

def stringsSize (strs : List (List Byte)) : Nat := (strs.map fun str => str.length + 1).sum

theorem Stack.Within.pushStrings (h : st₀.Within st n) (hlt : st₀.sp < 2 ^ 64)
    (strs : List (List Byte)) (hn : n + stringsSize strs ≤ st₀.sp) :
    st₀.Within (strs.foldl Stack.pushString st) (n + stringsSize strs) := by
  induction strs generalizing st n with
  | nil => exact h
  | cons str strs ih =>
      simp only [stringsSize, List.map_cons, List.sum_cons] at hn ih ⊢
      rw [← Nat.add_assoc]
      exact ih (h.pushString hlt (by omega)) (by omega)

theorem Stack.Within.align (h : st₀.Within st n) (hlt : st₀.sp < 2 ^ 64) (h16 : st₀.sp % 16 = 0)
    {a e : Nat} (hn : n + 23 ≤ st₀.sp) : st₀.Within (st.align a e)
      ((n + 15) / 16 * 16 + if (a + e + 1) &&& 1 ≠ 0 then 8 else 0) := by
  have hused := h.used
  have hsp : st.sp / 16 * 16 + (n + 15) / 16 * 16 = st₀.sp := by omega
  refine ⟨?_, fun x hx => ?_⟩
  · simp only [Stack.align]
    split
    · rw [sub64_of_le (by omega) (by omega)]
      omega
    · omega
  · refine h.outside x (hx.imp (fun hlt' => ?_) id)
    simp only [Stack.align] at hlt'
    split at hlt'
    · rw [sub64_of_le (by omega) (by omega)] at hlt'
      omega
    · omega

theorem storePointers_outside {m : Mem} {a old x : Nat} {strs : List (List Byte)}
    (hx : x < a ∨ a + 8 * strs.length ≤ x) : (storePointers m a old strs).1 x = m x := by
  induction strs generalizing m a old with
  | nil => rfl
  | cons str strs ih =>
      rw [List.length_cons] at hx
      rw [storePointers, ih (by omega), write64_outside (by omega)]

theorem Stack.Within.pushPointers (h : st₀.Within st n) (hlt : st₀.sp < 2 ^ 64) (old : Nat)
    (strs : List (List Byte)) (hn : n + (8 + 8 * strs.length) ≤ st₀.sp) :
    st₀.Within (st.pushPointers old strs).1 (n + (8 + 8 * strs.length)) := by
  have hpush := h.push hlt (by omega) 0
  have hused := hpush.used
  have hsp : sub64 (st.push 0).sp (8 * strs.length) = (st.push 0).sp - 8 * strs.length :=
    sub64_of_le (by omega) (by omega)
  refine ⟨?_, fun x hx => ?_⟩
  · simp only [Stack.pushPointers, hsp]
    omega
  · simp only [Stack.pushPointers, hsp] at hx ⊢
    rw [storePointers_outside (by omega), hpush.outside x (by omega)]

/-- The bytes that the first thread's stack starts with. -/
def fillSize (argv envp : List (List Byte)) : Nat :=
  (stringsSize envp + stringsSize argv + 15) / 16 * 16 +
    (if (argv.length + envp.length + 1) &&& 1 ≠ 0 then 8 else 0) + 8 + 8 + 16 + 16 + 16 + 16 +
    (8 + 8 * envp.length) + (8 + 8 * argv.length) + 8

/-- Only the `fillSize` bytes below the top are written. -/
theorem Stack.fill_within {m : Mem} {top rsp : Nat} {argv envp : List (List Byte)} {aux : Auxval}
    (hlt : top < 2 ^ 64) (h16 : top % 16 = 0) (hfit : fillSize argv envp ≤ top) :
    (Stack.mk m top).Within (Stack.fill m top rsp argv envp aux) (fillSize argv envp) := by
  have hstart := Stack.Within.refl ⟨m, top⟩
  unfold fillSize at hfit ⊢
  have henv := hstart.pushStrings hlt envp (by simp only; omega)
  have harg := henv.pushStrings hlt argv (by simp only; omega)
  rw [Nat.zero_add] at harg
  have halign := harg.align (a := argv.length) (e := envp.length) hlt h16 (by simp only; omega)
  have hnull := (halign.push hlt (by simp only; omega) 0).push hlt (by simp only; omega) 0
  have hentry := hnull.pushPair hlt (by simp only; omega) atEntry aux.atEntry
  have hphdr := hentry.pushPair hlt (by simp only; omega) atPhdr aux.atPhdr
  have hphent := hphdr.pushPair hlt (by simp only; omega) atPhent aux.atPhent
  have hphnum := hphent.pushPair hlt (by simp only; omega) atPhnum aux.atPhnum
  have henvp := hphnum.pushPointers hlt rsp envp (by simp only; omega)
  exact (henvp.pushPointers hlt _ argv (by simp only; omega)).push hlt (by simp only; omega) argv.length

end Within

/-! ### The thread -/

/-- `sched_user_thread`. The stack has sixteen frames and seventeen pages are
mapped. -/
def schedUserThread {σ : Type} (F : FrameSource σ) (s : Vmm σ) (start arg : Nat) (process : Process)
    (argv envp : List (List Byte)) (aux : Auxval) : Option (UserThread × Process × Vmm σ) := do
  let (stackPhys, s) ← pmmAlloc F s stackSize
  let pages := alignUpFrame stackSize / frameSize + 1
  let s ← vmmMapPages F s process.pagemap stackPhys (sub64 process.threadStackTop stackSize)
    (ptePresent ||| pteWritable ||| pteUser) pages
  let thread : UserThread :=
    { rsp := process.threadStackTop, rip := start, rdi := arg, cs := 0x40 ||| 3, ds := 0x38 ||| 3,
      es := 0x38 ||| 3, ss := 0x38 ||| 3, rflags := 0x202, timeslice := timeQuantum,
      cr3 := process.pagemap }
  let process' := { process with
    threads := process.threads + 1
    threadStackTop := sub64 process.threadStackTop (stackSize - frameSize) }
  if process.threads = 0 then
    let top := (stackPhys + stackSize) % 2 ^ 64
    let st := Stack.fill s.mem top thread.rsp argv envp aux
    return ({ thread with rsp := sub64 thread.rsp (sub64 top st.sp) }, process', { s with mem := st.mem })
  else return (thread, process', s)

end Flan.Proc
