import Flan.Fs.Str
import Flan.Lib.Runs

/-! `printf` of `lib/stdio.c` on one CPU, with its locks, and the keyboard
interrupt of `dev/ps2/ps2kb.c`, whose handler prints too. The code is a list of
operations between which an interrupt can arrive. -/
namespace Flan.Dev
open Flan.Lib Flan.Fs

/-! ### The source -/

def byteOf (c : Char) : Byte := BitVec.ofNat 8 c.toNat

/-- The locks `print_lock`, `serial_lock` and `console_lock`. -/
inductive Lock where
  | print
  | serial
  | console
  deriving DecidableEq

/-- An argument of `printf`: a word, and the string it points to if it is an
address. -/
structure Arg where
  word : Nat
  str : List Byte

/-- `printf` in its loop: the bytes from `fmt` on, the arguments, the position
`c` and the number of the next argument. -/
structure PrintLoop where
  fmt : Nat → Byte
  args : Nat → Arg
  c : Nat
  arg : Nat

inductive Op where
  | acquire (l : Lock) (spinlockCount : Nat)
  | release (l : Lock)
  | transmitData (value : Byte)
  | flantermWrite (str : List Byte)
  | loop (p : PrintLoop)
  | ps2Read
  | lapicEoi
  | assertFail

def repr : List Byte :=
  ofChars ['0', '1', '2', '3', '4', '5', '6', '7', '8', '9', 'a', 'b', 'c', 'd', 'e', 'f']

/-- The loop of `itoa`, which puts the digits down from the last one. -/
def itoaLoop (base : Nat) : (fuel num : Nat) → List Byte → List Byte
  | 0, _, ptr => ptr
  | fuel + 1, num, ptr =>
      let ptr := repr.getD (num % base) 0 :: ptr
      if num / base = 0 then ptr else itoaLoop base fuel (num / base) ptr

/-- `itoa`; a word has at most 64 digits. -/
def itoa (num base : Nat) : List Byte := itoaLoop base 64 num []

/-- What `printf` hands to `out`: a string, or the digits that `itoa` makes. -/
inductive Piece where
  | text (str : List Byte)
  | number (num base : Nat)

def Piece.str : Piece → List Byte
  | .text str => str
  | .number num base => itoa num base

/-- What follows a percent sign, if it is a conversion. -/
def conversion (c : Byte) (a : Arg) : Option (List Piece) :=
  if c = byteOf 's' then some [.text a.str]
  else if c = byteOf 'd' then some [.number a.word 10]
  else if c = byteOf 'x' then some [.text (ofChars ['0', 'x']), .number a.word 16]
  else if c = byteOf 'b' then some [.text (ofChars ['0', 'b']), .number a.word 2]
  else none

/-- One turn of the loop of `printf`: the pieces for `out` and the loop behind it, or the end.
A format that ends in a percent sign is read on past its end. -/
def PrintLoop.step (p : PrintLoop) : Option (List Piece × PrintLoop) :=
  if p.fmt p.c = 0 then none
  else if p.fmt p.c = byteOf '%' then
    match conversion (p.fmt (p.c + 1)) (p.args p.arg) with
    | some pieces => some (pieces, { p with c := p.c + 2, arg := p.arg + 1 })
    | none => some ([], { p with c := p.c + 2 })
  else some ([.text [p.fmt p.c]], { p with c := p.c + 1 })

/-- The loop of `serial_out`. -/
def serialLoop (str : List Byte) : List Op :=
  str.flatMap fun b =>
    if b = byteOf '\n' then [.transmitData (byteOf '\r'), .transmitData b] else [.transmitData b]

def serialOut (str : List Byte) : List Op :=
  .acquire .serial 0 :: serialLoop str ++ [.release .serial]

section Printf
-- Whether `console_init` has made a `term_context`.
variable (term : Bool)

def consoleWrite (str : List Byte) : List Op :=
  if term then [.acquire .console 0, .flantermWrite str, .release .console] else []

def out (str : List Byte) : List Op := serialOut str ++ consoleWrite term str

/-- The code of a turn. -/
def PrintLoop.turn (p : PrintLoop) : List Op :=
  match p.step with
  | none => [.release .print]
  | some (pieces, next) => pieces.flatMap (fun q => out term q.str) ++ [.loop next]

end Printf

/-- A call of `printf`. -/
structure Printf where
  fmt : Nat → Byte
  args : Nat → Arg

def printf (call : Printf) : List Op := [.acquire .print 0, .loop ⟨call.fmt, call.args, 0, 0⟩]

/-- A format in the source with one argument. -/
def printf1 (fmt : List Byte) (arg : Arg) : List Op := printf ⟨fun i => fmt.getD i 0, fun _ => arg⟩

def keymap : List Byte :=
  [0, 0x1b] ++ ofChars ['1', '2', '3', '4', '5', '6', '7', '8', '9', '0', '-', '='] ++ [8, 9] ++
  ofChars ['q', 'w', 'e', 'r', 't', 'y', 'u', 'i', 'o', 'p', '[', ']'] ++ [10, 0] ++
  ofChars ['a', 's', 'd', 'f', 'g', 'h', 'j', 'k', 'l', ';'] ++ [0x27, 0x60, 0, 0x5c] ++
  ofChars ['z', 'x', 'c', 'v', 'b', 'n', 'm', ',', '.', '/'] ++ [0, 0, 0] ++ ofChars [' ']

/-- What the handler prints for a key. The map has 58 entries; `beyond` is what
lies behind it. -/
def keyStr (beyond : Nat → Byte) (scancode : Byte) : List Byte :=
  let c := keymap.getD scancode.toNat (beyond scancode.toNat)
  if c = 0 then [] else [c]

/-- `ps2kb_handler`, for the scancode that `ps2_read` returns. -/
def ps2kbHandler (beyond : Nat → Byte) (scancode : Byte) : List Op :=
  .ps2Read :: (if scancode.toNat < 0x57 then printf1 (ofChars ['%', 's']) ⟨0, keyStr beyond scancode⟩ else []) ++
    [.lapicEoi]

/-! ### The machine -/

/-- What does not change while the machine runs: the console, the file names in
the locks and the bytes behind the map of keys. -/
structure Setup where
  term : Bool
  file : Lock → Arg
  beyond : Nat → Byte

/-- One CPU: the locks, the calls still to be made, the rest of the running call,
and the rest of the handler if one runs. -/
structure Cpu where
  held : Lock → Bool
  calls : List Printf
  main : List Op
  handler : Option (List Op)

inductive Input where
  | tick
  | keyboard (scancode : Byte)

section Machine
variable (m : Setup)

/-- What an operation does to the locks, and the operations it comes to. A failed
attempt at a lock is made again, until the count says that it is a deadlock. -/
def Op.exec (held : Lock → Bool) : Op → (Lock → Bool) × List Op
  | .acquire l spinlockCount =>
      if held l then
        if spinlockCount + 1 > 10000000 then
          (held, printf1 (ofChars ['%', 's', ' ', 'd', 'e', 'a', 'd', 'l', 'o', 'c', 'k']) (m.file l) ++
            [.assertFail])
        else (held, [.acquire l (spinlockCount + 1)])
      else (Function.update held l true, [])
  | .release l => (Function.update held l false, [])
  | .loop p => (held, p.turn m.term)
  | .assertFail => (held, [.assertFail])
  | .transmitData _ | .flantermWrite _ | .ps2Read | .lapicEoi => (held, [])

namespace Cpu

/-- The CPU goes on: in the handler, or else in the call, or with the next call. -/
def tick (s : Cpu) : Cpu :=
  match s.handler with
  | some [] => { s with handler := none }
  | some (op :: ops) =>
      let (held, new) := op.exec m s.held
      { s with held, handler := some (new ++ ops) }
  | none =>
      match s.main with
      | op :: ops =>
          let (held, new) := op.exec m s.held
          { s with held, main := new ++ ops }
      | [] =>
          match s.calls with
          | [] => s
          | call :: calls => { s with calls, main := printf call }

/-- The gate of an interrupt masks others until the handler is left. -/
def next (s : Cpu) : Input → Cpu
  | .tick => s.tick m
  | .keyboard scancode =>
      match s.handler with
      | some _ => s
      | none => { s with handler := some (ps2kbHandler m.beyond scancode) }

/-- The lock that the handler is about to acquire is free. -/
def FindsFree (s : Cpu) : Prop :=
  ∀ l n ops, s.handler = some (.acquire l n :: ops) → s.held l = false

/-- An interrupt comes while no call holds `print_lock`, or for a key that is not
printed, or it is masked. -/
def Outside (s : Cpu) : Input → Prop
  | .tick => True
  | .keyboard scancode => s.handler.isSome ∨ s.held .print = false ∨ 0x57 ≤ scancode.toNat

end Cpu
end Machine

/-! ### Balanced code -/

/-- The other two locks are held inside `print_lock` only. -/
def Nested (held : Lock → Bool) : Prop :=
  held .print = false → held .serial = false ∧ held .console = false

/-- Code that, run from these locks on without interruption, finds every lock free
and leaves the locks `base`. -/
def Balanced (base : Lock → Bool) : (Lock → Bool) → List Op → Prop
  | held, [] => Nested held ∧ held = base
  | held, .acquire l _ :: ops => Nested held ∧ held l = false ∧ Balanced base (Function.update held l true) ops
  | held, .release l :: ops => Nested held ∧ Balanced base (Function.update held l false) ops
  | held, .loop _ :: ops => (held .print = true ∧ held .serial = false ∧ held .console = false) ∧
      Balanced base (Function.update held .print false) ops
  | _, .assertFail :: _ => False
  | held, .transmitData _ :: ops => Balanced base held ops
  | held, .flantermWrite _ :: ops => Balanced base held ops
  | held, .ps2Read :: ops => Balanced base held ops
  | held, .lapicEoi :: ops => Balanced base held ops

section Balanced
variable {m : Setup} {base held : Lock → Bool} {op : Op} {ops : List Op} {term : Bool} {str : List Byte}

theorem Balanced.nested (h : Balanced base held ops) : Nested held := by
  induction ops with
  | nil => exact h.1
  | cons op ops ih =>
      cases op with
      | acquire l n => exact h.1
      | release l => exact h.1
      | loop p => exact fun hfree => absurd (h.1.1.symm.trans hfree) Bool.noConfusion
      | assertFail => exact h.elim
      | transmitData b => exact ih h
      | flantermWrite str => exact ih h
      | ps2Read => exact ih h
      | lapicEoi => exact ih h

theorem nested_of_print (h : held .print = true) : Nested held :=
  fun hfree => absurd (h.symm.trans hfree) Bool.noConfusion

/-- Inside `printf`, between two strings. -/
structure InPrintf (held : Lock → Bool) : Prop where
  print : held .print = true
  serial : held .serial = false
  console : held .console = false

/-- Operations that use no lock. -/
def Op.Plain : Op → Prop
  | .transmitData _ | .flantermWrite _ => True
  | _ => False

theorem Balanced.plain {body : List Op} (hbody : ∀ op ∈ body, op.Plain) (h : Balanced base held ops) :
    Balanced base held (body ++ ops) := by
  induction body with
  | nil => exact h
  | cons op body ih =>
      obtain ⟨hop, hrest⟩ := List.forall_mem_cons.mp hbody
      cases op with
      | transmitData b => exact ih hrest
      | flantermWrite str => exact ih hrest
      | _ => exact hop.elim

/-- A section of `printf` under one of the other locks. -/
theorem Balanced.guarded {l : Lock} {body : List Op} (hprint : held .print = true) (hl : l ≠ .print)
    (hfree : held l = false) (hbody : ∀ op ∈ body, op.Plain) (h : Balanced base held ops) :
    Balanced base held (.acquire l 0 :: (body ++ .release l :: ops)) := by
  have hprint' : Function.update held l true .print = true := by
    rw [Function.update_of_ne hl.symm]
    exact hprint
  refine ⟨nested_of_print hprint, hfree, Balanced.plain hbody ⟨nested_of_print hprint', ?_⟩⟩
  rw [Function.update_idem, ← hfree, Function.update_eq_self]
  exact h

theorem serialLoop_plain (str : List Byte) : ∀ op ∈ serialLoop str, op.Plain := by
  intro op hop
  obtain ⟨b, -, hop⟩ := List.mem_flatMap.mp hop
  split at hop
  · rcases List.mem_pair.mp hop with rfl | rfl
    · trivial
    · trivial
  · obtain rfl := List.mem_singleton.mp hop
    trivial

theorem Balanced.out (hin : InPrintf held) (h : Balanced base held ops) :
    Balanced base held (out term str ++ ops) := by
  have hconsole : Balanced base held (consoleWrite term str ++ ops) := by
    cases term with
    | false => exact h
    | true =>
        have hbody : ∀ op ∈ [Op.flantermWrite str], op.Plain := fun op hop =>
          List.mem_singleton.mp hop ▸ trivial
        exact Balanced.guarded hin.print (by decide) hin.console hbody h
  have hserial := Balanced.guarded hin.print (by decide) hin.serial (serialLoop_plain str) hconsole
  rw [Dev.out, serialOut]
  simpa only [List.cons_append, List.append_assoc, List.nil_append] using hserial

theorem Balanced.pieces (hin : InPrintf held) (h : Balanced base held ops) (pieces : List Piece) :
    Balanced base held (pieces.flatMap (fun q => Dev.out term q.str) ++ ops) := by
  induction pieces with
  | nil => exact h
  | cons q pieces ih =>
      rw [List.flatMap_cons, List.append_assoc]
      exact ih.out hin

/-- Whatever the format, a turn of the loop comes back to it or leaves it. -/
theorem Balanced.turn (hin : InPrintf held) (h : Balanced base (Function.update held .print false) ops)
    (p : PrintLoop) : Balanced base held (p.turn term ++ ops) := by
  rw [PrintLoop.turn]
  cases p.step with
  | none => exact ⟨nested_of_print hin.print, h⟩
  | some turn =>
      have hloop : Balanced base held (.loop turn.2 :: ops) := ⟨⟨hin.print, hin.serial, hin.console⟩, h⟩
      rw [List.append_assoc]
      exact hloop.pieces hin turn.1

/-- One operation of balanced code leaves balanced code. -/
theorem Balanced.exec (h : Balanced base held (op :: ops)) :
    Balanced base (op.exec m held).1 ((op.exec m held).2 ++ ops) := by
  cases op with
  | acquire l n =>
      obtain ⟨-, hfree, h⟩ := h
      rw [Op.exec, if_neg (by simp [hfree])]
      exact h
  | release l => exact h.2
  | loop p => exact h.2.turn ⟨h.1.1, h.1.2.1, h.1.2.2⟩ p
  | assertFail => exact h.elim
  | transmitData b => exact h
  | flantermWrite str => exact h
  | ps2Read => exact h
  | lapicEoi => exact h

/-- A call of `printf` while all locks are free. -/
theorem Balanced.printf (hprint : held .print = false) (hnested : Nested held) (h : Balanced base held ops)
    (call : Printf) : Balanced base held (printf call ++ ops) := by
  obtain ⟨hserial, hconsole⟩ := hnested hprint
  refine ⟨hnested, hprint, ⟨Function.update_self .., ?_, ?_⟩, ?_⟩
  · rw [Function.update_of_ne (by decide)]
    exact hserial
  · rw [Function.update_of_ne (by decide)]
    exact hconsole
  · rw [Function.update_idem, ← hprint, Function.update_eq_self]
    exact h

end Balanced

/-! ### Interrupts -/

section Interrupts
variable {m : Setup} {s : Cpu} {inputs : List Input}

/-- No lock is held. -/
def free : Lock → Bool := fun _ => false

/-- The interrupted code is balanced, and so is the handler in front of it. -/
def CpuInv (s : Cpu) : Prop :=
  match s.handler with
  | none => Balanced free s.held s.main
  | some ops => ∃ held, Balanced free held s.main ∧ Balanced held s.held ops

theorem CpuInv.findsFree (h : CpuInv s) : s.FindsFree := by
  intro l n ops hhandler
  rw [CpuInv, hhandler] at h
  obtain ⟨held, -, h⟩ := h
  exact h.2.1

theorem CpuInv.tick (h : CpuInv s) : CpuInv (s.tick m) := by
  obtain ⟨held, calls, main, handler⟩ := s
  cases handler with
  | some ops =>
      obtain ⟨base, hmain, hops⟩ := h
      cases ops with
      | nil =>
          obtain ⟨-, rfl⟩ := hops
          exact hmain
      | cons op ops => exact ⟨base, hmain, hops.exec⟩
  | none =>
      cases main with
      | cons op ops => exact Balanced.exec h
      | nil =>
          cases calls with
          | nil => exact h
          | cons call calls =>
              obtain ⟨hnested, rfl⟩ : Nested held ∧ held = free := h
              have hend : Balanced free free [] := ⟨hnested, rfl⟩
              exact hend.printf rfl hnested call

theorem CpuInv.next {i : Input} (h : CpuInv s) (hi : s.Outside i) : CpuInv (s.next m i) := by
  cases i with
  | tick => exact h.tick
  | keyboard scancode =>
      obtain ⟨held, calls, main, handler⟩ := s
      cases handler with
      | some ops => exact h
      | none =>
          have hmain : Balanced free held main := h
          have hdone : Balanced held held [.lapicEoi] := ⟨hmain.nested, rfl⟩
          refine ⟨held, hmain, ?_⟩
          show Balanced held held (ps2kbHandler m.beyond scancode)
          rw [ps2kbHandler]
          split
          case isFalse => exact hdone
          case isTrue hprinted =>
            have hprint : held .print = false := by
              rcases hi with hi | hi | hi
              · exact nomatch hi
              · exact hi
              · omega
            exact hdone.printf hprint hmain.nested _

/-- A handler that is about to try `print_lock` while it is held. -/
def Stuck (s : Cpu) : Prop :=
  s.held .print = true ∧ ∃ n ops, s.handler = some (.ps2Read :: .acquire .print n :: ops)

theorem Stuck.tick (h : Stuck s) : ¬ (s.tick m).FindsFree := by
  obtain ⟨hheld, n, ops, hhandler⟩ := h
  have htick : s.tick m = { s with handler := some (.acquire .print n :: ops) } := by
    rw [Cpu.tick, hhandler]
    rfl
  intro hfree
  rw [htick] at hfree
  exact absurd ((hfree .print n ops rfl).symm.trans hheld) Bool.noConfusion

/-- Such a handler comes to the lock, whatever arrives meanwhile. -/
theorem Stuck.not_findsFree (h : Stuck s) (inputs : List Input) :
    ¬ AllStates (Cpu.next m) Cpu.FindsFree s (inputs ++ [.tick]) := by
  induction inputs with
  | nil => exact fun hall => h.tick hall.2
  | cons i inputs ih =>
      rintro ⟨-, hrest⟩
      cases i with
      | tick => exact h.tick hrest.head
      | keyboard scancode =>
          obtain ⟨-, n, ops, hhandler⟩ := h
          have hmasked : s.next m (.keyboard scancode) = s := by
            rw [Cpu.next, hhandler]
          rw [hmasked] at hrest
          exact ih hrest

/-- An interrupt for a printed key inside `printf`. -/
theorem stuck_of_not_outside {i : Input} (hi : ¬ s.Outside i) : Stuck (s.next m i) := by
  cases i with
  | tick => exact absurd trivial hi
  | keyboard scancode =>
      obtain ⟨hnone, hheld, hkey⟩ : ¬ s.handler.isSome ∧ ¬ s.held .print = false ∧ ¬ 0x57 ≤ scancode.toNat := by
        simpa only [Cpu.Outside, not_or] using hi
      have hnext : s.next m (.keyboard scancode) =
          { s with handler := some (ps2kbHandler m.beyond scancode) } := by
        rw [Cpu.next, Option.not_isSome_iff_eq_none.mp hnone]
      rw [hnext, ps2kbHandler, if_pos (Nat.lt_of_not_le hkey)]
      exact ⟨Bool.eq_true_of_not_eq_false hheld, 0, _, rfl⟩

theorem CpuInv.findsFree_iff (h : CpuInv s) (inputs : List Input) :
    AllStates (Cpu.next m) Cpu.FindsFree s (inputs ++ [.tick]) ↔ AllSteps (Cpu.next m) Cpu.Outside s inputs := by
  induction inputs generalizing s with
  | nil => exact iff_of_true ⟨h.findsFree, h.tick.findsFree⟩ trivial
  | cons i inputs ih =>
      constructor
      · rintro ⟨-, hrest⟩
        have hi : s.Outside i := by
          by_contra hi
          exact (stuck_of_not_outside hi).not_findsFree inputs hrest
        exact ⟨hi, (ih (h.next hi)).mp hrest⟩
      · rintro ⟨hi, hrest⟩
        exact ⟨h.findsFree, (ih (h.next hi)).mpr hrest⟩

/-- The CPU before the calls. -/
def Cpu.start (calls : List Printf) : Cpu := ⟨free, calls, [], none⟩

/-- The handler finds its locks free along a run, and on the step after it,
exactly when no interrupt for a printed key comes while `print_lock` is held. -/
theorem handler_finds_free_iff (m : Setup) (calls : List Printf) (inputs : List Input) :
    AllStates (Cpu.next m) Cpu.FindsFree (.start calls) (inputs ++ [.tick]) ↔
      AllSteps (Cpu.next m) Cpu.Outside (.start calls) inputs := by
  have hstart : CpuInv (.start calls) := ⟨fun _ => ⟨rfl, rfl⟩, rfl⟩
  exact hstart.findsFree_iff inputs

end Interrupts

/-- Before `console_init`. -/
def earlySetup : Setup := ⟨false, fun _ => ⟨0, []⟩, fun _ => 0⟩

def printA : Printf := ⟨fun i => (ofChars ['A']).getD i 0, fun _ => ⟨0, []⟩⟩

/-- A call has taken `print_lock` when the key with scancode 30 is pressed: the
handler comes to acquire the lock while it is held. -/
theorem key_inside_printf_spins : ∃ n ops,
    ([.tick, .tick, .keyboard 30, .tick].foldl (Cpu.next earlySetup) (.start [printA])).handler =
      some (.acquire .print n :: ops) ∧
    ([.tick, .tick, .keyboard 30, .tick].foldl (Cpu.next earlySetup) (.start [printA])).held .print = true :=
  ⟨0, _, rfl, rfl⟩

end Flan.Dev
