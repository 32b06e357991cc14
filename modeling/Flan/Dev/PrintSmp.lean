import Flan.Dev.Itoa
import Flan.Lib.Code
import Flan.Sys.Log
import Flan.Sys.Spinlock

/-! `printf` of `lib/stdio.c` as several CPUs call it at once. Between the acquisition of
`print_lock` and its release a CPU writes its digits into the static `buffer` of `itoa`, from which
`serial_out` and `console_write` read them afterwards, and takes the two inner locks. All of that
is shared, and a step is one byte written, read or sent. -/
namespace Flan.Dev
open Flan.Lib Flan.Fs Flan.Sys

/-! ### The source -/

/-- Where a string for `out` is: in memory that nobody writes, or in the buffer of `itoa`. -/
inductive Source where
  | text (str : List Byte)
  | buffer (ptr : Int)

def Source.byte (buffer : Int → Byte) : Source → Nat → Byte
  | .text str, i => str.getD i 0
  | .buffer ptr, i => buffer (ptr + i)

/-- What the CPUs share: the bytes at and around `buffer`, `serial_lock` and `console_lock`, the bytes
sent on the serial line and the strings written to the terminal. -/
structure Printer where
  buffer : Int → Byte
  inner : Lock → Bool
  line : List Byte
  screen : List (List Byte)

/-- The code of `printf`, of `itoa`, and of `serial_out` and `console_write` behind `out`. -/
inductive PrintOp where
  | loop (p : PrintLoop)
  | itoa (num base : Nat)
  | digit (num base : Nat) (ptr : Int)
  | out (str : Source)
  | acquire (l : Lock) (spinlockCount : Nat)
  | release (l : Lock)
  | serialOut (str : Source) (i : Nat)
  | transmitCr
  | transmitData (str : Source) (i : Nat)
  | strlen (str : Source) (ct : Nat)
  | flantermWrite (str : Source) (n : Nat)
  | assertFail

def PrintOp.ofPiece : Piece → PrintOp
  | .text str => .out (.text str)
  | .number num base => .itoa num base

def PrintLoop.ops (p : PrintLoop) : List PrintOp :=
  match p.step with
  | none => []
  | some (pieces, next) => pieces.map .ofPiece ++ [.loop next]

section Machine
-- Whether `console_init` has made a `term_context`.
variable (term : Bool)

def outOps (str : Source) : List PrintOp :=
  [.acquire .serial 0, .serialOut str 0, .release .serial] ++
    if term then [.acquire .console 0, .strlen str 0, .release .console] else []

/-- One step of the CPU under `print_lock`. The lock is never free for itself: if it gave up on an
inner lock, its own message would wait for it. A digit that has no room in the buffer goes to
memory of somebody else; there the model does not go on. -/
def PrintOp.exec (s : Printer) : PrintOp → Printer × List PrintOp
  | .loop p => (s, p.ops)
  | .itoa num base => ({ s with buffer := Function.update s.buffer 49 0 }, [.digit num base 49])
  | .digit num base ptr =>
      if ptr ≤ 0 then (s, [.digit num base ptr])
      else
        ({ s with buffer := Function.update s.buffer (ptr - 1) (repr.getD (num % base) 0) },
          if num / base = 0 then [.out (.buffer (ptr - 1))] else [.digit (num / base) base (ptr - 1)])
  | .out str => (s, outOps term str)
  | .acquire l count =>
      if l = .print ∨ s.inner l = true then
        match spinlockCount count with
        | some count => (s, [.acquire l count])
        | none => (s, [.acquire .print 0, .assertFail])
      else ({ s with inner := Function.update s.inner l true }, [])
  | .release l => ({ s with inner := Function.update s.inner l false }, [])
  | .serialOut str i =>
      if str.byte s.buffer i = 0 then (s, [])
      else if str.byte s.buffer i = byteOf '\n' then
        (s, [.transmitCr, .transmitData str i, .serialOut str (i + 1)])
      else (s, [.transmitData str i, .serialOut str (i + 1)])
  | .transmitCr => ({ s with line := s.line ++ [byteOf '\r'] }, [])
  | .transmitData str i => ({ s with line := s.line ++ [str.byte s.buffer i] }, [])
  | .strlen str ct =>
      if str.byte s.buffer ct = 0 then (s, [.flantermWrite str ct]) else (s, [.strlen str (ct + 1)])
  | .flantermWrite str n =>
      ({ s with screen := s.screen ++ [(List.range n).map (str.byte s.buffer)] }, [])
  | .assertFail => (s, [.assertFail])

/-- The arguments of `%s` are strings, and what is printed in binary has no more digits than the
buffer of `itoa`. -/
structure PrintLoop.Fits (p : PrintLoop) : Prop where
  strings : ∀ i, 0 ∉ (p.args i).str
  words : ∀ i, (p.args i).word < 2 ^ 64
  binary : ∀ c, p.fmt c = byteOf '%' → p.fmt (c + 1) = byteOf 'b' → ∀ i, (p.args i).word < 2 ^ 49

/-- A call that fits and comes to the end of its format, with the strings it hands to `out`. -/
structure Message where
  call : Printf
  outs : List (List Byte)
  ends : ∃ fuel r, run fuel ⟨call.fmt, call.args, 0, 0⟩ = some r ∧ r.outs = outs
  fits : PrintLoop.Fits ⟨call.fmt, call.args, 0, 0⟩

/-- The path of the source file in a lock. -/
structure LockFile where
  path : List Byte
  string : 0 ∉ path

def deadlockFmt : List Byte := ofChars ['%', 's', ' ', 'd', 'e', 'a', 'd', 'l', 'o', 'c', 'k']

theorem deadlock_ends (path : List Byte) :
    ∃ fuel r, run fuel ⟨fun i => deadlockFmt.getD i 0, fun _ => ⟨0, path⟩, 0, 0⟩ = some r ∧
      r.outs = path :: (deadlockFmt.drop 2).map fun b => [b] :=
  ⟨12, _, rfl, rfl⟩

theorem deadlock_binary {c : Nat} (hpct : deadlockFmt.getD c 0 = byteOf '%')
    (hb : deadlockFmt.getD (c + 1) 0 = byteOf 'b') : False := by
  by_cases hc : c < 11
  · revert hpct hb
    revert c
    decide
  · rw [List.getD_eq_default _ _ (Nat.le_of_not_lt hc)] at hpct
    revert hpct
    decide

/-- What `spinlock_acquire` prints before its assertion. -/
def deadlock (file : LockFile) : Message where
  call := ⟨fun i => deadlockFmt.getD i 0, fun _ => ⟨0, file.path⟩⟩
  outs := file.path :: (deadlockFmt.drop 2).map fun b => [b]
  ends := deadlock_ends file.path
  fits := ⟨fun _ => file.string, fun _ => Nat.two_pow_pos 64, fun _ hpct hb => (deadlock_binary hpct hb).elim⟩

/-- A message, and whether the assertion of `spinlock_acquire` comes after it. -/
abbrev PrintCall := Message × Bool

def printBody : Critical Printer PrintCall (List PrintOp) Unit :=
  codeBody (PrintOp.exec term) fun c => [.loop ⟨c.1.call.fmt, c.1.call.args, 0, 0⟩]

/-- `printf` under `print_lock`. Who has failed too often at the lock calls `printf` for the message
about it, which waits for the same lock. -/
def printGuard (file : LockFile) : Guard Printer Nat PrintCall (List PrintOp) Unit Nat where
  lock := spinlock
  first := 0
  again call count :=
    match spinlockCount count with
    | some count => some (call, count)
    | none => some ((deadlock file, true), 0)
  stops call := call.2
  body := printBody term

end Machine

/-! ### What a call prints -/

/-- What `serial_out` sends for a string. -/
def crlf (str : List Byte) : List Byte :=
  str.flatMap fun b => if b = byteOf '\n' then [byteOf '\r', b] else [b]

def Printer.prints (term : Bool) (s : Printer) (strs : List (List Byte)) : Printer :=
  { s with line := s.line ++ crlf strs.flatten, screen := s.screen ++ if term then strs else [] }

/-- No inner lock is held. -/
def InnerFree (s : Printer) : Prop := s.inner .serial = false ∧ s.inner .console = false

/-- The whole message and nothing else comes out. -/
structure Prints (term : Bool) (s : Printer) (c : PrintCall) (t : Printer) : Prop where
  line : t.line = s.line ++ crlf c.1.outs.flatten
  screen : t.screen = s.screen ++ if term then c.1.outs else []

section Alone
variable {term : Bool} {s t : Printer} {op : PrintOp} {str : Source} {bytes : List Byte}
  {buffer : Int → Byte}

/-- The string at a source. -/
structure HasString (buffer : Int → Byte) (str : Source) (bytes : List Byte) : Prop where
  byte : ∀ i (h : i < bytes.length), str.byte buffer i = bytes[i]
  ends : str.byte buffer bytes.length = 0
  nonzero : 0 ∉ bytes

theorem hasString_text (buffer : Int → Byte) (h : 0 ∉ bytes) : HasString buffer (.text bytes) bytes := by
  refine ⟨fun i hi => ?_, ?_, h⟩
  · simp only [Source.byte, List.getD_eq_getElem _ _ hi]
  · simp only [Source.byte, List.getD_eq_default _ _ (le_refl _)]

theorem HasString.byte_ne (h : HasString buffer str bytes) {i : Nat} (hi : i < bytes.length) :
    str.byte buffer i ≠ 0 := by
  rw [h.byte i hi]
  exact fun hz => h.nonzero (hz ▸ List.getElem_mem hi)

theorem does_serialOut (h : HasString buffer str bytes) (i : Nat) (hi : i ≤ bytes.length) (inner : Lock → Bool)
    (line : List Byte) (screen : List (List Byte)) :
    Does (PrintOp.exec term) ⟨buffer, inner, line, screen⟩ [.serialOut str i]
      ⟨buffer, inner, line ++ crlf (bytes.drop i), screen⟩ := by
  induction hleft : bytes.length - i generalizing i line with
  | zero =>
      obtain rfl : i = bytes.length := by omega
      refine .unfold (if_pos h.ends) ?_
      rw [List.drop_length, crlf, List.flatMap_nil, List.append_nil]
      exact .nil
  | succ left ih =>
      have hlt : i < bytes.length := by omega
      have hbyte := h.byte i hlt
      have hdrop : crlf (bytes.drop i) =
          (if bytes[i] = byteOf '\n' then [byteOf '\r', bytes[i]] else [bytes[i]]) ++ crlf (bytes.drop (i + 1)) := by
        rw [List.drop_eq_getElem_cons hlt, crlf, List.flatMap_cons]
        rfl
      rw [hdrop, ← List.append_assoc]
      by_cases hnl : bytes[i] = byteOf '\n'
      · rw [if_pos hnl]
        refine .unfold ((if_neg (h.byte_ne hlt)).trans (if_pos (hbyte.trans hnl))) ?_
        have htransmit : PrintOp.exec term ⟨buffer, inner, line ++ [byteOf '\r'], screen⟩ (.transmitData str i) =
            (⟨buffer, inner, line ++ [byteOf '\r', bytes[i]], screen⟩, []) := by
          simp only [PrintOp.exec, hbyte, List.append_assoc, List.cons_append, List.nil_append]
        exact (Does.single rfl).cons ((Does.single htransmit).cons (ih (i + 1) hlt _ (by omega)))
      · rw [if_neg hnl]
        refine .unfold ((if_neg (h.byte_ne hlt)).trans (if_neg (by rw [hbyte]; exact hnl))) ?_
        have htransmit : PrintOp.exec term ⟨buffer, inner, line, screen⟩ (.transmitData str i) =
            (⟨buffer, inner, line ++ [bytes[i]], screen⟩, []) := by
          simp only [PrintOp.exec, hbyte]
        exact (Does.single htransmit).cons (ih (i + 1) hlt _ (by omega))

theorem does_strlen (h : HasString buffer str bytes) (ct : Nat) (hct : ct ≤ bytes.length) (inner : Lock → Bool)
    (line : List Byte) (screen : List (List Byte)) :
    Does (PrintOp.exec term) ⟨buffer, inner, line, screen⟩ [.strlen str ct]
      ⟨buffer, inner, line, screen ++ [bytes]⟩ := by
  induction hleft : bytes.length - ct generalizing ct with
  | zero =>
      obtain rfl : ct = bytes.length := by omega
      have hread : (List.range bytes.length).map (str.byte buffer) = bytes := by
        apply List.ext_getElem
        · simp
        · intro i hi hi'
          rw [List.getElem_map, List.getElem_range, h.byte i hi']
      refine .unfold (if_pos h.ends) (.single ?_)
      simp only [PrintOp.exec, hread]
  | succ left ih =>
      have hlt : ct < bytes.length := by omega
      exact .unfold (if_neg (h.byte_ne hlt)) (ih (ct + 1) hlt (by omega))

/-- A section of code under an inner lock that is free. -/
theorem does_guarded {l : Lock} (hl : l ≠ .print) (hfree : s.inner l = false)
    (h : Does (PrintOp.exec term) { s with inner := Function.update s.inner l true } [op] { t with inner := Function.update s.inner l true })
    (ht : t.inner = s.inner) : Does (PrintOp.exec term) s [.acquire l 0, op, .release l] t := by
  have hacquire : PrintOp.exec term s (.acquire l 0) = ({ s with inner := Function.update s.inner l true }, []) := by
    simp only [PrintOp.exec, hl, hfree, Bool.false_eq_true, or_self, if_false]
  have hrelease : PrintOp.exec term { t with inner := Function.update s.inner l true } (.release l) = (t, []) := by
    simp only [PrintOp.exec, Function.update_idem, ← hfree, Function.update_eq_self, ← ht]
  exact (Does.single hacquire).cons (h.cons (.single hrelease))

theorem does_out (hfree : InnerFree s) (h : HasString s.buffer str bytes) :
    Does (PrintOp.exec term) s [.out str] (s.prints term [bytes]) := by
  have hserial : Does (PrintOp.exec term) s [.acquire .serial 0, .serialOut str 0, .release .serial]
      { s with line := s.line ++ crlf bytes } := by
    refine does_guarded (by decide) hfree.1 ?_ rfl
    exact does_serialOut h 0 (Nat.zero_le _) ..
  have hprints : s.prints term [bytes] =
      { s with line := s.line ++ crlf bytes, screen := s.screen ++ if term then [bytes] else [] } := by
    simp only [Printer.prints, List.flatten_singleton]
  rw [hprints]
  refine .unfold rfl (hserial.append ?_)
  cases term with
  | false =>
      simp only [Bool.false_eq_true, if_false, List.append_nil]
      exact .nil
  | true =>
      refine does_guarded (by decide) hfree.2 ?_ rfl
      exact does_strlen h 0 (Nat.zero_le _) ..

/-- Every digit is a character. -/
theorem itoa_nonzero {num base : Nat} (hb : 1 < base) (hle : base ≤ 16) (hn : num < 2 ^ 64) : 0 ∉ Dev.itoa num base := by
  rw [Dev.itoa, itoaLoop_eq hb (length_lowFirst_word hb hn), List.append_nil, List.mem_reverse]
  intro hmem
  obtain ⟨d, hd, hz⟩ := List.mem_map.mp hmem
  have hlt := lowFirst_lt hb d hd
  have hchar : ∀ d < 16, repr.getD d 0 ≠ 0 := by decide
  exact hchar d (by omega) hz

/-- `itoa` leaves the digits behind its pointer, if the buffer has room for them. -/
theorem does_digit {base : Nat} (hb : 1 < base) (num : Nat) (r : ItoaRun) (hroom : ((chars base num).length : Int) ≤ r.ptr)
    (h : Does (PrintOp.exec term) { s with buffer := ((chars base num).foldl ItoaRun.put r).bytes }
      [.out (.buffer ((chars base num).foldl ItoaRun.put r).ptr)] t) :
    Does (PrintOp.exec term) { s with buffer := r.bytes } [.digit num base r.ptr] t := by
  induction num using Nat.strong_induction_on generalizing r with
  | h num ih =>
      have hchars : chars base num = repr.getD (num % base) 0 :: if num / base = 0 then [] else chars base (num / base) := by
        rw [chars, lowFirst_eq hb, List.map_cons]
        split <;> rfl
      rw [hchars, List.length_cons] at hroom
      have hplace : ¬ r.ptr ≤ 0 := by omega
      rw [hchars, List.foldl_cons] at h
      by_cases hdiv : num / base = 0
      · rw [if_pos hdiv] at h
        have hexec : PrintOp.exec term { s with buffer := r.bytes } (.digit num base r.ptr) =
            ({ s with buffer := (r.put (repr.getD (num % base) 0)).bytes }, [.out (.buffer (r.ptr - 1))]) := by
          simp only [PrintOp.exec, hplace, hdiv, if_true, if_false]
          rfl
        exact .unfold hexec h
      · rw [if_neg hdiv] at h hroom
        have hlt : num / base < num := Nat.div_lt_self (Nat.pos_of_ne_zero fun hz => hdiv (by rw [hz, Nat.zero_div])) hb
        have hexec : PrintOp.exec term { s with buffer := r.bytes } (.digit num base r.ptr) =
            ({ s with buffer := (r.put (repr.getD (num % base) 0)).bytes }, [.digit (num / base) base (r.ptr - 1)]) := by
          simp only [PrintOp.exec, hplace, hdiv, if_false]
          rfl
        refine .unfold hexec (ih _ hlt _ ?_ h)
        rw [ItoaRun.put_ptr]
        omega

/-- A string, or a number of at most forty-nine digits. -/
def Piece.Fits : Piece → Prop
  | .text str => 0 ∉ str
  | .number num base => (1 < base ∧ base ≤ 16) ∧ num < 2 ^ 64 ∧ num < base ^ 49

theorem does_itoa (term : Bool) {num base : Nat} (hfree : InnerFree s) (h : (Piece.number num base).Fits) :
    ∃ buffer, Does (PrintOp.exec term) s [.itoa num base]
      ({ s with buffer := buffer }.prints term [Dev.itoa num base]) := by
  obtain ⟨⟨hb, hle⟩, hn, hfits⟩ := h
  have hrun := itoaRun_eq hb hn (le_refl 64) s.buffer
  obtain ⟨r, hr, hptr, htext⟩ := itoaRun_itoa hb hn (le_refl 64) s.buffer
  obtain rfl := Option.some.inj (hr.symm.trans hrun)
  have hroom : ((chars base num).length : Int) ≤ (ItoaRun.start s.buffer).ptr := by
    rw [length_chars]
    exact Int.ofNat_le.mpr ((length_lowFirst_le hb).mpr hfits)
  refine ⟨_, .unfold rfl (does_digit hb num (ItoaRun.start s.buffer) hroom (does_out hfree ?_))⟩
  refine ⟨htext, ?_, ?_⟩
  · simp only [Source.byte, hptr]
    rw [puts_above (ItoaRun.start s.buffer) _ (le_refl 49)]
    simp only [ItoaRun.start, Function.update_self]
  · exact itoa_nonzero hb hle hn

theorem Printer.prints_prints (s : Printer) (strs strs' : List (List Byte)) :
    (s.prints term strs).prints term strs' = s.prints term (strs ++ strs') := by
  cases term <;> simp [prints, crlf]

theorem Printer.prints_nil (s : Printer) : s.prints term [] = s := by
  cases term <;> simp [prints, crlf]

theorem does_piece (term : Bool) {q : Piece} (hfree : InnerFree s) (h : q.Fits) :
    ∃ buffer, Does (PrintOp.exec term) s [.ofPiece q] ({ s with buffer := buffer }.prints term [q.str]) := by
  cases q with
  | text str => exact ⟨s.buffer, does_out hfree (hasString_text s.buffer h)⟩
  | number num base => exact does_itoa term hfree h

/-- The code of the pieces prints their strings. -/
theorem does_pieces (term : Bool) {pieces : List Piece} (hfree : InnerFree s) (h : ∀ q ∈ pieces, q.Fits) :
    ∃ buffer, Does (PrintOp.exec term) s (pieces.map .ofPiece)
      ({ s with buffer := buffer }.prints term (pieces.map Piece.str)) := by
  induction pieces generalizing s with
  | nil =>
      refine ⟨s.buffer, ?_⟩
      rw [List.map_nil, List.map_nil, Printer.prints_nil]
      exact .nil
  | cons q pieces ih =>
      obtain ⟨hq, hrest⟩ := List.forall_mem_cons.mp h
      obtain ⟨buffer, hpiece⟩ := does_piece term hfree hq
      obtain ⟨buffer', hpieces⟩ := ih (s := { s with buffer := buffer }.prints term [q.str]) hfree hrest
      refine ⟨buffer', hpiece.cons ?_⟩
      rw [List.map_cons, ← List.singleton_append (l := pieces.map Piece.str), ← Printer.prints_prints]
      exact hpieces

theorem conversion_fits {c : Byte} {a : Arg} {pieces : List Piece} (hstr : 0 ∉ a.str) (hword : a.word < 2 ^ 64)
    (hbinary : c = byteOf 'b' → a.word < 2 ^ 49) (h : conversion c a = some pieces) : ∀ q ∈ pieces, q.Fits := by
  unfold conversion at h
  split_ifs at h with hs hd hx hb
  · cases h
    exact List.forall_mem_singleton.mpr hstr
  · cases h
    exact List.forall_mem_singleton.mpr ⟨by decide, hword, hword.trans (by decide)⟩
  · cases h
    refine List.forall_mem_cons.mpr ⟨(by decide : 0 ∉ ofChars ['0', 'x']), ?_⟩
    exact List.forall_mem_singleton.mpr ⟨by decide, hword, hword.trans (by decide)⟩
  · cases h
    refine List.forall_mem_cons.mpr ⟨(by decide : 0 ∉ ofChars ['0', 'b']), ?_⟩
    exact List.forall_mem_singleton.mpr ⟨by decide, hword, hbinary hb⟩

theorem PrintLoop.Fits.step {p next : PrintLoop} {pieces : List Piece} (hp : p.Fits) (h : p.step = some (pieces, next)) :
    (∀ q ∈ pieces, q.Fits) ∧ next.Fits := by
  unfold PrintLoop.step at h
  split at h
  · cases h
  case isFalse hend =>
    split at h
    case isTrue hpct =>
      split at h
      case h_1 pieces' hconv =>
        cases h
        exact ⟨conversion_fits (hp.strings _) (hp.words _) (fun hb => hp.binary _ hpct hb _) hconv,
          hp.strings, hp.words, hp.binary⟩
      case h_2 =>
        cases h
        exact ⟨fun q hq => absurd hq List.not_mem_nil, hp.strings, hp.words, hp.binary⟩
    case isFalse =>
      cases h
      refine ⟨List.forall_mem_singleton.mpr fun hmem => ?_, hp.strings, hp.words, hp.binary⟩
      exact hend (List.mem_singleton.mp hmem).symm

/-- The loop of `printf` prints the strings of the run. -/
theorem does_loop (term : Bool) {fuel : Nat} {p : PrintLoop} {r : PrintRun} (hfree : InnerFree s) (hp : p.Fits)
    (h : run fuel p = some r) :
    ∃ buffer, Does (PrintOp.exec term) s [.loop p] ({ s with buffer := buffer }.prints term r.outs) := by
  induction fuel generalizing p r s with
  | zero => cases h
  | succ fuel ih =>
      rw [run] at h
      cases hstep : p.step with
      | none =>
          rw [hstep] at h
          obtain rfl := Option.some.inj h
          have hops : PrintOp.exec term s (.loop p) = (s, []) := by rw [PrintOp.exec, PrintLoop.ops, hstep]
          refine ⟨s.buffer, .unfold hops ?_⟩
          rw [Printer.prints_nil]
          exact .nil
      | some turn =>
          obtain ⟨pieces, next⟩ := turn
          rw [hstep] at h
          obtain ⟨r', hr', rfl⟩ := Option.map_eq_some_iff.mp h
          obtain ⟨hpieces, hnext⟩ := hp.step hstep
          obtain ⟨buffer, hturn⟩ := does_pieces term hfree hpieces
          -- the strings of this turn, and then the rest of the loop
          obtain ⟨buffer', hrest⟩ := ih (s := { s with buffer := buffer }.prints term (pieces.map Piece.str)) hfree hnext hr'
          have hops : PrintOp.exec term s (.loop p) = (s, pieces.map .ofPiece ++ [.loop next]) := by
            rw [PrintOp.exec, PrintLoop.ops, hstep]
          refine ⟨buffer', .unfold hops (hturn.append ?_)⟩
          rw [← Printer.prints_prints]
          exact hrest

theorem printBody_computes (term : Bool) :
    (printBody term).Computes InnerFree fun s c t _ => Prints term s c t := by
  intro s c hfree
  obtain ⟨fuel, r, hrun, houts⟩ := c.1.ends
  obtain ⟨buffer, hdoes⟩ := does_loop term hfree c.1.fits hrun
  rw [houts] at hdoes
  exact ⟨_, (), hdoes.returns _, hfree, rfl, rfl⟩

end Alone

/-! ### Calls of several CPUs -/

/-- What a message puts on the serial line. -/
def Message.text (m : Message) : List Byte := crlf m.outs.flatten

section Smp
variable {n : Nat} {term : Bool} {s t : Printer}

/-- Output is only added. -/
def Printer.Extends (s t : Printer) : Prop := s.line <+: t.line ∧ s.screen <+: t.screen

theorem Printer.Extends.refl (s : Printer) : s.Extends s := ⟨List.prefix_rfl, List.prefix_rfl⟩

theorem Printer.Extends.trans (s t u : Printer) (h : s.Extends t) (h' : t.Extends u) : s.Extends u :=
  ⟨h.1.trans h'.1, h.2.trans h'.2⟩

theorem exec_extends (s : Printer) (op : PrintOp) : s.Extends (op.exec term s).1 := by
  cases op with
  | transmitCr => exact ⟨List.prefix_append .., List.prefix_rfl⟩
  | transmitData str i => exact ⟨List.prefix_append .., List.prefix_rfl⟩
  | flantermWrite str n => exact ⟨List.prefix_rfl, List.prefix_append ..⟩
  | digit num base ptr =>
      rw [PrintOp.exec]
      split <;> exact .refl s
  | acquire l count =>
      rw [PrintOp.exec]
      split
      · split <;> exact .refl s
      · exact .refl s
  | serialOut str i =>
      rw [PrintOp.exec]
      split
      · exact .refl s
      · split <;> exact .refl s
  | strlen str ct =>
      rw [PrintOp.exec]
      split <;> exact .refl s
  | _ => exact .refl s

theorem steps_extends {k k' : List PrintOp} (h : (printBody term).Steps s k t k') : s.Extends t :=
  (steps_along (P := fun _ => True) .refl .trans (fun s op _ => ⟨exec_extends s op, fun _ _ => trivial⟩) h
    fun _ _ => trivial).1

theorem run_extends {fuel : Nat} {k : List PrintOp} {r : Unit} (h : (printBody term).run fuel s k = some (t, r)) :
    s.Extends t :=
  run_along (P := fun _ => True) .refl .trans (fun s op _ => ⟨exec_extends s op, fun _ _ => trivial⟩) h fun _ _ => trivial

/-- The messages of a history, one after the other. -/
def sent (log : List (Fin n × PrintCall × Unit)) : List Byte := log.flatMap fun e => e.2.1.1.text

def written (log : List (Fin n × PrintCall × Unit)) : List (List Byte) := log.flatMap fun e => e.2.1.1.outs

theorem replays_prints {log : List (Fin n × PrintCall × Unit)} (h : Replays (fun s c t _ => Prints term s c t) s log t) :
    t.line = s.line ++ sent log ∧ t.screen = s.screen ++ if term then written log else [] := by
  induction log generalizing s with
  | nil =>
      obtain rfl : s = t := h
      cases term <;> simp [sent, written]
  | cons e log ih =>
      obtain ⟨u, hu, hrest⟩ := h
      obtain ⟨hline, hscreen⟩ := ih hrest
      rw [hline, hscreen, hu.line, hu.screen]
      cases term <;> simp [sent, written, Message.text]

/-- Nothing has been printed yet. -/
def Printer.start (buffer : Int → Byte) : Printer := ⟨buffer, fun _ => false, [], []⟩

def printRun (term : Bool) (file : LockFile) (buffer : Int → Byte) (turns : List (Turn (Fin n) PrintCall)) :
    Locked (Fin n) Printer Nat PrintCall (List PrintOp) Unit Nat :=
  turns.foldl (printGuard term file).next ((printGuard term file).start (.start buffer))

/-- The message that a CPU is printing. -/
def printing : Phase PrintCall (List PrintOp) Unit Nat → Option Message
  | .inside c _ => some c.1
  | .leaving c _ => some c.1
  | _ => none

/-- However the CPUs' steps are mixed, the serial line and the terminal have the messages of the
calls that have returned, whole and in the order of their return, and behind them the beginning of
the message of the one CPU that has `print_lock`. -/
theorem printf_messages_whole (term : Bool) (file : LockFile) (buffer : Int → Byte)
    (turns : List (Turn (Fin n) PrintCall)) :
    (∀ i j, ((printRun term file buffer turns).phase i).Holds →
      ((printRun term file buffer turns).phase j).Holds → i = j) ∧
    ∃ part shown,
      (printRun term file buffer turns).shared.line = sent (printRun term file buffer turns).log ++ part ∧
      (printRun term file buffer turns).shared.screen =
        (if term then written (printRun term file buffer turns).log else []) ++ shown ∧
      ((part = [] ∧ shown = []) ∨ (printRun term file buffer turns).lock ≠ 0 ∧
        ∃ i m, printing ((printRun term file buffer turns).phase i) = some m ∧ part <+: m.text ∧
          shown <+: if term then m.outs else []) := by
  have hinv : (printGuard term file).Inv InnerFree (fun s c t _ => Prints term s c t) (.start buffer)
      (printRun term file buffer turns) :=
    (Guard.inv_start _ ⟨rfl, rfl⟩).run (printBody_computes term) turns
  generalize printRun term file buffer turns = s at hinv ⊢
  refine ⟨fun i j => hinv.exclusive, ?_⟩
  cases hinv with
  | free hlog _ _ _ =>
      obtain ⟨hline, hscreen⟩ := replays_prints hlog
      refine ⟨[], [], ?_, ?_, .inl ⟨rfl, rfl⟩⟩
      · rw [List.append_nil]
        exact hline
      · rw [List.append_nil]
        exact hscreen
  | @inside i c k t u r fuel hlog hR _ hlock hphase hsteps hrun _ =>
      obtain ⟨hline, hscreen⟩ := replays_prints hlog
      obtain ⟨⟨part, hpart⟩, ⟨shown, hshown⟩⟩ := steps_extends hsteps
      obtain ⟨hbegin, hbegin'⟩ := run_extends hrun
      rw [← hpart, hR.line, List.prefix_append_right_inj] at hbegin
      rw [← hshown, hR.screen, List.prefix_append_right_inj] at hbegin'
      refine ⟨part, shown, ?_, ?_, .inr ⟨?_, i, c.1, by rw [hphase]; rfl, hbegin, hbegin'⟩⟩
      · rw [← hpart, hline]
        rfl
      · rw [← hshown, hscreen]
        rfl
      · intro hfree
        cases hlock.symm.trans hfree
  | @leaving i c t r hlog hR _ hlock hphase _ =>
      obtain ⟨hline, hscreen⟩ := replays_prints hlog
      refine ⟨c.1.text, if term then c.1.outs else [], ?_, ?_, .inr ⟨?_, i, c.1, by rw [hphase]; rfl, List.prefix_rfl,
        List.prefix_rfl⟩⟩
      · rw [hR.line, hline]
        rfl
      · rw [hR.screen, hscreen]
        rfl
      · intro hfree
        cases hlock.symm.trans hfree

end Smp

end Flan.Dev
