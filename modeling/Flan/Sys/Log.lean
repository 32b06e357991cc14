import Flan.Dev.Print

/-! `syscall_log` of `sys/syscalls/syscalls.c`, which gives the string of a user program to
`printf` as the format. -/
namespace Flan.Sys
open Flan.Lib Flan.Fs Flan.Dev

/-! ### The source -/

/-- The places of the format that a turn reads. -/
def stepReads (p : PrintLoop) : List Nat := if p.fmt p.c = byteOf '%' then [p.c, p.c + 1] else [p.c]

/-- What a call of `printf` has done: the strings handed to `out`, the places of the format it
has read, and how many arguments it has taken. -/
structure PrintRun where
  outs : List (List Byte)
  reads : List Nat
  args : Nat

def run : (fuel : Nat) → PrintLoop → Option PrintRun
  | 0, _ => none
  | fuel+1, p =>
      match p.step with
      | none => some ⟨[], stepReads p, p.arg⟩
      | some (pieces, next) => (run fuel next).map fun r =>
          { r with outs := pieces.map Piece.str ++ r.outs, reads := stepReads p ++ r.reads }

/-- `syscall_log`; `args` is where `printf` would find arguments. -/
def syscallLog (fuel : Nat) (str : Nat → Byte) (args : Nat → Arg) : Option PrintRun := run fuel ⟨str, args, 0, 0⟩

/-! ### Whole calls -/

section Runs
variable {p : PrintLoop} {fuel k : Nat} {r : PrintRun}

theorem mem_stepReads (p : PrintLoop) : p.c ∈ stepReads p := by
  unfold stepReads
  split
  · exact List.mem_cons_self
  · exact List.mem_cons_self

/-- The three kinds of turns. -/
inductive Stepped (p : PrintLoop) : List Piece → PrintLoop → Prop
  | byte : p.fmt p.c ≠ byteOf '%' → Stepped p [.text [p.fmt p.c]] { p with c := p.c + 1 }
  | other : p.fmt p.c = byteOf '%' → Stepped p [] { p with c := p.c + 2 }
  | argument {pieces : List Piece} : Stepped p pieces { p with c := p.c + 2, arg := p.arg + 1 }

theorem step_some {pieces : List Piece} {next : PrintLoop} (h : p.step = some (pieces, next)) :
    p.fmt p.c ≠ 0 ∧ Stepped p pieces next := by
  unfold PrintLoop.step at h
  split at h
  case isTrue => exact nomatch h
  case isFalse hz =>
    refine ⟨hz, ?_⟩
    split at h
    case isTrue hpercent =>
      split at h
      · cases h
        exact .argument
      · cases h
        exact .other hpercent
    case isFalse hbyte =>
      cases h
      exact .byte hbyte

/-- A run is at the end of the format, or it is a turn and a shorter run. -/
theorem run_succ (h : run (fuel + 1) p = some r) :
    (p.fmt p.c = 0 ∧ r = ⟨[], stepReads p, p.arg⟩) ∨
    p.fmt p.c ≠ 0 ∧ ∃ pieces next r', Stepped p pieces next ∧ run fuel next = some r' ∧
      r = { r' with outs := pieces.map Piece.str ++ r'.outs, reads := stepReads p ++ r'.reads } := by
  rw [run] at h
  cases hs : p.step with
  | none =>
      rw [hs] at h
      refine .inl ⟨?_, (Option.some.inj h).symm⟩
      by_contra hz
      unfold PrintLoop.step at hs
      rw [if_neg hz] at hs
      split at hs
      · split at hs
        · exact nomatch hs
        · exact nomatch hs
      · exact nomatch hs
  | some turn =>
      obtain ⟨pieces, next⟩ := turn
      rw [hs] at h
      obtain ⟨r', hr', rfl⟩ := Option.map_eq_some_iff.mp h
      obtain ⟨hz, hstep⟩ := step_some hs
      exact .inr ⟨hz, pieces, next, r', hstep, hr', rfl⟩

/-- A run begins with the place it is at. -/
theorem mem_reads (h : run fuel p = some r) : p.c ∈ r.reads := by
  cases fuel with
  | zero => exact nomatch h
  | succ fuel =>
      rcases run_succ h with ⟨-, rfl⟩ | ⟨-, pieces, next, r', -, -, rfl⟩
      · exact mem_stepReads p
      · exact List.mem_append_left _ (mem_stepReads p)

/-- Arguments are taken and not given back. -/
theorem arg_le_args (h : run fuel p = some r) : p.arg ≤ r.args := by
  induction fuel generalizing p r with
  | zero => exact nomatch h
  | succ fuel ih =>
      rcases run_succ h with ⟨-, rfl⟩ | ⟨-, pieces, next, r', hstep, hr', rfl⟩
      · exact le_rfl
      · have htaken : next.arg ≤ r'.args := ih hr'
        refine le_trans ?_ htaken
        cases hstep with
        | byte _ => exact le_rfl
        | other _ => exact le_rfl
        | argument => exact Nat.le_succ _

/-- Without arguments a run prints no more than it has passed over, and less at a percent sign. -/
theorem run_length {n : Nat} (h : run fuel p = some r) (hend : p.fmt n = 0) (hnonzero : ∀ i < n, p.fmt i ≠ 0)
    (hc : p.c ≤ n) (hreads : ∀ i ∈ r.reads, i ≤ n) (hargs : r.args = p.arg) :
    r.outs.flatten.length ≤ n - p.c ∧
      (r.outs.flatten.length = n - p.c → ∀ i, p.c ≤ i → i < n → p.fmt i ≠ byteOf '%') := by
  induction fuel generalizing p r with
  | zero => exact nomatch h
  | succ fuel ih =>
      rcases run_succ h with ⟨hz, rfl⟩ | ⟨hz, pieces, next, r', hstep, hr', rfl⟩
      · have hlast : ¬p.c < n := fun hlt => hnonzero p.c hlt hz
        exact ⟨Nat.zero_le _, fun _ i hl hr => absurd (hl.trans_lt hr) hlast⟩
      · have hlt : p.c < n := Nat.lt_of_le_of_ne hc fun heq => hz (heq ▸ hend)
        have hreads' : ∀ i ∈ r'.reads, i ≤ n := fun i hi => hreads i (List.mem_append_right _ hi)
        have hnext : next.c ≤ n := hreads' next.c (mem_reads hr')
        cases hstep with
        | byte hbyte =>
            obtain ⟨hle, heq⟩ := ih hr' hend hnonzero hnext hreads' hargs
            have hrest : n - p.c = n - (p.c + 1) + 1 := by omega
            have hlen : ([Piece.text [p.fmt p.c]].map Piece.str ++ r'.outs).flatten.length = r'.outs.flatten.length + 1 :=
              rfl
            rw [hlen, hrest]
            refine ⟨Nat.succ_le_succ hle, fun hall i hl hr => ?_⟩
            rcases Nat.eq_or_lt_of_le hl with rfl | hl
            · exact hbyte
            · exact heq (Nat.succ.inj hall) i hl hr
        | other hpercent =>
            obtain ⟨hle, -⟩ := ih hr' hend hnonzero hnext hreads' hargs
            have hshort : r'.outs.flatten.length < n - p.c := by
              have hnext : p.c + 2 ≤ n := hnext
              have hle : r'.outs.flatten.length ≤ n - (p.c + 2) := hle
              omega
            exact ⟨hshort.le, fun hall => absurd hall hshort.ne⟩
        | argument =>
            have htaken : p.arg + 1 ≤ r'.args := arg_le_args hr'
            exact absurd hargs (Nat.ne_of_gt htaken)

/-- A string without a percent sign, byte by byte. -/
theorem run_plain {n : Nat} (hend : p.fmt n = 0) (hplain : ∀ i < n, p.fmt i ≠ 0 ∧ p.fmt i ≠ byteOf '%')
    (hc : p.c + k = n) :
    ∃ r, run (k + 1) p = some r ∧ r.outs.flatten = bytesAt p.fmt p.c k ∧ (∀ i ∈ r.reads, i ≤ n) ∧
      r.args = p.arg := by
  induction k generalizing p with
  | zero =>
      subst hc
      have hz : p.fmt p.c = 0 := hend
      have hpercent : p.fmt p.c ≠ byteOf '%' := hz ▸ by decide
      refine ⟨⟨[], [p.c], p.arg⟩, ?_, rfl, ?_, rfl⟩
      · rw [run, PrintLoop.step, if_pos hz, stepReads, if_neg hpercent]
      · intro i hi
        exact (List.mem_singleton.mp hi).le
  | succ k ih =>
      have hlt : p.c < n := by omega
      obtain ⟨hz, hpercent⟩ := hplain p.c hlt
      obtain ⟨r, hr, houts, hreads, hargs⟩ := ih (p := { p with c := p.c + 1 }) hend hplain (by dsimp only; omega)
      refine ⟨{ r with outs := [[p.fmt p.c]] ++ r.outs, reads := [p.c] ++ r.reads }, ?_, ?_, ?_, hargs⟩
      · rw [run, PrintLoop.step, if_neg hz, if_neg hpercent, stepReads, if_neg hpercent]
        dsimp only
        rw [hr, Option.map_some]
        rfl
      · rw [bytesAt_succ, ← houts]
        rfl
      · intro i hi
        rcases List.mem_cons.mp hi with rfl | hi
        · exact hlt.le
        · exact hreads i hi

end Runs

/-! ### The text of the user -/

/-- The `NUL`-terminated string `str` at `fmt` is printed verbatim: what is handed to `out` is the
string, nothing behind its terminator is read and no argument is taken. -/
def Verbatim (str : List Byte) (fmt : Nat → Byte) (args : Nat → Arg) : Prop :=
  ∃ fuel r, syscallLog fuel fmt args = some r ∧ r.outs.flatten = str ∧ (∀ i ∈ r.reads, i ≤ str.length) ∧ r.args = 0

theorem apply_mem_of_bytesAt {str : List Byte} {fmt : Nat → Byte} {i : Nat} (hstr : bytesAt fmt 0 str.length = str)
    (h : i < str.length) : fmt i ∈ str := by
  rw [← hstr]
  exact List.mem_map.mpr ⟨i, List.mem_range.mpr h, congrArg fmt (Nat.zero_add i)⟩

/-- The text of a user program is printed verbatim exactly if it has no percent sign. -/
theorem syscall_log_verbatim_iff (str : List Byte) (fmt : Nat → Byte) (args : Nat → Arg) (hnul : 0 ∉ str)
    (hstr : bytesAt fmt 0 str.length = str) (hend : fmt str.length = 0) :
    Verbatim str fmt args ↔ byteOf '%' ∉ str := by
  have hnonzero : ∀ i < str.length, fmt i ≠ 0 := fun i hi hz => hnul (hz ▸ apply_mem_of_bytesAt hstr hi)
  constructor
  · rintro ⟨fuel, r, hrun, houts, hreads, hargs⟩ hmem
    obtain ⟨-, hplain⟩ := run_length hrun hend hnonzero (Nat.zero_le _) hreads hargs
    rw [← hstr] at hmem
    obtain ⟨i, hi, hpercent⟩ := List.mem_map.mp hmem
    rw [Nat.zero_add] at hpercent
    exact hplain (congrArg List.length houts) i (Nat.zero_le i) (List.mem_range.mp hi) hpercent
  · intro hplain
    have hbytes : ∀ i < str.length, fmt i ≠ 0 ∧ fmt i ≠ byteOf '%' := fun i hi =>
      ⟨hnonzero i hi, fun h => hplain (h ▸ apply_mem_of_bytesAt hstr hi)⟩
    obtain ⟨r, hr, houts, hreads, hargs⟩ :=
      run_plain (p := ⟨fmt, args, 0, 0⟩) hend hbytes (Nat.zero_add str.length)
    exact ⟨str.length + 1, r, hr, houts.trans hstr, hreads, hargs⟩

/-- A string with zeros behind it. -/
def zeroTerminated (str : List Byte) (i : Nat) : Byte := str.getD i 0

theorem plain_text_verbatim : Verbatim (ofChars ['o', 'k']) (zeroTerminated (ofChars ['o', 'k'])) fun _ => ⟨0, []⟩ :=
  (syscall_log_verbatim_iff _ _ _ (by decide) (by decide) (by decide)).mpr (by decide)

/-- Of `5%` only the digit is printed, and the byte behind the terminator is read. -/
theorem percent_sign_lost :
    (syscallLog 3 (zeroTerminated (ofChars ['5', '%'])) fun _ => ⟨0, []⟩) = some ⟨[[byteOf '5']], [0, 1, 2, 3], 0⟩ ∧
    ¬Verbatim (ofChars ['5', '%']) (zeroTerminated (ofChars ['5', '%'])) fun _ => ⟨0, []⟩ := by
  refine ⟨rfl, ?_⟩
  rintro ⟨fuel, r, hrun, houts, -⟩
  match fuel, hrun with
  | 0, hrun => exact nomatch hrun
  | 1, hrun => exact nomatch hrun
  | 2, hrun => exact nomatch hrun
  | fuel + 3, hrun =>
      have hlost : (syscallLog (fuel + 3) (zeroTerminated (ofChars ['5', '%'])) fun _ => ⟨0, []⟩) =
          some ⟨[[byteOf '5']], [0, 1, 2, 3], 0⟩ := rfl
      rw [← Option.some.inj (hlost.symm.trans hrun)] at houts
      exact absurd houts (by decide)

end Flan.Sys
