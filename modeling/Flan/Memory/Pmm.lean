import Mathlib.Order.Bounds.Defs
import Mathlib.Tactic.IntervalCases
import Flan.Lib.Mem
import Flan.Lib.Runs
import Flan.Lib.Span

/-! The physical frame allocator of `memory/pmm.c`: one bit of `bitmap` for each
frame, set while the frame is in use. -/
namespace Flan.Memory
open Flan.Lib

def frameSize : Nat := 0x1000

/-- `ALIGN_UP(num, FRAME_SIZE)` on 64-bit words. -/
def alignUpFrame (num : Nat) : Nat := (num + frameSize - 1) % 2 ^ 64 / frameSize * frameSize

/-! ### The bitmap -/

/-- `BIT_SET`. -/
def bitSet (bitmap : Nat → Byte) (bit : Nat) : Nat → Byte :=
  Function.update bitmap (bit / 8) (bitmap (bit / 8) ||| (1#8 <<< (bit % 8)))

/-- `BIT_CLEAR`. -/
def bitClear (bitmap : Nat → Byte) (bit : Nat) : Nat → Byte :=
  Function.update bitmap (bit / 8) (bitmap (bit / 8) &&& ~~~(1#8 <<< (bit % 8)))

/-- `BIT_TEST`. -/
def bitTest (bitmap : Nat → Byte) (bit : Nat) : Bool :=
  (bitmap (bit / 8) >>> (bit % 8)) &&& 1#8 == 1#8

theorem bitTest_eq_getLsbD (bitmap : Nat → Byte) (bit : Nat) :
    bitTest bitmap bit = (bitmap (bit / 8)).getLsbD (bit % 8) := by
  unfold bitTest
  rw [BitVec.and_one_eq_setWidth_ofBool_getLsbD, BitVec.getLsbD_ushiftRight, Nat.add_zero]
  cases (bitmap (bit / 8)).getLsbD (bit % 8) <;> rfl

theorem getLsbD_one_shiftLeft {k j : Nat} (hk : k < 8) :
    (1#8 <<< k).getLsbD j = decide (j = k) := by
  rw [BitVec.getLsbD_shiftLeft, BitVec.getLsbD_one]
  by_cases h : j = k
  · simp [h, hk]
  · simp only [h, decide_false]
    by_cases hlt : j < k
    · simp [hlt]
    · have : j - k ≠ 0 := by omega
      simp [this]

/-- Two bits are the same when they are the same place of the same byte. -/
theorem bit_eq_iff {i j : Nat} : i / 8 = j / 8 ∧ i % 8 = j % 8 ↔ i = j := by
  constructor
  · rintro ⟨hq, hr⟩
    rw [← Nat.div_add_mod i 8, hq, hr, Nat.div_add_mod]
  · rintro rfl
    exact ⟨rfl, rfl⟩

@[simp] theorem bitTest_bitSet (bitmap : Nat → Byte) (i j : Nat) :
    bitTest (bitSet bitmap i) j = (decide (j = i) || bitTest bitmap j) := by
  rw [bitTest_eq_getLsbD, bitTest_eq_getLsbD, bitSet, Function.update_apply]
  by_cases hq : j / 8 = i / 8
  · rw [if_pos hq, BitVec.getLsbD_or, getLsbD_one_shiftLeft (Nat.mod_lt i (by decide)), ← hq,
      Bool.or_comm]
    congr 1
    exact decide_eq_decide.mpr (by rw [← bit_eq_iff (i := j), and_iff_right hq])
  · rw [if_neg hq, decide_eq_false (fun h => hq (by rw [h])), Bool.false_or]

@[simp] theorem bitTest_bitClear (bitmap : Nat → Byte) (i j : Nat) :
    bitTest (bitClear bitmap i) j = (!decide (j = i) && bitTest bitmap j) := by
  rw [bitTest_eq_getLsbD, bitTest_eq_getLsbD, bitClear, Function.update_apply]
  by_cases hq : j / 8 = i / 8
  · rw [if_pos hq, BitVec.getLsbD_and, BitVec.getLsbD_not,
      getLsbD_one_shiftLeft (Nat.mod_lt i (by decide)), ← hq, Bool.and_comm,
      decide_eq_true (Nat.mod_lt j (by decide)), Bool.true_and]
    congr 2
    exact decide_eq_decide.mpr (by rw [← bit_eq_iff (i := j), and_iff_right hq])
  · rw [if_neg hq, decide_eq_false (fun h => hq (by rw [h])), Bool.not_false, Bool.true_and]

/-! ### The allocator -/

/-- `bitmap` and `limit`. The bound on `limit` is that of a 64-bit address
divided by the frame size, as `pmm_init` computes it. -/
structure Pmm where
  bitmap : Nat → Byte
  limit : Nat
  limit_le : limit ≤ 2 ^ 52

namespace Pmm

/-- The frame is in use. -/
def used (p : Pmm) (frame : Nat) : Bool := bitTest p.bitmap frame

def setBit (p : Pmm) (bit : Nat) : Pmm := { p with bitmap := bitSet p.bitmap bit }
def clearBit (p : Pmm) (bit : Nat) : Pmm := { p with bitmap := bitClear p.bitmap bit }

@[simp] theorem setBit_used (p : Pmm) (i j : Nat) :
    (p.setBit i).used j = (decide (j = i) || p.used j) := bitTest_bitSet p.bitmap i j

@[simp] theorem clearBit_used (p : Pmm) (i j : Nat) :
    (p.clearBit i).used j = (!decide (j = i) && p.used j) := bitTest_bitClear p.bitmap i j

end Pmm

/-- The scan of `pmm_malloc` over the `left` frames from `frame` on; the result
is the frame at which `available_frames` reached the count wanted. -/
def pmmScan (p : Pmm) (wanted : Nat) : (left frame available : Nat) → Option Nat
  | 0, _, _ => none
  | left+1, frame, available =>
      if p.used frame = false then
        if available + 1 = wanted then some frame
        else pmmScan p wanted left (frame + 1) (available + 1)
      else if available ≠ wanted then pmmScan p wanted left (frame + 1) 0
      else some frame

/-- Sets the bits of the `count` frames that end at `frame`, last one first. -/
def setBack (p : Pmm) (frame : Nat) : (count : Nat) → Pmm
  | 0 => p
  | i+1 => (setBack p frame i).setBit (frame - i)

/-- `pmm_malloc`: the physical address of the first frame, or zero for `NULL`.
With nothing wanted the index is rewound by minus one, to the frame after. -/
def pmmMalloc (p : Pmm) (wanted : Nat) : Nat × Pmm :=
  match pmmScan p wanted (p.limit - 1) 1 0 with
  | none => (0, p)
  | some frame => (frameSize * (frame + 1 - wanted) % 2 ^ 64, setBack p frame wanted)

def clearFrom (p : Pmm) (frame : Nat) : (count : Nat) → Pmm
  | 0 => p
  | i+1 => (clearFrom p frame i).clearBit (frame + i)

/-- `pmm_free`: the loop stops at the wrapped sum of `frame` and `frames`. -/
def pmmFree (p : Pmm) (ptr frames : Nat) : Pmm :=
  let frame := ptr / frameSize
  clearFrom p frame ((frames + frame) % 2 ^ 64 - frame)

/-! ### First fit -/

section Spec
variable {p : Pmm} {n b : Nat}

/-- Some frame of the `n` from `a` on is in use. -/
def Pmm.Blocked (p : Pmm) (n a : Nat) : Prop := ∃ i, a ≤ i ∧ i < a + n ∧ p.used i = true

/-- `b` is the first place below the limit with `n` free frames. -/
structure FirstFit (p : Pmm) (n b : Nat) : Prop where
  pos : 1 ≤ b
  fits : b + n ≤ p.limit
  free : ∀ i, b ≤ i → i < b + n → p.used i = false
  first : ∀ a, 1 ≤ a → a < b → p.Blocked n a

/-- The frames of `b` are marked and nothing else has changed. -/
structure Took (p : Pmm) (n b : Nat) (p' : Pmm) : Prop where
  limit : p'.limit = p.limit
  used : ∀ x, p'.used x = (decide (b ≤ x ∧ x < b + n) || p.used x)

theorem setBack_used (p : Pmm) {frame count : Nat} (h : count ≤ frame + 1) (x : Nat) :
    (setBack p frame count).used x =
      (decide (frame + 1 - count ≤ x ∧ x < frame + 1) || p.used x) := by
  induction count with
  | zero =>
      rw [decide_eq_false (by omega), Bool.false_or]
      rfl
  | succ i ih =>
      rw [setBack, Pmm.setBit_used, ih (by omega), ← Bool.or_assoc, ← Bool.decide_or]
      congr 1
      exact decide_eq_decide.mpr (by omega)

theorem setBack_limit (p : Pmm) (frame count : Nat) :
    (setBack p frame count).limit = p.limit := by
  induction count with
  | zero => rfl
  | succ i ih => exact ih

theorem setBack_keeps (p : Pmm) (frame count : Nat) {x : Nat} (h : p.used x = true) :
    (setBack p frame count).used x = true := by
  induction count with
  | zero => exact h
  | succ i ih => rw [setBack, Pmm.setBit_used, ih, Bool.or_true]

theorem clearFrom_used (p : Pmm) (frame count x : Nat) :
    (clearFrom p frame count).used x =
      (!decide (frame ≤ x ∧ x < frame + count) && p.used x) := by
  induction count with
  | zero =>
      rw [decide_eq_false (by omega), Bool.not_false, Bool.true_and]
      rfl
  | succ i ih =>
      rw [clearFrom, Pmm.clearBit_used, ih, ← Bool.and_assoc, ← Bool.not_or, ← Bool.decide_or]
      congr 2
      exact decide_eq_decide.mpr (by omega)

theorem clearFrom_limit (p : Pmm) (frame count : Nat) :
    (clearFrom p frame count).limit = p.limit := by
  induction count with
  | zero => rfl
  | succ i ih => exact ih

/-- The run counted so far begins at `start`; every place before it is blocked. -/
theorem pmmScan_spec (hn : 0 < n) (left frame start : Nat) (hpos : 1 ≤ start)
    (hle : start ≤ frame) (hshort : frame < start + n)
    (hfree : ∀ i, start ≤ i → i < frame → p.used i = false)
    (hfirst : ∀ a, 1 ≤ a → a < start → p.Blocked n a) :
    match pmmScan p n left frame (frame - start) with
    | some last => n ≤ last ∧ last < frame + left ∧
        (∀ i, last + 1 - n ≤ i → i < last + 1 → p.used i = false) ∧
        ∀ a, 1 ≤ a → a < last + 1 - n → p.Blocked n a
    | none => ∀ a, 1 ≤ a → a + n ≤ frame + left → p.Blocked n a := by
  induction left generalizing frame start with
  | zero =>
      intro a ha hend
      exact hfirst a ha (by omega)
  | succ left ih =>
      rw [pmmScan]
      by_cases hused : p.used frame = false
      · rw [if_pos hused]
        have hfree' : ∀ i, start ≤ i → i < frame + 1 → p.used i = false := by
          intro i hi hlt
          rcases Nat.lt_succ_iff_lt_or_eq.mp hlt with h | rfl
          · exact hfree i hi h
          · exact hused
        by_cases hfull : frame - start + 1 = n
        · rw [if_pos hfull]
          have hstart : frame + 1 - n = start := by omega
          refine ⟨by omega, by omega, ?_, ?_⟩
          · rw [hstart]
            exact hfree'
          · rw [hstart]
            exact hfirst
        · rw [if_neg hfull, ← Nat.sub_add_comm hle]
          have := ih (frame + 1) start hpos (by omega) (by omega) hfree' hfirst
          rwa [Nat.add_right_comm, Nat.add_assoc] at this
      · rw [if_neg hused, if_pos (by omega)]
        -- A used frame blocks every place that the count had left open.
        have hblocked : ∀ a, 1 ≤ a → a < frame + 1 → p.Blocked n a := by
          intro a ha hlt
          by_cases has : a < start
          · exact hfirst a ha has
          · exact ⟨frame, by omega, by omega, by simpa using hused⟩
        have := ih (frame + 1) (frame + 1) (by omega) (by omega) (by omega)
          (fun i hi hlt => absurd hlt (by omega)) hblocked
        rwa [Nat.sub_self, Nat.add_right_comm, Nat.add_assoc] at this

/-- `pmm_malloc` takes the first place that fits, or changes nothing. -/
theorem pmmMalloc_spec (p : Pmm) (hn : 0 < n) :
    (∃ b, FirstFit p n b ∧ (pmmMalloc p n).1 = frameSize * b ∧ Took p n b (pmmMalloc p n).2) ∨
    ((∀ a, 1 ≤ a → a + n ≤ p.limit → p.Blocked n a) ∧ pmmMalloc p n = (0, p)) := by
  have hscan := pmmScan_spec (p := p) hn (p.limit - 1) 1 1 (by omega) (by omega) (by omega)
    (fun i hi hlt => absurd hlt (by omega)) (fun a ha hlt => absurd hlt (by omega))
  rw [Nat.sub_self] at hscan
  unfold pmmMalloc
  cases hfound : pmmScan p n (p.limit - 1) 1 0 with
  | none =>
      rw [hfound] at hscan
      exact .inr ⟨fun a ha hend => hscan a ha (by omega), rfl⟩
  | some last =>
      rw [hfound] at hscan
      obtain ⟨hfit, hlast, hfree, hfirst⟩ := hscan
      have hb : last + 1 - n + n = last + 1 := by omega
      have hlim := p.limit_le
      refine .inl ⟨last + 1 - n, ⟨by omega, by omega, ?_, hfirst⟩, ?_, setBack_limit .., ?_⟩
      · rw [hb]
        exact hfree
      · exact Nat.mod_eq_of_lt (by simp only [frameSize]; omega)
      · intro x
        rw [setBack_used p (by omega), hb]

theorem pmmMalloc_some (p : Pmm) (hn : 0 < n) (h : (pmmMalloc p n).1 ≠ 0) :
    ∃ b, FirstFit p n b ∧ (pmmMalloc p n).1 = frameSize * b ∧ Took p n b (pmmMalloc p n).2 := by
  rcases pmmMalloc_spec p hn with hsome | ⟨_, hnone⟩
  · exact hsome
  · rw [hnone] at h
    exact absurd rfl h

theorem FirstFit.not_blocked (h : FirstFit p n b) : ¬ p.Blocked n b := by
  rintro ⟨i, hlo, hhi, hused⟩
  rw [h.free i hlo hhi] at hused
  cases hused

/-- There is one first place, and `pmm_malloc` takes it. -/
theorem FirstFit.malloc (h : FirstFit p n b) (hn : 0 < n) :
    (pmmMalloc p n).1 = frameSize * b ∧ Took p n b (pmmMalloc p n).2 := by
  rcases pmmMalloc_spec p hn with ⟨c, hc, hptr, ht⟩ | ⟨hblocked, -⟩
  · obtain rfl : c = b := by
      rcases Nat.lt_trichotomy c b with hlt | heq | hgt
      · exact absurd (h.first c hc.pos hlt) hc.not_blocked
      · exact heq
      · exact absurd (hc.first b h.pos hgt) h.not_blocked
    exact ⟨hptr, ht⟩
  · exact absurd (hblocked b h.pos h.fits) h.not_blocked

/-- The frames below `n` are in use, and those from there on are free. -/
def Pmm.FilledTo (p : Pmm) (n : Nat) : Prop := ∀ f, 1 ≤ f → f < p.limit → p.used f = decide (f < n)

/-- A bitmap that is filled up from below stays so. -/
theorem Pmm.FilledTo.malloc {k : Nat} (h : p.FilledTo n) (hn : 1 ≤ n) (hk : 0 < k) (hfit : n + k ≤ p.limit) :
    (pmmMalloc p k).1 = frameSize * n ∧ (pmmMalloc p k).2.FilledTo (n + k) := by
  have hfirst : FirstFit p k n := by
    refine ⟨hn, hfit, fun i hlo hhi => ?_, fun a ha hlt => ⟨a, le_refl a, by omega, ?_⟩⟩
    · rw [h i (by omega) (by omega)]
      exact decide_eq_false (by omega)
    · rw [h a ha (by omega)]
      exact decide_eq_true hlt
  obtain ⟨hptr, ht⟩ := hfirst.malloc hk
  refine ⟨hptr, fun f hlo hhi => ?_⟩
  rw [ht.limit] at hhi
  rw [ht.used, h f hlo hhi, ← Bool.decide_or]
  exact decide_eq_decide.mpr (by omega)

theorem pmmMalloc_limit (p : Pmm) (n : Nat) : (pmmMalloc p n).2.limit = p.limit := by
  unfold pmmMalloc
  split
  · rfl
  · exact setBack_limit ..

/-- No request takes a mark away. -/
theorem pmmMalloc_keeps (p : Pmm) (n : Nat) {x : Nat} (h : p.used x = true) :
    (pmmMalloc p n).2.used x = true := by
  unfold pmmMalloc
  split
  · exact h
  · exact setBack_keeps p _ n h

theorem pmmFree_used {p : Pmm} {b n : Nat} (h : b + n < 2 ^ 64) (x : Nat) :
    (pmmFree p (frameSize * b) n).used x = (!decide (b ≤ x ∧ x < b + n) && p.used x) := by
  have hb : frameSize * b / frameSize = b := Nat.mul_div_cancel_left b (by decide)
  have hcount : (n + b) % 2 ^ 64 - b = n := by
    rw [Nat.mod_eq_of_lt (by omega)]
    omega
  rw [pmmFree, hb, hcount, clearFrom_used]

theorem pmmFree_limit (p : Pmm) (ptr n : Nat) : (pmmFree p ptr n).limit = p.limit :=
  clearFrom_limit ..

end Spec

/-! ### Exact first fit -/

/-- `n` free frames from `b` on. -/
structure FreeRun (p : Pmm) (n b : Nat) : Prop where
  pos : 1 ≤ b
  fits : b + n ≤ p.limit
  free : ∀ i, b ≤ i → i < b + n → p.used i = false

section Exact
variable {p : Pmm} {n b : Nat}

theorem FirstFit.freeRun (h : FirstFit p n b) : FreeRun p n b := ⟨h.pos, h.fits, h.free⟩

/-- A place is blocked, unless it is a run of free frames. -/
theorem blocked_of_not_freeRun (hpos : 1 ≤ b) (hfits : b + n ≤ p.limit) (h : ¬ FreeRun p n b) :
    p.Blocked n b := by
  by_contra hfree
  apply h
  refine ⟨hpos, hfits, fun i hlo hhi => ?_⟩
  by_contra hused
  exact hfree ⟨i, hlo, hhi, Bool.of_not_eq_false hused⟩

theorem firstFit_of_isLeast (h : IsLeast {b | FreeRun p n b} b) : FirstFit p n b := by
  refine ⟨h.1.pos, h.1.fits, h.1.free, fun a ha hlt => ?_⟩
  have hfits := h.1.fits
  exact blocked_of_not_freeRun ha (by omega) fun hrun => Nat.not_le.mpr hlt (h.2 hrun)

/-- A request for nothing leaves the bitmap as it is. -/
theorem pmmMalloc_nothing (p : Pmm) : (pmmMalloc p 0).2 = p := by
  unfold pmmMalloc
  split
  · rfl
  · rfl

theorem pmmMalloc_none (hn : 0 < n) (h : ∀ b, ¬ FreeRun p n b) : pmmMalloc p n = (0, p) := by
  rcases pmmMalloc_spec p hn with ⟨b, hfit, -⟩ | ⟨-, hnone⟩
  · exact absurd hfit.freeRun (h b)
  · exact hnone

/-- `pmm_malloc` answers with the least run of `n` free frames, of which it sets the
bits and no others; without one it returns `NULL` and changes nothing. -/
theorem pmm_malloc_first_fit (p : Pmm) {n : Nat} (hn : 1 ≤ n) :
    (∀ b, IsLeast {b | FreeRun p n b} b →
      (pmmMalloc p n).1 = frameSize * b ∧ Took p n b (pmmMalloc p n).2) ∧
    ((∀ b, ¬ FreeRun p n b) → pmmMalloc p n = (0, p)) := by
  constructor
  · intro b hb
    exact (firstFit_of_isLeast hb).malloc hn
  · exact pmmMalloc_none hn

/-- Eight frames of which 0 and 3 are in use. -/
def smallPmm : Pmm := ⟨fun _ => 0x09#8, 8, by decide⟩

theorem three_frames_behind_used : (pmmMalloc smallPmm 3).1 = 0x4000 ∧ Took smallPmm 3 4 (pmmMalloc smallPmm 3).2 := by
  have hrun : FreeRun smallPmm 3 4 := ⟨by decide, by decide, fun i hlo hhi => by interval_cases i <;> decide⟩
  refine (pmm_malloc_first_fit smallPmm (by decide)).1 4 ⟨hrun, fun a ha => ?_⟩
  -- Every place below 4 has frame 3 among its three.
  have hpos := ha.pos
  by_contra hlt
  have hthree := ha.free 3 (by omega) (by omega)
  exact absurd hthree (by decide)

end Exact

/-! ### Cleared frames -/

/-- Physical memory, as the direct map shows it, and the allocator. -/
structure Ram where
  mem : Mem
  pmm : Pmm

/-- `pmm_calloc`: the range is cleared whatever `pmm_malloc` has returned. -/
def Ram.pmmCalloc (s : Ram) (frames : Nat) : Nat × Ram :=
  let ptr := (pmmMalloc s.pmm frames).1
  (ptr, ⟨memset s.mem ptr 0 (frames * frameSize % 2 ^ 64), (pmmMalloc s.pmm frames).2⟩)

/-- Without a run of free frames the call fails and changes nothing. One that
succeeds clears the frames it returns and writes nowhere else. -/
structure CleanCalloc (s : Ram) (n : Nat) : Prop where
  fails : (∀ b, ¬ FreeRun s.pmm n b) → s.pmmCalloc n = (0, s)
  clears : (s.pmmCalloc n).1 ≠ 0 → ∀ x, (s.pmmCalloc n).2.mem x =
    if (s.pmmCalloc n).1 ≤ x ∧ x < (s.pmmCalloc n).1 + n * frameSize then 0 else s.mem x

section Calloc
variable {s : Ram} {n : Nat}

theorem pmmCalloc_none (hn : 0 < n) (h : ∀ b, ¬ FreeRun s.pmm n b) :
    s.pmmCalloc n = (0, ⟨memset s.mem 0 0 (n * frameSize % 2 ^ 64), s.pmm⟩) := by
  rw [Ram.pmmCalloc, pmmMalloc_none hn h]

theorem pmmCalloc_clears (hn : 0 < n) (h : (s.pmmCalloc n).1 ≠ 0) (x : Nat) :
    (s.pmmCalloc n).2.mem x =
      if (s.pmmCalloc n).1 ≤ x ∧ x < (s.pmmCalloc n).1 + n * frameSize then 0 else s.mem x := by
  obtain ⟨b, hfit, -, -⟩ := pmmMalloc_some s.pmm hn h
  have hlim := s.pmm.limit_le
  have hpos := hfit.pos
  have hfits := hfit.fits
  have hbytes : n * frameSize % 2 ^ 64 = n * frameSize := by
    apply Nat.mod_eq_of_lt
    rw [frameSize]
    omega
  rw [Ram.pmmCalloc, hbytes]
  exact memset_apply ..

/-- A failed call clears as many bytes from address 0 on as it was asked for, so it
changes nothing only where these are zero already. -/
theorem calloc_clean_iff (s : Ram) {n : Nat} (hn : 1 ≤ n) :
    CleanCalloc s n ↔ (∃ b, FreeRun s.pmm n b) ∨ ∀ x, x < n * frameSize % 2 ^ 64 → s.mem x = 0 := by
  constructor
  · intro h
    by_cases hrun : ∃ b, FreeRun s.pmm n b
    · exact .inl hrun
    · have hno : ∀ b, ¬ FreeRun s.pmm n b := fun b hb => hrun ⟨b, hb⟩
      have hsame := h.fails hno
      rw [pmmCalloc_none hn hno] at hsame
      have hmem : memset s.mem 0 0 (n * frameSize % 2 ^ 64) = s.mem := congrArg (fun r => r.2.mem) hsame
      refine .inr fun x hx => ?_
      rw [← hmem, memset_apply, if_pos ⟨Nat.zero_le x, by omega⟩]
  · intro h
    refine ⟨fun hno => ?_, pmmCalloc_clears hn⟩
    have hzero := h.resolve_left fun ⟨b, hb⟩ => hno b hb
    have hmem : memset s.mem 0 0 (n * frameSize % 2 ^ 64) = s.mem := by
      funext x
      rw [memset_apply]
      split
      · rename_i hx
        exact (hzero x (by omega)).symm
      · rfl
    rw [pmmCalloc_none hn hno, hmem]

theorem two_frames_cleared : CleanCalloc ⟨fun _ => 7, smallPmm⟩ 2 :=
  (calloc_clean_iff _ (by decide)).mpr (.inl ⟨1, by decide, by decide, fun i hlo hhi => by interval_cases i <;> decide⟩)

/-- Six frames in a row are not there, and the bytes of the first six are lost. -/
theorem failed_calloc_clears_memory : ¬ CleanCalloc ⟨fun _ => 7, smallPmm⟩ 6 := by
  intro h
  have hno : ∀ b, ¬ FreeRun smallPmm 6 b := by
    intro b hb
    have hpos := hb.pos
    have hfits : b + 6 ≤ 8 := hb.fits
    have hthree := hb.free 3 (by omega) (by omega)
    exact absurd hthree (by decide)
  have hsame := h.fails hno
  rw [pmmCalloc_none (by decide) hno] at hsame
  have hmem : memset (fun _ => 7) 0 0 (6 * frameSize % 2 ^ 64) = fun _ => 7 := congrArg (fun r => r.2.mem) hsame
  have hbyte := congrFun hmem 0
  rw [memset_apply, if_pos (by decide)] at hbyte
  exact absurd hbyte (by decide)

end Calloc

/-! ### Runs -/

/-- The allocator with the allocations that are live: pointers and frame counts. -/
structure PmmRun where
  pmm : Pmm
  live : List (Nat × Nat)

/-- The frames of an allocation. -/
def allocSpan (a : Nat × Nat) : Span := ⟨a.1 / frameSize, a.2⟩

inductive PmmStep : PmmRun → PmmRun → Prop
  | failed {w : PmmRun} {n : Nat} (hn : 0 < n) (h : (pmmMalloc w.pmm n).1 = 0) :
      PmmStep w ⟨(pmmMalloc w.pmm n).2, w.live⟩
  | malloc {w : PmmRun} {n : Nat} (hn : 0 < n) (h : (pmmMalloc w.pmm n).1 ≠ 0) :
      PmmStep w ⟨(pmmMalloc w.pmm n).2, ((pmmMalloc w.pmm n).1, n) :: w.live⟩
  | free {w : PmmRun} {a : Nat × Nat} (ha : a ∈ w.live) :
      PmmStep w ⟨pmmFree w.pmm a.1 a.2, w.live.erase a⟩

/-- What a run from `p` keeps. -/
structure PmmInv (p : Pmm) (w : PmmRun) : Prop where
  limit : w.pmm.limit = p.limit
  aligned : ∀ a ∈ w.live, a.1 = frameSize * (allocSpan a).lo ∧ 0 < a.2
  within : ∀ a ∈ w.live, 1 ≤ (allocSpan a).lo ∧ (allocSpan a).hi ≤ p.limit
  apart : w.live.Pairwise fun a c => (allocSpan a).Apart (allocSpan c)
  fresh : ∀ a ∈ w.live, ∀ x, (allocSpan a).Has x → p.used x = false
  used : ∀ x, w.pmm.used x = true ↔ p.used x = true ∨ ∃ a ∈ w.live, (allocSpan a).Has x

theorem allocSpan_frame (b n : Nat) : allocSpan (frameSize * b, n) = ⟨b, n⟩ := by
  simp only [allocSpan, Nat.mul_div_cancel_left b (by decide : 0 < frameSize)]

theorem PmmInv.init (p : Pmm) : PmmInv p ⟨p, []⟩ :=
  ⟨rfl, by simp, by simp, .nil, by simp, by simp⟩

theorem PmmInv.took {p p' : Pmm} {w : PmmRun} {n b : Nat} (hw : PmmInv p w) (hn : 0 < n)
    (hfit : FirstFit w.pmm n b) (ht : Took w.pmm n b p') :
    PmmInv p ⟨p', (frameSize * b, n) :: w.live⟩ := by
  have hspan := allocSpan_frame b n
  have hfree : ∀ x, b ≤ x ∧ x < b + n → ¬ w.pmm.used x = true := by
    rintro x ⟨hlo, hhi⟩
    rw [hfit.free x hlo hhi]
    decide
  refine ⟨ht.limit.trans hw.limit, ?_, ?_, ?_, ?_, ?_⟩
  · refine List.forall_mem_cons.mpr ⟨?_, hw.aligned⟩
    rw [hspan]
    exact ⟨rfl, hn⟩
  · refine List.forall_mem_cons.mpr ⟨?_, hw.within⟩
    rw [hspan, ← hw.limit]
    exact ⟨hfit.pos, hfit.fits⟩
  · refine List.pairwise_cons.mpr ⟨?_, hw.apart⟩
    intro c hc
    rw [hspan]
    refine Span.apart_of_not_has hn (hw.aligned c hc).2 ?_
    intro x hx hcx
    exact hfree x hx ((hw.used x).mpr (.inr ⟨c, hc, hcx⟩))
  · refine List.forall_mem_cons.mpr ⟨?_, hw.fresh⟩
    intro x hx
    rw [hspan] at hx
    by_contra hused
    exact hfree x hx ((hw.used x).mpr (.inl (by simpa using hused)))
  · intro x
    rw [ht.used, Bool.or_eq_true, hw.used, decide_eq_true_iff, List.exists_mem_cons_iff, hspan]
    exact or_left_comm

theorem PmmInv.free {p : Pmm} {w : PmmRun} {a : Nat × Nat} (hw : PmmInv p w) (ha : a ∈ w.live) :
    PmmInv p ⟨pmmFree w.pmm a.1 a.2, w.live.erase a⟩ := by
  have hperm := List.perm_cons_erase ha
  have hsub : ∀ c ∈ w.live.erase a, c ∈ w.live := fun c hc => List.mem_of_mem_erase hc
  have hapart : ∀ c ∈ w.live.erase a, (allocSpan a).Apart (allocSpan c) :=
    (List.pairwise_cons.mp ((hperm.pairwise_iff fun h => Span.Apart.symm h).mp hw.apart)).1
  have hfrees : ∀ x, (pmmFree w.pmm a.1 a.2).used x =
      (!decide ((allocSpan a).Has x) && w.pmm.used x) := by
    intro x
    have hlim := w.pmm.limit_le
    have hhi := (hw.within a ha).2
    rw [← hw.limit] at hhi
    rw [(hw.aligned a ha).1]
    exact pmmFree_used (Nat.lt_of_le_of_lt (Nat.le_trans hhi hlim) (by decide)) x
  refine ⟨(pmmFree_limit ..).trans hw.limit, ?_, ?_, ?_, ?_, ?_⟩
  · exact fun c hc => hw.aligned c (hsub c hc)
  · exact fun c hc => hw.within c (hsub c hc)
  · exact hw.apart.sublist List.erase_sublist
  · exact fun c hc => hw.fresh c (hsub c hc)
  · intro x
    rw [hfrees, Bool.and_eq_true, hw.used, Bool.not_eq_true', decide_eq_false_iff_not]
    have hmem : (∃ c ∈ w.live, (allocSpan c).Has x) ↔
        (allocSpan a).Has x ∨ ∃ c ∈ w.live.erase a, (allocSpan c).Has x :=
      (exists_congr fun c => and_congr_left fun _ => hperm.mem_iff).trans
        (List.exists_mem_cons_iff _ _ _)
    rw [hmem]
    constructor
    · rintro ⟨hnot, h0 | h1 | h2⟩
      · exact .inl h0
      · exact absurd h1 hnot
      · exact .inr h2
    · rintro (h0 | ⟨c, hc, hcx⟩)
      · refine ⟨fun hax => ?_, .inl h0⟩
        rw [hw.fresh a ha x hax] at h0
        cases h0
      · exact ⟨(hapart c hc).symm.not_has hcx, .inr (.inr ⟨c, hc, hcx⟩)⟩

theorem PmmInv.step {p : Pmm} (w w' : PmmRun) (hw : PmmInv p w) (h : PmmStep w w') :
    PmmInv p w' := by
  cases h with
  | failed hn h =>
      rcases pmmMalloc_spec w.pmm hn with ⟨b, hfit, hptr, _⟩ | ⟨_, hnone⟩
      · have hpos := hfit.pos
        rw [h, frameSize] at hptr
        omega
      · rw [hnone]
        exact hw
  | malloc hn h =>
      obtain ⟨b, hfit, hptr, ht⟩ := pmmMalloc_some w.pmm hn h
      rw [hptr]
      exact hw.took hn hfit ht
  | free ha => exact hw.free ha

/-- In every state a run reaches, the live allocations are disjoint ranges of
frames below the limit that were free at the start, and a frame is marked
exactly when it was at the start or belongs to one of them. -/
theorem pmm_run_exact (p : Pmm) {w : PmmRun} (h : Relation.ReflTransGen PmmStep ⟨p, []⟩ w) :
    (w.live.Pairwise fun a c => (allocSpan a).Apart (allocSpan c)) ∧
    (∀ a ∈ w.live, 1 ≤ (allocSpan a).lo ∧ (allocSpan a).hi ≤ p.limit ∧
      ∀ x, (allocSpan a).Has x → p.used x = false) ∧
    ∀ x, w.pmm.used x = true ↔ p.used x = true ∨ ∃ a ∈ w.live, (allocSpan a).Has x := by
  have hw := reflTransGen_invariant PmmInv.step (PmmInv.init p) h
  refine ⟨hw.apart, fun a ha => ?_, hw.used⟩
  exact ⟨(hw.within a ha).1, (hw.within a ha).2, hw.fresh a ha⟩

/-- Two frames go in front of frame 3, three behind it; freeing the first pair
leaves exactly the three frames and the initial marks. -/
theorem fragmented_run_exact : ∃ w, Relation.ReflTransGen PmmStep ⟨smallPmm, []⟩ w ∧
    w.live = [(0x4000, 3)] ∧ ∀ x, w.pmm.used x = true ↔ smallPmm.used x = true ∨ 4 ≤ x ∧ x < 7 := by
  have hp₁ : (pmmMalloc smallPmm 2).1 = 0x1000 := by decide
  have hp₂ : (pmmMalloc (pmmMalloc smallPmm 2).2 3).1 = 0x4000 := by decide
  have h₁ := PmmStep.malloc (w := ⟨smallPmm, []⟩) (n := 2) (by decide) (by rw [hp₁]; decide)
  rw [hp₁] at h₁
  have h₂ := PmmStep.malloc (w := ⟨(pmmMalloc smallPmm 2).2, [(0x1000, 2)]⟩) (n := 3) (by decide)
    (by rw [hp₂]; decide)
  rw [hp₂] at h₂
  have h₃ := PmmStep.free (w := ⟨(pmmMalloc (pmmMalloc smallPmm 2).2 3).2,
    [(0x4000, 3), (0x1000, 2)]⟩) (a := (0x1000, 2)) (by decide)
  have hrun := ((Relation.ReflTransGen.single h₁).tail h₂).tail h₃
  refine ⟨_, hrun, rfl, ?_⟩
  intro x
  rw [(pmm_run_exact smallPmm hrun).2.2 x]
  simp [allocSpan, frameSize, Span.Has, Span.hi]

end Flan.Memory
