import Mathlib.Data.Nat.Digits.Defs
import Mathlib.Tactic.Ring
import Flan.Dev.Print

/-! `itoa` of `lib/str.c` on its static buffer of fifty bytes, which it fills from the end.
Places are counted from the first byte of the buffer; nothing stops the loop from going
below it. -/
namespace Flan.Dev
open Flan.Lib Flan.Fs

/-! ### The source -/

/-- The bytes at and around `buffer`, the pointer `ptr`, and the places written so far. -/
structure ItoaRun where
  bytes : Int → Byte
  ptr : Int
  writes : List Int

namespace ItoaRun

/-- `*--ptr = c`. -/
def put (r : ItoaRun) (c : Byte) : ItoaRun :=
  ⟨Function.update r.bytes (r.ptr - 1) c, r.ptr - 1, r.writes ++ [r.ptr - 1]⟩

@[simp] theorem put_bytes (r : ItoaRun) (c : Byte) :
    (r.put c).bytes = Function.update r.bytes (r.ptr - 1) c := rfl

@[simp] theorem put_ptr (r : ItoaRun) (c : Byte) : (r.put c).ptr = r.ptr - 1 := rfl

@[simp] theorem put_writes (r : ItoaRun) (c : Byte) : (r.put c).writes = r.writes ++ [r.ptr - 1] := rfl

/-- The loop over the digits; `none` when the fuel runs out. -/
def loop (base : Nat) : (fuel num : Nat) → ItoaRun → Option ItoaRun
  | 0, _, _ => none
  | fuel+1, num, r =>
      let r := r.put (repr.getD (num % base) 0)
      if num / base = 0 then some r else loop base fuel (num / base) r

end ItoaRun

/-- `ptr = &buffer[49]; *ptr = 0`. -/
def ItoaRun.start (buffer : Int → Byte) : ItoaRun := ⟨Function.update buffer 49 0, 49, [49]⟩

/-- `itoa`; the pointer it returns is the last `ptr`. -/
def itoaRun (fuel : Nat) (buffer : Int → Byte) (num base : Nat) : Option ItoaRun :=
  ItoaRun.loop base fuel num (ItoaRun.start buffer)

/-! ### What is asked of it -/

/-- The string at the pointer has these digits, the first one in front. -/
structure DigitString (r : ItoaRun) (base num : Nat) (ds : List Nat) : Prop where
  digits : ∀ d ∈ ds, d < base
  value : Nat.ofDigits base ds.reverse = num
  lead : ds = [0] ∨ ∃ d, ds.head? = some d ∧ d ≠ 0
  text : ∀ i (h : i < ds.length), r.bytes (r.ptr + i) = repr.getD ds[i] 0
  ends : r.bytes (r.ptr + ds.length) = 0

/-- Only the buffer is written, and the string in it is the number. -/
structure RoundTrips (r : ItoaRun) (base num : Nat) : Prop where
  inside : ∀ a ∈ r.writes, 0 ≤ a ∧ a < 50
  digits : ∃ ds, DigitString r base num ds

/-! ### Digits -/

/-- The digits in the order in which they are written. -/
def lowFirst (base num : Nat) : List Nat := if num = 0 then [0] else Nat.digits base num

section Digits
variable {base num k : Nat}

theorem lowFirst_eq (hb : 1 < base) : lowFirst base num =
    num % base :: if num / base = 0 then [] else lowFirst base (num / base) := by
  unfold lowFirst
  by_cases hz : num = 0
  · subst hz
    rw [if_pos rfl, Nat.zero_mod, Nat.zero_div, if_pos rfl]
  · rw [if_neg hz, Nat.digits_def' hb (Nat.pos_of_ne_zero hz)]
    congr 1
    split
    · rename_i hdiv
      rw [hdiv, Nat.digits_zero]
    · rfl

theorem ofDigits_lowFirst (base num : Nat) : Nat.ofDigits base (lowFirst base num) = num := by
  unfold lowFirst
  split
  · rename_i hz
    rw [hz, Nat.ofDigits_singleton]
  · exact Nat.ofDigits_digits base num

theorem length_lowFirst_le (hb : 1 < base) : (lowFirst base num).length ≤ k + 1 ↔ num < base ^ (k + 1) := by
  have hpos : 0 < base := Nat.zero_lt_of_lt hb
  rw [lowFirst_eq hb, List.length_cons, Nat.succ_le_succ_iff]
  induction k generalizing num with
  | zero =>
      rw [zero_add, pow_one, Nat.le_zero, List.length_eq_zero_iff, ← Nat.div_eq_zero_iff_lt hpos]
      refine ⟨fun h => ?_, fun h => if_pos h⟩
      by_contra hdiv
      rw [if_neg hdiv, lowFirst_eq hb] at h
      cases h
  | succ k ih =>
      rw [pow_succ, ← Nat.div_lt_iff_lt_mul hpos]
      by_cases hdiv : num / base = 0
      · rw [if_pos hdiv, hdiv]
        exact iff_of_true (Nat.zero_le _) (Nat.pow_pos hpos)
      · rw [if_neg hdiv, lowFirst_eq hb, List.length_cons, Nat.succ_le_succ_iff]
        exact ih

theorem length_lowFirst_word (hb : 1 < base) (hn : num < 2 ^ 64) : (lowFirst base num).length ≤ 64 :=
  (length_lowFirst_le hb).mpr (lt_of_lt_of_le hn (Nat.pow_le_pow_left hb 64))

theorem lowFirst_lt (hb : 1 < base) : ∀ d ∈ lowFirst base num, d < base := by
  intro d hd
  unfold lowFirst at hd
  split at hd
  · cases List.mem_singleton.mp hd
    exact Nat.zero_lt_of_lt hb
  · exact Nat.digits_lt_base hb hd

theorem getLast_lowFirst_ne (hb : 1 < base) (hz : num ≠ 0) : ∃ d, (lowFirst base num).getLast? = some d ∧ d ≠ 0 := by
  induction num using Nat.strong_induction_on with
  | h num ih =>
      rw [lowFirst_eq hb]
      by_cases hdiv : num / base = 0
      · have hlt := (Nat.div_eq_zero_iff_lt (Nat.zero_lt_of_lt hb)).mp hdiv
        rw [if_pos hdiv, Nat.mod_eq_of_lt hlt]
        exact ⟨num, rfl, hz⟩
      · obtain ⟨d, hd, hne⟩ := ih (num / base) (Nat.div_lt_self (Nat.pos_of_ne_zero hz) hb) hdiv
        refine ⟨d, ?_, hne⟩
        rw [if_neg hdiv, List.getLast?_cons, hd, Option.getD_some]

/-- There is no zero in front unless it is alone. -/
theorem lowFirst_lead (hb : 1 < base) (num : Nat) :
    (lowFirst base num).reverse = [0] ∨ ∃ d, (lowFirst base num).reverse.head? = some d ∧ d ≠ 0 := by
  by_cases hz : num = 0
  · subst hz
    exact .inl rfl
  · rw [List.head?_reverse]
    exact .inr (getLast_lowFirst_ne hb hz)

end Digits

/-! ### The loop -/

section Loop
variable {base num fuel : Nat} {r : ItoaRun} {cs : List Byte}

theorem ItoaRun.loop_eq (hb : 1 < base) (hf : (lowFirst base num).length ≤ fuel) (r : ItoaRun) :
    ItoaRun.loop base fuel num r =
      some (((lowFirst base num).map fun d => repr.getD d 0).foldl ItoaRun.put r) := by
  induction fuel generalizing num r with
  | zero =>
      rw [lowFirst_eq hb] at hf
      cases hf
  | succ fuel ih =>
      rw [lowFirst_eq hb] at hf ⊢
      rw [ItoaRun.loop, List.map_cons, List.foldl_cons]
      by_cases hdiv : num / base = 0
      · rw [if_pos hdiv, if_pos hdiv]
        rfl
      · rw [if_neg hdiv] at hf
        rw [if_neg hdiv, if_neg hdiv, ih (Nat.le_of_succ_le_succ hf)]

theorem puts_ptr (r : ItoaRun) (cs : List Byte) : (cs.foldl ItoaRun.put r).ptr = r.ptr - cs.length := by
  induction cs generalizing r with
  | nil => simp
  | cons c cs ih =>
      rw [List.foldl_cons, ih, ItoaRun.put_ptr, List.length_cons]
      push_cast
      ring

/-- The places written are those from the old pointer down to the new one. -/
theorem mem_puts_writes (r : ItoaRun) (cs : List Byte) (a : Int) :
    a ∈ (cs.foldl ItoaRun.put r).writes ↔ a ∈ r.writes ∨ r.ptr - cs.length ≤ a ∧ a < r.ptr := by
  induction cs generalizing r with
  | nil =>
      rw [List.foldl_nil, List.length_nil]
      refine ⟨.inl, fun h => h.resolve_right fun h => ?_⟩
      omega
  | cons c cs ih =>
      rw [List.foldl_cons, ih, ItoaRun.put_writes, ItoaRun.put_ptr, List.mem_append, List.mem_singleton,
        List.length_cons]
      push_cast
      constructor
      · rintro ((h | h) | h)
        · exact .inl h
        · right
          omega
        · right
          omega
      · rintro (h | h)
        · exact .inl (.inl h)
        · by_cases heq : a = r.ptr - 1
          · exact .inl (.inr heq)
          · right
            omega

theorem puts_above (r : ItoaRun) (cs : List Byte) {x : Int} (hx : r.ptr ≤ x) :
    (cs.foldl ItoaRun.put r).bytes x = r.bytes x := by
  induction cs generalizing r with
  | nil => rfl
  | cons c cs ih =>
      have hlow : (r.put c).ptr ≤ x := by
        rw [ItoaRun.put_ptr]
        omega
      rw [List.foldl_cons, ih _ hlow, ItoaRun.put_bytes, Function.update_of_ne (by omega)]

/-- The characters end up in the other order. -/
theorem puts_text (r : ItoaRun) (cs : List Byte) {i : Nat} (hi : i < cs.length) :
    (cs.foldl ItoaRun.put r).bytes (r.ptr - 1 - i) = cs[i] := by
  induction cs generalizing r i with
  | nil => cases hi
  | cons c cs ih =>
      rw [List.foldl_cons]
      cases i with
      | zero =>
          rw [puts_above _ _ (by simp)]
          simp
      | succ i =>
          have hstep := ih (r.put c) (Nat.lt_of_succ_lt_succ hi)
          rw [List.getElem_cons_succ, ← hstep]
          congr 1
          rw [ItoaRun.put_ptr]
          push_cast
          ring

end Loop

/-! ### The round trip -/

section Itoa
variable {base num fuel : Nat}

/-- The characters of the number in the order in which they are written. -/
def chars (base num : Nat) : List Byte := (lowFirst base num).map fun d => repr.getD d 0

theorem length_chars (base num : Nat) : (chars base num).length = (lowFirst base num).length := List.length_map _

/-- The run puts down the digits and returns. -/
theorem itoaRun_eq (hb : 1 < base) (hn : num < 2 ^ 64) (hf : 64 ≤ fuel) (buffer : Int → Byte) :
    itoaRun fuel buffer num base = some ((chars base num).foldl ItoaRun.put (ItoaRun.start buffer)) := by
  exact ItoaRun.loop_eq hb ((length_lowFirst_word hb hn).trans hf) _

theorem digitString_puts (hb : 1 < base) (num : Nat) (buffer : Int → Byte) :
    DigitString ((chars base num).foldl ItoaRun.put (ItoaRun.start buffer)) base num (lowFirst base num).reverse := by
  have hlen := length_chars base num
  refine ⟨?_, ?_, lowFirst_lead hb num, ?_, ?_⟩
  · exact fun d hd => lowFirst_lt hb d (List.mem_reverse.mp hd)
  · rw [List.reverse_reverse, ofDigits_lowFirst]
  · intro i hi
    rw [List.length_reverse] at hi
    have hput := puts_text (ItoaRun.start buffer) (chars base num) (i := (lowFirst base num).length - 1 - i) (by omega)
    rw [puts_ptr, hlen, List.getElem_reverse]
    refine Eq.trans ?_ (hput.trans (List.getElem_map _))
    congr 1
    simp only [ItoaRun.start]
    omega
  · rw [puts_ptr, hlen, List.length_reverse, Int.sub_add_cancel, puts_above _ _ (le_refl _)]
    simp only [ItoaRun.start, Function.update_self]

/-- The writes stay in the buffer as long as there are at most forty-nine digits. -/
theorem puts_inside_iff (base num : Nat) (buffer : Int → Byte) :
    (∀ a ∈ ((chars base num).foldl ItoaRun.put (ItoaRun.start buffer)).writes, 0 ≤ a ∧ a < 50) ↔
      (lowFirst base num).length ≤ 49 := by
  have hlen := length_chars base num
  simp only [mem_puts_writes, ItoaRun.start, List.mem_singleton]
  constructor
  · intro h
    by_contra hlong
    have hlow := (h (-1) (.inr (by omega))).1
    omega
  · rintro h a (rfl | ha)
    · decide
    · omega

/-- In base ten and sixteen `itoa` always gives the number back; in base two it does so
exactly below `2 ^ 49`, and from there on it writes below its buffer. -/
theorem itoa_round_trips_iff (hn : num < 2 ^ 64) (hb : base = 2 ∨ base = 10 ∨ base = 16) (hf : 64 ≤ fuel)
    (buffer : Int → Byte) :
    ∃ r, itoaRun fuel buffer num base = some r ∧ (RoundTrips r base num ↔ base ≠ 2 ∨ num < 2 ^ 49) := by
  have hb1 : 1 < base := by omega
  refine ⟨_, itoaRun_eq hb1 hn hf buffer, ?_⟩
  have hinside := puts_inside_iff base num buffer
  rw [length_lowFirst_le hb1] at hinside
  have hpow : num < base ^ 49 ↔ base ≠ 2 ∨ num < 2 ^ 49 := by
    rcases hb with rfl | rfl | rfl <;> omega
  rw [← hpow, ← hinside]
  exact ⟨fun h => h.inside, fun h => ⟨h, _, digitString_puts hb1 num buffer⟩⟩

/-- The string in the buffer is the one that `printf` is modelled with. -/
theorem itoaLoop_eq (hb : 1 < base) (hf : (lowFirst base num).length ≤ fuel) (ptr : List Byte) :
    itoaLoop base fuel num ptr = (chars base num).reverse ++ ptr := by
  unfold chars
  induction fuel generalizing num ptr with
  | zero =>
      rw [lowFirst_eq hb] at hf
      cases hf
  | succ fuel ih =>
      rw [lowFirst_eq hb] at hf ⊢
      rw [itoaLoop, List.map_cons, List.reverse_cons, List.append_assoc]
      by_cases hdiv : num / base = 0
      · rw [if_pos hdiv, if_pos hdiv]
        rfl
      · rw [if_neg hdiv] at hf
        rw [if_neg hdiv, if_neg hdiv, ih (Nat.le_of_succ_le_succ hf)]
        rfl

theorem itoaRun_itoa (hb : 1 < base) (hn : num < 2 ^ 64) (hf : 64 ≤ fuel) (buffer : Int → Byte) :
    ∃ r, itoaRun fuel buffer num base = some r ∧ r.ptr + (itoa num base).length = 49 ∧
      ∀ i (h : i < (itoa num base).length), r.bytes (r.ptr + i) = (itoa num base)[i] := by
  have hitoa : itoa num base = (chars base num).reverse := by
    rw [itoa, itoaLoop_eq hb (length_lowFirst_word hb hn), List.append_nil]
  have htext := (digitString_puts hb num buffer).text
  refine ⟨_, itoaRun_eq hb hn hf buffer, ?_, ?_⟩
  · rw [puts_ptr, hitoa, List.length_reverse, Int.sub_add_cancel]
    rfl
  · intro i hi
    rw [hitoa, List.length_reverse, length_chars] at hi
    rw [htext i (by rwa [List.length_reverse])]
    simp only [hitoa, chars, List.getElem_reverse, List.getElem_map, List.length_map]

end Itoa

theorem itoa_largest_hex : ∃ r, itoaRun 64 (fun _ => 0) (2 ^ 64 - 1) 16 = some r ∧
    (RoundTrips r 16 (2 ^ 64 - 1) ↔ 16 ≠ 2 ∨ 2 ^ 64 - 1 < 2 ^ 49) :=
  itoa_round_trips_iff (by decide) (by decide) (by decide) _

/-- The fiftieth binary digit goes to the byte in front of the buffer. -/
theorem itoa_writes_below_buffer : ∃ r, itoaRun 64 (fun _ => 0) (2 ^ 49) 2 = some r ∧ -1 ∈ r.writes ∧
    ¬ RoundTrips r 2 (2 ^ 49) := by
  refine ⟨_, itoaRun_eq (by decide) (by decide) (by decide) _, ?_⟩
  have hmem : -1 ∈ ((chars 2 (2 ^ 49)).foldl ItoaRun.put (ItoaRun.start fun _ => 0)).writes := by
    rw [mem_puts_writes, length_chars]
    have hlen : ¬ (lowFirst 2 (2 ^ 49)).length ≤ 49 := by
      rw [length_lowFirst_le (by decide)]
      decide
    right
    simp only [ItoaRun.start]
    omega
  exact ⟨hmem, fun h => absurd (h.inside _ hmem).1 (by decide)⟩

end Flan.Dev
