import Mathlib.Data.List.Basic
import Mathlib.Data.List.TakeWhile
import Mathlib.Logic.Function.Basic
import Flan.Lib.Mem

/-! The string functions of `lib/str.c` that path resolution uses. A string is
the list of its bytes before the terminator, a buffer the list of its bytes;
the byte behind the end of a buffer is zero. -/
namespace Flan.Fs
open Flan.Lib

def slash : Byte := 47

def ofChars (cs : List Char) : List Byte := cs.map fun c => BitVec.ofNat 8 c.toNat

/-! ### strtok -/

/-- The buffers in memory and the static cursor `s`: a buffer and a position in
it. -/
structure Strtok where
  bufs : Nat → List Byte
  s : Option (Nat × Nat)

/-- The string at a position. -/
def Strtok.str (st : Strtok) (p : Nat × Nat) : List Byte :=
  ((st.bufs p.1).drop p.2).takeWhile (· ≠ 0)

/-- The loop of `strtok`: how far the first delimiter is away, unless the
terminator comes first. -/
def findDelim : List Byte → Option Nat
  | [] => none
  | c :: rest =>
      if c = 0 then none
      else if c = slash then some 0
      else (findDelim rest).map (· + 1)

/-- Where a call starts: in the buffer it is given, or at the cursor. -/
def Strtok.start (st : Strtok) : Option Nat → Option (Nat × Nat)
  | some b => some (b, 0)
  | none => st.s

/-- `strtok` with the delimiter "/": the token and what is left behind. -/
def strtok (st : Strtok) (str : Option Nat) : Option (Nat × Nat) × Strtok :=
  match st.start str with
  | none => (none, { st with s := none })
  | some (b, p) =>
      match findDelim ((st.bufs b).drop p) with
      | some k =>
          (some (b, p),
            ⟨Function.update st.bufs b ((st.bufs b).set (p + k) 0), some (b, p + k + 1)⟩)
      | none => (some (b, p), { st with s := none })

theorem findDelim_eq_none {cs : List Byte} (h : slash ∉ cs) : findDelim cs = none := by
  induction cs with
  | nil => rfl
  | cons c rest ih =>
      have hc : c ≠ slash := List.ne_of_not_mem_cons h |>.symm
      rw [findDelim, if_neg hc, ih (List.not_mem_of_not_mem_cons h)]
      exact ite_self none

theorem findDelim_append {tok : List Byte} (rest : List Byte) (hs : slash ∉ tok) (hz : 0 ∉ tok) :
    findDelim (tok ++ slash :: rest) = some tok.length := by
  induction tok with
  | nil => rfl
  | cons c tok ih =>
      have hc : c ≠ slash := List.ne_of_not_mem_cons hs |>.symm
      have hcz : c ≠ 0 := List.ne_of_not_mem_cons hz |>.symm
      rw [List.cons_append, findDelim, if_neg hcz, if_neg hc,
        ih (List.not_mem_of_not_mem_cons hs) (List.not_mem_of_not_mem_cons hz)]
      rfl

theorem takeWhile_terminated {tok : List Byte} (rest : List Byte) (hz : 0 ∉ tok) :
    (tok ++ 0 :: rest).takeWhile (· ≠ 0) = tok := by
  induction tok with
  | nil => rfl
  | cons c tok ih =>
      have hcz : c ≠ 0 := List.ne_of_not_mem_cons hz |>.symm
      rw [List.cons_append, List.takeWhile_cons_of_pos (by simpa using hcz),
        ih (List.not_mem_of_not_mem_cons hz)]

theorem takeWhile_unterminated {tok : List Byte} (hz : 0 ∉ tok) : tok.takeWhile (· ≠ 0) = tok := by
  induction tok with
  | nil => rfl
  | cons c tok ih =>
      have hcz : c ≠ 0 := List.ne_of_not_mem_cons hz |>.symm
      rw [List.takeWhile_cons_of_pos (by simpa using hcz), ih (List.not_mem_of_not_mem_cons hz)]

/-- What the calls of `strtok` on buffer `b` still have to return. -/
inductive Strtok.Scans (st : Strtok) (b : Nat) : List (List Byte) → Prop
  | done (h : st.s = none) : st.Scans b []
  | more {p : Nat} {cs : List (List Byte)} (h : st.s = some (b, p)) (hz : 0 ∉ (st.bufs b).drop p)
      (hcs : ((st.bufs b).drop p).splitOn slash = cs) : st.Scans b cs

/-- A call on the text between two delimiters, or behind the last one. -/
theorem strtok_at {st : Strtok} {str : Option Nat} {b p : Nat} {c : List Byte} {cs : List (List Byte)}
    (hs : st.start str = some (b, p)) (hz : 0 ∉ (st.bufs b).drop p)
    (hsplit : ((st.bufs b).drop p).splitOn slash = c :: cs) :
    ∃ st', strtok st str = (some (b, p), st') ∧ st'.str (b, p) = c ∧ st'.Scans b cs := by
  by_cases hd : slash ∈ (st.bufs b).drop p
  · obtain ⟨tok, rest, hdrop, hnot⟩ := List.eq_append_cons_of_mem hd
    have hztok : 0 ∉ tok := fun h => hz (by rw [hdrop]; exact List.mem_append_left _ h)
    have hzrest : 0 ∉ rest :=
      fun h => hz (by rw [hdrop]; exact List.mem_append_right _ (List.mem_cons_of_mem _ h))
    rw [hdrop, List.splitOn_append_cons_self_of_not_mem hnot] at hsplit
    obtain ⟨rfl, rfl⟩ := List.cons.inj hsplit
    have hlen : ((st.bufs b).take p).length = p := by
      refine List.length_take_of_le ?_
      by_contra hlt
      rw [List.drop_eq_nil_of_le (by omega)] at hd
      cases hd
    -- The buffer around the token, once the delimiter has been overwritten.
    have hset : (st.bufs b).set (p + tok.length) 0 = (st.bufs b).take p ++ (tok ++ 0 :: rest) := by
      conv_lhs => rw [← List.take_append_drop p (st.bufs b), hdrop]
      rw [List.set_append_right _ _ (by omega), hlen, Nat.add_sub_cancel_left,
        List.set_append_right _ _ (le_refl _), Nat.sub_self, List.set_cons_zero]
    have hfind := findDelim_append rest hnot hztok
    refine ⟨⟨Function.update st.bufs b ((st.bufs b).set (p + tok.length) 0),
      some (b, p + tok.length + 1)⟩, ?_, ?_, ?_⟩
    · simp only [strtok, hs, hdrop, hfind]
    · simp only [Strtok.str, Function.update_self, hset]
      rw [List.drop_left' hlen]
      exact takeWhile_terminated rest hztok
    · have hrest : ((st.bufs b).set (p + tok.length) 0).drop (p + tok.length + 1) = rest := by
        rw [hset, ← List.append_assoc, List.append_cons, List.drop_left']
        rw [List.length_append, List.length_append, hlen, List.length_singleton]
      refine .more rfl ?_ ?_
      · simpa only [Function.update_self, hrest] using hzrest
      · simp only [Function.update_self, hrest]
  · rw [List.splitOn_eq_singleton hd] at hsplit
    obtain ⟨rfl, rfl⟩ := List.cons.inj hsplit
    refine ⟨{ st with s := none }, ?_, takeWhile_unterminated hz, .done rfl⟩
    simp only [strtok, hs, findDelim_eq_none hd]

theorem Strtok.Scans.next {st : Strtok} {b : Nat} {c : List Byte} {cs : List (List Byte)}
    (h : st.Scans b (c :: cs)) :
    ∃ p st', strtok st none = (some (b, p), st') ∧ st'.str (b, p) = c ∧ st'.Scans b cs := by
  cases h with
  | more hs hz hcs => exact ⟨_, strtok_at hs hz hcs⟩

theorem Strtok.Scans.stop {st : Strtok} {b : Nat} (h : st.Scans b []) :
    (strtok st none).1 = none := by
  cases h with
  | done h => simp only [strtok, Strtok.start, h]
  | more _ _ hcs => exact absurd hcs (List.splitOn_ne_nil _ _)

/-! ### basename -/

/-- The first loop: back over the slashes at the end, which it overwrites. -/
def stripEnd (s : List Byte) : Nat → Nat
  | 0 => 0
  | i+1 => if s.getD (i+1) 0 = slash then stripEnd s i else i+1

/-- The second loop: back to the byte behind the last slash. -/
def baseStart (s : List Byte) : Nat → Nat
  | 0 => 0
  | i+1 => if s.getD i 0 ≠ slash then baseStart s i else i+1

/-- `basename`. The string it returns ends where the first loop stopped. -/
def basename (s : List Byte) : List Byte :=
  if s = [] then ofChars ['.']
  else
    let last := stripEnd s (s.length - 1)
    (s.take (last + 1)).drop (baseStart s last)

theorem stripEnd_le (s : List Byte) (i : Nat) : stripEnd s i ≤ i := by
  induction i with
  | zero => exact le_refl 0
  | succ i ih =>
      rw [stripEnd]
      split
      · exact Nat.le_succ_of_le ih
      · exact le_refl _

theorem baseStart_le (s : List Byte) (i : Nat) : baseStart s i ≤ i := by
  induction i with
  | zero => exact le_refl 0
  | succ i ih =>
      rw [baseStart]
      split
      · exact Nat.le_succ_of_le ih
      · exact le_refl _

theorem stripEnd_slashes {u t : List Byte} (hu : 0 < u.length)
    (hlast : u.getD (u.length - 1) 0 ≠ slash) (ht : ∀ x ∈ t, x = slash) {k : Nat}
    (hk : k ≤ t.length) : stripEnd (u ++ t) (u.length - 1 + k) = u.length - 1 := by
  induction k with
  | zero =>
      rw [Nat.add_zero]
      cases hi : u.length - 1 with
      | zero => rfl
      | succ i =>
          rw [hi] at hlast
          rw [stripEnd, List.getD_append _ _ _ _ (by omega), if_neg hlast]
  | succ k ih =>
      have hslash : (u ++ t).getD (u.length - 1 + k + 1) 0 = slash := by
        rw [List.getD_append_right _ _ _ _ (by omega), List.getD_eq_getElem _ _ (by omega)]
        exact ht _ (List.getElem_mem _)
      rw [← Nat.add_assoc, stripEnd, if_pos hslash, ih (by omega)]

/-- What can stand before the last component of a path. -/
def Leads (pre : List Byte) : Prop := pre = [] ∨ ∃ a, pre = a ++ [slash]

theorem baseStart_eq {pre c t : List Byte} (hc : slash ∉ c) (hpre : Leads pre) {k : Nat}
    (hk : k ≤ c.length) : baseStart (pre ++ c ++ t) (pre.length + k) = pre.length := by
  induction k with
  | zero =>
      rcases hpre with rfl | ⟨a, rfl⟩
      · rfl
      · have hslash : (a ++ [slash] ++ c ++ t).getD a.length 0 = slash := by
          rw [List.append_assoc, List.append_assoc, List.getD_append_right _ _ _ _ (le_refl _),
            Nat.sub_self]
          rfl
        rw [Nat.add_zero, List.length_append, List.length_singleton, baseStart,
          if_neg (not_not.mpr hslash)]
  | succ k ih =>
      have hin : (pre ++ c ++ t).getD (pre.length + k) 0 ≠ slash := by
        rw [List.append_assoc, List.getD_append_right _ _ _ _ (by omega), Nat.add_sub_cancel_left,
          List.getD_append _ _ _ _ (by omega), List.getD_eq_getElem _ _ (by omega)]
        intro h
        exact hc (h ▸ List.getElem_mem _)
      rw [← Nat.add_assoc, baseStart, if_pos hin, ih (by omega)]

/-- The last component of a path, whatever slashes stand behind it. -/
theorem basename_eq {pre c t : List Byte} (hc : slash ∉ c) (hne : c ≠ [])
    (hpre : Leads pre) (ht : ∀ x ∈ t, x = slash) :
    basename (pre ++ c ++ t) = c := by
  have hpos : 0 < c.length := List.length_pos_iff.mpr hne
  have hlen : (pre ++ c).length = pre.length + c.length := List.length_append
  have hlast : (pre ++ c).getD ((pre ++ c).length - 1) 0 ≠ slash := by
    rw [hlen, List.getD_append_right _ _ _ _ (by omega), List.getD_eq_getElem _ _ (by omega)]
    intro h
    exact hc (h ▸ List.getElem_mem _)
  have hstrip := stripEnd_slashes (by omega) hlast ht (le_refl t.length)
  have hend : (pre ++ c ++ t).length - 1 = (pre ++ c).length - 1 + t.length := by
    rw [List.length_append]
    omega
  have hbase := baseStart_eq (t := t) hc hpre (k := c.length - 1) (by omega)
  rw [basename, if_neg (by simp [hne]), hend, hstrip]
  have hidx : (pre ++ c).length - 1 = pre.length + (c.length - 1) := by omega
  simp only [hidx, hbase]
  rw [List.take_left' (by omega), List.drop_left]

end Flan.Fs
