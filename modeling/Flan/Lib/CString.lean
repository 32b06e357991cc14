import Mathlib.Data.List.GetD
import Flan.Lib.Mem

/-! Terminated strings in memory. -/
namespace Flan.Lib

/-- The string `s` stands at `p`, which is not the null pointer: its bytes and then a zero. -/
structure IsStr (m : Mem) (p : Nat) (s : List Byte) : Prop where
  addr : p ≠ 0
  bytes : ∀ i, i ≤ s.length → m (p + i) = s.getD i 0
  str : 0 ∉ s

section IsStr
variable {m m' : Mem} {p : Nat} {c : Byte} {s u v : List Byte}

theorem IsStr.congr (h : IsStr m p s) (hm : ∀ x, p ≤ x → x ≤ p + s.length → m' x = m x) : IsStr m' p s :=
  ⟨h.addr, fun i hi => (hm _ (Nat.le_add_right p i) (Nat.add_le_add_left hi p)).trans (h.bytes i hi), h.str⟩

theorem IsStr.ends (h : IsStr m p s) : m (p + s.length) = 0 :=
  (h.bytes _ (le_refl _)).trans (List.getD_eq_default _ _ (le_refl _))

theorem IsStr.head (h : IsStr m p (c :: s)) : m p = c := h.bytes 0 (Nat.zero_le _)

theorem IsStr.head_ne (h : IsStr m p (c :: s)) : c ≠ 0 := fun hc => h.str (hc ▸ List.mem_cons_self)

theorem IsStr.suffix (h : IsStr m p (u ++ v)) : IsStr m (p + u.length) v := by
  have haddr := h.addr
  refine ⟨by omega, ?_, fun hz => h.str (List.mem_append_right u hz)⟩
  intro i hi
  rw [Nat.add_assoc, h.bytes _ (by rw [List.length_append]; omega),
    List.getD_append_right _ _ _ _ (Nat.le_add_right _ _), Nat.add_sub_cancel_left]

theorem IsStr.tail (h : IsStr m p (c :: s)) : IsStr m (p + 1) s := h.suffix (u := [c])

theorem IsStr.cons (hp : p ≠ 0) (hc : m p = c) (hne : c ≠ 0) (h : IsStr m (p + 1) s) : IsStr m p (c :: s) := by
  refine ⟨hp, ?_, List.not_mem_cons_of_ne_of_not_mem hne.symm h.str⟩
  intro i hi
  cases i with
  | zero => exact hc
  | succ i =>
      rw [List.getD_cons_succ, Nat.add_comm i, ← Nat.add_assoc]
      exact h.bytes i (Nat.le_of_succ_le_succ hi)

/-- The string at the start of a text in memory ends at the first zero. -/
theorem isStr_takeWhile (hp : p ≠ 0) (hm : ∀ i, i ≤ s.length → m (p + i) = s.getD i 0) :
    IsStr m p (s.takeWhile (· ≠ 0)) := by
  induction s generalizing p with
  | nil => exact ⟨hp, hm, List.not_mem_nil⟩
  | cons c s ih =>
      have hc : m p = c := hm 0 (Nat.zero_le _)
      by_cases hz : c = 0
      · subst hz
        refine ⟨hp, fun i hi => ?_, List.not_mem_nil⟩
        cases Nat.le_zero.mp hi
        exact hc
      · rw [List.takeWhile_cons_of_pos (by simpa using hz)]
        refine .cons hp hc hz (ih (Nat.succ_ne_zero p) fun i hi => ?_)
        rw [Nat.add_assoc, Nat.add_comm 1, hm (i + 1) (Nat.succ_le_succ hi), List.getD_cons_succ]

/-- A zero written into a string leaves two strings. -/
theorem IsStr.cut (h : IsStr m p (u ++ c :: v)) :
    IsStr (Function.update m (p + u.length) 0) p u ∧ IsStr (Function.update m (p + u.length) 0) (p + u.length + 1) v := by
  constructor
  · refine ⟨h.addr, ?_, fun hz => h.str (List.mem_append_left _ hz)⟩
    intro i hi
    rcases Nat.eq_or_lt_of_le hi with rfl | hlt
    · rw [Function.update_self, List.getD_eq_default _ _ (le_refl _)]
    · rw [Function.update_of_ne (by omega), h.bytes i (by rw [List.length_append]; omega),
        List.getD_append _ _ _ _ hlt]
  · apply h.suffix.tail.congr
    intro x hx _
    exact Function.update_of_ne (by omega) _ _

theorem bytes_of_bytesAt (hb : bytesAt m p s.length = s) (hend : m (p + s.length) = 0) :
    ∀ i, i ≤ s.length → m (p + i) = s.getD i 0 := by
  intro i hi
  rcases Nat.eq_or_lt_of_le hi with rfl | hlt
  · rw [hend, List.getD_eq_default _ _ (le_refl _)]
  · rw [← bytesAt_getD m p 0 hlt, hb]

theorem cString_of_bytes (hb : ∀ i, i ≤ s.length → m (p + i) = s.getD i 0) (hz : 0 ∉ s) {fuel : Nat}
    (hf : s.length < fuel) : cString m fuel p = s := by
  refine cString_eq ?_ ((hb _ (le_refl _)).trans (List.getD_eq_default _ _ (le_refl _))) hz hf
  apply List.ext_getElem
  · simp [bytesAt]
  · intro i _ hi
    rw [← List.getD_eq_getElem _ 0, bytesAt_getD m p 0 hi, hb i hi.le, List.getD_eq_getElem _ _ hi]

/-- A zero ends the string in front of it. -/
theorem length_cString_le {k : Nat} (hz : m (p + k) = 0) (fuel : Nat) : (cString m fuel p).length ≤ k := by
  induction fuel generalizing p k with
  | zero => exact Nat.zero_le _
  | succ fuel ih =>
      rw [cString]
      split
      · exact Nat.zero_le _
      · rename_i hne
        cases k with
        | zero => exact absurd hz hne
        | succ k =>
            refine Nat.succ_le_succ (ih ?_)
            rw [Nat.add_assoc, Nat.add_comm 1, hz]

end IsStr
end Flan.Lib
