import Mathlib.Data.List.GetD
import Mathlib.Logic.Function.Iterate
import Flan.Lib.Ring

/-! A list that is followed along its pointers while its end is being changed: behind the last
member they lead back to the first one, or to a null pointer. A path is such a walk from one
member to another. -/
namespace Flan.Lib
variable {α : Type*} {next prev : α → α} {z : α} {xs : List α}

structure Walk (next : α → α) (z : α) (xs : List α) : Prop where
  along : ∀ i (h : i + 1 < xs.length), next xs[i] = xs[i + 1]
  last : ∀ (h : 0 < xs.length), next xs[xs.length - 1] = xs[0] ∨ next xs[xs.length - 1] = z

/-- A pointer of a member leads to a member or is null. -/
theorem Walk.next_mem (hw : Walk next z xs) {x : α} (hx : x ∈ xs) : next x ∈ xs ∨ next x = z := by
  obtain ⟨i, hi, rfl⟩ := List.getElem_of_mem hx
  by_cases hlast : i + 1 < xs.length
  · rw [hw.along i hlast]
    exact .inl (List.getElem_mem hlast)
  · obtain rfl : i = xs.length - 1 := by omega
    rcases hw.last (by omega) with h | h
    · rw [h]
      exact .inl (List.getElem_mem _)
    · exact .inr h

theorem Walk.iterate (hw : Walk next z xs) {i k : Nat} (h : i + k < xs.length) :
    next^[k] xs[i] = xs[i + k] := by
  induction k with
  | zero => rfl
  | succ k ih =>
      rw [Function.iterate_succ_apply', ih (by omega), hw.along (i + k) (by omega)]
      rfl

/-- From every member the pointers come to any other one, or to the null pointer, before they have
been read more often than there are members. -/
theorem Walk.ends (hw : Walk next z xs) {x c : α} (hx : x ∈ xs) (hc : c ∈ xs) :
    ∃ k ≤ xs.length, next^[k] x = c ∨ next^[k] x = z := by
  obtain ⟨i, hi, rfl⟩ := List.getElem_of_mem hx
  obtain ⟨j, hj, rfl⟩ := List.getElem_of_mem hc
  by_cases hij : i ≤ j
  · refine ⟨j - i, by omega, .inl ?_⟩
    rw [hw.iterate (by omega)]
    congr 1
    omega
  · -- around the end of the list
    have hend : next^[xs.length - 1 - i] xs[i] = xs[xs.length - 1] := by
      rw [hw.iterate (by omega)]
      congr 1
      omega
    have hturn : next^[xs.length - i] xs[i] = next xs[xs.length - 1] := by
      have hsucc : xs.length - i = xs.length - 1 - i + 1 := by omega
      rw [hsucc, Function.iterate_succ_apply', hend]
    rcases hw.last (by omega) with h | h
    · refine ⟨xs.length - i + j, by omega, .inl ?_⟩
      rw [Nat.add_comm, Function.iterate_add_apply, hturn, h, hw.iterate (by omega)]
      congr 1
      omega
    · exact ⟨xs.length - i, by omega, .inr (hturn.trans h)⟩

/-- Followed as far as that, the pointers have led through members only. -/
theorem Walk.scan (hw : Walk next z xs) {x c : α} (hx : x ∈ xs) (hc : c ∈ xs) :
    ∃ k ≤ xs.length, (next^[k] x = c ∨ next^[k] x = z) ∧ ∀ j < k, next^[j] x ∈ xs := by
  classical
  have hex := hw.ends hx hc
  obtain ⟨hle, hend⟩ := Nat.find_spec hex
  refine ⟨Nat.find hex, hle, hend, fun j hj => ?_⟩
  induction j with
  | zero => exact hx
  | succ j ih =>
      rw [Function.iterate_succ_apply']
      refine (hw.next_mem (ih (by omega))).resolve_right fun hz => ?_
      refine Nat.find_min hex hj ⟨by omega, .inr ?_⟩
      rw [Function.iterate_succ_apply', hz]

theorem Ring.walk {back : α → Prop} {h : α} (hr : Ring next prev back h xs) (z : α) : Walk next z (h :: xs) := by
  refine ⟨fun i hi => ?_, fun hpos => .inl ?_⟩
  · have hget := hr.next_getElem (i := i) (by omega)
    simp only [List.get_eq_getElem, Nat.mod_eq_of_lt hi] at hget
    exact hget
  · have hget := hr.next_getElem (i := (h :: xs).length - 1) (by omega)
    simp only [List.get_eq_getElem, Nat.sub_add_cancel hpos, Nat.mod_self] at hget
    exact hget

/-- A new member behind the last one, whose own pointer is still null. -/
theorem Walk.append (hw : Walk next z xs) {next' : α → α} {A : List α} {e t : α} (hlast : xs = A ++ [e])
    (hnd : xs.Nodup) (he : next' e = t) (hz : next' t = z) (hsame : ∀ x ∈ xs, x ≠ e → next' x = next x) :
    Walk next' z (xs ++ [t]) := by
  have hlen : xs.length = A.length + 1 := by rw [hlast, List.length_append, List.length_singleton]
  refine ⟨fun i hi => ?_, fun _ => .inr ?_⟩
  · rw [List.length_append, List.length_singleton] at hi
    by_cases hlt : i + 1 < xs.length
    · have hne : xs[i] ≠ e := by
        intro heq
        have hend : xs[A.length] = e := by simp [hlast]
        have := (hnd.getElem_inj_iff).mp (heq.trans hend.symm)
        omega
      rw [List.getElem_append_left (by omega), List.getElem_append_left hlt, ← hw.along i hlt]
      exact hsame _ (List.getElem_mem _) hne
    · obtain rfl : i = A.length := by omega
      have hend : (xs ++ [t])[A.length] = e := by simp [hlast]
      have hnew : (xs ++ [t])[A.length + 1] = t := by simp [hlast]
      rw [hend, hnew, he]
  · have hnew : (xs ++ [t])[(xs ++ [t]).length - 1] = t := by simp
    rw [hnew, hz]

/-! ### Paths -/

/-- From `a` the pointers lead through the members of a list to `b`. -/
def Path (next : α → α) : α → List α → α → Prop
  | a, [], b => next a = b
  | a, u :: us, b => next a = u ∧ Path next u us b

namespace Path
variable {next' : α → α} {a b : α} {us : List α}

theorem congr (h : Path next a us b) (heq : ∀ x ∈ a :: us, next' x = next x) : Path next' a us b := by
  induction us generalizing a with
  | nil => exact (heq a List.mem_cons_self).trans h
  | cons u us ih =>
      exact ⟨(heq a List.mem_cons_self).trans h.1, ih h.2 fun x hx => heq x (List.mem_cons_of_mem a hx)⟩

theorem of_isChain {back : α → Prop} (h : (a :: us ++ [b]).IsChain (Link next prev back)) : Path next a us b := by
  induction us generalizing a with
  | nil => exact (List.isChain_cons_cons.mp h).1.1
  | cons u us ih => exact ⟨(List.isChain_cons_cons.mp h).1.1, ih (List.isChain_cons_cons.mp h).2⟩

end Path

/-- From a member of a ring to one behind it the pointers lead through the members between them. -/
theorem Ring.path {back : α → Prop} {h a b : α} {us A B : List α} (hr : Ring next prev back h xs)
    (hs : h :: xs = A ++ a :: (us ++ b :: B)) : Path next a us b := by
  have hpart : a :: us ++ [b] <:+: h :: xs ++ [h] := ⟨A, B ++ [h], by simp [hs]⟩
  apply Path.of_isChain
  exact List.IsChain.infix hr.chain hpart

end Flan.Lib
