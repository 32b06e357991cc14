import Mathlib.Algebra.GroupWithZero.Nat
import Mathlib.Data.List.Perm.Basic
import Mathlib.Order.Interval.Finset.Nat
import Mathlib.Tactic.TypeStar

/-! Half-open ranges of naturals, and lists of ranges that do not meet. -/
namespace Flan.Lib

/-- The `len` naturals from `lo` on. -/
structure Span where
  lo : Nat
  len : Nat
  deriving DecidableEq, Repr

namespace Span

def hi (s : Span) : Nat := s.lo + s.len

def Has (s : Span) (x : Nat) : Prop := s.lo ≤ x ∧ x < s.hi

def Apart (s t : Span) : Prop := s.hi ≤ t.lo ∨ t.hi ≤ s.lo

def Within (s t : Span) : Prop := t.lo ≤ s.lo ∧ s.hi ≤ t.hi

instance (s : Span) (x : Nat) : Decidable (s.Has x) :=
  inferInstanceAs (Decidable (s.lo ≤ x ∧ x < s.hi))

instance (s t : Span) : Decidable (s.Apart t) :=
  inferInstanceAs (Decidable (s.hi ≤ t.lo ∨ t.hi ≤ s.lo))

theorem Apart.symm {s t : Span} (h : s.Apart t) : t.Apart s := Or.symm h

theorem Apart.not_has {s t : Span} {x : Nat} (h : s.Apart t) (hs : s.Has x) : ¬ t.Has x := by
  rintro ⟨hlo, hhi⟩
  rcases h with h | h
  · exact Nat.lt_irrefl x (Nat.lt_of_lt_of_le hs.2 (Nat.le_trans h hlo))
  · exact Nat.lt_irrefl x (Nat.lt_of_lt_of_le hhi (Nat.le_trans h hs.1))

/-- Ranges with no common element are apart, unless one of them is empty. -/
theorem apart_of_not_has {s t : Span} (hs : 0 < s.len) (ht : 0 < t.len)
    (h : ∀ x, s.Has x → ¬ t.Has x) : s.Apart t := by
  by_contra hn
  simp only [Apart, hi, not_or, Nat.not_le] at hn
  refine h (max s.lo t.lo) ?_ ?_
  · exact ⟨Nat.le_max_left .., by simp only [hi]; omega⟩
  · exact ⟨Nat.le_max_right .., by simp only [hi]; omega⟩

theorem Apart.within {s t s' t' : Span} (h : s.Apart t) (hs : s'.Within s) (ht : t'.Within t) :
    s'.Apart t' := by
  rcases h with h | h
  · exact .inl (Nat.le_trans hs.2 (Nat.le_trans h ht.1))
  · exact .inr (Nat.le_trans ht.2 (Nat.le_trans h hs.1))

/-- Ranges that are apart have as many elements together as one by one. -/
theorem exists_card_eq_sum {ss : List Span} (h : ss.Pairwise Apart) :
    ∃ F : Finset Nat, F.card = (ss.map len).sum ∧ ∀ x, x ∈ F ↔ ∃ s ∈ ss, s.Has x := by
  induction ss with
  | nil => exact ⟨∅, rfl, by simp⟩
  | cons s ss ih =>
      obtain ⟨hhead, htail⟩ := List.pairwise_cons.mp h
      obtain ⟨F, hcard, hmem⟩ := ih htail
      have hdisj : Disjoint (Finset.Ico s.lo s.hi) F := by
        apply Finset.disjoint_left.mpr
        intro x hx hF
        obtain ⟨t, ht, hxt⟩ := (hmem x).mp hF
        exact (hhead t ht).not_has (Finset.mem_Ico.mp hx) hxt
      refine ⟨Finset.Ico s.lo s.hi ∪ F, ?_, fun x => ?_⟩
      · rw [Finset.card_union_of_disjoint hdisj, Nat.card_Ico, hcard, List.map_cons, List.sum_cons, hi,
          Nat.add_sub_cancel_left]
      · rw [Finset.mem_union, hmem, List.exists_mem_cons_iff, Finset.mem_Ico, Has]

/-- Ranges that are apart fit into the range they all lie in. -/
theorem sum_len_le {ss : List Span} {t : Span} (h : ss.Pairwise Apart) (hin : ∀ s ∈ ss, s.Within t) :
    (ss.map len).sum ≤ t.len := by
  obtain ⟨F, hcard, hmem⟩ := exists_card_eq_sum h
  have hsub : F ⊆ Finset.Ico t.lo t.hi := by
    intro x hx
    obtain ⟨s, hs, hlo, hhi⟩ := (hmem x).mp hx
    obtain ⟨hl, hr⟩ := hin s hs
    exact Finset.mem_Ico.mpr ⟨hl.trans hlo, hhi.trans_le hr⟩
  rw [← hcard]
  refine (Finset.card_le_card hsub).trans_eq ?_
  rw [Nat.card_Ico, hi, Nat.add_sub_cancel_left]

end Span

end Flan.Lib
