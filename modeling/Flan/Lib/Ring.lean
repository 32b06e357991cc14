import Mathlib.Data.List.Chain
import Mathlib.Data.List.Nodup
import Mathlib.Logic.Function.Iterate
import Mathlib.Data.Nat.Find

/-! Circular doubly linked lists over arbitrary node identities. A ring is the
list of its members from a distinguished node; linking in and unlinking are
stated by the links that change, with every other member's links kept. -/
namespace Flan.Lib
variable {α : Type*} {next prev next' prev' : α → α} {h n p q : α} {U V xs A B : List α}

/-- `y` follows `x`. The back link of `y` is asked for only where `back` says so. -/
def Link (next prev : α → α) (back : α → Prop) (x y : α) : Prop :=
  next x = y ∧ (back y → prev y = x)

/-- The ring from `h` through `xs` and back to `h`. -/
structure Ring (next prev : α → α) (back : α → Prop) (h : α) (xs : List α) : Prop where
  nodup : (h :: xs).Nodup
  chain : (h :: xs ++ [h]).IsChain (Link next prev back)

/-- A relation carried along a chain may use that the left element is not the
last one and the right element is not the first one. -/
theorem isChain_imp_ends {R S : α → α → Prop} {l : List α}
    (H : ∀ a ∈ l.dropLast, ∀ b ∈ l.tail, R a b → S a b) (hl : l.IsChain R) : l.IsChain S := by
  induction l with
  | nil => exact .nil
  | cons a l ih =>
      cases l with
      | nil => exact .singleton a
      | cons b l =>
          rw [List.isChain_cons_cons] at hl ⊢
          refine ⟨H a (by simp) b (by simp) hl.1, ih ?_ hl.2⟩
          intro c hc d hd
          exact H c (by simp only [List.dropLast_cons_cons, List.mem_cons]; exact .inr hc) d
            (List.mem_of_mem_tail hd)

section Neighbours
variable {back : α → Prop} {x y : α}

/-- The links of two neighbours anywhere on the closed walk. -/
theorem Ring.link (hr : Ring next prev back h xs) (hs : h :: xs ++ [h] = A ++ x :: y :: B) :
    next x = y ∧ (back y → prev y = x) := by
  have hc := hr.chain
  rw [hs, List.isChain_append_cons_cons] at hc
  exact hc.2.1

/-- The node before the closing `h`, with everything in front of it. -/
theorem exists_last (h : α) (U : List α) : ∃ A p, h :: U = A ++ [p] := by
  rcases List.eq_nil_or_concat (h :: U) with hnil | ⟨A, p, hA⟩
  · cases hnil
  · exact ⟨A, p, by simpa using hA⟩

/-- The node after the member list, with everything behind it. -/
theorem exists_first (h : α) (V : List α) : ∃ q B, V ++ [h] = q :: B := by
  cases V with
  | nil => exact ⟨h, [], rfl⟩
  | cons q V => exact ⟨q, V ++ [h], rfl⟩

theorem Ring.congr (hr : Ring next prev back h xs)
    (hn : ∀ x ∈ h :: xs, next' x = next x) (hp : ∀ x ∈ h :: xs, back x → prev' x = prev x) :
    Ring next' prev' back h xs := by
  refine ⟨hr.nodup, hr.chain.imp_of_mem_imp ?_⟩
  intro a b ha hb hab
  have hmem : ∀ c, c ∈ h :: xs ++ [h] → c ∈ h :: xs := by
    intro c hc
    simp only [List.cons_append, List.mem_cons, List.mem_append, List.not_mem_nil, or_false] at hc ⊢
    tauto
  exact ⟨(hn a (hmem a ha)).trans hab.1,
    fun hback => (hp b (hmem b hb) hback).trans (hab.2 hback)⟩

/-- Away from the seam between `p` and `q` no link changes, so the walk from `h`
up to `p` is kept. -/
theorem keep_left (hnd : (h :: (U ++ V)).Nodup) (hp : h :: U = A ++ [p]) (hq : V ++ [h] = q :: B)
    (hnext : ∀ x ∈ h :: (U ++ V), x ≠ p → next' x = next x)
    (hprev : ∀ x ∈ h :: (U ++ V), x ≠ q → back x → prev' x = prev x)
    (hc : (A ++ [p]).IsChain (Link next prev back)) : (A ++ [p]).IsChain (Link next' prev' back) := by
  rw [← List.cons_append, List.nodup_append] at hnd
  obtain ⟨hU, _, hdis⟩ := hnd
  have hmem : ∀ c ∈ h :: U, c ∈ h :: (U ++ V) := fun c hc => by
    rw [← List.cons_append]
    exact List.mem_append_left _ hc
  refine isChain_imp_ends ?_ hc
  intro a ha b hb hab
  rw [List.dropLast_concat] at ha
  have ham : a ∈ h :: U := by rw [hp]; simp [ha]
  have hap : a ≠ p := by
    rintro rfl
    rw [hp, List.nodup_append] at hU
    exact hU.2.2 a ha a (by simp) rfl
  have hbm : b ∈ U := by rw [← hp] at hb; simpa using hb
  have hbq : b ≠ q := by
    rintro rfl
    have hin : b ∈ V ++ [h] := by rw [hq]; simp
    rcases List.mem_append.mp hin with hv | hh
    · exact hdis b (by simp [hbm]) b hv rfl
    · rw [List.mem_singleton.mp hh] at hbm
      exact (List.nodup_cons.mp hU).1 hbm
  exact ⟨(hnext a (hmem a ham) hap).trans hab.1,
    fun hback => (hprev b (hmem b (by simp [hbm])) hbq hback).trans (hab.2 hback)⟩

/-- The walk from `q` back to `h` is kept for the same reason. -/
theorem keep_right (hnd : (h :: (U ++ V)).Nodup) (hp : h :: U = A ++ [p]) (hq : V ++ [h] = q :: B)
    (hnext : ∀ x ∈ h :: (U ++ V), x ≠ p → next' x = next x)
    (hprev : ∀ x ∈ h :: (U ++ V), x ≠ q → back x → prev' x = prev x)
    (hc : (q :: B).IsChain (Link next prev back)) : (q :: B).IsChain (Link next' prev' back) := by
  rw [← List.cons_append, List.nodup_append] at hnd
  obtain ⟨_, hV, hdis⟩ := hnd
  have hcyc : (V ++ [h]).Nodup := by
    rw [List.nodup_append]
    exact ⟨hV, by simp, by simpa using fun a ha heq => hdis h (by simp) a ha heq.symm⟩
  refine isChain_imp_ends ?_ hc
  intro a ha b hb hab
  have hav : a ∈ V := by
    rw [← hq, List.dropLast_concat] at ha
    exact ha
  have hap : a ≠ p := by
    rintro rfl
    exact hdis a (by rw [hp]; simp) a hav rfl
  have hbB : b ∈ B := by simpa using hb
  have hbq : b ≠ q := by
    rintro rfl
    rw [hq] at hcyc
    exact (List.nodup_cons.mp hcyc).1 hbB
  have hbm : b ∈ h :: (U ++ V) := by
    have hin : b ∈ V ++ [h] := by rw [hq]; simp [hbB]
    simp only [List.mem_append, List.mem_cons] at hin ⊢
    tauto
  exact ⟨(hnext a (by simp [hav]) hap).trans hab.1,
    fun hback => (hprev b hbm hbq hback).trans (hab.2 hback)⟩

theorem perm_insert (h n : α) (U V : List α) : (h :: (U ++ n :: V)).Perm (n :: h :: (U ++ V)) := by
  rw [← List.cons_append, ← List.cons_append]
  exact List.perm_middle

theorem mem_of_last (hp : h :: U = A ++ [p]) : p ∈ h :: (U ++ V) := by
  rw [← List.cons_append, hp]
  simp

theorem mem_of_first (hq : V ++ [h] = q :: B) : q ∈ h :: (U ++ V) := by
  have hmem : q ∈ V ++ [h] := by rw [hq]; exact List.mem_cons_self
  rcases List.mem_append.mp hmem with hV | hh
  · exact List.mem_cons_of_mem h (List.mem_append_right U hV)
  · rw [List.mem_singleton.mp hh]
    exact List.mem_cons_self

theorem walk_split (hp : h :: U = A ++ [p]) (hq : V ++ [h] = q :: B) :
    h :: (U ++ V) ++ [h] = A ++ p :: q :: B := by
  calc h :: (U ++ V) ++ [h] = (h :: U) ++ (V ++ [h]) := by simp
    _ = A ++ p :: q :: B := by rw [hp, hq]; simp

theorem walk_split_insert (hp : h :: U = A ++ [p]) (hq : V ++ [h] = q :: B) :
    h :: (U ++ n :: V) ++ [h] = A ++ p :: n :: q :: B := by
  calc h :: (U ++ n :: V) ++ [h] = (h :: U) ++ n :: (V ++ [h]) := by simp
    _ = A ++ p :: n :: q :: B := by rw [hp, hq]; simp

/-- Taking out a node other than the last keeps the last node. -/
theorem last_remove (hlast : ∃ A, h :: (U ++ n :: V) = A ++ [p]) (hn : n ≠ p) :
    ∃ A, h :: (U ++ V) = A ++ [p] := by
  obtain ⟨C, hC⟩ := hlast
  rcases List.eq_nil_or_concat V with rfl | ⟨W, w, rfl⟩
  · have hsame : [n] = [p] :=
      (List.append_inj' (by rw [← hC]; rfl : (h :: U) ++ [n] = C ++ [p]) rfl).2
    exact absurd (List.cons.inj hsame).1 hn
  · have hsplit : (h :: (U ++ n :: W)) ++ [w] = C ++ [p] := by
      rw [← hC]
      simp
    have hw : w = p := (List.cons.inj (List.append_inj' hsplit rfl).2).1
    exact ⟨h :: (U ++ W), by rw [hw]; simp⟩

/-- Linking `n` in between `p` and `q`: four links change, the rest are kept. -/
theorem Ring.insert (hr : Ring next prev back h (U ++ V)) (hn : n ∉ h :: (U ++ V))
    (hp : h :: U = A ++ [p]) (hq : V ++ [h] = q :: B)
    (hpn : next' p = n) (hnp : prev' n = p) (hnq : next' n = q) (hqn : back q → prev' q = n)
    (hnext : ∀ x ∈ h :: (U ++ V), x ≠ p → next' x = next x)
    (hprev : ∀ x ∈ h :: (U ++ V), x ≠ q → back x → prev' x = prev x) :
    Ring next' prev' back h (U ++ n :: V) := by
  have hc := hr.chain
  rw [walk_split hp hq, List.isChain_append_cons_cons] at hc
  obtain ⟨hleft, _, hright⟩ := hc
  refine ⟨(perm_insert h n U V).nodup_iff.mpr (List.nodup_cons.mpr ⟨hn, hr.nodup⟩), ?_⟩
  rw [walk_split_insert hp hq, List.isChain_append_cons_cons, List.isChain_cons_cons]
  exact ⟨keep_left hr.nodup hp hq hnext hprev hleft, ⟨hpn, fun _ => hnp⟩, ⟨hnq, hqn⟩,
    keep_right hr.nodup hp hq hnext hprev hright⟩

/-- Unlinking `n` from between `p` and `q`. -/
theorem Ring.remove (hr : Ring next prev back h (U ++ n :: V))
    (hp : h :: U = A ++ [p]) (hq : V ++ [h] = q :: B)
    (hpq : next' p = q) (hqp : back q → prev' q = p)
    (hnext : ∀ x ∈ h :: (U ++ V), x ≠ p → next' x = next x)
    (hprev : ∀ x ∈ h :: (U ++ V), x ≠ q → back x → prev' x = prev x) :
    Ring next' prev' back h (U ++ V) := by
  have hnd : (h :: (U ++ V)).Nodup :=
    (List.nodup_cons.mp ((perm_insert h n U V).nodup_iff.mp hr.nodup)).2
  have hc := hr.chain
  rw [walk_split_insert hp hq, List.isChain_append_cons_cons, List.isChain_cons_cons] at hc
  obtain ⟨hleft, _, _, hright⟩ := hc
  refine ⟨hnd, ?_⟩
  rw [walk_split hp hq, List.isChain_append_cons_cons]
  exact ⟨keep_left hnd hp hq hnext hprev hleft, ⟨hpq, hqp⟩,
    keep_right hnd hp hq hnext hprev hright⟩

/-- The neighbours of a member, read off its links. -/
theorem Ring.neighbours (hr : Ring next prev back h (U ++ n :: V))
    (hp : h :: U = A ++ [p]) (hq : V ++ [h] = q :: B) (hb : back n) :
    next p = n ∧ prev n = p ∧ next n = q ∧ (back q → prev q = n) := by
  have hw := walk_split_insert (n := n) hp hq
  have hl := hr.link hw
  have hr' := hr.link (A := A ++ [p]) (x := n) (y := q) (B := B) (by rw [hw]; simp)
  exact ⟨hl.1, hl.2 hb, hr'.1, hr'.2⟩

/-- The node after a member, when the members behind it are `V`. -/
theorem Ring.next_mem (hr : Ring next prev back h (U ++ n :: V)) : next n = V.headD h := by
  have hs : h :: (U ++ n :: V) ++ [h] = (h :: U) ++ n :: V.headD h :: (V ++ [h]).tail := by
    cases V with
    | nil => simp
    | cons v V => simp
  exact (hr.link hs).1

theorem Ring.next_head (hr : Ring next prev back h xs) : next h = xs.headD h := by
  have hs : h :: xs ++ [h] = [] ++ h :: xs.headD h :: (xs ++ [h]).tail := by
    cases xs with
    | nil => simp
    | cons x xs => simp
  exact (hr.link hs).1

/-- Members of two rings with the same links are the same from equal places on. -/
theorem Ring.suffix_unique {ys W : List α} (hr : Ring next prev back h xs)
    (hr₂ : Ring next prev back h ys) (hV : ∃ U, xs = U ++ V) (hW : ∃ U, ys = U ++ W)
    (hhead : V.headD h = W.headD h) : V = W := by
  have hne : ∀ {zs U V : List α} {v : α}, Ring next prev back h zs → zs = U ++ v :: V → v ≠ h := by
    rintro zs U V v hz rfl rfl
    exact (List.nodup_cons.mp hz.nodup).1 (by simp)
  obtain ⟨U, hU⟩ := hV
  obtain ⟨U₂, hU₂⟩ := hW
  induction V generalizing U U₂ W with
  | nil =>
      cases W with
      | nil => rfl
      | cons w W => exact absurd hhead.symm (hne hr₂ hU₂)
  | cons v V ih =>
      cases W with
      | nil => exact absurd hhead (hne hr hU)
      | cons w W =>
          obtain rfl : v = w := hhead
          subst hU hU₂
          have hnext : V.headD h = W.headD h := hr.next_mem.symm.trans hr₂.next_mem
          rw [ih hnext (U ++ [v]) (by simp) (U₂ ++ [v]) (by simp)]

/-- The links determine the members. -/
theorem Ring.unique {ys : List α} (hr : Ring next prev back h xs)
    (hr₂ : Ring next prev back h ys) : xs = ys :=
  hr.suffix_unique hr₂ ⟨[], rfl⟩ ⟨[], rfl⟩ (hr.next_head.symm.trans hr₂.next_head)

end Neighbours

section Walk
variable {back : α → Prop}

/-- Position `i + 1` of the member list, wrapping at the end. -/
theorem Ring.next_getElem (hr : Ring next prev back h xs) {i : Nat} (hi : i < (h :: xs).length) :
    next ((h :: xs).get ⟨i, hi⟩) =
      (h :: xs).get ⟨(i+1) % (h :: xs).length, Nat.mod_lt _ (Nat.succ_pos _)⟩ := by
  have hc := List.isChain_iff_getElem.mp hr.chain i (by simpa using hi)
  rw [List.getElem_append_left hi] at hc
  rw [List.get_eq_getElem, hc.1]
  rcases Nat.lt_or_ge (i+1) (h :: xs).length with hlt | hge
  · rw [List.getElem_append_left hlt]
    simp only [List.get_eq_getElem, Nat.mod_eq_of_lt hlt]
  · have hend : i + 1 = (h :: xs).length := by omega
    have hz : (i+1) % (h :: xs).length = 0 := by rw [hend, Nat.mod_self]
    rw [List.getElem_append_right hge]
    simp only [List.get_eq_getElem, hz]
    simp [hend]

/-- Following `next` walks the member list cyclically. -/
theorem Ring.iterate_next (hr : Ring next prev back h xs) {i : Nat} (hi : i < (h :: xs).length)
    (k : Nat) : next^[k] ((h :: xs).get ⟨i, hi⟩) =
      (h :: xs).get ⟨(i+k) % (h :: xs).length, Nat.mod_lt _ (Nat.succ_pos _)⟩ := by
  induction k with
  | zero => simp only [Function.iterate_zero, id, Nat.add_zero, Nat.mod_eq_of_lt hi]
  | succ k ih =>
      rw [Function.iterate_succ_apply', ih, hr.next_getElem]
      congr 2
      rw [Nat.mod_add_mod, Nat.add_assoc]

/-- The walk from a member reaches exactly the members. -/
theorem Ring.mem_iff_iterate (hr : Ring next prev back h xs) {t u : α} (ht : t ∈ h :: xs) :
    u ∈ h :: xs ↔ ∃ k, next^[k] t = u := by
  obtain ⟨i, hi⟩ := List.mem_iff_get.mp ht
  constructor
  · intro hu
    obtain ⟨j, hj⟩ := List.mem_iff_get.mp hu
    refine ⟨(h :: xs).length - i.val + j.val, ?_⟩
    have hturn : (i.val + ((h :: xs).length - i.val + j.val)) % (h :: xs).length = j.val := by
      rw [show i.val + ((h :: xs).length - i.val + j.val) = j.val + (h :: xs).length by omega,
        Nat.add_mod_right, Nat.mod_eq_of_lt j.isLt]
    rw [← hi, hr.iterate_next i.isLt, ← hj]
    exact congrArg _ (Fin.ext hturn)
  · rintro ⟨k, rfl⟩
    rw [← hi, hr.iterate_next i.isLt]
    exact List.get_mem _ _

/-- The walk comes back after one turn. -/
theorem Ring.iterate_length (hr : Ring next prev back h xs) {t : α} (ht : t ∈ h :: xs) :
    next^[(h :: xs).length] t = t := by
  obtain ⟨i, hi⟩ := List.mem_iff_get.mp ht
  rw [← hi, hr.iterate_next i.isLt]
  refine congrArg _ (Fin.ext ?_)
  simp only [Nat.add_mod_right, Nat.mod_eq_of_lt i.isLt]

/-- Another member is met before the walk comes back to its start. -/
theorem Ring.exists_visit (hr : Ring next prev back h xs) {t u : α} (ht : t ∈ h :: xs)
    (hu : u ∈ h :: xs) (hne : t ≠ u) :
    ∃ k, 0 < k ∧ next^[k] t = u ∧ ∀ j, 0 < j → j < k → next^[j] t ≠ t := by
  classical
  have hex : ∃ k, next^[k] t = u := (hr.mem_iff_iterate ht).mp hu
  refine ⟨Nat.find hex, ?_, Nat.find_spec hex, ?_⟩
  · rcases Nat.eq_zero_or_pos (Nat.find hex) with hz | hpos
    · exact False.elim (hne (by simpa [hz] using Nat.find_spec hex))
    · exact hpos
  · -- An earlier return to `t` would give a shorter way to `u`.
    intro j hj hlt hback
    apply Nat.find_min hex (m := Nat.find hex - j) (by omega)
    have hsplit := Nat.find_spec hex
    rw [show Nat.find hex = (Nat.find hex - j) + j by omega, Function.iterate_add_apply, hback] at hsplit
    exact hsplit

/-- A member that is its own successor is the whole ring. -/
theorem Ring.eq_nil_of_fixed (hr : Ring next prev back h xs) {t : α} (ht : t ∈ h :: xs)
    (hfix : next t = t) : xs = [] ∧ t = h := by
  have hall : ∀ u ∈ h :: xs, u = t := by
    intro u hu
    obtain ⟨k, rfl⟩ := (hr.mem_iff_iterate ht).mp hu
    exact Function.iterate_fixed hfix k
  refine ⟨?_, (hall h (by simp)).symm⟩
  cases xs with
  | nil => rfl
  | cons x xs =>
      have hh := hall h (by simp)
      have hx := hall x (by simp)
      exact False.elim ((List.nodup_cons.mp hr.nodup).1 (by rw [hh, ← hx]; simp))

end Walk

end Flan.Lib
