import Flan.Lib.Radix
import Flan.Memory.Vmm

/-! The tables in memory as a radix tree of four levels. Every operation grows
the tree by blank tables and changes at most one cell of the last level. -/
namespace Flan.Memory
open Flan.Lib

abbrev Slot := Fin 512

def entry (m : Mem) (table : Nat) (i : Slot) : Nat := read64 m (table + 8 * i)

/-- The table that a present entry points to. -/
def child (m : Mem) (table : Nat) (i : Slot) : Option Nat :=
  if entry m table i &&& 1 ≠ 0 then some (entry m table i &&& pteAddrMask) else none

def slotAt (virtual shift : Nat) : Slot := ⟨virtual / 2 ^ shift % 512, Nat.mod_lt _ (by decide)⟩

def path (virtual : Nat) : List Slot :=
  [slotAt virtual 39, slotAt virtual 30, slotAt virtual 21, slotAt virtual 12]

/-- The leaf entry of an address; zero where a table is missing. -/
def translation (m : Mem) (top virtual : Nat) : Nat :=
  lookup (child m) (entry m) 0 top (path virtual)

/-! ### Bits -/

theorem pmlIndex_eq (virtual shift : Nat) : pmlIndex virtual shift = slotAt virtual shift := by
  rw [pmlIndex, Nat.shiftRight_and_distrib, Nat.shiftLeft_shiftRight, Nat.shiftRight_eq_div_pow]
  exact Nat.and_two_pow_sub_one_eq_mod _ 9

/-- Bits 12 to 47 are all that the four indices see. -/
theorem path_eq_iff {v v' : Nat} :
    path v = path v' ↔ v / frameSize % 2 ^ 36 = v' / frameSize % 2 ^ 36 := by
  simp only [path, slotAt, frameSize, List.cons.injEq, Fin.mk.injEq, and_true]
  omega

theorem translation_congr {m : Mem} {top top' virtual : Nat}
    (h : child m top (slotAt virtual 39) = child m top' (slotAt virtual 39)) :
    translation m top virtual = translation m top' virtual := by
  simp only [translation, lookup, path, reach, h]

theorem translation_absent {m : Mem} {top virtual : Nat}
    (h : child m top (slotAt virtual 39) = none) : translation m top virtual = 0 := by
  simp only [translation, lookup, path, reach, h, Option.bind_none]

theorem mask_frame {b : Nat} (hb : b < 2 ^ 40) : (frameSize * b) &&& pteAddrMask = frameSize * b := by
  have hshift : frameSize * b = b <<< 12 := by
    rw [Nat.shiftLeft_eq, Nat.mul_comm]
    rfl
  have hmask : pteAddrMask = (2 ^ 40 - 1) <<< 12 := by decide
  rw [hshift, hmask, ← Nat.shiftLeft_and_distrib, Nat.and_two_pow_sub_one_eq_mod,
    Nat.mod_eq_of_lt hb]

/-- An address and flags that keep out of its bits come apart again. -/
theorem mask_or {b flags : Nat} (hb : b < 2 ^ 40) (hf : flags &&& pteAddrMask = 0) :
    (frameSize * b ||| flags) &&& pteAddrMask = frameSize * b := by
  rw [Nat.and_or_distrib_right, mask_frame hb, hf, Nat.or_zero]

/-! ### Reading and writing tables -/

section Cells
variable {m : Mem} {a c v : Nat} {i j : Slot}

/-- A table is a whole frame. -/
def Framed (a : Nat) : Prop := frameSize ∣ a

theorem Framed.apart (ha : Framed a) (hc : Framed c) (h : a ≠ c) :
    a + frameSize ≤ c ∨ c + frameSize ≤ a := by
  obtain ⟨k, rfl⟩ := ha
  obtain ⟨l, rfl⟩ := hc
  rw [frameSize] at h ⊢
  omega

theorem entry_lt (m : Mem) (a : Nat) (i : Slot) : entry m a i < 2 ^ 64 := read64_lt ..

theorem entry_write_same (hv : v < 2 ^ 64) : entry (write64 m (a + 8 * i) v) a i = v :=
  read64_write64_same hv

theorem entry_write_ne (ha : Framed a) (hc : Framed c) (h : ¬ (c = a ∧ j = i)) :
    entry (write64 m (a + 8 * i) v) c j = entry m c j := by
  apply read64_write64_apart
  have hi := i.isLt
  have hj := j.isLt
  by_cases hca : c = a
  · have hji : (j : Nat) ≠ i := fun hji => h ⟨hca, Fin.ext hji⟩
    subst hca
    omega
  · have hapart := hc.apart ha hca
    rw [frameSize] at hapart
    omega

theorem entry_memset_same {b n k : Nat} (hlo : b ≤ k) (hhi : k < b + n) :
    entry (memset m (frameSize * b) 0 (n * frameSize)) (frameSize * k) j = 0 := by
  have hj := j.isLt
  rw [frameSize]
  exact read64_memset_zero (by omega) (by omega)

theorem entry_memset_ne {b n k : Nat} (h : k < b ∨ b + n ≤ k) :
    entry (memset m (frameSize * b) 0 (n * frameSize)) (frameSize * k) j = entry m (frameSize * k) j := by
  apply read64_memset_outside
  have hj := j.isLt
  rw [frameSize]
  omega

/-- The copy loop gives `top` the slots of the kernel from 256 on. -/
theorem entry_copySlots {top kernel : Nat} (htop : Framed top) (hkernel : Framed kernel)
    (hne : kernel ≠ top) (hc : Framed c) {n : Nat} (hn : n ≤ 256) :
    entry (copySlots m top kernel n) c j =
      if c = top ∧ 256 ≤ (j : Nat) ∧ (j : Nat) < 256 + n then entry m kernel j else entry m c j := by
  induction n generalizing c j with
  | zero => rw [if_neg (by omega), copySlots]
  | succ n ih =>
      let slot : Slot := ⟨256 + n, by omega⟩
      have hcopy : copySlots m top kernel (n+1) = write64 (copySlots m top kernel n)
        (top + 8 * (slot : Nat)) (entry (copySlots m top kernel n) kernel slot) := rfl
      have hsrc : entry (copySlots m top kernel n) kernel slot = entry m kernel slot := by
        rw [ih hkernel (by omega), if_neg fun h => hne h.1]
      rw [hcopy, hsrc]
      by_cases hcell : c = top ∧ j = slot
      · obtain ⟨rfl, rfl⟩ := hcell
        rw [entry_write_same (entry_lt ..), if_pos ⟨rfl, by simp [slot]⟩]
      · rw [entry_write_ne htop hc hcell, ih hc (by omega)]
        have hj : c = top → (j : Nat) ≠ 256 + n := fun h hj => hcell ⟨h, Fin.ext hj⟩
        exact if_congr ⟨fun h => ⟨h.1, h.2.1, by omega⟩,
          fun h => ⟨h.1, h.2.1, by have := hj h.1; omega⟩⟩ rfl rfl

theorem child_congr {m m' : Mem} (h : entry m' a i = entry m a i) : child m' a i = child m a i := by
  rw [child, child, h]

theorem child_none (h : entry m a i = 0) : child m a i = none := by
  rw [child, h]
  rfl

end Cells

/-! ### The tree -/

section Tree
variable {σ : Type} {F : FrameSource σ} {s s' s'' : Vmm σ} {lev lev' lev'' : Nat → Nat}
  {m m' m'' : Mem} {a top virtual : Nat} {i : Slot} {ks : List Slot}

/-- The top-level slots that `vmm_new_pagemap` copies. -/
def Upper (i : Slot) : Prop := 256 ≤ (i : Nat)

instance (i : Slot) : Decidable (Upper i) := inferInstanceAs (Decidable (256 ≤ (i : Nat)))

/-- `lev` gives the tables their levels, from 4 at a top down to 1; every table
is a frame of its own that the source has handed out. -/
structure Tables (F : FrameSource σ) (s : Vmm σ) (lev : Nat → Nat) : Prop where
  frame : ∀ a, lev a ≠ 0 → ∃ b, a = frameSize * b ∧ b < 2 ^ 40 ∧ F.Taken s.src b
  depth : ∀ a, lev a ≤ 4
  levelled : Levelled (child s.mem) lev
  unshared : Unshared (child s.mem) lev 4 Upper

/-- Every entry, of any level, under a slot from 256 on is as before. -/
def UpperSame (m m' : Mem) (top : Nat) : Prop :=
  ∀ i is, Upper i → is.length ≤ 3 →
    cellAt (child m') (entry m') top (i :: is) = cellAt (child m) (entry m) top (i :: is)

/-- The tables that were there stay, with their levels and the children they
have; what comes to them are frames that nobody held. -/
structure Keeps (F : FrameSource σ) (s : Vmm σ) (lev : Nat → Nat) (s' : Vmm σ) (lev' : Nat → Nat) :
    Prop where
  tables : Tables F s' lev'
  level : ∀ x, lev x ≠ 0 → lev' x = lev x
  child : ∀ x i c, 2 ≤ lev x → child s.mem x i = some c → child s'.mem x i = some c
  taken : ∀ f, F.Taken s.src f → F.Taken s'.src f
  fresh : ∀ b, lev' (frameSize * b) ≠ 0 → lev (frameSize * b) ≠ 0 ∨ ¬ F.Taken s.src b

/-- The tables have grown and all leaf entries are as before. -/
structure Grows (F : FrameSource σ) (s : Vmm σ) (lev : Nat → Nat) (s' : Vmm σ) (lev' : Nat → Nat) :
    Prop extends Keeps F s lev s' lev' where
  same : ∀ x is, lev x = is.length →
    lookup (Memory.child s'.mem) (entry s'.mem) 0 x is = lookup (Memory.child s.mem) (entry s.mem) 0 x is

/-- Entries that point to tables have the flag. -/
def Flagged (flag : Nat) (m : Mem) (lev : Nat → Nat) : Prop :=
  ∀ x i c, 2 ≤ lev x → child m x i = some c → entry m x i &&& flag ≠ 0

/-- Frames in use that are no tables keep their bytes, and the tables the flags that
new ones get. -/
structure Quiet (F : FrameSource σ) (s : Vmm σ) (lev : Nat → Nat) (s' : Vmm σ) (lev' : Nat → Nat) :
    Prop where
  bytes : ∀ x, F.Taken s.src (x / frameSize) → lev (frameSize * (x / frameSize)) = 0 → s'.mem x = s.mem x
  flags : ∀ flag, 7 &&& flag ≠ 0 → Flagged flag s.mem lev → Flagged flag s'.mem lev'

theorem Quiet.user (h : Quiet F s lev s' lev') (hu : Flagged pteUser s.mem lev) : Flagged pteUser s'.mem lev' :=
  h.flags pteUser (by decide) hu

theorem Keeps.trans (h : Keeps F s lev s' lev') (h' : Keeps F s' lev' s'' lev'') :
    Keeps F s lev s'' lev'' := by
  refine ⟨h'.tables, fun x hx => ?_, fun x i c hx hc => ?_, fun f hf => h'.taken f (h.taken f hf), ?_⟩
  · have hx' := h.level x hx
    rw [h'.level x (hx' ▸ hx), hx']
  · have hx' := h.level x (by omega)
    exact h'.child x i c (hx' ▸ hx) (h.child x i c hx hc)
  · intro b hb
    rcases h'.fresh b hb with hold | hfree
    · exact h.fresh b hold
    · exact .inr fun htaken => hfree (h.taken b htaken)

/-- A frame in use does not become a table. -/
theorem Keeps.no_table (h : Keeps F s lev s' lev') {b : Nat} (hb : F.Taken s.src b)
    (hlev : lev (frameSize * b) = 0) : lev' (frameSize * b) = 0 := by
  by_contra hne
  rcases h.fresh b hne with hold | hfree
  · exact hold hlev
  · exact hfree hb

theorem Quiet.refl : Quiet F s lev s lev := ⟨fun _ _ _ => rfl, fun _ _ h => h⟩

theorem Quiet.trans (h : Quiet F s lev s' lev') (hk : Keeps F s lev s' lev')
    (h' : Quiet F s' lev' s'' lev'') : Quiet F s lev s'' lev'' := by
  refine ⟨fun x hx hlev => ?_, fun flag hflag hold => h'.flags flag hflag (h.flags flag hflag hold)⟩
  rw [h'.bytes x (hk.taken _ hx) (hk.no_table hx hlev), h.bytes x hx hlev]

/-- Tables with the entries they had, and one more table or top. -/
theorem Flagged.update {flag n : Nat} (hu : Flagged flag m lev)
    (hold : ∀ x k, 2 ≤ lev x → entry m' x k = entry m x k ∨ entry m' x k &&& flag ≠ 0)
    (hnew : ∀ k c, child m' a k = some c → entry m' a k &&& flag ≠ 0) :
    Flagged flag m' (Function.update lev a n) := by
  intro x k c hx hc
  by_cases hxa : x = a
  · subst hxa
    exact hnew k c hc
  · rw [Function.update_of_ne hxa] at hx
    rcases hold x k hx with heq | hflag
    · rw [heq]
      rw [child_congr heq] at hc
      exact hu x k c hx hc
    · exact hflag

theorem Flagged.congr {flag : Nat} (hu : Flagged flag m lev)
    (hold : ∀ x k, 2 ≤ lev x → entry m' x k = entry m x k) : Flagged flag m' lev := by
  intro x k c hx hc
  rw [hold x k hx]
  rw [child_congr (hold x k hx)] at hc
  exact hu x k c hx hc

theorem Grows.refl (ht : Tables F s lev) : Grows F s lev s lev :=
  ⟨⟨ht, fun _ _ => rfl, fun _ _ _ _ h => h, fun _ h => h, fun _ h => .inl h⟩, fun _ _ _ => rfl⟩

theorem Grows.trans (h : Grows F s lev s' lev') (h' : Grows F s' lev' s'' lev'') :
    Grows F s lev s'' lev'' := by
  refine ⟨h.toKeeps.trans h'.toKeeps, fun x is hx => ?_⟩
  by_cases hz : lev x = 0
  · have his : is = [] := List.length_eq_zero_iff.mp (hx ▸ hz)
    rw [his, lookup_nil, lookup_nil]
  · rw [h'.same x is ((h.level x hz).trans hx), h.same x is hx]

theorem Tables.none : Tables F s fun _ => 0 :=
  ⟨fun _ h => absurd rfl h, fun _ => by decide, fun _ _ _ h => absurd h (by decide),
    fun _ _ _ _ _ h => absurd h (by decide)⟩

theorem Tables.framed (ht : Tables F s lev) (ha : lev a ≠ 0) : Framed a := by
  obtain ⟨b, rfl, -⟩ := ht.frame a ha
  exact ⟨b, rfl⟩

/-- A frame that nobody holds is no table. -/
theorem Tables.level_fresh (ht : Tables F s lev) {b : Nat} (hb : ¬ F.Taken s.src b) :
    lev (frameSize * b) = 0 := by
  by_contra h
  obtain ⟨b', heq, -, htaken⟩ := ht.frame _ h
  have hbb : b = b' := Nat.eq_of_mul_eq_mul_left (by decide) heq
  exact hb (hbb ▸ htaken)

/-- Entries that are cleared take tables away and add none. -/
theorem Tables.cleared (ht : Tables F s lev) (s' : Vmm σ)
    (hmem : ∀ x k, lev x ≠ 0 → entry s'.mem x k = entry s.mem x k ∨ entry s'.mem x k = 0)
    (hsrc : ∀ f, F.Taken s.src f → F.Taken s'.src f) : Tables F s' lev := by
  have hchild : ∀ x k y, 2 ≤ lev x → child s'.mem x k = some y → child s.mem x k = some y := by
    intro x k y hx hy
    rcases hmem x k (by omega) with heq | hz
    · rw [child_congr heq] at hy
      exact hy
    · rw [child_none hz] at hy
      cases hy
  refine ⟨?_, ht.depth, ?_, ?_⟩
  · intro x hx
    obtain ⟨b, heq, hb, htaken⟩ := ht.frame x hx
    exact ⟨b, heq, hb, hsrc b htaken⟩
  · exact fun x k y hx hy => ht.levelled x k y hx (hchild x k y hx hy)
  · intro x k x' k' y hx hxx hy hy'
    exact ht.unshared x k x' k' y hx hxx (hchild x k y hx hy) (hchild x' k' y (hxx ▸ hx) hy')

/-- Writes outside the tables leave the tree as it is. -/
theorem Tables.outside (ht : Tables F s lev) (s' : Vmm σ)
    (hmem : ∀ x k, lev x ≠ 0 → entry s'.mem x k = entry s.mem x k)
    (hsrc : ∀ f, F.Taken s.src f → F.Taken s'.src f) : Grows F s lev s' lev := by
  have hchild : ∀ x k, 2 ≤ lev x → child s'.mem x k = child s.mem x k :=
    fun x k hx => child_congr (hmem x k (by omega))
  refine ⟨⟨ht.cleared s' (fun x k hx => .inl (hmem x k hx)) hsrc, fun _ _ => rfl, ?_, hsrc,
    fun _ h => .inl h⟩, ?_⟩
  · exact fun x k c hx hc => (hchild x k hx).trans hc
  · exact fun x is hx => lookup_congr ht.levelled hchild (fun y k hy => hmem y k (by omega)) hx

/-- Zeroed frames from the source. -/
theorem pmmCalloc_some {n : Nat} (hn : 0 < n) (h : (pmmCalloc F s n).1 ≠ 0) : ∃ b,
    pmmCalloc F s n =
      (frameSize * b, ⟨memset s.mem (frameSize * b) 0 (n * frameSize), (F.malloc s.src n).2⟩) ∧
    b + n ≤ 2 ^ 40 ∧ ∀ k, b ≤ k → k < b + n → ¬ F.Taken s.src k ∧ F.Taken (F.malloc s.src n).2 k := by
  obtain ⟨b, hptr, hlt, hnew⟩ := F.fresh s.src n hn h
  refine ⟨b, ?_, hlt, hnew⟩
  have hsize : n * frameSize % 2 ^ 64 = n * frameSize :=
    Nat.mod_eq_of_lt (by rw [frameSize]; omega)
  simp only [pmmCalloc, hptr, hsize]

theorem pmmCalloc_one (h : (pmmCalloc F s 1).1 ≠ 0) : ∃ b,
    pmmCalloc F s 1 =
      (frameSize * b, ⟨memset s.mem (frameSize * b) 0 (1 * frameSize), (F.malloc s.src 1).2⟩) ∧
    b < 2 ^ 40 ∧ ¬ F.Taken s.src b ∧ F.Taken (F.malloc s.src 1).2 b := by
  obtain ⟨b, heq, hlt, hnew⟩ := pmmCalloc_some (by decide) h
  exact ⟨b, heq, hlt, hnew b (le_refl b) (Nat.lt_succ_self b)⟩

/-- Frames that are handed out are no tables yet, so zeroing them is harmless. -/
theorem Tables.calloc_keeps (ht : Tables F s lev) {n : Nat} (h : (pmmCalloc F s n).1 ≠ 0) (x : Nat)
    (k : Slot) (hx : lev x ≠ 0) : entry (pmmCalloc F s n).2.mem x k = entry s.mem x k := by
  cases n with
  | zero => simp only [pmmCalloc, Nat.zero_mul, Nat.zero_mod, memset]
  | succ n =>
      obtain ⟨b, heq, -, hnew⟩ := pmmCalloc_some n.succ_pos h
      rw [heq]
      obtain ⟨c, rfl, -, htaken⟩ := ht.frame x hx
      refine entry_memset_ne ?_
      by_contra hin
      exact (hnew c (by omega) (by omega)).1 htaken

theorem Tables.calloc (ht : Tables F s lev) {n : Nat} (h : (pmmCalloc F s n).1 ≠ 0) :
    Grows F s lev (pmmCalloc F s n).2 lev :=
  ht.outside _ (ht.calloc_keeps h) fun f => F.keeps s.src n f

theorem memset_other {b n x : Nat} (h : x / frameSize < b ∨ b + n ≤ x / frameSize) :
    memset m (frameSize * b) 0 (n * frameSize) x = m x := by
  apply memset_outside
  rw [frameSize] at h ⊢
  omega

theorem Tables.calloc_quiet (ht : Tables F s lev) {n : Nat} (hn : 0 < n) (h : (pmmCalloc F s n).1 ≠ 0) :
    Quiet F s lev (pmmCalloc F s n).2 lev := by
  refine ⟨fun x hx _ => ?_, fun _ _ hold => hold.congr fun x k hx => ht.calloc_keeps h x k (by omega)⟩
  obtain ⟨b, heq, -, hnew⟩ := pmmCalloc_some hn h
  rw [heq]
  refine memset_other ?_
  by_contra hin
  exact (hnew _ (by omega) (by omega)).1 hx

/-- The memory after `get_next_level` has hung the new table `c` into a cell. -/
def hung (m : Mem) (a : Nat) (i : Slot) (c : Nat) : Mem :=
  write64 (memset m c 0 (1 * frameSize)) (a + 8 * i) (c ||| ptePresent ||| pteWritable ||| pteUser)

theorem getNextLevel_cases {r : Nat × Vmm σ} (h : getNextLevel F s a i = some r) :
    (child s.mem a i = some r.1 ∧ r.2 = s) ∨
    (child s.mem a i = none ∧ ∃ b, r = (frameSize * b, ⟨hung s.mem a i (frameSize * b), (F.malloc s.src 1).2⟩) ∧
      b < 2 ^ 40 ∧ ¬ F.Taken s.src b ∧ F.Taken (F.malloc s.src 1).2 b) := by
  simp only [getNextLevel] at h
  split at h
  case isTrue hp =>
      cases h
      exact .inl ⟨if_pos hp, rfl⟩
  case isFalse hp =>
      split at h
      case isTrue => cases h
      case isFalse hne =>
          obtain ⟨b, hcalloc, hb⟩ := pmmCalloc_one hne
          rw [hcalloc] at h
          cases h
          exact .inr ⟨if_neg hp, b, rfl, hb⟩

theorem hung_keeps (ht : Tables F s lev) (ha : 2 ≤ lev a) {b : Nat} (hfree : ¬ F.Taken s.src b)
    (x : Nat) (k : Slot) (hx : lev x ≠ 0) (hcell : ¬ (x = a ∧ k = i)) :
    entry (hung s.mem a i (frameSize * b)) x k = entry s.mem x k := by
  rw [hung, entry_write_ne (ht.framed (by omega)) (ht.framed hx) hcell]
  obtain ⟨b', rfl, -, htaken⟩ := ht.frame x hx
  have hbb : b' ≠ b := fun h : b' = b => hfree (h ▸ htaken)
  exact entry_memset_ne (by omega)

theorem or_flags (v : Nat) : v ||| ptePresent ||| pteWritable ||| pteUser = v ||| 7 := by
  have hflags : ptePresent ||| (pteWritable ||| pteUser) = 7 := by decide
  rw [Nat.or_assoc, Nat.or_assoc, hflags]

theorem hung_hangs (ht : Tables F s lev) (ha : 2 ≤ lev a) (habsent : child s.mem a i = none)
    {b : Nat} (hb : b < 2 ^ 40) (hfree : ¬ F.Taken s.src b) :
    Hangs (child s.mem) (child (hung s.mem a i (frameSize * b))) (entry s.mem)
      (entry (hung s.mem a i (frameSize * b))) 0 lev a i (frameSize * b) := by
  have hc : Framed (frameSize * b) := ⟨b, rfl⟩
  have hlev := ht.level_fresh hfree
  have hfa := ht.framed (a := a) (by omega)
  have hne : frameSize * b ≠ a := fun h : frameSize * b = a => by rw [h] at hlev; omega
  have hlt : frameSize * b ||| 7 < 2 ^ 64 := Nat.or_lt_two_pow (by rw [frameSize]; omega) (by decide)
  have hkeep := hung_keeps (i := i) ht ha hfree
  have hblank : ∀ k, entry (hung s.mem a i (frameSize * b)) (frameSize * b) k = 0 := by
    intro k
    rw [hung, entry_write_ne hfa hc fun h => hne h.1, entry_memset_same (le_refl b) b.lt_succ_self]
  refine ⟨habsent, ?_, ?_, ?_, fun k => child_none (hblank k), hblank⟩
  · rw [child, hung, or_flags, entry_write_same hlt, if_pos, mask_or hb (by decide)]
    rw [Nat.and_or_distrib_right]
    exact fun h => absurd (Nat.or_eq_zero_iff.mp h).2 (by decide)
  · exact fun x k hx hcell => child_congr (hkeep x k (by omega) hcell)
  · exact fun x k hx => hkeep x k (by omega) fun h => by rw [h.1] at hx; omega

theorem flag_or {flags flag : Nat} (v : Nat) (h : flags &&& flag ≠ 0) : (v ||| flags) &&& flag ≠ 0 := by
  rw [Nat.and_or_distrib_right]
  exact fun hz => h (Nat.or_eq_zero_iff.mp hz).2

/-- A write into a table changes no byte of another frame. -/
theorem write64_other (ha : Framed a) {x : Nat} (hx : frameSize * (x / frameSize) ≠ a) (v : Nat) :
    write64 m (a + 8 * (i : Nat)) v x = m x := by
  obtain ⟨b, rfl⟩ := ha
  have hb : x / frameSize ≠ b := fun h => hx (by rw [h])
  have hi := i.isLt
  apply write64_outside
  rw [frameSize] at hb ⊢
  omega

theorem hung_quiet (ht : Tables F s lev) (ha : 2 ≤ lev a) {b : Nat} (hb : b < 2 ^ 40)
    (hfree : ¬ F.Taken s.src b) (t : σ) :
    Quiet F s lev ⟨hung s.mem a i (frameSize * b), t⟩ (Function.update lev (frameSize * b) (lev a - 1)) := by
  have hfa := ht.framed (a := a) (by omega)
  have hlev := ht.level_fresh hfree
  have hne : frameSize * b ≠ a := fun h : frameSize * b = a => by rw [h] at hlev; omega
  have hlt : frameSize * b ||| 7 < 2 ^ 64 := Nat.or_lt_two_pow (by rw [frameSize]; omega) (by decide)
  constructor
  · intro x hx hnot
    have hxb : x / frameSize ≠ b := fun h => hfree (h ▸ hx)
    have hxa : frameSize * (x / frameSize) ≠ a := fun h => by rw [h] at hnot; omega
    exact (write64_other hfa hxa _).trans (memset_other (by omega))
  · intro flag hflag hold
    refine hold.update (fun x k hx => ?_) fun k c hc => ?_
    · by_cases hcell : x = a ∧ k = i
      · obtain ⟨rfl, rfl⟩ := hcell
        refine .inr ?_
        rw [hung, or_flags, entry_write_same hlt]
        exact flag_or _ hflag
      · exact .inl (hung_keeps ht ha hfree x k (by omega) hcell)
    · have hblank : entry (hung s.mem a i (frameSize * b)) (frameSize * b) k = 0 := by
        rw [hung, entry_write_ne hfa ⟨b, rfl⟩ fun h => hne h.1, entry_memset_same (le_refl b) b.lt_succ_self]
      rw [child_none hblank] at hc
      cases hc

/-- A frame that is a table after one more was added is an old table or the new one. -/
theorem fresh_of_update {b c k : Nat} {used : Nat → Prop} (hfree : ¬ used b)
    (hc : Function.update lev (frameSize * b) k (frameSize * c) ≠ 0) : lev (frameSize * c) ≠ 0 ∨ ¬ used c := by
  by_cases hcb : c = b
  · exact .inr (hcb ▸ hfree)
  · rw [Function.update_of_ne fun h => hcb (Nat.eq_of_mul_eq_mul_left (by decide) h)] at hc
    exact .inl hc

theorem getNextLevel_spec (ht : Tables F s lev) (ha : 2 ≤ lev a) {r : Nat × Vmm σ}
    (h : getNextLevel F s a i = some r) :
    ∃ lev', Grows F s lev r.2 lev' ∧ child r.2.mem a i = some r.1 ∧ Quiet F s lev r.2 lev' := by
  rcases getNextLevel_cases h with ⟨hchild, hs⟩ | ⟨habsent, b, rfl, hb, hfree, htaken⟩
  · rw [hs]
    exact ⟨lev, .refl ht, hchild, .refl⟩
  · have hh := hung_hangs ht ha habsent hb hfree
    have hlev := ht.level_fresh hfree
    refine ⟨Function.update lev (frameSize * b) (lev a - 1),
      ⟨⟨⟨?_, ?_, ?_, ?_⟩, ?_, ?_, fun f => F.keeps s.src 1 f, ?_⟩, ?_⟩, hh.here, hung_quiet ht ha hb hfree _⟩
    · intro x hx
      by_cases hxc : x = frameSize * b
      · exact ⟨b, hxc, hb, htaken⟩
      · rw [Function.update_of_ne hxc] at hx
        obtain ⟨b', heq, hlt, ht'⟩ := ht.frame x hx
        exact ⟨b', heq, hlt, F.keeps s.src 1 b' ht'⟩
    · intro x
      have hda := ht.depth a
      have hdx := ht.depth x
      rw [Function.update_apply]
      split <;> omega
    · exact hh.levelled ht.levelled hlev ha
    · exact hh.unshared ht.levelled ht.unshared hlev ha
    · intro x hx
      exact Function.update_of_ne (fun hxc : x = frameSize * b => hx (hxc ▸ hlev)) ..
    · intro x k c hx hc
      by_cases hcell : x = a ∧ k = i
      · rw [hcell.1, hcell.2, habsent] at hc
        cases hc
      · exact (hh.keep x k hx hcell).trans hc
    · exact fun c hc => fresh_of_update hfree hc
    · exact fun x is hx => hh.lookup_eq ht.levelled hx

/-! ### The upper half -/

theorem UpperSame.refl : UpperSame m m top := fun _ _ _ _ => rfl

theorem UpperSame.trans (h : UpperSame m m' top) (h' : UpperSame m' m'' top) :
    UpperSame m m'' top := fun i is hi hlen => (h' i is hi hlen).trans (h i is hi hlen)

/-- The upper half is the same if every cell on its paths is. -/
theorem upperSame_of_cells (htop : lev top = 4)
    (hkeep : ∀ i is q, Upper i → lev top = (i :: is).length + (3 - is.length) →
      reach (child s.mem) top (i :: is) = some q → entry m q.1 q.2 = entry s.mem q.1 q.2) :
    UpperSame s.mem m top := by
  intro i is hup hlen
  refine cellAt_eq fun ks q hpre hsame => ?_
  cases ks with
  | nil => cases hsame
  | cons j ks =>
      obtain ⟨rfl, htail⟩ := List.cons_prefix_cons.mp hpre
      have hle := htail.length_le
      have hentry := hkeep j ks q hup (by rw [htop, List.length_cons]; omega) hsame
      exact ⟨child_congr hentry, hentry⟩

theorem Tables.upper_of_same (ht : Tables F s lev) (htop : lev top = 4)
    (hkeep : ∀ x k, lev x ≠ 0 → entry m x k = entry s.mem x k) : UpperSame s.mem m top := by
  refine upperSame_of_cells htop fun i is q _ hk hsame => ?_
  have hlev := reach_level ht.levelled hk hsame
  exact hkeep q.1 q.2 (by omega)

/-- A change of one cell under a lower slot is not seen from the upper ones. -/
theorem Tables.upper_of_cell (ht : Tables F s lev) (htop : lev top = 4) {k : Nat}
    (hk : ks.length + k = 4) (hreach : reach (child s.mem) top ks = some (a, i))
    (hlow : ∀ j, ks.head? = some j → ¬ Upper j)
    (hkeep : ∀ x j, lev x ≠ 0 → ¬ (x = a ∧ j = i) → entry m x j = entry s.mem x j) :
    UpperSame s.mem m top := by
  refine upperSame_of_cells htop fun i₁ ks' q hup hk' hsame => ?_
  have hlev' := reach_level ht.levelled hk' hsame
  refine hkeep q.1 q.2 (by omega) ?_
  rintro ⟨rfl, rfl⟩
  -- The level of the cell's table gives the length of every path to it.
  have hlev := reach_level ht.levelled (show lev top = ks.length + k by omega) hreach
  obtain ⟨hpath, -⟩ := reach_inj ht.levelled ht.unshared hk' (by omega) (by omega) (by omega) hsame hreach
  exact hlow i₁ (by rw [← hpath]; rfl) hup

theorem getNextLevel_upper (ht : Tables F s lev) (htop : lev top = 4) (ha : 2 ≤ lev a) {k : Nat}
    (hk : ks.length + k = 4) (hreach : reach (child s.mem) top ks = some (a, i))
    (hlow : ∀ j, ks.head? = some j → ¬ Upper j) {r : Nat × Vmm σ}
    (h : getNextLevel F s a i = some r) : UpperSame s.mem r.2.mem top := by
  rcases getNextLevel_cases h with ⟨-, hs⟩ | ⟨habsent, b, rfl, hb, hfree, -⟩
  · rw [hs]
    exact .refl
  · exact ht.upper_of_cell htop hk hreach hlow (hung_keeps ht ha hfree)

/-! ### The descent -/

/-- The three steps of a descent, with the tables they come to. -/
structure Descent (F : FrameSource σ) (s : Vmm σ) (lev : Nat → Nat) (top virtual : Nat) (r : Nat × Vmm σ)
    (pml3 pml2 : Nat) (s₁ s₂ : Vmm σ) (lev₁ lev₂ lev₃ : Nat → Nat) : Prop where
  first : getNextLevel F s top (slotAt virtual 39) = some (pml3, s₁)
  second : getNextLevel F s₁ pml3 (slotAt virtual 30) = some (pml2, s₂)
  third : getNextLevel F s₂ pml2 (slotAt virtual 21) = some r
  grows₁ : Grows F s lev s₁ lev₁
  grows₂ : Grows F s₁ lev₁ s₂ lev₂
  grows₃ : Grows F s₂ lev₂ r.2 lev₃
  level₁ : lev₁ pml3 = 3
  level₂ : lev₂ pml2 = 2
  reach₁ : reach (child s₁.mem) top [slotAt virtual 39, slotAt virtual 30] = some (pml3, slotAt virtual 30)
  reach₂ : reach (child s₂.mem) top [slotAt virtual 39, slotAt virtual 30, slotAt virtual 21] =
    some (pml2, slotAt virtual 21)
  reach₃ : reach (child r.2.mem) top (path virtual) = some (r.1, slotAt virtual 12)
  quiet : Quiet F s lev r.2 lev₃

theorem pml1Of_descent (ht : Tables F s lev) (htop : lev top = 4) {r : Nat × Vmm σ}
    (h : pml1Of F s top virtual = some r) :
    ∃ pml3 pml2 s₁ s₂ lev₁ lev₂ lev₃, Descent F s lev top virtual r pml3 pml2 s₁ s₂ lev₁ lev₂ lev₃ := by
  simp only [pml1Of, pmlIndex_eq, Option.bind_eq_bind, Option.bind_eq_some_iff] at h
  obtain ⟨⟨pml3, s₁⟩, h₁, ⟨pml2, s₂⟩, h₂, h₃⟩ := h
  obtain ⟨lev₁, hg₁, hc₁, hq₁⟩ := getNextLevel_spec ht (by omega) h₁
  have ht₁ := hg₁.tables
  have hl₀ : lev₁ top = 4 := (hg₁.level top (by omega)).trans htop
  have hl₁ := ht₁.levelled top _ pml3 (by omega) hc₁
  obtain ⟨lev₂, hg₂, hc₂, hq₂⟩ := getNextLevel_spec ht₁ (show 2 ≤ lev₁ pml3 by omega) h₂
  have ht₂ := hg₂.tables
  have hl₀' : lev₂ top = 4 := (hg₂.level top (by omega)).trans hl₀
  have hl₁' := hg₂.level pml3 (by omega)
  have hl₂ := ht₂.levelled pml3 _ pml2 (by omega) hc₂
  obtain ⟨lev₃, hg₃, hc₃, hq₃⟩ := getNextLevel_spec ht₂ (show 2 ≤ lev₂ pml2 by omega) h₃
  -- The tables found first are still in place when the last one is there.
  have hd₁ := hg₂.child top _ pml3 (by omega) hc₁
  have he₁ := hg₃.child top _ pml3 (by omega) hd₁
  have he₂ := hg₃.child pml3 _ pml2 (by omega) hc₂
  have hquiet := (hq₁.trans hg₁.toKeeps hq₂).trans (hg₁.trans hg₂).toKeeps hq₃
  refine ⟨pml3, pml2, s₁, s₂, lev₁, lev₂, lev₃, h₁, h₂, h₃, hg₁, hg₂, hg₃, by omega, by omega, ?_, ?_, ?_, hquiet⟩
  · simp only [reach, hc₁, Option.bind_some]
  · simp only [reach, hd₁, hc₂, Option.bind_some]
  · simp only [path, reach, he₁, he₂, hc₃, Option.bind_some]

theorem Descent.level_top {r : Nat × Vmm σ} {pml3 pml2 : Nat} {s₁ s₂ : Vmm σ} {lev₁ lev₂ lev₃ : Nat → Nat}
    (hd : Descent F s lev top virtual r pml3 pml2 s₁ s₂ lev₁ lev₂ lev₃) (htop : lev top = 4) :
    lev₁ top = 4 ∧ lev₂ top = 4 := by
  have htop₁ : lev₁ top = 4 := (hd.grows₁.level top (by omega)).trans htop
  exact ⟨htop₁, (hd.grows₂.level top (by omega)).trans htop₁⟩

/-- All tables of a descent hang below one slot of the top. -/
theorem head_lower (hlow : ¬ Upper (slotAt virtual 39)) (is : List Slot) (j : Slot)
    (hj : (slotAt virtual 39 :: is).head? = some j) : ¬ Upper j := by
  cases hj
  exact hlow

/-- The descent ends at the cell of the address; one under a lower slot is not
seen from the upper ones. -/
theorem pml1Of_spec (ht : Tables F s lev) (htop : lev top = 4) {r : Nat × Vmm σ}
    (h : pml1Of F s top virtual = some r) :
    ∃ lev', Grows F s lev r.2 lev' ∧
      reach (child r.2.mem) top (path virtual) = some (r.1, slotAt virtual 12) ∧
      (¬ Upper (slotAt virtual 39) → UpperSame s.mem r.2.mem top) ∧ Quiet F s lev r.2 lev' := by
  obtain ⟨pml3, pml2, s₁, s₂, lev₁, lev₂, lev₃, hd⟩ := pml1Of_descent ht htop h
  refine ⟨lev₃, (hd.grows₁.trans hd.grows₂).trans hd.grows₃, hd.reach₃, fun hlow => ?_, hd.quiet⟩
  have hhead := head_lower hlow
  have hl₁ := hd.level₁
  have hl₂ := hd.level₂
  obtain ⟨htop₁, htop₂⟩ := hd.level_top htop
  have hu₁ := getNextLevel_upper ht htop (by omega) (k := 3) rfl rfl (hhead []) hd.first
  have hu₂ := getNextLevel_upper hd.grows₁.tables htop₁ (by omega) (k := 2) rfl hd.reach₁ (hhead _) hd.second
  have hu₃ := getNextLevel_upper hd.grows₂.tables htop₂ (by omega) (k := 1) rfl hd.reach₂ (hhead _) hd.third
  exact (hu₁.trans hu₂).trans hu₃

/-- Two addresses that lead to one cell are on one page of one top, or of two
that share the slot. -/
theorem Tables.same_page (ht : Tables F s lev) {x va : Nat} (hx : lev x = 4) (htop : lev top = 4)
    {q : Nat × Slot} (hr : reach (child s.mem) x (path va) = some q)
    (hr' : reach (child s.mem) top (path virtual) = some q) :
    path va = path virtual ∧ (x = top ∨ Upper (slotAt virtual 39)) := by
  have hlen : ∀ v, (path v).length + 0 = 4 := fun _ => rfl
  obtain ⟨hpath, hroot⟩ := reach_inj ht.levelled ht.unshared (hx.trans (hlen va).symm)
    (htop.trans (hlen virtual).symm) rfl (hlen va).le hr hr'
  refine ⟨hpath, hroot.imp id ?_⟩
  rintro ⟨-, i, hhead, hup⟩
  rw [hpath] at hhead
  cases hhead
  exact hup

theorem FrameSource.Ready.pred {t : σ} {n : Nat} (h : F.Ready t (n+1)) : F.Ready t n := by
  induction n generalizing t with
  | zero => exact trivial
  | succ n ih => exact ⟨h.1, ih h.2⟩

/-- `R n` grants `n` requests for one frame. -/
structure Grants (F : FrameSource σ) (R : Nat → σ → Prop) : Prop where
  take : ∀ n t, R (n+1) t → (F.malloc t 1).1 ≠ 0 ∧ R n (F.malloc t 1).2
  pred : ∀ n t, R (n+1) t → R n t

theorem grants_ready : Grants F fun n t => F.Ready t n := ⟨fun _ _ h => h, fun _ _ h => h.pred⟩

section Grants
variable {R : Nat → σ → Prop} (hR : Grants F R)
include hR

theorem getNextLevel_granted {n : Nat} (h : R (n+1) s.src) (a index : Nat) :
    ∃ r, getNextLevel F s a index = some r ∧ R n r.2.src := by
  by_cases hp : read64 s.mem (a + 8 * index) &&& 1 ≠ 0
  · exact ⟨(read64 s.mem (a + 8 * index) &&& pteAddrMask, s), if_pos hp, hR.pred n s.src h⟩
  · have hne : (pmmCalloc F s 1).1 ≠ 0 := (hR.take n s.src h).1
    unfold getNextLevel
    rw [if_neg hp, if_neg hne]
    exact ⟨_, rfl, show R n (F.malloc s.src 1).2 from (hR.take n s.src h).2⟩

/-- The descent needs at most three new tables. -/
theorem pml1Of_granted {n : Nat} (h : R (n+3) s.src) (top virtual : Nat) :
    ∃ r, pml1Of F s top virtual = some r ∧ R n r.2.src := by
  obtain ⟨r₁, h₁, hr₁⟩ := getNextLevel_granted hR h top (pmlIndex virtual 39)
  obtain ⟨r₂, h₂, hr₂⟩ := getNextLevel_granted hR hr₁ r₁.1 (pmlIndex virtual 30)
  obtain ⟨r₃, h₃, hr₃⟩ := getNextLevel_granted hR hr₂ r₂.1 (pmlIndex virtual 21)
  refine ⟨r₃, ?_, hr₃⟩
  simp only [pml1Of, h₁, h₂, h₃, Option.bind_eq_bind, Option.bind_some]

end Grants

theorem pml1Of_returns {n : Nat} (h : F.Ready s.src (n+3)) (top virtual : Nat) :
    ∃ r, pml1Of F s top virtual = some r ∧ F.Ready r.2.src n :=
  pml1Of_granted grants_ready h top virtual

/-- One leaf entry has been set; all others keep their values, except those of
the same page in tops that share the slot. -/
structure Sets (F : FrameSource σ) (s : Vmm σ) (lev : Nat → Nat) (s' : Vmm σ) (lev' : Nat → Nat)
    (top virtual v : Nat) : Prop extends Keeps F s lev s' lev' where
  here : ∀ va, path va = path virtual → translation s'.mem top va = v
  others : ∀ x va, lev x = 4 → ¬ (path va = path virtual ∧ (x = top ∨ Upper (slotAt virtual 39))) →
    translation s'.mem x va = translation s.mem x va
  upper : ¬ Upper (slotAt virtual 39) → UpperSame s.mem s'.mem top

theorem write_sets (ht : Tables F s lev) (htop : lev top = 4) {r : Nat × Vmm σ}
    (h : pml1Of F s top virtual = some r) {v : Nat} (hv : v < 2 ^ 64) :
    ∃ lev', Sets F s lev { r.2 with mem := write64 r.2.mem (r.1 + 8 * pmlIndex virtual 12) v } lev'
      top virtual v ∧
      Quiet F s lev { r.2 with mem := write64 r.2.mem (r.1 + 8 * pmlIndex virtual 12) v } lev' := by
  obtain ⟨lev', hg, hreach, hupper, hquiet⟩ := pml1Of_spec ht htop h
  have ht' := hg.tables
  have htop' : lev' top = 4 := (hg.level top (by omega)).trans htop
  have hpml1 : lev' r.1 = 1 := reach_level (k := 0) ht'.levelled htop' hreach
  rw [pmlIndex_eq]
  set m := write64 r.2.mem (r.1 + 8 * (slotAt virtual 12 : Nat)) v with hm
  have hentry : ∀ x k, lev' x ≠ 0 → ¬ (x = r.1 ∧ k = slotAt virtual 12) →
      entry m x k = entry r.2.mem x k := by
    intro x k hx hcell
    exact entry_write_ne (ht'.framed (by omega)) (ht'.framed hx) hcell
  have htable : ∀ x k, 2 ≤ lev' x → entry m x k = entry r.2.mem x k := by
    intro x k hx
    exact hentry x k (by omega) fun h => by rw [h.1] at hx; omega
  have hchild : ∀ x k, 2 ≤ lev' x → Memory.child m x k = Memory.child r.2.mem x k :=
    fun x k hx => child_congr (htable x k hx)
  have hlookup : ∀ x va, lev' x = 4 → translation m x va =
      if reach (Memory.child r.2.mem) x (path va) = some (r.1, slotAt virtual 12) then v
      else translation r.2.mem x va := by
    intro x va hx
    exact lookup_write ht'.levelled hchild (entry_write_same hv)
      (fun y k hy hcell => hentry y k (by omega) hcell) hx
  refine ⟨lev', ⟨⟨⟨ht'.frame, ht'.depth, ?_, ?_⟩, hg.level, ?_, hg.taken, hg.fresh⟩, ?_, ?_, ?_⟩, ?_, ?_⟩
  · exact fun x k y hx hy => ht'.levelled x k y hx (hchild x k hx ▸ hy)
  · intro x k x' k' y hx hxx hy hy'
    exact ht'.unshared x k x' k' y hx hxx (hchild x k hx ▸ hy) (hchild x' k' (hxx ▸ hx) ▸ hy')
  · intro x k c hx hc
    rw [hchild x k (by rw [hg.level x (by omega)]; exact hx)]
    exact hg.child x k c hx hc
  · intro va hva
    rw [hlookup top va htop', hva, if_pos hreach]
  · intro x va hx hother
    have hx' : lev' x = 4 := (hg.level x (by omega)).trans hx
    rw [hlookup x va hx', if_neg fun hsame => hother (ht'.same_page hx' htop' hsame hreach)]
    exact hg.same x (path va) hx
  · intro hlow
    refine (hupper hlow).trans (ht'.upper_of_cell htop' (k := 0) rfl hreach ?_ hentry)
    intro j hj
    cases hj
    exact hlow
  · intro x hx hlev
    have hne : frameSize * (x / frameSize) ≠ r.1 := by
      intro h
      have hzero := hg.no_table hx hlev
      rw [h] at hzero
      omega
    exact (write64_other (ht'.framed (by omega)) hne v).trans (hquiet.bytes x hx hlev)
  · exact fun flag hflag hold => (hquiet.flags flag hflag hold).congr htable

theorem virtToPte_spec (ht : Tables F s lev) (htop : lev top = 4) {r : Nat × Vmm σ}
    (h : virtToPte F s top virtual = some r) :
    ∃ lev', Grows F s lev r.2 lev' ∧ read64 r.2.mem r.1 = translation s.mem top virtual ∧
      Quiet F s lev r.2 lev' := by
  simp only [virtToPte, Option.bind_eq_bind, Option.bind_eq_some_iff, Option.pure_def,
    Option.some.injEq] at h
  obtain ⟨⟨pml1, s'⟩, hwalk, rfl⟩ := h
  obtain ⟨lev', hg, hreach, -, hquiet⟩ := pml1Of_spec ht htop hwalk
  refine ⟨lev', hg, ?_, hquiet⟩
  have hsame := hg.same top (path virtual) htop
  simp only [lookup, hreach] at hsame
  rw [pmlIndex_eq]
  exact hsame

theorem virtToPhys_spec {r : Nat × Vmm σ} (h : virtToPhys F s top virtual = some r) :
    ∃ p, virtToPte F s top virtual = some p ∧ r = (read64 p.2.mem p.1 &&& pteAddrMask, p.2) := by
  simp only [virtToPhys, Option.bind_eq_bind, Option.bind_eq_some_iff, Option.pure_def,
    Option.some.injEq] at h
  obtain ⟨p, hp, rfl⟩ := h
  exact ⟨p, hp, rfl⟩

theorem vmmMapPage_spec (ht : Tables F s lev) (htop : lev top = 4) {physical flags : Nat}
    (hp : physical < 2 ^ 64) (hf : flags < 2 ^ 64) {s' : Vmm σ}
    (h : vmmMapPage F s top physical virtual flags = some s') :
    ∃ lev', Sets F s lev s' lev' top virtual (physical ||| flags) ∧ Quiet F s lev s' lev' := by
  simp only [vmmMapPage, Option.bind_eq_bind, Option.bind_eq_some_iff, Option.pure_def,
    Option.some.injEq] at h
  obtain ⟨r, hwalk, rfl⟩ := h
  exact write_sets ht htop hwalk (Nat.or_lt_two_pow hp hf)

theorem vmmUnmapPage_spec (ht : Tables F s lev) (htop : lev top = 4) {s' : Vmm σ}
    (h : vmmUnmapPage F s top virtual = some s') :
    ∃ lev', Sets F s lev s' lev' top virtual 0 ∧ Quiet F s lev s' lev' := by
  simp only [vmmUnmapPage, Option.bind_eq_bind, Option.bind_eq_some_iff, Option.pure_def,
    Option.some.injEq] at h
  obtain ⟨r, hwalk, rfl⟩ := h
  exact write_sets ht htop hwalk (by decide)

/-- What holds before the loop of `vmm_map_pages` and survives each of its
calls holds after it. -/
theorem vmmMapPages_rule {P : Nat → Vmm σ → Prop} {physical flags n : Nat} (hzero : P 0 s)
    (hstep : ∀ i s₁ s₂, i < n → P i s₁ → vmmMapPage F s₁ top ((physical + i * frameSize) % 2 ^ 64)
      ((virtual + i * frameSize) % 2 ^ 64) flags = some s₂ → P (i+1) s₂)
    (h : vmmMapPages F s top physical virtual flags n = some s') : P n s' := by
  induction n generalizing s' with
  | zero =>
      cases h
      exact hzero
  | succ n ih =>
      simp only [vmmMapPages, Option.bind_eq_bind, Option.bind_eq_some_iff] at h
      obtain ⟨s₁, hrest, hlast⟩ := h
      exact hstep n s₁ s' n.lt_succ_self (ih (fun i s₁ s₂ hi => hstep i s₁ s₂ (by omega)) hrest) hlast

theorem vmmMapPages_granted {R : Nat → σ → Prop} (hR : Grants F R) {k physical flags n : Nat}
    (h : R (k + 3 * n) s.src) :
    ∃ s', vmmMapPages F s top physical virtual flags n = some s' ∧ R k s'.src := by
  induction n generalizing k with
  | zero => exact ⟨s, rfl, h⟩
  | succ n ih =>
      have hcount : k + 3 * (n + 1) = k + 3 + 3 * n := by omega
      rw [hcount] at h
      obtain ⟨s₁, hrest, hready⟩ := ih h
      obtain ⟨r, hwalk, hready'⟩ := pml1Of_granted hR hready top ((virtual + n * frameSize) % 2 ^ 64)
      simp only [vmmMapPages, hrest, Option.bind_eq_bind, Option.bind_some, vmmMapPage, hwalk,
        Option.pure_def]
      exact ⟨_, rfl, hready'⟩

theorem vmmMapPages_returns {k physical flags n : Nat} (h : F.Ready s.src (k + 3 * n)) :
    ∃ s', vmmMapPages F s top physical virtual flags n = some s' ∧ F.Ready s'.src k :=
  vmmMapPages_granted grants_ready h

theorem path_wrapped (virtual : Nat) : path (virtual % 2 ^ 64) = path virtual := by
  rw [path_eq_iff, frameSize]
  omega

/-- The loop of `vmm_map_pages`: page by page it sets the entries, as long as it does not
come round to the first one. -/
theorem vmmMapPages_leaves (ht : Tables F s lev) (htop : lev top = 4) {physical flags n : Nat} (hf : flags < 2 ^ 64)
    (hn : n ≤ 2 ^ 36) (h : vmmMapPages F s top physical virtual flags n = some s') :
    ∃ lev', Keeps F s lev s' lev' ∧ Quiet F s lev s' lev' ∧
      (∀ i, i < n → ∀ va, path va = path (virtual + i * frameSize) →
        translation s'.mem top va = (physical + i * frameSize) % 2 ^ 64 ||| flags) ∧
      ∀ va, (∀ i, i < n → path va ≠ path (virtual + i * frameSize)) →
        translation s'.mem top va = translation s.mem top va := by
  refine vmmMapPages_rule (P := fun k s₁ => ∃ lev₁, Keeps F s lev s₁ lev₁ ∧ Quiet F s lev s₁ lev₁ ∧
    (∀ i, i < k → ∀ va, path va = path (virtual + i * frameSize) →
      translation s₁.mem top va = (physical + i * frameSize) % 2 ^ 64 ||| flags) ∧
    ∀ va, (∀ i, i < k → path va ≠ path (virtual + i * frameSize)) →
      translation s₁.mem top va = translation s.mem top va) ?_ ?_ h
  · exact ⟨lev, (Grows.refl ht).toKeeps, .refl, fun _ h => absurd h (Nat.not_lt_zero _), fun _ _ => rfl⟩
  · rintro k s₁ s₂ hk ⟨lev₁, hkeeps, hquiet, hleaf, hothers⟩ hmap
    have htop₁ : lev₁ top = 4 := (hkeeps.level top (by omega)).trans htop
    obtain ⟨lev₂, hs, hq⟩ := vmmMapPage_spec hkeeps.tables htop₁ (Nat.mod_lt _ (Nat.two_pow_pos 64)) hf hmap
    have hkeep : ∀ va, path va ≠ path (virtual + k * frameSize) →
        translation s₂.mem top va = translation s₁.mem top va := by
      intro va hne
      refine hs.others top va htop₁ fun hsame => hne ?_
      rw [hsame.1, path_wrapped]
    refine ⟨lev₂, hkeeps.trans hs.toKeeps, hquiet.trans hkeeps hq, ?_, ?_⟩
    · intro i hi va heq
      by_cases hik : i = k
      · subst hik
        exact hs.here va (heq.trans (path_wrapped _).symm)
      · have hne : path (virtual + i * frameSize) ≠ path (virtual + k * frameSize) := by
          rw [ne_eq, path_eq_iff, frameSize]
          omega
        rw [hkeep va (by rwa [heq])]
        exact hleaf i (by omega) va heq
    · intro va hne
      rw [hkeep va (hne k k.lt_succ_self)]
      exact hothers va fun i hi => hne i (Nat.lt_succ_of_lt hi)

/-- The loop of `vmm_map_pages` in the lower half: page by page it maps frames
in a row, open to the user. -/
theorem vmmMapPages_spec (ht : Tables F s lev) (htop : lev top = 4) {b n : Nat} (hb : b + n ≤ 2 ^ 52)
    (hlow : virtual / frameSize + n ≤ 2 ^ 35)
    (h : vmmMapPages F s top (frameSize * b) virtual 7 n = some s') :
    ∃ lev', Keeps F s lev s' lev' ∧ Quiet F s lev s' lev' ∧
      (∀ i, i < n → ∀ va, va < 2 ^ 47 → va / frameSize = virtual / frameSize + i →
        translation s'.mem top va = frameSize * (b + i) ||| 7) ∧
      ∀ va, va < 2 ^ 47 → (∀ i, i < n → va / frameSize ≠ virtual / frameSize + i) →
        translation s'.mem top va = translation s.mem top va := by
  obtain ⟨lev', hkeeps, hquiet, hleaf, hothers⟩ := vmmMapPages_leaves ht htop (by decide)
    ((Nat.le_add_left n _).trans (hlow.trans (by decide))) h
  have hpage : ∀ i, i < n → ∀ va, va < 2 ^ 47 →
      (path va = path (virtual + i * frameSize) ↔ va / frameSize = virtual / frameSize + i) := by
    intro i hi va hva
    rw [path_eq_iff]
    rw [frameSize] at hlow ⊢
    omega
  refine ⟨lev', hkeeps, hquiet, ?_, ?_⟩
  · intro i hi va hva heq
    have hphys : (frameSize * b + i * frameSize) % 2 ^ 64 = frameSize * (b + i) := by
      rw [frameSize]
      omega
    rw [← hphys]
    exact hleaf i hi va ((hpage i hi va hva).mpr heq)
  · exact fun va hva hne => hothers va fun i hi hsame => hne i hi ((hpage i hi va hva).mp hsame)

/-! ### New tops -/

/-- `top` is a new top whose slots are empty, but for copies of upper slots of
`kernel`; everything else has only grown. -/
structure Tops (F : FrameSource σ) (s : Vmm σ) (lev : Nat → Nat) (s' : Vmm σ) (lev' : Nat → Nat)
    (top : Nat) (slots : Slot → Option Nat) : Prop extends Grows F s lev s' lev' where
  new : lev top = 0
  root : lev' top = 4
  slots : ∀ i, Memory.child s'.mem top i = slots i

theorem pmmAlloc_some {size n : Nat} (hn : (size + (frameSize - 1)) % 2 ^ 64 / frameSize = n)
    {r : Nat × Vmm σ} (h : pmmAlloc F s size = some r) :
    r = pmmCalloc F s n ∧ (pmmCalloc F s n).1 ≠ 0 := by
  simp only [pmmAlloc, hn] at h
  split at h
  case isTrue => cases h
  case isFalse hne => exact ⟨(Option.some.inj h).symm, hne⟩

/-- The tree with a frame in it as a new top. -/
theorem Tables.addTop (ht : Tables F s lev) (s' : Vmm σ) {b : Nat} (hb : b < 2 ^ 40)
    (hfree : ¬ F.Taken s.src b) (htaken : F.Taken s'.src b)
    (hsrc : ∀ f, F.Taken s.src f → F.Taken s'.src f)
    (hmem : ∀ x k, lev x ≠ 0 → entry s'.mem x k = entry s.mem x k)
    (hcopy : ∀ k y, child s'.mem (frameSize * b) k = some y →
      Upper k ∧ ∃ r, lev r = 4 ∧ child s.mem r k = some y) :
    Tops F s lev s' (Function.update lev (frameSize * b) 4) (frameSize * b)
      (child s'.mem (frameSize * b)) := by
  have hlev := ht.level_fresh hfree
  have hroots : Roots (child s.mem) (child s'.mem) lev 4 Upper (frameSize * b) :=
    ⟨fun x k hx => child_congr (hmem x k (by omega)), hcopy⟩
  have hgrows := ht.outside s' hmem hsrc
  refine ⟨⟨⟨⟨?_, ?_, ?_, ?_⟩, ?_, hgrows.child, hsrc, ?_⟩, hgrows.same⟩, hlev,
    Function.update_self .., fun _ => rfl⟩
  · intro x hx
    by_cases hxb : x = frameSize * b
    · exact ⟨b, hxb, hb, htaken⟩
    · rw [Function.update_of_ne hxb] at hx
      exact hgrows.tables.frame x hx
  · intro x
    have := ht.depth x
    rw [Function.update_apply]
    split <;> omega
  · exact hroots.levelled ht.levelled hlev (by decide)
  · exact hroots.unshared ht.unshared (by decide)
  · intro x hx
    exact Function.update_of_ne (fun h : x = frameSize * b => hx (h ▸ hlev)) ..
  · exact fun c hc => fresh_of_update hfree hc

theorem newTop_cases {r : Nat × Vmm σ} (h : newTop F s = some r) :
    ∃ s₁, (pmmCalloc F s 1).1 ≠ 0 ∧ s₁ = (pmmCalloc F s 1).2 ∧
      r = pmmCalloc F s₁ 1 ∧ (pmmCalloc F s₁ 1).1 ≠ 0 := by
  simp only [newTop, Option.bind_eq_bind, Option.bind_eq_some_iff] at h
  obtain ⟨r₁, halloc, h⟩ := h
  obtain ⟨heq, hne⟩ := pmmAlloc_some (n := 1) rfl halloc
  subst heq
  split at h
  case isTrue => cases h
  case isFalse hne' => exact ⟨_, hne, rfl, (Option.some.inj h).symm, hne'⟩

/-- The frame of a new top: blank, and nobody's before. -/
theorem newTop_frame (ht : Tables F s lev) {r : Nat × Vmm σ} (h : newTop F s = some r) :
    ∃ b, r.1 = frameSize * b ∧ b < 2 ^ 40 ∧ ¬ F.Taken s.src b ∧ F.Taken r.2.src b ∧
      (∀ f, F.Taken s.src f → F.Taken r.2.src f) ∧ (∀ k, entry r.2.mem r.1 k = 0) ∧
      ∀ x k, lev x ≠ 0 → entry r.2.mem x k = entry s.mem x k := by
  obtain ⟨s₁, hne, rfl, rfl, hne'⟩ := newTop_cases h
  have hg₁ := ht.calloc hne
  have hkeep := hg₁.tables.calloc_keeps hne'
  obtain ⟨b, heq, hb, hfree, htaken⟩ := pmmCalloc_one hne'
  have hzero : ∀ k, entry (pmmCalloc F (pmmCalloc F s 1).2 1).2.mem (frameSize * b) k = 0 := by
    rw [heq]
    exact fun k => entry_memset_same (le_refl b) b.lt_succ_self
  have hptr : (pmmCalloc F (pmmCalloc F s 1).2 1).1 = frameSize * b := by rw [heq]
  refine ⟨b, hptr, hb, fun hold => hfree (hg₁.taken b hold), htaken, ?_, hptr ▸ hzero, ?_⟩
  · exact fun f hf => F.keeps _ 1 f (hg₁.taken f hf)
  · exact fun x k hx => (hkeep x k hx).trans (ht.calloc_keeps hne x k hx)

theorem newTop_returns {n : Nat} (h : F.Ready s.src (n+2)) : ∃ r, newTop F s = some r ∧
    r.2.src = (F.malloc (F.malloc s.src 1).2 1).2 ∧ F.Ready r.2.src n := by
  have halloc : pmmAlloc F s 8 = some (pmmCalloc F s 1) := if_neg h.1
  have hne : (pmmCalloc F (pmmCalloc F s 1).2 1).1 ≠ 0 := h.2.1
  refine ⟨pmmCalloc F (pmmCalloc F s 1).2 1, ?_, rfl, h.2.2⟩
  simp only [newTop, halloc, Option.bind_eq_bind, Option.bind_some, if_neg hne]

theorem newTop_spec (ht : Tables F s lev) {r : Nat × Vmm σ} (h : newTop F s = some r) :
    ∃ lev', Tops F s lev r.2 lev' r.1 (fun _ => none) ∧
      ∀ flag, Flagged flag s.mem lev → Flagged flag r.2.mem lev' := by
  obtain ⟨b, hr, hb, hfree, htaken, hsrc, hzero, hmem⟩ := newTop_frame ht h
  have hblank : ∀ k, child r.2.mem r.1 k = none := fun k => child_none (hzero k)
  rw [hr] at hblank ⊢
  have htops := ht.addTop _ hb hfree htaken hsrc hmem fun k y hy => by rw [hblank] at hy; cases hy
  refine ⟨_, ⟨htops.toGrows, htops.new, htops.root, hblank⟩, fun flag hold => ?_⟩
  refine hold.update (fun x k hx => .inl (hmem x k (by omega))) fun k c hc => ?_
  rw [hblank] at hc
  cases hc

theorem vmmNewPagemap_spec (ht : Tables F s lev) {kernel : Nat} (hk : lev kernel = 4)
    {r : Nat × Vmm σ} (h : vmmNewPagemap F s kernel = some r) :
    ∃ lev', Tops F s lev r.2 lev' r.1 (fun i =>
      if 256 ≤ (i : Nat) then child s.mem kernel i else none) ∧
      ∀ flag, Flagged flag s.mem lev → Flagged flag r.2.mem lev' := by
  simp only [vmmNewPagemap, Option.bind_eq_bind, Option.bind_eq_some_iff, Option.pure_def,
    Option.some.injEq] at h
  obtain ⟨⟨top, s₁⟩, hnew, rfl⟩ := h
  obtain ⟨b, hr, hb, hfree, htaken, hsrc, hzero, hmem⟩ := newTop_frame ht hnew
  simp only at hr htaken hsrc hzero hmem ⊢
  have hlev : lev top = 0 := hr ▸ ht.level_fresh hfree
  have hkf : Framed kernel := ht.framed (by omega)
  have htf : Framed top := ⟨b, hr⟩
  have hne : kernel ≠ top := fun h : kernel = top => by rw [h] at hk; omega
  have hmem' : ∀ x k, lev x ≠ 0 → entry (copySlots s₁.mem top kernel 256) x k = entry s.mem x k := by
    intro x k hx
    have hxt : x ≠ top := fun h : x = top => hx (h ▸ hlev)
    rw [entry_copySlots htf hkf hne (ht.framed hx) (by decide), if_neg fun h => hxt h.1, hmem x k hx]
  have hcells : ∀ k, entry (copySlots s₁.mem top kernel 256) top k =
      if 256 ≤ (k : Nat) then entry s.mem kernel k else 0 := by
    intro k
    have hlt := k.isLt
    rw [entry_copySlots htf hkf hne htf (le_refl 256), hmem kernel k (by omega), hzero]
    exact if_congr ⟨fun h => h.2.1, fun h => ⟨rfl, h, by omega⟩⟩ rfl rfl
  have hslots : ∀ k, child (copySlots s₁.mem top kernel 256) top k =
      if 256 ≤ (k : Nat) then child s.mem kernel k else none := by
    intro k
    have hentry := hcells k
    by_cases hup : 256 ≤ (k : Nat)
    · rw [if_pos hup] at hentry
      rw [if_pos hup, child, child, hentry]
    · rw [if_neg hup] at hentry
      rw [if_neg hup, child_none hentry]
  subst hr
  have htops := ht.addTop { s₁ with mem := copySlots s₁.mem (frameSize * b) kernel 256 } hb
    hfree htaken hsrc hmem' fun k y hy => ?_
  · refine ⟨_, ⟨htops.toGrows, htops.new, htops.root, hslots⟩, fun flag hold => ?_⟩
    refine hold.update (fun x k hx => .inl (hmem' x k (by omega))) fun k c hc => ?_
    have hentry := hcells k
    simp only [hslots] at hc
    split at hc
    case isTrue hup =>
        rw [if_pos hup] at hentry
        simp only [hentry]
        exact hold kernel k c (by omega) hc
    case isFalse => cases hc
  · simp only [hslots] at hy
    split at hy
    case isTrue hup => exact ⟨hup, kernel, hk, hy⟩
    case isFalse => cases hy

/-! ### Walks -/

/-- Every entry on the way, the leaf included, is present and has the flag. -/
def flagWalk (flag : Nat) (m : Mem) : Nat → List Slot → Prop
  | _, [] => True
  | table, i :: is => entry m table i &&& ptePresent ≠ 0 ∧ entry m table i &&& flag ≠ 0 ∧
      flagWalk flag m (entry m table i &&& pteAddrMask) is

instance flagWalk.decidable (flag : Nat) (m : Mem) : (table : Nat) → (is : List Slot) →
    Decidable (flagWalk flag m table is)
  | _, [] => .isTrue trivial
  | table, i :: is => @instDecidableAnd _ _ _
      (@instDecidableAnd _ _ _ (flagWalk.decidable flag m (entry m table i &&& pteAddrMask) is))

theorem child_some {x y : Nat} (h : child m x i = some y) :
    entry m x i &&& ptePresent ≠ 0 ∧ entry m x i &&& pteAddrMask = y := by
  rw [child] at h
  split at h
  case isTrue hp => exact ⟨hp, Option.some.inj h⟩
  case isFalse => cases h

/-- A way through tables with the flag to a leaf that has it. -/
theorem flagWalk_of_reach {flag x : Nat} {is : List Slot} {q : Nat × Slot} (hlev : Levelled (child m) lev)
    (hold : Flagged flag m lev) (hx : lev x = is.length) (hreach : reach (child m) x is = some q)
    (hp : entry m q.1 q.2 &&& ptePresent ≠ 0) (hflag : entry m q.1 q.2 &&& flag ≠ 0) : flagWalk flag m x is := by
  induction is generalizing x with
  | nil => trivial
  | cons i is ih =>
      cases is with
      | nil =>
          cases hreach
          exact ⟨hp, hflag, trivial⟩
      | cons j is =>
          rw [reach, Option.bind_eq_some_iff] at hreach
          obtain ⟨y, hy, hreach⟩ := hreach
          have htwo : 2 ≤ lev x := by
            rw [hx, List.length_cons, List.length_cons]
            omega
          have hly := hlev x i y htwo hy
          obtain ⟨hpresent, hnext⟩ := child_some hy
          refine ⟨hpresent, hold x i y htwo hy, ?_⟩
          rw [hnext]
          refine ih ?_ hreach
          simp only [List.length_cons] at hx ⊢
          omega

theorem Tables.flagWalk_of_leaf (ht : Tables F s lev) (htop : lev top = 4) {flag flags va v : Nat}
    (hold : Flagged flag s.mem lev) (h : translation s.mem top va = v ||| flags) (hp : flags &&& ptePresent ≠ 0)
    (hflag : flags &&& flag ≠ 0) : flagWalk flag s.mem top (path va) := by
  rw [translation, lookup] at h
  cases hreach : reach (child s.mem) top (path va) with
  | none =>
      rw [hreach] at h
      rw [(Nat.or_eq_zero_iff.mp h.symm).2, Nat.zero_and] at hp
      exact absurd rfl hp
  | some q =>
      simp only [hreach] at h
      refine flagWalk_of_reach ht.levelled hold htop hreach ?_ ?_
      · rw [h]
        exact flag_or v hp
      · rw [h]
        exact flag_or v hflag

/-- Such a way leads to an entry. -/
theorem lookup_of_flagWalk {flag x : Nat} {is : List Slot} (hne : is ≠ []) (h : flagWalk flag m x is) :
    lookup (child m) (entry m) 0 x is ≠ 0 := by
  induction is generalizing x with
  | nil => exact absurd rfl hne
  | cons i is ih =>
      obtain ⟨hp, -, hrest⟩ := h
      cases is with
      | nil =>
          intro hzero
          rw [show entry m x i = 0 from hzero, Nat.zero_and] at hp
          exact hp rfl
      | cons j is =>
          have hchild : child m x i = some (entry m x i &&& pteAddrMask) := if_pos hp
          simp only [lookup, reach, hchild, Option.bind_some]
          exact ih (List.cons_ne_nil j is) hrest

end Tree
end Flan.Memory
