import Flan.Lib.Mem
import Flan.Lib.Runs
import Flan.Lib.Span

/-! The vectors of `lib/vector.c` with the bytes of their buffer. What
`kheap_realloc` returns is given with each call: a pointer, and the bytes from it
on. A result `none` stands for a call that does not return: an assertion fails or
the lock is held. -/
namespace Flan.Sys
open Flan.Lib

/-- `vector_t`. `buf` are the bytes from the pointer `data` on, of which those past
`capacity` belong to others; `touched` are the ranges of it that the last call
read and wrote. -/
structure RawVector where
  items : Nat
  itemSize : Nat
  capacity : Nat
  lock : Bool
  data : Nat
  buf : Mem
  touched : List Span

namespace RawVector

def vectorCreate (v : RawVector) (itemSize : Nat) : RawVector :=
  { v with items := 0, itemSize, capacity := 0, lock := false, data := 0, touched := [] }

/-- `spinlock_acquire` at the start of a call. -/
def enter (v : RawVector) : Option RawVector := if v.lock then none else some { v with touched := [] }

/-- `memcpy` from the caller's memory to an offset of the buffer. -/
def copyIn (v : RawVector) (dest : Nat) (bytes : List Byte) : Option RawVector :=
  if (v.data + dest) % 2 ^ 64 = 0 then none
  else some { v with buf := storeBytes v.buf dest bytes, touched := ⟨dest, bytes.length⟩ :: v.touched }

/-- `memcpy` inside the buffer. -/
def copyWithin (v : RawVector) (dest src n : Nat) : Option RawVector :=
  if (v.data + src) % 2 ^ 64 = 0 ∨ (v.data + dest) % 2 ^ 64 = 0 then none
  else some { v with buf := memcpy v.buf dest src n, touched := ⟨dest, n⟩ :: ⟨src, n⟩ :: v.touched }

/-- Calls `kheap_realloc` if the buffer is smaller than `size`. -/
def grow (v : RawVector) (size : Nat) (realloc : Nat × Mem) : Option RawVector :=
  if v.capacity < size then
    if realloc.1 = 0 then none
    else some { v with data := realloc.1, buf := realloc.2, capacity := size }
  else some v

/-- `vector_get`: the offset of the item. An index past the end returns without
releasing the lock. -/
def vectorGet (v : RawVector) (index : Nat) : Option (Option Nat × RawVector) := do
  let v ← v.enter
  if index ≥ v.items then return (none, { v with lock := true })
  else return (some (index * v.itemSize % 2 ^ 64), v)

def vectorPush (v : RawVector) (item : List Byte) (realloc : Nat × Mem) : Option RawVector := do
  let v ← v.enter
  let vectorSize := v.items * v.itemSize % 2 ^ 64
  let v ← v.grow ((vectorSize + v.itemSize) % 2 ^ 64) realloc
  let v ← v.copyIn vectorSize (item.take v.itemSize)
  return { v with items := (v.items + 1) % 2 ^ 64 }

/-- The copy of `vector_remove`: as many items as there are from the index on. -/
def closeGap (v : RawVector) (index : Nat) : Option RawVector :=
  if index < v.items then
    v.copyWithin (index * v.itemSize % 2 ^ 64) ((index + 1) * v.itemSize % 2 ^ 64)
      (sub64 (v.itemSize * v.items % 2 ^ 64) (index * v.itemSize))
  else some v

def vectorRemove (v : RawVector) (index : Nat) : Option RawVector := do
  let v ← v.enter
  let v ← v.closeGap index
  return { v with items := sub64 v.items 1 }

def vectorPop (v : RawVector) : Option RawVector := do
  let v ← v.enter
  return { v with items := sub64 v.items 1 }

/-- `vector_replace` acquires the lock again after `vector_get`. -/
def vectorReplace (v : RawVector) (item : List Byte) (index : Nat) : Option RawVector := do
  let (ptr, v) ← v.vectorGet index
  let v ← v.enter
  v.copyIn (← ptr) (item.take v.itemSize)

def vectorInsert (v : RawVector) (item : List Byte) (index : Nat) (realloc : Nat × Mem) :
    Option RawVector := do
  let v ← v.enter
  let vectorSize := v.items * v.itemSize % 2 ^ 64
  let v ← v.grow ((vectorSize + v.itemSize) % 2 ^ 64) realloc
  let v ← v.copyWithin ((index + 1) * v.itemSize % 2 ^ 64) (index * v.itemSize % 2 ^ 64)
    (sub64 (v.itemSize * v.items % 2 ^ 64) (index * v.itemSize))
  let v ← v.copyIn (index * v.itemSize % 2 ^ 64) (item.take v.itemSize)
  return { v with items := (v.items + 1) % 2 ^ 64 }

def vectorReserve (v : RawVector) (newCap : Nat) (realloc : Nat × Mem) : Option RawVector := do
  let v ← v.enter
  v.grow (newCap * v.itemSize % 2 ^ 64) realloc

def vectorResize (v : RawVector) (items : Nat) (realloc : Nat × Mem) : Option RawVector := do
  let v ← v.enter
  let v ← v.grow (items * v.itemSize % 2 ^ 64) realloc
  return { v with items }

end RawVector

/-- The calls on one vector. `others` is what other code does meanwhile: it may
change every byte that is not in an item. -/
inductive VectorCall where
  | create (itemSize : Nat)
  | get (index : Nat)
  | push (item : List Byte) (realloc : Nat × Mem)
  | replace (item : List Byte) (index : Nat)
  | remove (index : Nat)
  | pop
  | insert (item : List Byte) (index : Nat) (realloc : Nat × Mem)
  | reserve (newCap : Nat) (realloc : Nat × Mem)
  | resize (items : Nat) (realloc : Nat × Mem)
  | others (buf : Mem)

namespace VectorCall
open RawVector

def exec (v : RawVector) : VectorCall → Option RawVector
  | .create itemSize => some (v.vectorCreate itemSize)
  | .get index => (v.vectorGet index).map Prod.snd
  | .push item realloc => v.vectorPush item realloc
  | .replace item index => v.vectorReplace item index
  | .remove index => v.vectorRemove index
  | .pop => v.vectorPop
  | .insert item index realloc => v.vectorInsert item index realloc
  | .reserve newCap realloc => v.vectorReserve newCap realloc
  | .resize items realloc => v.vectorResize items realloc
  | .others buf => some { v with buf := fun x => if x < v.items * v.itemSize then v.buf x else buf x, touched := [] }

end VectorCall

section Steps
variable {v v' : RawVector} {size : Nat} {realloc : Nat × Mem}

theorem enter_some (h : v.enter = some v') : v.lock = false ∧ v' = { v with touched := [] } := by
  rw [RawVector.enter] at h
  split at h
  · exact nomatch h
  · exact ⟨by simpa using ‹¬ v.lock = true›, (Option.some.inj h).symm⟩

theorem enter_free (h : v.lock = false) : v.enter = some { v with touched := [] } := by
  rw [RawVector.enter, h]
  rfl

/-- The buffer after `grow` is as large as asked for, and not smaller than before. -/
theorem grow_some (h : v.grow size realloc = some v') :
    ∃ data capacity buf, v' = { v with data, capacity, buf } ∧ capacity = max v.capacity size := by
  rw [RawVector.grow] at h
  split at h
  case isTrue hlt =>
    split at h
    · exact nomatch h
    · exact ⟨_, _, _, (Option.some.inj h).symm, (Nat.max_eq_right hlt.le).symm⟩
  case isFalse hle =>
    exact ⟨_, _, _, (Option.some.inj h).symm, (Nat.max_eq_left (Nat.le_of_not_lt hle)).symm⟩

theorem copyIn_some {dest : Nat} {bytes : List Byte} (h : v.copyIn dest bytes = some v') :
    ∃ buf, v' = { v with buf, touched := ⟨dest, bytes.length⟩ :: v.touched } := by
  rw [RawVector.copyIn] at h
  split at h
  · exact nomatch h
  · exact ⟨_, (Option.some.inj h).symm⟩

theorem copyWithin_some {dest src n : Nat} (h : v.copyWithin dest src n = some v') :
    ∃ buf, v' = { v with buf, touched := ⟨dest, n⟩ :: ⟨src, n⟩ :: v.touched } := by
  rw [RawVector.copyWithin] at h
  split at h
  · exact nomatch h
  · exact ⟨_, (Option.some.inj h).symm⟩

end Steps

/-- The items are in the buffer, whose size does not overflow. -/
structure RawVector.Sized (v : RawVector) : Prop where
  itemSize : 1 ≤ v.itemSize
  items : v.items * v.itemSize ≤ v.capacity
  capacity : v.capacity < 2 ^ 64

namespace RawVector.Sized
variable {v : RawVector}

theorem create {itemSize : Nat} (v : RawVector) (h : 1 ≤ itemSize) : Sized (v.vectorCreate itemSize) :=
  ⟨h, (Nat.zero_mul itemSize).le, Nat.two_pow_pos 64⟩

theorem size_lt (hv : v.Sized) : v.items * v.itemSize < 2 ^ 64 := Nat.lt_of_le_of_lt hv.items hv.capacity

theorem items_lt (hv : v.Sized) : v.items < 2 ^ 64 :=
  Nat.lt_of_le_of_lt (Nat.le_mul_of_pos_right v.items hv.itemSize) hv.size_lt

/-- The size that `vector_push` and `vector_insert` ask for. -/
theorem next_size (hv : v.Sized) (hs : (v.items + 1) * v.itemSize < 2 ^ 64) :
    (v.items * v.itemSize % 2 ^ 64 + v.itemSize) % 2 ^ 64 = (v.items + 1) * v.itemSize := by
  rw [Nat.mod_eq_of_lt hv.size_lt, ← Nat.succ_mul, Nat.mod_eq_of_lt hs]

theorem one_less (hv : v.Sized) (hpos : 0 < v.items) : sub64 v.items 1 = v.items - 1 :=
  sub64_of_le hpos hv.items_lt

/-- The length that `vector_remove` and `vector_insert` copy. -/
theorem rest_length (hv : v.Sized) {index : Nat} (h : index ≤ v.items) :
    sub64 (v.itemSize * v.items % 2 ^ 64) (index * v.itemSize) =
      v.items * v.itemSize - index * v.itemSize := by
  rw [Nat.mul_comm v.itemSize, Nat.mod_eq_of_lt hv.size_lt,
    sub64_of_le (Nat.mul_le_mul_right _ h) hv.size_lt]

end RawVector.Sized

/-! ### Bounds -/

/-- The items are in the buffer, and the last call has not left it. -/
structure RawVector.InBounds (v : RawVector) : Prop where
  items : v.items * v.itemSize ≤ v.capacity
  touched : ∀ t ∈ v.touched, t.len = 0 ∨ t.hi ≤ v.capacity

/-- No size overflows, an item is taken away only where there is one, and
`vector_remove` finds room for one more item behind the last. -/
def VectorCall.Safe (v : RawVector) : VectorCall → Prop
  | .create itemSize => 1 ≤ itemSize
  | .push _ _ => (v.items + 1) * v.itemSize < 2 ^ 64
  | .remove index => 0 < v.items ∧ (index < v.items → (v.items + 1) * v.itemSize ≤ v.capacity)
  | .pop => 0 < v.items
  | .insert _ index _ => index ≤ v.items ∧ (v.items + 1) * v.itemSize < 2 ^ 64
  | .resize items _ => items * v.itemSize < 2 ^ 64
  | _ => True

instance (v : RawVector) : (c : VectorCall) → Decidable (c.Safe v)
  | .create _ => inferInstanceAs (Decidable (_ ≤ _))
  | .push _ _ => inferInstanceAs (Decidable (_ < _))
  | .remove _ => inferInstanceAs (Decidable (_ ∧ (_ → _)))
  | .pop => inferInstanceAs (Decidable (_ < _))
  | .insert _ _ _ => inferInstanceAs (Decidable (_ ∧ _))
  | .resize _ _ => inferInstanceAs (Decidable (_ < _))
  | .get _ | .replace _ _ | .reserve _ _ | .others _ => .isTrue trivial

/-- The vectors that safe calls lead to. -/
inductive Reaches (itemSize : Nat) : RawVector → Prop
  | create (v : RawVector) : Reaches itemSize (v.vectorCreate itemSize)
  | call {v v' : RawVector} {c : VectorCall} : Reaches itemSize v → c.Safe v → c.exec v = some v' →
      Reaches itemSize v'

structure BoundsInv (v : RawVector) : Prop extends v.Sized where
  touched : ∀ t ∈ v.touched, t.len = 0 ∨ t.hi ≤ v.capacity

section Bounds
variable {v v' : RawVector} {item : List Byte} {index : Nat} {realloc : Nat × Mem}

/-- A vector with the same buffer and fewer items. -/
theorem BoundsInv.fewer (hi : BoundsInv v) {n : Nat} {lock : Bool} {data : Nat} {buf : Mem}
    {touched : List Span} (hn : n ≤ v.items) (ht : ∀ t ∈ touched, t.len = 0 ∨ t.hi ≤ v.capacity) :
    BoundsInv { v with items := n, lock, data, buf, touched } :=
  ⟨⟨hi.itemSize, (Nat.mul_le_mul_right v.itemSize hn).trans hi.items, hi.capacity⟩, ht⟩

theorem BoundsInv.get (hi : BoundsInv v) {r : Option Nat × RawVector} (h : v.vectorGet index = some r) :
    BoundsInv r.2 := by
  obtain ⟨v₁, h₁, h⟩ := Option.bind_eq_some_iff.mp h
  obtain ⟨-, rfl⟩ := enter_some h₁
  split at h
  all_goals
    obtain rfl := Option.some.inj h
    exact hi.fewer (le_refl v.items) (fun _ ht => nomatch ht)

theorem max_lt_word {a b : Nat} (ha : a < 2 ^ 64) : max a (b % 2 ^ 64) < 2 ^ 64 :=
  max_lt ha (Nat.mod_lt b (Nat.two_pow_pos 64))

/-- The buffer that `vector_push` and `vector_insert` grow has room for one more item. -/
theorem BoundsInv.grown {capacity : Nat} (hi : BoundsInv v) (hs : (v.items + 1) * v.itemSize < 2 ^ 64)
    (hc : capacity = max v.capacity ((v.items * v.itemSize % 2 ^ 64 + v.itemSize) % 2 ^ 64)) :
    (v.items + 1) * v.itemSize ≤ capacity ∧ capacity < 2 ^ 64 := by
  constructor
  · rw [hc, hi.next_size hs]
    exact Nat.le_max_right _ _
  · rw [hc]
    exact max_lt_word hi.capacity

theorem BoundsInv.push (hi : BoundsInv v) (hs : (v.items + 1) * v.itemSize < 2 ^ 64)
    (h : v.vectorPush item realloc = some v') : BoundsInv v' := by
  obtain ⟨v₁, h₁, h⟩ := Option.bind_eq_some_iff.mp h
  obtain ⟨-, rfl⟩ := enter_some h₁
  obtain ⟨v₂, h₂, h⟩ := Option.bind_eq_some_iff.mp h
  obtain ⟨data, capacity, buf, rfl, hc⟩ := grow_some h₂
  obtain ⟨v₃, h₃, h⟩ := Option.bind_eq_some_iff.mp h
  obtain ⟨buf', rfl⟩ := copyIn_some h₃
  obtain rfl := Option.some.inj h
  obtain ⟨hroom, hcap⟩ := hi.grown hs hc
  constructor
  · exact ⟨hi.itemSize, (Nat.mul_le_mul_right v.itemSize (Nat.mod_le _ _)).trans hroom, hcap⟩
  · intro t ht
    obtain rfl := List.mem_singleton.mp ht
    right
    have hlen := item.length_take_le v.itemSize
    rw [Nat.succ_mul] at hroom
    show v.items * v.itemSize % 2 ^ 64 + (item.take v.itemSize).length ≤ capacity
    rw [Nat.mod_eq_of_lt hi.size_lt]
    omega

theorem BoundsInv.remove (hi : BoundsInv v) (hpos : 0 < v.items)
    (hroom : index < v.items → (v.items + 1) * v.itemSize ≤ v.capacity)
    (h : v.vectorRemove index = some v') : BoundsInv v' := by
  obtain ⟨v₁, h₁, h⟩ := Option.bind_eq_some_iff.mp h
  obtain ⟨-, rfl⟩ := enter_some h₁
  obtain ⟨v₂, h₂, h⟩ := Option.bind_eq_some_iff.mp h
  obtain rfl := Option.some.inj h
  have hn : sub64 v.items 1 ≤ v.items := (hi.one_less hpos).trans_le (Nat.sub_le _ _)
  rw [RawVector.closeGap] at h₂
  split at h₂
  case isTrue hlt =>
    obtain ⟨buf, rfl⟩ := copyWithin_some h₂
    apply hi.fewer hn
    -- Both ranges end where the items or the one behind them end.
    have hroom := hroom hlt
    have hle : (index + 1) * v.itemSize ≤ v.items * v.itemSize := Nat.mul_le_mul_right _ hlt
    have hsize := hi.items
    have hcap := hi.capacity
    have hlen := hi.rest_length hlt.le
    rw [Nat.succ_mul] at hroom hle
    intro t ht
    right
    rcases List.mem_cons.mp ht with rfl | ht
    · show index * v.itemSize % 2 ^ 64 +
        sub64 (v.itemSize * v.items % 2 ^ 64) (index * v.itemSize) ≤ v.capacity
      rw [hlen, Nat.mod_eq_of_lt (by omega)]
      omega
    · obtain rfl := List.mem_singleton.mp ht
      show (index + 1) * v.itemSize % 2 ^ 64 +
        sub64 (v.itemSize * v.items % 2 ^ 64) (index * v.itemSize) ≤ v.capacity
      rw [hlen, Nat.succ_mul, Nat.mod_eq_of_lt (by omega)]
      omega
  case isFalse =>
    obtain rfl := Option.some.inj h₂
    exact hi.fewer hn (fun _ ht => nomatch ht)

theorem BoundsInv.pop (hi : BoundsInv v) (hpos : 0 < v.items) (h : v.vectorPop = some v') :
    BoundsInv v' := by
  obtain ⟨v₁, h₁, h⟩ := Option.bind_eq_some_iff.mp h
  obtain ⟨-, rfl⟩ := enter_some h₁
  obtain rfl := Option.some.inj h
  apply hi.fewer
  · exact (hi.one_less hpos).trans_le (Nat.sub_le _ _)
  · exact fun _ ht => nomatch ht

theorem BoundsInv.replace (hi : BoundsInv v) (h : v.vectorReplace item index = some v') :
    BoundsInv v' := by
  obtain ⟨⟨ptr, v₁⟩, h₁, h⟩ := Option.bind_eq_some_iff.mp h
  obtain ⟨v₂, h₂, h⟩ := Option.bind_eq_some_iff.mp h
  obtain ⟨hfree, rfl⟩ := enter_some h₂
  obtain ⟨dest, rfl, h⟩ := Option.bind_eq_some_iff.mp h
  obtain ⟨buf, rfl⟩ := copyIn_some h
  obtain ⟨v₀, h₀, h₁⟩ := Option.bind_eq_some_iff.mp h₁
  obtain ⟨-, rfl⟩ := enter_some h₀
  split at h₁
  case isTrue => exact nomatch (Option.some.inj h₁)
  case isFalse hlt =>
    obtain ⟨hdest, rfl⟩ := Prod.mk.inj (Option.some.inj h₁)
    obtain rfl := Option.some.inj hdest
    apply hi.fewer (le_refl v.items)
    intro t ht
    obtain rfl := List.mem_singleton.mp ht
    right
    have hlen := item.length_take_le v.itemSize
    have hle : (index + 1) * v.itemSize ≤ v.items * v.itemSize :=
      Nat.mul_le_mul_right _ (Nat.lt_of_not_le hlt)
    have hsize := hi.items
    have hcap := hi.capacity
    rw [Nat.succ_mul] at hle
    show index * v.itemSize % 2 ^ 64 + (item.take v.itemSize).length ≤ v.capacity
    rw [Nat.mod_eq_of_lt (by omega)]
    omega

theorem BoundsInv.insert (hi : BoundsInv v) (hindex : index ≤ v.items)
    (hs : (v.items + 1) * v.itemSize < 2 ^ 64) (h : v.vectorInsert item index realloc = some v') :
    BoundsInv v' := by
  obtain ⟨v₁, h₁, h⟩ := Option.bind_eq_some_iff.mp h
  obtain ⟨-, rfl⟩ := enter_some h₁
  obtain ⟨v₂, h₂, h⟩ := Option.bind_eq_some_iff.mp h
  obtain ⟨data, capacity, buf, rfl, hc⟩ := grow_some h₂
  obtain ⟨v₃, h₃, h⟩ := Option.bind_eq_some_iff.mp h
  obtain ⟨buf', rfl⟩ := copyWithin_some h₃
  obtain ⟨v₄, h₄, h⟩ := Option.bind_eq_some_iff.mp h
  obtain ⟨buf'', rfl⟩ := copyIn_some h₄
  obtain rfl := Option.some.inj h
  obtain ⟨hroom, hcap⟩ := hi.grown hs hc
  constructor
  · exact ⟨hi.itemSize, (Nat.mul_le_mul_right v.itemSize (Nat.mod_le _ _)).trans hroom, hcap⟩
  · have hle : index * v.itemSize ≤ v.items * v.itemSize := Nat.mul_le_mul_right _ hindex
    have hsize := hi.size_lt
    have hlen := hi.rest_length hindex
    have htake := item.length_take_le v.itemSize
    have hoff : index * v.itemSize % 2 ^ 64 = index * v.itemSize := Nat.mod_eq_of_lt (by omega)
    rw [Nat.succ_mul] at hroom
    intro t ht
    right
    rcases List.mem_cons.mp ht with rfl | ht
    · show index * v.itemSize % 2 ^ 64 + (item.take v.itemSize).length ≤ capacity
      rw [hoff]
      omega
    · rcases List.mem_cons.mp ht with rfl | ht
      · show (index + 1) * v.itemSize % 2 ^ 64 +
          sub64 (v.itemSize * v.items % 2 ^ 64) (index * v.itemSize) ≤ capacity
        rw [hlen, Nat.succ_mul, Nat.mod_eq_of_lt (by omega)]
        omega
      · obtain rfl := List.mem_singleton.mp ht
        show index * v.itemSize % 2 ^ 64 +
          sub64 (v.itemSize * v.items % 2 ^ 64) (index * v.itemSize) ≤ capacity
        rw [hlen, hoff]
        omega

theorem BoundsInv.reserve {newCap : Nat} (hi : BoundsInv v) (h : v.vectorReserve newCap realloc = some v') :
    BoundsInv v' := by
  obtain ⟨v₁, h₁, h⟩ := Option.bind_eq_some_iff.mp h
  obtain ⟨-, rfl⟩ := enter_some h₁
  obtain ⟨data, capacity, buf, rfl, hc⟩ := grow_some h
  subst hc
  exact ⟨⟨hi.itemSize, hi.items.trans (Nat.le_max_left _ _), max_lt_word hi.capacity⟩,
    fun _ ht => nomatch ht⟩

theorem BoundsInv.resize {items : Nat} (hi : BoundsInv v) (hs : items * v.itemSize < 2 ^ 64)
    (h : v.vectorResize items realloc = some v') : BoundsInv v' := by
  obtain ⟨v₁, h₁, h⟩ := Option.bind_eq_some_iff.mp h
  obtain ⟨-, rfl⟩ := enter_some h₁
  obtain ⟨v₂, h₂, h⟩ := Option.bind_eq_some_iff.mp h
  obtain ⟨data, capacity, buf, rfl, hc⟩ := grow_some h₂
  obtain rfl := Option.some.inj h
  subst hc
  refine ⟨⟨hi.itemSize, ?_, max_lt_word hi.capacity⟩, fun _ ht => nomatch ht⟩
  exact (Nat.mod_eq_of_lt hs).symm.le.trans (Nat.le_max_right _ _)

theorem BoundsInv.step {c : VectorCall} (hi : BoundsInv v) (hs : c.Safe v) (h : c.exec v = some v') :
    BoundsInv v' := by
  cases c with
  | create itemSize =>
      obtain rfl := Option.some.inj h
      exact ⟨.create v hs, fun _ ht => nomatch ht⟩
  | get index =>
      obtain ⟨r, hr, rfl⟩ := Option.map_eq_some_iff.mp h
      exact hi.get hr
  | push item realloc => exact hi.push hs h
  | replace item index => exact hi.replace h
  | remove index => exact hi.remove hs.1 hs.2 h
  | pop => exact hi.pop hs h
  | insert item index realloc => exact hi.insert hs.1 hs.2 h
  | reserve newCap realloc => exact hi.reserve h
  | resize items realloc => exact hi.resize hs h
  | others buf =>
      obtain rfl := Option.some.inj h
      exact hi.fewer (le_refl v.items) (fun _ ht => nomatch ht)

/-- Along safe calls the items stay in the buffer and no call leaves it. -/
theorem vector_in_bounds {itemSize : Nat} (hsize : 1 ≤ itemSize) (h : Reaches itemSize v) :
    v.InBounds := by
  have hinv : BoundsInv v := by
    induction h with
    | create v => exact ⟨.create v hsize, fun _ ht => nomatch ht⟩
    | call _ hs hexec ih => exact ih.step hs hexec
  exact ⟨hinv.items, hinv.touched⟩

end Bounds

/-- The calls one after the other. -/
def VectorCall.run (v : RawVector) (cs : List VectorCall) : Option RawVector :=
  cs.foldlM VectorCall.exec v

/-- A vector before `vector_create`, and a new buffer. -/
def blankVector : RawVector := ⟨0, 0, 0, false, 0, fun _ => 0, []⟩

def newBuffer : Nat × Mem := (4096, fun _ => 0)

/-- With room for two items, one is pushed and removed. -/
theorem reserved_vector_in_bounds : ∃ v, VectorCall.run (blankVector.vectorCreate 1)
    [.reserve 2 newBuffer, .push [7] newBuffer, .remove 0] = some v ∧ v.InBounds := by
  refine ⟨_, rfl, vector_in_bounds (le_refl 1) ?_⟩
  have h₀ : Reaches 1 (blankVector.vectorCreate 1) := .create blankVector
  have h₁ := h₀.call (c := .reserve 2 newBuffer) trivial rfl
  have h₂ := h₁.call (c := .push [7] newBuffer) (by decide) rfl
  exact h₂.call (c := .remove 0) (by decide) rfl

/-- `vector_remove` of the only item reads behind the buffer, and `vector_pop` of
an empty vector leaves 2^64 - 1 items. -/
theorem vector_leaves_buffer :
    (∃ v, VectorCall.run (blankVector.vectorCreate 1) [.push [7] newBuffer, .remove 0] = some v ∧
      v.capacity = 1 ∧ ⟨1, 1⟩ ∈ v.touched ∧ ¬ v.InBounds) ∧
    ∃ v, VectorCall.run (blankVector.vectorCreate 1) [.pop] = some v ∧
      v.items = 2 ^ 64 - 1 ∧ v.capacity = 0 ∧ ¬ v.InBounds := by
  constructor
  · refine ⟨_, rfl, rfl, ?_, ?_⟩
    · exact List.mem_cons_of_mem _ List.mem_cons_self
    · intro h
      rcases h.touched ⟨1, 1⟩ (List.mem_cons_of_mem _ List.mem_cons_self) with h | h
      · exact absurd h (by decide)
      · exact absurd h (by decide)
  · refine ⟨_, rfl, rfl, rfl, fun h => absurd h.items (by decide)⟩

/-! ### The list of the items -/

namespace RawVector

/-- The item that `vector_get` points to. -/
def item (v : RawVector) (i : Nat) : List Byte := bytesAt v.buf (i * v.itemSize) v.itemSize

def list (v : RawVector) : List (List Byte) := (List.range v.items).map v.item

/-- `kheap_realloc` finds a place, with the old bytes in it. -/
structure Keeps (v : RawVector) (size : Nat) (realloc : Nat × Mem) : Prop where
  place : 0 < realloc.1 ∧ realloc.1 + size < 2 ^ 64
  bytes : ∀ x < v.capacity, realloc.2 x = v.buf x

structure ListInv (v : RawVector) : Prop extends v.Sized where
  free : v.lock = false
  place : v.capacity = 0 ∨ 0 < v.data ∧ v.data + v.capacity < 2 ^ 64

end RawVector

/-- What the caller has to see to: indexes are in range, items have their size and
no size overflows. -/
def VectorCall.Valid (v : RawVector) : VectorCall → Prop
  | .create itemSize => 1 ≤ itemSize
  | .get index => index < v.items
  | .push item realloc => item.length = v.itemSize ∧ (v.items + 1) * v.itemSize < 2 ^ 64 ∧
      (v.capacity < (v.items + 1) * v.itemSize → v.Keeps ((v.items + 1) * v.itemSize) realloc)
  | .replace item index => item.length = v.itemSize ∧ index < v.items
  | .remove index => index < v.items
  | .pop => 0 < v.items
  | .insert _ _ _ => False
  | .reserve newCap realloc => newCap * v.itemSize < 2 ^ 64 ∧
      (v.capacity < newCap * v.itemSize → v.Keeps (newCap * v.itemSize) realloc)
  | .resize items _ => items ≤ v.items
  | .others _ => True

/-- The same call on a list. -/
def VectorCall.onList (l : List (List Byte)) : VectorCall → List (List Byte)
  | .create _ => []
  | .push item _ => l ++ [item]
  | .replace item index => l.set index item
  | .remove index => l.eraseIdx index
  | .pop => l.dropLast
  | .resize items _ => l.take items
  | _ => l

section Lists
variable {v v' : RawVector} {bytes : List Byte} {index size : Nat} {realloc : Nat × Mem}

@[simp] theorem RawVector.list_length (v : RawVector) : v.list.length = v.items := by
  rw [RawVector.list, List.length_map, List.length_range]

theorem RawVector.list_getElem? (v : RawVector) {i : Nat} (h : i < v.items) :
    v.list[i]? = some (v.item i) := by
  rw [RawVector.list, List.getElem?_map, List.getElem?_range h, Option.map_some]

theorem RawVector.list_ext {l : List (List Byte)} (hlen : l.length = v.items)
    (h : ∀ i < v.items, l[i]? = some (v.item i)) : v.list = l := by
  apply List.ext_getElem?
  intro i
  by_cases hi : i < v.items
  · rw [v.list_getElem? hi, h i hi]
  · rw [List.getElem?_eq_none (by simpa using hi), List.getElem?_eq_none (by omega)]

/-- Where an item ends. -/
theorem item_end {i n : Nat} (s : Nat) (h : i < n) : i * s + s ≤ n * s := by
  rw [← Nat.succ_mul]
  exact Nat.mul_le_mul_right s h

theorem item_congr {i : Nat} {buf : Mem}
    (h : ∀ x, i * v.itemSize ≤ x → x < i * v.itemSize + v.itemSize → buf x = v.buf x) :
    bytesAt buf (i * v.itemSize) v.itemSize = v.item i := bytesAt_congr h

/-- An address in the buffer passes the assertions of `memcpy`. -/
theorem place_ne_zero {data off : Nat} (hpos : 0 < data) (h : data + off < 2 ^ 64) :
    (data + off) % 2 ^ 64 ≠ 0 := by
  rw [Nat.mod_eq_of_lt h]
  omega

/-- The buffer that `grow` leaves has the old bytes and is in place. -/
theorem grow_keeps (hplace : v.capacity = 0 ∨ 0 < v.data ∧ v.data + v.capacity < 2 ^ 64)
    (hk : v.capacity < size → v.Keeps size realloc) :
    ∃ data buf, v.grow size realloc = some { v with data, capacity := max v.capacity size, buf } ∧
      (∀ x < v.capacity, buf x = v.buf x) ∧
      (max v.capacity size = 0 ∨ 0 < data ∧ data + max v.capacity size < 2 ^ 64) := by
  rw [RawVector.grow]
  by_cases hlt : v.capacity < size
  · rw [if_pos hlt, if_neg (hk hlt).place.1.ne', max_eq_right hlt.le]
    exact ⟨_, _, rfl, (hk hlt).bytes, .inr (hk hlt).place⟩
  · rw [if_neg hlt, max_eq_left (Nat.le_of_not_lt hlt)]
    exact ⟨_, _, rfl, fun _ _ => rfl, hplace⟩

theorem RawVector.ListInv.items_succ (hi : v.ListInv) (hs : (v.items + 1) * v.itemSize < 2 ^ 64) :
    (v.items + 1) % 2 ^ 64 = v.items + 1 :=
  Nat.mod_eq_of_lt (Nat.lt_of_le_of_lt (Nat.le_mul_of_pos_right _ hi.itemSize) hs)

/-- The room for one more item. -/
theorem RawVector.ListInv.grow_one (hi : v.ListInv)
    (hk : v.capacity < (v.items + 1) * v.itemSize → v.Keeps ((v.items + 1) * v.itemSize) realloc) :
    ∃ data buf, RawVector.grow { v with touched := [] } ((v.items + 1) * v.itemSize) realloc = some
        { v with data, capacity := max v.capacity ((v.items + 1) * v.itemSize), buf, touched := [] } ∧
      (∀ x < v.capacity, buf x = v.buf x) ∧
      0 < data ∧ data + max v.capacity ((v.items + 1) * v.itemSize) < 2 ^ 64 := by
  obtain ⟨data, buf, hg, hb, hp⟩ := @grow_keeps { v with touched := [] } _ _ hi.place
    fun hlt => ⟨(hk hlt).place, (hk hlt).bytes⟩
  have hroom := Nat.le_max_right v.capacity ((v.items + 1) * v.itemSize)
  have hpos : 0 < (v.items + 1) * v.itemSize := Nat.mul_pos (Nat.succ_pos _) hi.itemSize
  exact ⟨data, buf, hg, hb, hp.resolve_left (hpos.trans_le hroom).ne'⟩

/-- `vector_push`: the bytes behind the items are theirs, the old ones are kept. -/
theorem vectorPush_eq (hi : v.ListInv) (hlen : bytes.length = v.itemSize)
    (hs : (v.items + 1) * v.itemSize < 2 ^ 64)
    (hk : v.capacity < (v.items + 1) * v.itemSize → v.Keeps ((v.items + 1) * v.itemSize) realloc) :
    ∃ data buf touched, v.vectorPush bytes realloc = some
        { v with
          items := v.items + 1
          data
          capacity := max v.capacity ((v.items + 1) * v.itemSize)
          buf := storeBytes buf (v.items * v.itemSize) bytes
          touched } ∧
      (∀ x < v.capacity, buf x = v.buf x) ∧
      0 < data ∧ data + max v.capacity ((v.items + 1) * v.itemSize) < 2 ^ 64 := by
  obtain ⟨data, buf, hg, hb, hplace⟩ := hi.grow_one hk
  have hroom := Nat.le_max_right v.capacity ((v.items + 1) * v.itemSize)
  have hend : (v.items + 1) * v.itemSize = v.items * v.itemSize + v.itemSize := Nat.succ_mul _ _
  have hdest : (data + v.items * v.itemSize) % 2 ^ 64 ≠ 0 := place_ne_zero hplace.1 (by omega)
  refine ⟨data, buf, [⟨v.items * v.itemSize, bytes.length⟩], ?_, hb, hplace⟩
  rw [RawVector.vectorPush, enter_free hi.free]
  simp only [Option.bind_eq_bind, Option.bind_some, hi.next_size hs, hg]
  simp only [Nat.mod_eq_of_lt hi.size_lt, List.take_of_length_le hlen.le, RawVector.copyIn, if_neg hdest,
    Option.bind_some, hi.items_succ hs, Option.pure_def]

theorem RawVector.ListInv.push (hi : v.ListInv) (hlen : bytes.length = v.itemSize)
    (hs : (v.items + 1) * v.itemSize < 2 ^ 64)
    (hk : v.capacity < (v.items + 1) * v.itemSize → v.Keeps ((v.items + 1) * v.itemSize) realloc) :
    ∃ v', v.vectorPush bytes realloc = some v' ∧ v'.ListInv ∧ v'.list = v.list ++ [bytes] := by
  obtain ⟨data, buf, touched, hrun, hb, hplace⟩ := vectorPush_eq hi hlen hs hk
  refine ⟨_, hrun, ?_, ?_⟩
  · exact ⟨⟨hi.itemSize, Nat.le_max_right _ _, max_lt hi.capacity hs⟩, hi.free, .inr hplace⟩
  · apply RawVector.list_ext
    · rw [List.length_append, v.list_length]
      rfl
    · intro i hlt
      rcases Nat.lt_succ_iff_lt_or_eq.mp hlt with hlt | rfl
      · rw [List.getElem?_append_left (by simpa using hlt), v.list_getElem? hlt]
        refine congrArg some (item_congr fun x hl hr => ?_).symm
        have hend := item_end v.itemSize hlt
        have hsize := hi.items
        exact (storeBytes_outside (by omega)).trans (hb x (by omega))
      · rw [List.getElem?_append_right (by simp), v.list_length, Nat.sub_self]
        refine congrArg some ?_
        rw [RawVector.item, ← hlen]
        exact (bytesAt_storeBytes buf _ bytes).symm

/-- Fewer items in the same buffer. -/
theorem RawVector.ListInv.fewer {items : Nat} {buf : Mem} {touched : List Span} (hi : v.ListInv)
    (hle : items ≤ v.items) : ListInv { v with items, buf, touched } :=
  ⟨⟨hi.itemSize, (Nat.mul_le_mul_right _ hle).trans hi.items, hi.capacity⟩, hi.free, hi.place⟩

theorem RawVector.ListInv.pop (hi : v.ListInv) (hpos : 0 < v.items) :
    ∃ v', v.vectorPop = some v' ∧ v'.ListInv ∧ v'.list = v.list.dropLast := by
  have hrun : v.vectorPop = some { v with items := v.items - 1, touched := [] } := by
    rw [RawVector.vectorPop, enter_free hi.free, ← hi.one_less hpos]
    rfl
  refine ⟨_, hrun, ?_, ?_⟩
  · exact hi.fewer (Nat.sub_le _ _)
  · apply RawVector.list_ext
    · rw [List.length_dropLast, v.list_length]
    · intro i hlt
      have hlt : i < v.items - 1 := hlt
      rw [List.getElem?_dropLast, if_pos (by simpa using hlt), v.list_getElem? (by omega)]
      rfl

theorem RawVector.ListInv.resize {items : Nat} (hi : v.ListInv) (hle : items ≤ v.items) :
    ∃ v', v.vectorResize items realloc = some v' ∧ v'.ListInv ∧ v'.list = v.list.take items := by
  have hsize : items * v.itemSize ≤ v.capacity := (Nat.mul_le_mul_right _ hle).trans hi.items
  have hgrow : RawVector.grow { v with touched := [] } (items * v.itemSize % 2 ^ 64) realloc =
      some { v with touched := [] } :=
    if_neg (Nat.not_lt.mpr ((Nat.mod_le _ _).trans hsize))
  have hrun : v.vectorResize items realloc = some { v with items, touched := [] } := by
    rw [RawVector.vectorResize, enter_free hi.free]
    simp only [Option.bind_eq_bind, Option.bind_some, hgrow, Option.pure_def]
  refine ⟨_, hrun, hi.fewer hle, ?_⟩
  apply RawVector.list_ext
  · rw [List.length_take, v.list_length]
    exact min_eq_left hle
  · intro i hlt
    rw [List.getElem?_take_of_lt hlt, v.list_getElem? (Nat.lt_of_lt_of_le hlt hle)]
    rfl

theorem RawVector.ListInv.reserve {newCap : Nat} (hi : v.ListInv) (hs : newCap * v.itemSize < 2 ^ 64)
    (hk : v.capacity < newCap * v.itemSize → v.Keeps (newCap * v.itemSize) realloc) :
    ∃ v', v.vectorReserve newCap realloc = some v' ∧ v'.ListInv ∧ v'.list = v.list := by
  obtain ⟨data, buf, hg, hb, hp⟩ := @grow_keeps { v with touched := [] } _ _ hi.place
    fun hlt => ⟨(hk hlt).place, (hk hlt).bytes⟩
  have hrun : v.vectorReserve newCap realloc = some { v with
      data, capacity := max v.capacity (newCap * v.itemSize), buf, touched := [] } := by
    rw [RawVector.vectorReserve, enter_free hi.free]
    simp only [Option.bind_eq_bind, Option.bind_some, Nat.mod_eq_of_lt hs, hg]
  refine ⟨_, hrun, ?_, ?_⟩
  · exact ⟨⟨hi.itemSize, hi.items.trans (Nat.le_max_left _ _), max_lt hi.capacity hs⟩, hi.free, hp⟩
  · apply RawVector.list_ext
    · exact v.list_length
    · intro i hlt
      rw [v.list_getElem? hlt]
      refine congrArg some (item_congr fun x _ hr => hb x ?_).symm
      exact Nat.lt_of_lt_of_le hr ((item_end v.itemSize hlt).trans hi.items)

theorem vectorGet_eq (hi : v.ListInv) (hlt : index < v.items) :
    v.vectorGet index = some (some (index * v.itemSize), { v with touched := [] }) := by
  have hend := item_end v.itemSize hlt
  have hsize := hi.size_lt
  have hoff : index * v.itemSize % 2 ^ 64 = index * v.itemSize := Nat.mod_eq_of_lt (by omega)
  rw [RawVector.vectorGet, enter_free hi.free]
  simp only [Option.bind_eq_bind, Option.bind_some, if_neg (Nat.not_le.mpr hlt), hoff, Option.pure_def]

/-- A vector with items has a buffer. -/
theorem RawVector.ListInv.data_pos (hi : v.ListInv) (hlt : index < v.items) :
    0 < v.data ∧ v.data + v.capacity < 2 ^ 64 := by
  apply hi.place.resolve_left
  have hend := item_end v.itemSize hlt
  have hone := hi.itemSize
  have hsize := hi.items
  omega

/-- Writing one item leaves the others. -/
theorem item_stored (hlen : bytes.length = v.itemSize) :
    (fun i => bytesAt (storeBytes v.buf (index * v.itemSize) bytes) (i * v.itemSize) v.itemSize) =
      Function.update v.item index bytes := by
  funext i
  rw [Function.update_apply]
  split
  case isTrue h =>
    rw [h, ← hlen]
    exact bytesAt_storeBytes v.buf _ bytes
  case isFalse h =>
    refine item_congr fun x hl hr => storeBytes_outside ?_
    rcases Nat.lt_or_gt_of_ne h with h | h
    · have := item_end v.itemSize h
      omega
    · have := item_end v.itemSize h
      omega

theorem vectorReplace_eq (hi : v.ListInv) (hlen : bytes.length = v.itemSize) (hlt : index < v.items) :
    v.vectorReplace bytes index = some { v with
      buf := storeBytes v.buf (index * v.itemSize) bytes
      touched := [⟨index * v.itemSize, bytes.length⟩] } := by
  have hend := item_end v.itemSize hlt
  have hsize := hi.items
  have hplace := hi.data_pos hlt
  have hdest : (v.data + index * v.itemSize) % 2 ^ 64 ≠ 0 := place_ne_zero hplace.1 (by omega)
  have hfree : RawVector.enter { v with touched := [] } = some { v with touched := [] } := enter_free hi.free
  rw [RawVector.vectorReplace, vectorGet_eq hi hlt]
  simp only [Option.bind_eq_bind, Option.bind_some, hfree, List.take_of_length_le hlen.le,
    RawVector.copyIn, if_neg hdest]

theorem RawVector.ListInv.replace (hi : v.ListInv) (hlen : bytes.length = v.itemSize)
    (hlt : index < v.items) :
    ∃ v', v.vectorReplace bytes index = some v' ∧ v'.ListInv ∧ v'.list = v.list.set index bytes := by
  refine ⟨_, vectorReplace_eq hi hlen hlt, hi.fewer le_rfl, ?_⟩
  apply RawVector.list_ext
  · rw [List.length_set, v.list_length]
  · intro i hlt'
    have hlt' : i < v.items := hlt'
    have hitem := congrFun (@item_stored v bytes index hlen) i
    rw [List.getElem?_set, v.list_length, v.list_getElem? hlt']
    refine Eq.trans ?_ (congrArg some hitem.symm)
    rw [Function.update_apply]
    by_cases hij : index = i
    · rw [if_pos hij, if_pos (hij ▸ hlt'), if_pos hij.symm]
    · rw [if_neg hij, if_neg (Ne.symm hij)]

/-- Behind the removed item every item takes its neighbour's bytes; the last copy
reads what lies behind the items, and ends behind them. -/
theorem RawVector.ListInv.remove (hi : v.ListInv) (hlt : index < v.items) :
    ∃ v', v.vectorRemove index = some v' ∧ v'.ListInv ∧ v'.list = v.list.eraseIdx index := by
  have hpos := Nat.zero_lt_of_lt hlt
  have hend := item_end v.itemSize hlt
  have hsize := hi.items
  have hplace := hi.data_pos hlt
  have hdest : (v.data + index * v.itemSize) % 2 ^ 64 ≠ 0 := place_ne_zero hplace.1 (by omega)
  have hsrc : (v.data + (index + 1) * v.itemSize) % 2 ^ 64 ≠ 0 := by
    rw [Nat.succ_mul]
    exact place_ne_zero hplace.1 (by omega)
  have hoff : index * v.itemSize % 2 ^ 64 = index * v.itemSize := Nat.mod_eq_of_lt (by omega)
  have hoff' : (index + 1) * v.itemSize % 2 ^ 64 = (index + 1) * v.itemSize :=
    Nat.mod_eq_of_lt (by rw [Nat.succ_mul]; omega)
  have hrun : v.vectorRemove index = some { v with
      items := v.items - 1
      buf := memcpy v.buf (index * v.itemSize) ((index + 1) * v.itemSize)
        (v.items * v.itemSize - index * v.itemSize)
      touched := [⟨index * v.itemSize, v.items * v.itemSize - index * v.itemSize⟩,
        ⟨(index + 1) * v.itemSize, v.items * v.itemSize - index * v.itemSize⟩] } := by
    rw [RawVector.vectorRemove, enter_free hi.free]
    simp only [Option.bind_eq_bind, Option.bind_some, RawVector.closeGap, if_pos hlt, hoff, hoff',
      hi.rest_length hlt.le, RawVector.copyWithin, if_neg (not_or.mpr ⟨hsrc, hdest⟩), hi.one_less hpos,
      Option.pure_def]
  refine ⟨_, hrun, ?_, ?_⟩
  · exact hi.fewer (Nat.sub_le _ _)
  · apply RawVector.list_ext
    · rw [List.length_eraseIdx_of_lt (by simpa using hlt), v.list_length]
    · intro i hlt'
      have hlt' : i < v.items - 1 := hlt'
      rw [List.getElem?_eraseIdx]
      split
      case isTrue hbefore =>
        rw [v.list_getElem? (by omega)]
        refine congrArg some (item_congr fun x _ hr => memcpy_outside (.inl ?_)).symm
        exact Nat.lt_of_lt_of_le hr (item_end v.itemSize hbefore)
      case isFalse hbehind =>
        rw [v.list_getElem? (by omega)]
        refine congrArg some (List.map_congr_left fun k hk => ?_)
        have hk := List.mem_range.mp hk
        have hlow : index * v.itemSize ≤ i * v.itemSize := Nat.mul_le_mul_right _ (Nat.le_of_not_lt hbehind)
        have hhigh := item_end v.itemSize (show i < v.items by omega)
        show v.buf ((i + 1) * v.itemSize + k) =
          memcpy v.buf (index * v.itemSize) ((index + 1) * v.itemSize) _ (i * v.itemSize + k)
        rw [memcpy_inside (.inl (Nat.mul_le_mul_right _ (Nat.le_succ index))) (by omega) (by omega)]
        congr 1
        rw [Nat.succ_mul, Nat.succ_mul]
        omega

theorem RawVector.ListInv.others (hi : v.ListInv) (buf : Mem) :
    ∃ v', VectorCall.exec v (.others buf) = some v' ∧ v'.ListInv ∧ v'.list = v.list := by
  refine ⟨_, rfl, ⟨⟨hi.itemSize, hi.items, hi.capacity⟩, hi.free, hi.place⟩, ?_⟩
  apply RawVector.list_ext
  · exact v.list_length
  · intro i hlt
    rw [v.list_getElem? hlt]
    refine congrArg some (item_congr fun x _ hr => if_pos ?_).symm
    exact Nat.lt_of_lt_of_le hr (item_end v.itemSize hlt)

/-- Every valid call returns, and does to the list what it says. -/
theorem RawVector.ListInv.step {c : VectorCall} (hi : v.ListInv) (hc : c.Valid v) :
    ∃ v', c.exec v = some v' ∧ v'.ListInv ∧ v'.list = c.onList v.list := by
  cases c with
  | create itemSize => exact ⟨_, rfl, ⟨.create v hc, rfl, .inl rfl⟩, rfl⟩
  | get index =>
      refine ⟨{ v with touched := [] }, ?_, ⟨⟨hi.itemSize, hi.items, hi.capacity⟩, hi.free, hi.place⟩, rfl⟩
      rw [VectorCall.exec, vectorGet_eq hi hc, Option.map_some]
  | push item realloc => exact hi.push hc.1 hc.2.1 hc.2.2
  | replace item index => exact hi.replace hc.1 hc.2
  | remove index => exact hi.remove hc
  | pop => exact hi.pop hc
  | insert item index realloc => exact hc.elim
  | reserve newCap realloc => exact hi.reserve hc.1 hc.2
  | resize items realloc => exact hi.resize hc
  | others buf => exact hi.others buf

/-- The vector after a call. -/
def VectorCall.next (v : RawVector) (c : VectorCall) : RawVector := (c.exec v).getD v

theorem RawVector.ListInv.run {cs : List VectorCall} (hi : v.ListInv)
    (hcs : AllSteps VectorCall.next (fun v c => c.Valid v) v cs) :
    ∃ v', VectorCall.run v cs = some v' ∧ v'.ListInv ∧ v'.list = cs.foldl VectorCall.onList v.list := by
  induction cs generalizing v with
  | nil => exact ⟨v, rfl, hi, rfl⟩
  | cons c cs ih =>
      obtain ⟨v₁, hexec, hi₁, hl₁⟩ := hi.step hcs.1
      have hnext : VectorCall.next v c = v₁ := by rw [VectorCall.next, hexec, Option.getD_some]
      obtain ⟨v', hrun, hi', hl'⟩ := ih hi₁ (hnext ▸ hcs.2)
      refine ⟨v', ?_, hi', by rw [hl', hl₁, List.foldl_cons]⟩
      rw [VectorCall.run, List.foldlM_cons, hexec]
      exact hrun

/-- After valid calls on a new vector, the items that `vector_get` points to are
those of the list. -/
theorem vector_refines_list {itemSize : Nat} (hsize : 1 ≤ itemSize) (v₀ : RawVector)
    (cs : List VectorCall)
    (hcs : AllSteps VectorCall.next (fun v c => c.Valid v) (v₀.vectorCreate itemSize) cs) :
    ∃ v, VectorCall.run (v₀.vectorCreate itemSize) cs = some v ∧
      v.items = (cs.foldl VectorCall.onList []).length ∧
      ∀ i < v.items, ∃ ptr v', v.vectorGet i = some (some ptr, v') ∧
        (cs.foldl VectorCall.onList [])[i]? = some (bytesAt v'.buf ptr v'.itemSize) := by
  have hnew : (v₀.vectorCreate itemSize).ListInv := ⟨.create v₀ hsize, rfl, .inl rfl⟩
  obtain ⟨v, hrun, hi, hlist⟩ := hnew.run hcs
  have hl : v.list = cs.foldl VectorCall.onList [] := hlist
  refine ⟨v, hrun, ?_, ?_⟩
  · rw [← hl, v.list_length]
  · intro i hlt
    refine ⟨_, _, vectorGet_eq hi hlt, ?_⟩
    rw [← hl, v.list_getElem? hlt]
    rfl

end Lists

/-- Two items of two bytes, of which the first is removed while other code writes
behind them. -/
theorem pair_vector_refines_list :
    ∃ v, VectorCall.run (blankVector.vectorCreate 2) [.reserve 2 newBuffer, .push [1, 2] newBuffer,
        .push [3, 4] newBuffer, .others (fun _ => 9), .remove 0] = some v ∧
      v.items = 1 ∧ ∀ i < v.items, ∃ ptr v', v.vectorGet i = some (some ptr, v') ∧
        [[3, 4]][i]? = some (bytesAt v'.buf ptr v'.itemSize) := by
  apply vector_refines_list (by decide)
  refine ⟨⟨by decide, fun _ => ⟨by decide, fun _ h => absurd h (Nat.not_lt_zero _)⟩⟩, ?_⟩
  refine ⟨⟨by decide, by decide, fun h => absurd h (by decide)⟩, ?_⟩
  refine ⟨⟨by decide, by decide, fun h => absurd h (by decide)⟩, trivial, ?_, trivial⟩
  exact (by decide : 0 < 2)

end Flan.Sys
