import Flan.Sys.Vector

/-! `vector_insert` of `lib/vector.c`. The items behind the index are moved up by one with the
ascending `memcpy` of `lib/str.c`, which reads what it has just written. -/
namespace Flan.Sys
open Flan.Lib

/-- The list with an item put in at an index. -/
def inserted (l : List (List Byte)) (index : Nat) (item : List Byte) : List (List Byte) :=
  l.take index ++ [item] ++ l.drop index

section Insert
variable {v : RawVector} {bytes : List Byte} {index : Nat} {realloc : Nat × Mem}

/-- `vector_insert`: the copy upwards, and the new item over its first place. -/
theorem vectorInsert_eq (hi : v.ListInv) (hlen : bytes.length = v.itemSize) (hindex : index ≤ v.items)
    (hs : (v.items + 1) * v.itemSize < 2 ^ 64)
    (hk : v.capacity < (v.items + 1) * v.itemSize → v.Keeps ((v.items + 1) * v.itemSize) realloc) :
    ∃ data buf touched, v.vectorInsert bytes index realloc = some
        { v with
          items := v.items + 1
          data
          capacity := max v.capacity ((v.items + 1) * v.itemSize)
          buf := storeBytes (memcpy buf (index * v.itemSize + v.itemSize) (index * v.itemSize)
            (v.items * v.itemSize - index * v.itemSize)) (index * v.itemSize) bytes
          touched } ∧
      (∀ x < v.capacity, buf x = v.buf x) ∧
      0 < data ∧ data + max v.capacity ((v.items + 1) * v.itemSize) < 2 ^ 64 := by
  obtain ⟨data, buf, hg, hb, hplace⟩ := hi.grow_one hk
  have hroom := Nat.le_max_right v.capacity ((v.items + 1) * v.itemSize)
  have hend : (v.items + 1) * v.itemSize = v.items * v.itemSize + v.itemSize := Nat.succ_mul _ _
  have hle : index * v.itemSize ≤ v.items * v.itemSize := Nat.mul_le_mul_right _ hindex
  have hdest : (data + (index * v.itemSize + v.itemSize)) % 2 ^ 64 ≠ 0 := place_ne_zero hplace.1 (by omega)
  have hsrc : (data + index * v.itemSize) % 2 ^ 64 ≠ 0 := place_ne_zero hplace.1 (by omega)
  have hoff : index * v.itemSize % 2 ^ 64 = index * v.itemSize := Nat.mod_eq_of_lt (by omega)
  have hoff' : (index + 1) * v.itemSize % 2 ^ 64 = index * v.itemSize + v.itemSize := by
    rw [Nat.succ_mul]
    exact Nat.mod_eq_of_lt (by omega)
  refine ⟨data, buf, [⟨index * v.itemSize, bytes.length⟩,
    ⟨index * v.itemSize + v.itemSize, v.items * v.itemSize - index * v.itemSize⟩,
    ⟨index * v.itemSize, v.items * v.itemSize - index * v.itemSize⟩], ?_, hb, hplace⟩
  rw [RawVector.vectorInsert, enter_free hi.free]
  simp only [Option.bind_eq_bind, Option.bind_some, hi.next_size hs, hg]
  simp only [RawVector.copyWithin, hoff, hoff', hi.rest_length hindex, if_neg (not_or.mpr ⟨hsrc, hdest⟩),
    Option.bind_some, List.take_of_length_le hlen.le, RawVector.copyIn, if_neg hsrc, hi.items_succ hs, Option.pure_def]

/-- The copy upwards repeats the first item that it moves. -/
theorem item_behind {buf : Mem} {i : Nat} (hi : v.ListInv) (hlen : bytes.length = v.itemSize)
    (hb : ∀ x < v.capacity, buf x = v.buf x) (hbehind : index < i) (hlt : i < v.items + 1) :
    bytesAt (storeBytes (memcpy buf (index * v.itemSize + v.itemSize) (index * v.itemSize)
      (v.items * v.itemSize - index * v.itemSize)) (index * v.itemSize) bytes) (i * v.itemSize) v.itemSize =
      v.item index := by
  have hsize := hi.items
  have hend := item_end v.itemSize hbehind
  have hlast := item_end v.itemSize (Nat.lt_of_lt_of_le hbehind (Nat.le_of_lt_succ hlt))
  have hmoved := item_end v.itemSize hlt
  rw [Nat.succ_mul] at hmoved
  have hoff : i * v.itemSize = index * v.itemSize + v.itemSize * (i - index) := by
    rw [Nat.mul_comm v.itemSize, ← Nat.add_mul, Nat.add_sub_cancel' hbehind.le]
  refine List.map_congr_left fun k hk => ?_
  have hk := List.mem_range.mp hk
  -- The distance to the index is a multiple of the item size and `k`.
  have hperiod : (i * v.itemSize + k - index * v.itemSize) % v.itemSize = k := by
    rw [hoff, Nat.add_assoc, Nat.add_sub_cancel_left, Nat.mul_add_mod, Nat.mod_eq_of_lt hk]
  rw [storeBytes_outside (by omega), memcpy_periodic hi.itemSize (by omega) (by omega), hperiod, hb _ (by omega)]

/-- What the vector represents after `vector_insert`: behind the new item the old item of
that index stands in every place. -/
theorem RawVector.ListInv.insert (hi : v.ListInv) (hlen : bytes.length = v.itemSize) (hindex : index ≤ v.items)
    (hs : (v.items + 1) * v.itemSize < 2 ^ 64)
    (hk : v.capacity < (v.items + 1) * v.itemSize → v.Keeps ((v.items + 1) * v.itemSize) realloc) :
    ∃ v', v.vectorInsert bytes index realloc = some v' ∧ v'.ListInv ∧
      v'.list = v.list.take index ++ bytes :: List.replicate (v.items - index) (v.item index) := by
  obtain ⟨data, buf, touched, hrun, hb, hplace⟩ := vectorInsert_eq hi hlen hindex hs hk
  have hsize := hi.items
  refine ⟨_, hrun, ?_, ?_⟩
  · exact ⟨⟨hi.itemSize, Nat.le_max_right _ _, max_lt hi.capacity hs⟩, hi.free, .inr hplace⟩
  · have htake : (v.list.take index).length = index := by
      rw [List.length_take, v.list_length]
      exact min_eq_left hindex
    apply RawVector.list_ext
    · rw [List.length_append, htake, List.length_cons, List.length_replicate]
      show index + (v.items - index + 1) = v.items + 1
      omega
    · intro i hlt
      have hlt : i < v.items + 1 := hlt
      rcases Nat.lt_trichotomy i index with hbefore | rfl | hbehind
      · rw [List.getElem?_append_left (by omega), List.getElem?_take_of_lt hbefore, v.list_getElem? (by omega)]
        have hend := item_end v.itemSize hbefore
        have hlast := Nat.mul_le_mul_right v.itemSize hindex
        refine congrArg some (item_congr fun x hl hr => ?_).symm
        calc storeBytes _ (index * v.itemSize) bytes x
            = memcpy buf (index * v.itemSize + v.itemSize) (index * v.itemSize) _ x :=
              storeBytes_outside (.inl (by omega))
          _ = buf x := memcpy_outside (.inl (by omega))
          _ = v.buf x := hb x (by omega)
      · rw [List.getElem?_append_right (by omega), htake, Nat.sub_self, List.getElem?_cons_zero]
        refine congrArg some ?_
        rw [RawVector.item, ← hlen]
        exact (bytesAt_storeBytes _ _ bytes).symm
      · rw [List.getElem?_append_right (by omega), htake, show i - index = (i - index - 1) + 1 by omega,
          List.getElem?_cons_succ, List.getElem?_replicate, if_pos (by omega)]
        exact congrArg some (item_behind hi hlen hb hbehind hlt).symm

/-- `vector_insert` puts the item into the list exactly if the items from the index on are
all the same. -/
theorem vector_insert_inserts_iff (hi : v.ListInv) (hlen : bytes.length = v.itemSize) (hindex : index ≤ v.list.length)
    (hs : (v.items + 1) * v.itemSize < 2 ^ 64)
    (hk : v.capacity < (v.items + 1) * v.itemSize → v.Keeps ((v.items + 1) * v.itemSize) realloc) :
    ∃ v', v.vectorInsert bytes index realloc = some v' ∧
      (v'.list = inserted v.list index bytes ↔ ∀ item ∈ v.list.drop index, some item = v.list[index]?) := by
  rw [v.list_length] at hindex
  obtain ⟨v', hrun, -, hlist⟩ := hi.insert hlen hindex hs hk
  refine ⟨v', hrun, ?_⟩
  rw [hlist, inserted, List.append_assoc, List.append_cancel_left_eq, List.singleton_append, List.cons.injEq,
    and_iff_right rfl, eq_comm, List.eq_replicate_iff, List.length_drop, v.list_length, and_iff_right rfl]
  refine forall₂_congr fun item hitem => ?_
  have hlt : index < v.items := by
    have hpos := List.length_pos_of_mem hitem
    rw [List.length_drop, v.list_length] at hpos
    omega
  rw [v.list_getElem? hlt, Option.some.injEq]

end Insert

/-- A vector of items of one byte. -/
def byteVector (items : List Byte) : RawVector :=
  ⟨items.length, 1, 8, false, 4096, fun i => items.getD i 0, []⟩

theorem byteVector_listInv {items : List Byte} (h : items.length ≤ 8) : (byteVector items).ListInv := by
  have hplace : 0 < 4096 ∧ 4096 + 8 < 2 ^ 64 := by decide
  refine ⟨⟨le_refl 1, ?_, (by decide : 8 < 2 ^ 64)⟩, rfl, .inr hplace⟩
  rwa [byteVector, Nat.mul_one]

/-- In front of the last item. -/
theorem insert_before_last_inserts : ∃ v', (byteVector [1, 2]).vectorInsert [7] 1 newBuffer = some v' ∧
    v'.list = [[1], [7], [2]] := by
  obtain ⟨v', hrun, hiff⟩ := @vector_insert_inserts_iff (byteVector [1, 2]) [7] 1 newBuffer
    (byteVector_listInv (by decide)) rfl (by decide) (by decide) (fun h => absurd h (by decide))
  exact ⟨v', hrun, hiff.mpr (by decide)⟩

/-- In front of two items: the first of them is copied over the second. -/
theorem insert_at_front_repeats : ∃ v', (byteVector [1, 2]).vectorInsert [7] 0 newBuffer = some v' ∧
    (byteVector [1, 2]).ListInv ∧ (byteVector [1, 2]).list = [[1], [2]] ∧
    inserted (byteVector [1, 2]).list 0 [7] = [[7], [1], [2]] ∧ v'.list = [[7], [1], [1]] :=
  ⟨_, rfl, byteVector_listInv (by decide), rfl, rfl, by decide⟩

end Flan.Sys
