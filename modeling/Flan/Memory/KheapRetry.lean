import Flan.Memory.KheapCoalesce

/-! The retry of `kheap_alloc`. When no block fits, the call appends a block of new frames to
the list, lets `coalesce_dll` merge what it takes for neighbours, and calls itself; one block
with room for the request is always left. -/
namespace Flan.Memory
open Flan.Lib

/-- How often a call of `kheap_alloc` calls itself. -/
def kheapAllocRetries (L : Layout) : (fuel : Nat) → Kheap → (size : Nat) → Option Nat
  | 0, _, _ => none
  | fuel+1, h, size =>
      if h.locked then none
      else
        match findBlock L h.mem (fun b => size ≤ blockSize h.mem b) fuel (nextOf h.mem L.freeList) with
        | none => none
        | some (some _) => some 0
        | some none =>
            match coalesceDll L fuel (refill L h size).mem with
            | none => none
            | some m => (kheapAllocRetries L fuel { refill L h size with mem := m } size).map (· + 1)

/-- A circular free list whose headers do not overlap and lie in frames that are in use.
Nothing is said of the bytes behind the headers, which two blocks may both count as theirs. -/
structure WellListed (L : Layout) (h : Kheap) (free : List Blk) : Prop where
  list : Listed L (IsNode L free) h.mem free
  window : ∀ b ∈ free, L.hhdm ≤ b.addr ∧ b.addr + headerSize ≤ L.top
  limit : h.pmm.limit = L.limit
  marked : ∀ b ∈ free, ∀ x, (headerAt b.addr).Has x → h.pmm.used ((x - L.hhdm) / frameSize) = true

/-! ### What merging keeps -/

section Merging
variable {cs l : List Blk} {b c : Blk}

/-- Whatever is merged, for each block one is left that is at least as large. -/
theorem coalesceFrom_room (ht : total (b :: cs) ≤ 2 ^ 64) (hc : c ∈ b :: cs) :
    ∃ e ∈ coalesceFrom b cs, c.size ≤ e.size := by
  induction cs generalizing b with
  | nil =>
      cases List.mem_singleton.mp hc
      exact ⟨c, List.mem_cons_self, le_refl _⟩
  | cons d cs ih =>
      rw [coalesceFrom]
      split
      · have hmerged := (total_merge ht).trans_le ht
        rcases List.mem_cons.mp hc with rfl | hc
        · obtain ⟨e, he, -, hsize⟩ := coalesceFrom_grows hmerged
          rw [merge_size ht] at hsize
          exact ⟨e, he, by omega⟩
        · rcases List.mem_cons.mp hc with rfl | hc
          · obtain ⟨e, he, -, hsize⟩ := coalesceFrom_grows hmerged
            rw [merge_size ht] at hsize
            exact ⟨e, he, by omega⟩
          · exact ih hmerged (List.mem_cons_of_mem _ hc)
      · rcases List.mem_cons.mp hc with rfl | hc
        · exact ⟨c, List.mem_cons_self, le_refl _⟩
        · rw [total_cons] at ht
          obtain ⟨e, he, hsize⟩ := ih (by omega) hc
          exact ⟨e, List.mem_cons_of_mem b he, hsize⟩

theorem coalesced_room (ht : total l ≤ 2 ^ 64) (hc : c ∈ l) : ∃ e ∈ coalesced l, c.size ≤ e.size := by
  cases l with
  | nil => cases hc
  | cons b cs => exact coalesceFrom_room ht hc

theorem length_coalesceFrom (b : Blk) (cs : List Blk) : (coalesceFrom b cs).length ≤ cs.length + 1 := by
  induction cs generalizing b with
  | nil => exact le_refl _
  | cons c cs ih =>
      rw [coalesceFrom]
      split
      · exact Nat.le_succ_of_le (ih (b.merge c))
      · exact Nat.succ_le_succ (ih c)

theorem length_coalesced (l : List Blk) : (coalesced l).length ≤ l.length := by
  cases l with
  | nil => exact le_refl _
  | cons b cs => exact length_coalesceFrom b cs

theorem total_append (l l' : List Blk) : total (l ++ l') = total l + total l' := by
  rw [total, List.map_append, List.sum_append, total, total]

end Merging

/-! ### The refill -/

section Refill
variable {L : Layout} {h : Kheap} {free held : List Blk} {size fuel f n : Nat}

/-- The header of the new block is clear of those on the list, whose frames are in use. -/
theorem WellListed.clear (hw : WellListed L h free) (hfit : FirstFit h.pmm n f) (hn : 0 < n) {c : Blk} (hc : c ∈ free) :
    (headerAt (newBlock L f n).addr).Apart (headerAt c.addr) := by
  have hpos : 0 < headerSize := by decide
  refine Span.apart_of_not_has hpos hpos ?_
  intro x hx hcx
  have hin : (newBlock L f n).extent.Has x :=
    ⟨hx.1, hx.2.trans_le (Nat.add_le_add_left (Nat.le_add_right _ _) _)⟩
  obtain ⟨-, hlo, hhi⟩ := (newBlock_has hn).mp hin
  have hused := hw.marked c hc x hcx
  rw [hfit.free _ hlo hhi] at hused
  cases hused

theorem WellListed.clear_node (hw : WellListed L h free) (hfit : FirstFit h.pmm n f) (hn : 0 < n) {x : Nat}
    (hx : IsNode L free x) :
    (newBlock L f n).addr + headerSize ≤ x ∨ x + headerSize ≤ (newBlock L f n).addr := by
  rcases List.mem_cons.mp hx with rfl | hx
  · have hwin := hfit.in_window hw.limit
    have hap := L.apart
    rw [Layout.top] at hwin
    simp only [newBlock, headerSize, frameSize] at hap hwin ⊢
    omega
  · obtain ⟨c, hc, rfl⟩ := List.mem_map.mp hx
    exact hw.clear hfit hn hc

theorem WellListed.nodes (hw : WellListed L h free) (hfit : FirstFit h.pmm n f) (hn : 0 < n) :
    Nodes (IsNode L (newBlock L f n :: free)) := by
  have hsplit : ∀ x, IsNode L (newBlock L f n :: free) x → x = (newBlock L f n).addr ∨ IsNode L free x := by
    intro x hx
    rcases List.mem_cons.mp hx with rfl | hx
    · exact .inr isNode_freeList
    · exact (List.mem_cons.mp hx).imp_right (List.mem_cons_of_mem _)
  constructor
  · intro a b ha hb
    rcases hsplit a ha with rfl | ha
    · rcases hsplit b hb with rfl | hb
      · exact .inl rfl
      · exact .inr (hw.clear_node hfit hn hb)
    · rcases hsplit b hb with rfl | hb
      · exact .inr (hw.clear_node hfit hn ha).symm
      · exact hw.list.nodes.clear a b ha hb
  · intro a ha
    rcases hsplit a ha with rfl | ha
    · have hend := (hfit.in_window hw.limit).trans L.window_le
      simp only [newBlock, frameSize] at hend ⊢
      omega
    · exact hw.list.nodes.lt a ha

/-- The list after a refill that got its frames. -/
theorem WellListed.refill (hw : WellListed L h free) (hs : size + headerSize + frameSize ≤ 2 ^ 64)
    (hnew : (pmmMalloc h.pmm (refillFrames size)).1 ≠ 0) :
    ∃ f, FirstFit h.pmm (refillFrames size) f ∧
      Listed L (IsNode L (newBlock L f (refillFrames size) :: free)) (refill L h size).mem
        (free ++ [newBlock L f (refillFrames size)]) := by
  have hn : 0 < refillFrames size := (refillFrames_room hs).1
  obtain ⟨f, hfit, hptr, -⟩ := pmmMalloc_some h.pmm hn hnew
  obtain ⟨haddr, hsize⟩ := hfit.addBlock_args hw.limit hn
  refine ⟨f, hfit, ?_⟩
  have hoff : (newBlock L f (refillFrames size)).addr ∉ L.freeList :: free.map Blk.addr := by
    intro hmem
    have hclear := hw.clear_node hfit hn hmem
    simp only [headerSize] at hclear
    omega
  have hlisted := hw.list.mono (hw.nodes hfit hn) fun a ha => by
    rcases List.mem_cons.mp ha with rfl | ha
    · exact isNode_freeList
    · exact List.mem_cons_of_mem _ (List.mem_cons_of_mem _ ha)
  have hmem : (Memory.refill L h size).mem = Memory.addBlock L h.mem (newBlock L f (refillFrames size)).addr
      ((newBlock L f (refillFrames size)).size + headerSize) := by
    rw [Memory.refill, hptr, haddr, hsize]
  rw [hmem]
  refine (hlisted.addBlock (isNode_of_mem List.mem_cons_self) ?_ hoff).1
  have hlt := Nat.mod_lt (refillFrames size * frameSize) (show 2 ^ 64 > 0 by decide)
  rw [hsize] at hlt
  omega

/-- A free list of `kheap.c` on which no block fits: once `pmm_malloc` has given a block, the
list that `coalesce_dll` leaves has one with room, so that the call made in turn finds it and
does not ask for frames again. -/
theorem kheap_alloc_retries_once (hw : WellListed L h free) (hu : h.locked = false)
    (hs : size + headerSize + (frameSize - 1) < 2 ^ 64) (hsum : total free + refillFrames size * frameSize ≤ 2 ^ 64)
    (hno : ∀ c ∈ free, c.size < size) (hnew : (pmmMalloc h.pmm (refillFrames size)).1 ≠ 0)
    (hf : free.length + 3 ≤ fuel) :
    ∃ m b, coalesceDll L fuel (refill L h size).mem = some m ∧
      findBlock L m (fun a => size ≤ blockSize m a) fuel (nextOf m L.freeList) = some (some b) ∧
      size ≤ blockSize m b ∧ kheapAllocRetries L (fuel + 1) h size = some 1 ∧
      kheapAlloc L (fuel + 1) h size =
        some (b + headerSize, { refill L h size with mem := dllRemove (splitBlock m b size) b }) := by
  have hs' : size + headerSize + frameSize ≤ 2 ^ 64 := by
    simp only [frameSize] at hs ⊢
    omega
  obtain ⟨hn, hroom⟩ := refillFrames_room hs'
  obtain ⟨f, -, hlisted⟩ := hw.refill hs' hnew
  have hbytes := newBlock_bytes L f hn
  have hlen : (free ++ [newBlock L f (refillFrames size)]).length = free.length + 1 := by simp
  have htotal : total (free ++ [newBlock L f (refillFrames size)]) ≤ 2 ^ 64 := by
    have hone : total [newBlock L f (refillFrames size)] = refillFrames size * frameSize := by
      rw [← hbytes, Nat.add_comm]
      exact Nat.add_zero _
    rw [total_append, hone]
    exact hsum
  obtain ⟨m, hcoalesce, hleft, -⟩ := coalesceDll_listed hlisted (show _ < fuel by omega)
  obtain ⟨e, he, hlarge⟩ := coalesced_room htotal (List.mem_append_right free List.mem_cons_self)
  have hfits : size ≤ e.size := by omega
  obtain ⟨U, b, V, hlist, hU, hb⟩ := exists_first_fit ⟨e, he, hfits⟩
  have hshort := length_coalesced (free ++ [newBlock L f (refillFrames size)])
  rw [hlist] at hleft hshort
  have hfind := hleft.find_first hU hb (show _ < fuel by omega)
  have hnone := hw.list.find_none hno (show _ < fuel by omega)
  obtain ⟨fuel, rfl⟩ : ∃ k, fuel = k + 1 := Nat.exists_eq_add_of_le' (by omega)
  have hfind' := hleft.find_first hU hb (show _ < fuel by omega)
  refine ⟨m, b.addr, hcoalesce, hfind, ?_, ?_, ?_⟩
  · rw [hleft.sizes b (by simp)]
    exact hb
  · rw [kheapAllocRetries, hu, hnone, hcoalesce]
    dsimp only
    rw [kheapAllocRetries, show (Memory.refill L h size).locked = false from hu, hfind']
    rfl
  · rw [kheapAlloc, hu, hnone, hcoalesce]
    exact hleft.alloc_first (h := { Memory.refill L h size with mem := m }) hu hU hb (by omega)

/-- The count is that of the calls: it is there exactly when the call returns. -/
theorem kheapAllocRetries_isSome (L : Layout) (fuel : Nat) (h : Kheap) (size : Nat) :
    (kheapAllocRetries L fuel h size).isSome = (kheapAlloc L fuel h size).isSome := by
  induction fuel generalizing h with
  | zero => rfl
  | succ fuel ih =>
      rw [kheapAllocRetries, kheapAlloc]
      split
      · rfl
      · generalize findBlock L h.mem _ fuel _ = found
        rcases found with _ | _ | block
        · rfl
        · dsimp only
          generalize coalesceDll L fuel _ = left
          cases left with
          | none => rfl
          | some m =>
              dsimp only
              rw [Option.isSome_map]
              exact ih _
        · rfl

/-! ### Blocks that do not overlap -/

theorem HeapInv.wellListed (hi : HeapInv L h free held) (hu : h.locked = false) : WellListed L h free := by
  have hplaced : Placed L free :=
    ⟨(List.pairwise_append.mp hi.rep.placed.apart).1, fun b hb => hi.rep.placed.window b (List.mem_append_left _ hb)⟩
  refine ⟨⟨hplaced.nodes, isNode_freeList, fun _ => isNode_of_mem, hi.rep.ring, hi.rep.listed.sizes⟩, ?_, hi.limit, ?_⟩
  · intro b hb
    obtain ⟨hlo, hhi⟩ := hplaced.window b hb
    simp only [Blk.extent, Span.hi] at hhi
    exact ⟨hlo, by omega⟩
  · intro b hb x hx
    refine hi.marked hu b (List.mem_append_left _ hb) x ?_
    simp only [headerAt, Blk.extent, Span.Has, Span.hi] at hx ⊢
    omega

/-- Where no two blocks overlap, a refill cannot make the sizes wrap. -/
theorem HeapInv.refill_total (hi : HeapInv L h free held) (hu : h.locked = false)
    (hs : size + headerSize + frameSize ≤ 2 ^ 64) (hnew : (pmmMalloc h.pmm (refillFrames size)).1 ≠ 0) :
    total free + refillFrames size * frameSize ≤ 2 ^ 64 := by
  have hn : 0 < refillFrames size := (refillFrames_room hs).1
  obtain ⟨f, hfit, -, -⟩ := pmmMalloc_some h.pmm hn hnew
  have htotal := (hi.place hu hfit hn).total_le
  have hbytes := newBlock_bytes L f hn
  rw [total_cons, total_append] at htotal
  omega

end Refill

/-- Five thousand bytes of a heap with one frame: the refill takes two more. -/
theorem small_heap_retries_once : ∃ m b,
    coalesceDll smallLayout 4 (refill smallLayout smallHeap 5000).mem = some m ∧
    findBlock smallLayout m (fun a => 5000 ≤ blockSize m a) 4 (nextOf m smallLayout.freeList) = some (some b) ∧
    5000 ≤ blockSize m b ∧ kheapAllocRetries smallLayout 5 smallHeap 5000 = some 1 ∧
    kheapAlloc smallLayout 5 smallHeap 5000 =
      some (b + headerSize, { refill smallLayout smallHeap 5000 with mem := dllRemove (splitBlock m b 5000) b }) := by
  have hnew : (pmmMalloc smallHeap.pmm (refillFrames 5000)).1 ≠ 0 := by decide +kernel
  exact kheap_alloc_retries_once (smallHeap_inv.wellListed smallHeap_unlocked) smallHeap_unlocked (by decide)
    (smallHeap_inv.refill_total smallHeap_unlocked (by decide) hnew) fullHeap_noFit hnew (by decide)

end Flan.Memory
