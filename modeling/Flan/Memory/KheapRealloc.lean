import Flan.Memory.KheapCarve

/-! `kheap_realloc`: it copies as many bytes as the old block has, whatever the size of
the new one. -/
namespace Flan.Memory
open Flan.Lib

/-- `kheap_alloc` hands out `c`, and of all other bytes it changes only headers of the
list it leaves. -/
structure HandsOut (L : Layout) (h h₁ : Kheap) (free held free' : List Blk) (c : Blk) (size : Nat) : Prop where
  rep : Rep L h₁.mem free' (c :: held)
  sized : c.size = granted free size
  room : size ≤ c.size
  kept : ∀ x, ¬ c.extent.Has x → (∀ a ∈ L.freeList :: free'.map Blk.addr, ¬ (headerAt a).Has x) → h₁.mem x = h.mem x

/-- The first bytes of the new block are the old ones, the copy changes no byte outside it,
and the allocation before it only headers. -/
structure ReallocKeeps (L : Layout) (h h₁ h' : Kheap) (free' : List Blk) (c : Blk) (ptr old newSize : Nat) : Prop where
  contents : ∀ i < min old newSize, h'.mem (c.addr + headerSize + i) = h.mem (ptr + i)
  outside : ∀ x, ¬ c.extent.Has x → h'.mem x = h₁.mem x
  headers : ∀ x, ¬ c.extent.Has x → h₁.mem x ≠ h.mem x → ∃ a ∈ L.freeList :: free'.map Blk.addr, (headerAt a).Has x

section Grant
variable {L : Layout} {h : Kheap} {m : Mem} {free held U V : List Blk} {b : Blk} {size x : Nat}

/-- Outside the block handed out, carving writes to headers of the list it leaves. -/
theorem Rep.carve_kept (hr : Rep L m (U ++ b :: V) held) (hx : ¬ (b.carve size).1.extent.Has x)
    (hheads : ∀ a ∈ L.freeList :: (U ++ (b.carve size).2 ++ V).map Blk.addr, ¬ (headerAt a).Has x) :
    dllRemove (splitBlock m b.addr size) b.addr x = m x := by
  have hmem : ∀ c, c ∈ U ++ (b.carve size).2 ++ V → ¬ (headerAt c.addr).Has x :=
    fun c hc => hheads _ (List.mem_cons_of_mem _ (List.mem_map_of_mem hc))
  refine hr.carve_headers ?_ (fun c hc => hmem c (by simp [hc])) fun a ha => ?_
  · have haddr := Blk.carve_addr b size
    simp only [headerAt, Blk.extent, Span.Has, Span.hi] at hx ⊢
    omega
  · apply not_links_of_not_header
    rcases List.mem_cons.mp ha with rfl | ha
    · exact hheads _ List.mem_cons_self
    · obtain ⟨c, hc, rfl⟩ := List.mem_map.mp ha
      apply hmem
      rw [List.mem_append] at hc
      simp only [List.mem_append]
      tauto

/-- A block made of new frames is linked in without a write to any other. -/
theorem Rep.addBlock_kept (hr : Rep L m free held) (hp : Placed L (b :: (free ++ held))) (hx : ¬ (headerAt b.addr).Has x)
    (hheads : ∀ a ∈ L.freeList :: free.map Blk.addr, ¬ (headerAt a).Has x) :
    Memory.addBlock L m b.addr (b.size + headerSize) x = m x := by
  have hsub : ∀ a, IsNode L (free ++ held) a → IsNode L (b :: (free ++ held)) a := by
    intro a ha
    rcases List.mem_cons.mp ha with rfl | ha
    · exact isNode_freeList
    · exact List.mem_cons_of_mem _ (List.mem_cons_of_mem _ ha)
  have hoff : b.addr ∉ L.freeList :: free.map Blk.addr := (hp.perm List.perm_middle.symm).off_list
  have hlisted := hr.listed.mono hp.nodes hsub
  exact (hlisted.addBlock (isNode_of_mem List.mem_cons_self) (hp.size_lt List.mem_cons_self) hoff).2 x hx
    fun a ha => not_links_of_not_header (hheads a ha)

theorem HeapInv.handsOut (hi : HeapInv L h free held) (hl : h.locked = false) (hok : AllocOk L h size)
    (hsup : Supplied L h size) :
    ∃ free' c h₁, HandsOut L h h₁ free held free' c size ∧
      ∀ fuel, free.length + 4 ≤ fuel → kheapAlloc L fuel h size = some (c.addr + headerSize, h₁) := by
  by_cases hfit : ∃ c ∈ free, size ≤ c.size
  · obtain ⟨U, b, V, rfl, hfirst, hs⟩ := exists_first_fit hfit
    let h₁ : Kheap := { h with mem := dllRemove (splitBlock h.mem b.addr size) b.addr }
    refine ⟨U ++ (b.carve size).2 ++ V, (b.carve size).1, h₁,
      ⟨hi.rep.carve size, carve_granted hfirst hs, Blk.carve_size hs, fun _ => hi.rep.carve_kept⟩, ?_⟩
    intro fuel hf
    rw [Blk.carve_addr]
    exact hi.rep.listed.alloc_first hl hfirst hs (by omega)
  · have hno : ∀ c ∈ free, c.size < size := fun c hc => Nat.not_le.mp fun hs => hfit ⟨c, hc, hs⟩
    have hnofit := hi.rep.noFit_iff.mpr hno
    obtain ⟨f, -, hadd, hgrown⟩ := hi.grow hl (refillFrames_room hok.1).1 (hsup hnofit)
    let b : Blk := newBlock L f (refillFrames size)
    have hrep : Rep L (refill L h size).mem (free ++ [b]) held := hgrown.rep
    have hmem : (refill L h size).mem = Memory.addBlock L h.mem b.addr (b.size + headerSize) := hadd
    have hs : size ≤ b.size := newBlock_fits L f hok.1
    have hplaced : Placed L (b :: (free ++ held)) := by
      have hperm : (free ++ [b] ++ held).Perm (b :: (free ++ held)) := by
        rw [List.append_assoc]
        exact List.perm_middle
      exact hrep.placed.perm hperm
    let h₁ : Kheap := { refill L h size with mem := dllRemove (splitBlock (refill L h size).mem b.addr size) b.addr }
    refine ⟨free ++ (b.carve size).2 ++ [], (b.carve size).1, h₁,
      ⟨hrep.carve size, (carve_granted hno hs).trans (granted_refill hno hs), Blk.carve_size hs, fun x hx hheads => ?_⟩, ?_⟩
    · refine (hrep.carve_kept hx hheads).trans ?_
      rw [hmem]
      refine hi.rep.addBlock_kept hplaced ?_ fun a ha => hheads a ?_
      · have haddr := Blk.carve_addr b size
        simp only [headerAt, Blk.extent, Span.Has, Span.hi] at hx ⊢
        omega
      · simp only [List.map_append, List.mem_cons, List.mem_append] at ha ⊢
        tauto
    · intro fuel hf
      rw [Blk.carve_addr]
      exact hi.rep.listed.alloc_refill hl hno hrep.listed (hok.2 hnofit) hs hf

/-! A call that returns does so with any more fuel. -/

theorem findBlock_mono {test : Nat → Bool} {fuel fuel' block : Nat} {r : Option Nat} (hle : fuel ≤ fuel')
    (hf : findBlock L m test fuel block = some r) : findBlock L m test fuel' block = some r := by
  induction fuel generalizing fuel' block with
  | zero => cases hf
  | succ fuel ih =>
      obtain ⟨fuel', rfl⟩ := Nat.exists_eq_add_of_le' (Nat.one_le_of_lt hle)
      rw [findBlock] at hf ⊢
      split_ifs at hf ⊢
      · exact hf
      · exact hf
      · exact ih (Nat.le_of_succ_le_succ hle) hf

theorem coalesceLoop_mono {fuel fuel' prevBlock block : Nat} {m' : Mem} (hle : fuel ≤ fuel')
    (hc : coalesceLoop L fuel m prevBlock block = some m') : coalesceLoop L fuel' m prevBlock block = some m' := by
  induction fuel generalizing fuel' m prevBlock block with
  | zero => cases hc
  | succ fuel ih =>
      obtain ⟨fuel', rfl⟩ := Nat.exists_eq_add_of_le' (Nat.one_le_of_lt hle)
      rw [coalesceLoop] at hc ⊢
      split_ifs at hc ⊢
      · exact hc
      · exact ih (Nat.le_of_succ_le_succ hle) hc
      · exact ih (Nat.le_of_succ_le_succ hle) hc

theorem kheapAlloc_mono {fuel fuel' : Nat} {r : Nat × Kheap} (hle : fuel ≤ fuel')
    (hc : kheapAlloc L fuel h size = some r) : kheapAlloc L fuel' h size = some r := by
  induction fuel generalizing fuel' h with
  | zero => cases hc
  | succ fuel ih =>
      obtain ⟨fuel', rfl⟩ := Nat.exists_eq_add_of_le' (Nat.one_le_of_lt hle)
      have hle := Nat.le_of_succ_le_succ hle
      unfold kheapAlloc at hc ⊢
      split at hc
      · cases hc
      · rename_i hl
        rw [if_neg hl]
        split at hc
        · cases hc
        · rename_i hf
          rw [findBlock_mono hle hf]
          exact hc
        · rename_i hf
          rw [findBlock_mono hle hf]
          split at hc
          · cases hc
          · rename_i hm
            simp only [coalesceDll] at hm ⊢
            rw [coalesceLoop_mono hle hm]
            exact ih hle hc

theorem HeapInv.handsOut_of {fuel ptr : Nat} {h₁ : Kheap} (hi : HeapInv L h free held) (hl : h.locked = false)
    (hok : AllocOk L h size) (hsup : Supplied L h size) (hc : kheapAlloc L fuel h size = some (ptr, h₁)) :
    ∃ free' c, ptr = c.addr + headerSize ∧ HandsOut L h h₁ free held free' c size := by
  obtain ⟨free', c, h₂, hg, halloc⟩ := hi.handsOut hl hok hsup
  have hsame := (kheapAlloc_mono (le_max_left fuel _) hc).symm.trans (halloc _ (le_max_right _ _))
  cases hsame
  exact ⟨free', c, rfl, hg⟩

end Grant

section Copy
variable {L : Layout} {h h₁ : Kheap} {free held free' : List Blk} {b c : Blk} {old newSize i : Nat}

/-- A block that is handed out already is apart from the new one and from the list. -/
theorem HandsOut.apart (hg : HandsOut L h h₁ free held free' c newSize) (hb : b ∈ held) :
    c.Apart b ∧ ∀ d ∈ free', d.Apart b := by
  obtain ⟨-, hheld, hcross⟩ := List.pairwise_append.mp hg.rep.placed.apart
  exact ⟨(List.pairwise_cons.mp hheld).1 b hb, fun d hd => hcross d hd b (List.mem_cons_of_mem c hb)⟩

/-- The allocation leaves the old contents alone. -/
theorem HandsOut.payload (hg : HandsOut L h h₁ free held free' c newSize) (hb : b ∈ held) (hlt : i < b.size) :
    h₁.mem (b.addr + headerSize + i) = h.mem (b.addr + headerSize + i) := by
  obtain ⟨hcb, hfree⟩ := hg.apart hb
  apply hg.kept
  · simp only [Blk.Apart, Span.Apart, Span.Has, Span.hi, Blk.extent] at hcb ⊢
    omega
  · intro a ha
    rcases List.mem_cons.mp ha with rfl | ha
    · have hwin := hg.rep.placed.window b (by simp [hb])
      have hap := L.apart
      simp only [Layout.top, headerAt, Span.Has, Span.hi, Blk.extent] at hwin ⊢
      omega
    · obtain ⟨d, hd, rfl⟩ := List.mem_map.mp ha
      have hdb := hfree d hd
      simp only [Blk.Apart, Span.Apart, Span.Has, Span.hi, Blk.extent, headerAt] at hdb ⊢
      omega

/-- Every byte of the old block arrives, also those that the new one has no room for. -/
theorem HandsOut.copied (hg : HandsOut L h h₁ free held free' c newSize) (hb : b ∈ held) (hlt : i < b.size) :
    memcpy h₁.mem (c.addr + headerSize) (b.addr + headerSize) b.size (c.addr + headerSize + i) =
      h.mem (b.addr + headerSize + i) := by
  have hcb := (hg.apart hb).1
  simp only [Blk.Apart, Span.Apart, Span.hi, Blk.extent] at hcb
  rw [memcpy_inside (by omega) (by omega) (by omega), Nat.add_sub_cancel_left]
  exact hg.payload hb hlt

/-- A copy that the new block has room for stays inside it. -/
theorem HandsOut.keeps (hg : HandsOut L h h₁ free held free' c newSize) (hb : b ∈ held) (hold : old ≤ b.size)
    (hfits : b.size ≤ granted free newSize) :
    ReallocKeeps L h h₁ { h₁ with mem := memcpy h₁.mem (c.addr + headerSize) (b.addr + headerSize) b.size } free' c
      (b.addr + headerSize) old newSize := by
  rw [← hg.sized] at hfits
  refine ⟨fun i hi => hg.copied hb (by omega), fun x hx => ?_, fun x hx hne => ?_⟩
  · simp only [Span.Has, Span.hi, Blk.extent] at hx
    exact memcpy_outside (by omega)
  · by_contra hno
    exact hne (hg.kept x hx fun a ha hhas => hno ⟨a, ha, hhas⟩)

theorem Rep.realloc_eq (hr : Rep L h.mem free held) (hb : b ∈ held) (hn : newSize ≠ 0) {fuel : Nat}
    (hc : kheapAlloc L fuel h newSize = some (c.addr + headerSize, h₁)) :
    kheapRealloc L fuel h (b.addr + headerSize) newSize = some (c.addr + headerSize,
      { h₁ with mem := memcpy h₁.mem (c.addr + headerSize) (b.addr + headerSize) b.size }) := by
  have hmem : b ∈ free ++ held := List.mem_append_right _ hb
  have hbound := hr.placed.bound hmem
  have haddr : sub64 (b.addr + headerSize) headerSize = b.addr := sub64_header (by omega)
  have hnull : ∀ a, a + headerSize ≠ 0 := fun a => Nat.succ_ne_zero _
  unfold kheapRealloc
  rw [if_neg fun hz => hn hz.2, if_neg hn, if_neg (hnull b.addr), haddr, hr.sizes b hmem, hc]
  exact if_neg (hnull c.addr)

/-- The heap after a copy that fits: the new block is handed out beside the old one. -/
theorem HeapInv.realloc (hi : HeapInv L h free held) (hl : h.locked = false) (hb : b ∈ held) (hn : newSize ≠ 0)
    (hok : AllocOk L h newSize) (hsup : Supplied L h newSize) (hfits : b.size ≤ granted free newSize) :
    ∃ free' c h', HeapInv L h' free' (c :: held) ∧ h'.locked = false ∧ c.size = granted free newSize ∧
      newSize ≤ c.size ∧ (∀ i < b.size, h'.mem (c.addr + headerSize + i) = h.mem (b.addr + headerSize + i)) ∧
      ∀ fuel, free.length + 4 ≤ fuel →
        kheapRealloc L fuel h (b.addr + headerSize) newSize = some (c.addr + headerSize, h') := by
  obtain ⟨free₁, c, h₁, hg, halloc⟩ := hi.handsOut hl hok hsup
  obtain ⟨free', c', hgave⟩ := hi.alloc hok hsup (halloc _ (Nat.le_refl _))
  obtain rfl : c' = c := by
    have haddr := hgave.ptr
    have hsized := hgave.sized.trans hg.sized.symm
    cases c
    cases c'
    simp only [Blk.mk.injEq] at hsized haddr ⊢
    exact ⟨Nat.add_right_cancel haddr.symm, hsized⟩
  let h' : Kheap := { h₁ with mem := memcpy h₁.mem (c'.addr + headerSize) (b.addr + headerSize) b.size }
  refine ⟨free', c', h', hgave.inv.store List.mem_cons_self ?_, hgave.unlocked, hg.sized, hg.room,
    fun i => hg.copied hb, fun fuel hf => hi.rep.realloc_eq hb hn (halloc fuel hf)⟩
  intro y hy
  rw [← hg.sized] at hfits
  exact memcpy_outside (by omega)

end Copy

section Small

end Small

end Flan.Memory
