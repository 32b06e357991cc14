import Flan.Memory.KheapRun

/-! What a single call of `kheap_alloc` does: the block it takes where one fits, and what
becomes of a request that neither the list nor the frame allocator can meet. -/
namespace Flan.Memory
open Flan.Lib

/-! ### A block that fits -/

/-- `b`, the first block that fits, gives way to `rest`, and `c` is handed out. -/
structure Carves (L : Layout) (h h' : Kheap) (held U V rest : List Blk) (b c : Blk) (size : Nat) : Prop where
  first : ∀ d ∈ U, d.size < size
  fits : size ≤ b.size
  place : c.addr = b.addr
  room : size ≤ c.size ∧ c.size < size + headerSize
  single : rest.length ≤ 1
  bytes : ∀ x, Covers (c :: (U ++ rest ++ V)) x ↔ Covers (U ++ b :: V) x
  list : Rep L h'.mem (U ++ rest ++ V) (c :: held)
  frames : h'.pmm = h.pmm
  unlocked : h'.locked = false
  kept : ∀ x, ¬ b.extent.Has x → (∀ a ∈ L.freeList :: (U ++ V).map Blk.addr, ¬ (links a).Has x) → h'.mem x = h.mem x

section Calls
variable {L : Layout} {N N' : Nat → Prop} {h h' : Kheap} {m : Mem} {free U V : List Blk} {b : Blk} {size fuel ptr : Nat}

theorem Listed.find_first (hl : Listed L N m (U ++ b :: V)) (hfirst : ∀ d ∈ U, d.size < size) (hs : size ≤ b.size)
    (hf : (U ++ b :: V).length < fuel) :
    findBlock L m (fun a => size ≤ blockSize m a) fuel (nextOf m L.freeList) = some (some b.addr) := by
  rw [hl.ring.next_head, findBlock_total hl.ring _ [] _ rfl (by rwa [List.length_map])]
  congr 1
  apply List.find?_eq_some_iff_append.mpr
  refine ⟨?_, U.map Blk.addr, V.map Blk.addr, by simp, ?_⟩
  · rw [hl.sizes b (by simp)]
    exact decide_eq_true hs
  · intro a ha
    obtain ⟨d, hd, rfl⟩ := List.mem_map.mp ha
    rw [hl.sizes d (by simp [hd]), Bool.not_eq_true', decide_eq_false_iff_not]
    exact Nat.not_le.mpr (hfirst d hd)

theorem Listed.find_none (hl : Listed L N m free) (hno : ∀ c ∈ free, c.size < size) (hf : free.length < fuel) :
    findBlock L m (fun a => size ≤ blockSize m a) fuel (nextOf m L.freeList) = some none := by
  rw [hl.ring.next_head, findBlock_total hl.ring _ [] _ rfl (by rwa [List.length_map])]
  congr 1
  apply List.find?_eq_none.mpr
  intro a ha
  obtain ⟨c, hc, rfl⟩ := List.mem_map.mp ha
  rw [hl.sizes c hc, decide_eq_true_iff]
  exact Nat.not_le.mpr (hno c hc)

/-- The call on a list with a block that fits. -/
theorem Listed.alloc_first (hl : Listed L N h.mem (U ++ b :: V)) (hu : h.locked = false)
    (hfirst : ∀ d ∈ U, d.size < size) (hs : size ≤ b.size) (hf : (U ++ b :: V).length + 2 ≤ fuel) :
    kheapAlloc L fuel h size =
      some (b.addr + headerSize, { h with mem := dllRemove (splitBlock h.mem b.addr size) b.addr }) := by
  obtain ⟨fuel, rfl⟩ : ∃ k, fuel = k + 1 := Nat.exists_eq_add_of_le' (by omega)
  rw [kheapAlloc, hu, hl.find_first hfirst hs (by omega)]
  rfl

/-- The call on a list without one, where the refill appends `b` and nothing looks like a
neighbour. -/
theorem Listed.alloc_refill (hl : Listed L N h.mem free) (hu : h.locked = false) (hno : ∀ c ∈ free, c.size < size)
    (hg : Listed L N' (refill L h size).mem (free ++ [b])) (hidle : CoalesceIdle L (refill L h size).mem)
    (hs : size ≤ b.size) (hf : free.length + 4 ≤ fuel) :
    kheapAlloc L fuel h size = some (b.addr + headerSize,
      { refill L h size with mem := dllRemove (splitBlock (refill L h size).mem b.addr size) b.addr }) := by
  obtain ⟨fuel, rfl⟩ : ∃ k, fuel = k + 1 := Nat.exists_eq_add_of_le' (by omega)
  have hlen : (free ++ [b]).length = free.length + 1 := by simp
  have hcoalesce : coalesceDll L fuel (refill L h size).mem = some (refill L h size).mem := by
    rw [coalesceDll_idle hg.ring hidle, if_pos]
    rw [List.length_map]
    omega
  rw [kheapAlloc, hu, hl.find_none hno (by omega), hcoalesce]
  exact hg.alloc_first hu hno hs (by omega)

/-- A pointer that `kheap_alloc` returns is that of a payload, behind a header. -/
theorem kheapAlloc_ne_null (hc : kheapAlloc L fuel h size = some (ptr, h')) : ptr ≠ 0 := by
  induction fuel generalizing h with
  | zero => cases hc
  | succ fuel ih =>
      unfold kheapAlloc at hc
      split at hc
      · cases hc
      · split at hc
        · cases hc
        · obtain ⟨rfl, -⟩ := Prod.mk.inj (Option.some.inj hc)
          rw [headerSize]
          exact Nat.succ_ne_zero _
        · split at hc
          · cases hc
          · exact ih hc

end Calls

section Carve
variable {L : Layout} {h : Kheap} {m : Mem} {free held U V : List Blk} {b : Blk} {size fuel x : Nat}

theorem exists_first_fit (h : ∃ c ∈ free, size ≤ c.size) :
    ∃ U b V, free = U ++ b :: V ∧ (∀ d ∈ U, d.size < size) ∧ size ≤ b.size := by
  obtain ⟨U, b, V, hlist, hU, hb⟩ := exists_first_block h
  exact ⟨U, b, V, hlist, fun d hd => Nat.not_le.mp (hU d hd), hb⟩

theorem Blk.carve_lt (hs : size ≤ b.size) : (b.carve size).1.size < size + headerSize := by
  unfold Blk.carve
  split
  · exact Nat.lt_add_of_pos_right (by decide)
  · rename_i hfit
    show b.size < size + headerSize
    omega

theorem Blk.carve_rest (b : Blk) (size : Nat) : (b.carve size).2.length ≤ 1 := by
  unfold Blk.carve
  split
  · exact le_refl 1
  · exact Nat.zero_le 1

/-- Nothing but the block is given out and kept. -/
theorem carve_bytes (hs : size ≤ b.size) :
    Covers ((b.carve size).1 :: (U ++ (b.carve size).2 ++ V)) x ↔ Covers (U ++ b :: V) x := by
  constructor
  · rintro ⟨c, hc, hx⟩
    have hcase : c ∈ (b.carve size).1 :: (b.carve size).2 ∨ c ∈ U ++ V := by
      generalize b.carve size = parts at hc
      simp only [List.mem_append, List.mem_cons] at hc ⊢
      tauto
    rcases hcase with hpart | hother
    · have hw := Blk.carve_within hs c hpart
      exact ⟨b, by simp, Nat.le_trans hw.1 hx.1, Nat.lt_of_lt_of_le hx.2 hw.2⟩
    · refine ⟨c, ?_, hx⟩
      simp only [List.mem_append, List.mem_cons] at hother ⊢
      tauto
  · intro hcov
    have hcov' : Covers (U ++ b :: V ++ []) x := by rwa [List.append_nil]
    obtain ⟨c, hc, hx⟩ := covers_carve size hcov'
    refine ⟨c, ?_, hx⟩
    generalize b.carve size = parts at hc
    simp only [List.mem_append, List.mem_cons, List.not_mem_nil, or_false] at hc ⊢
    tauto

theorem Rep.carves (hr : Rep L h.mem (U ++ b :: V) held) (hl : h.locked = false)
    (hfirst : ∀ d ∈ U, d.size < size) (hs : size ≤ b.size) :
    Carves L h { h with mem := dllRemove (splitBlock h.mem b.addr size) b.addr } held U V (b.carve size).2 b
      (b.carve size).1 size where
  first := hfirst
  fits := hs
  place := Blk.carve_addr b size
  room := ⟨Blk.carve_size hs, Blk.carve_lt hs⟩
  single := Blk.carve_rest b size
  bytes _ := carve_bytes hs
  list := hr.carve size
  frames := rfl
  unlocked := hl
  kept _ := hr.carve_outside

/-- Where a block of the free list has room, `kheap_alloc` returns, with the payload of
the first one: the block handed out has the size asked for or less than a header more,
what is left of it stays in its place on the list, no byte is lost or gained, and of all
other blocks only links change. -/
theorem kheap_alloc_carves {size : Nat} (hr : Rep L h.mem free held) (hl : h.locked = false)
    (hfit : ∃ c ∈ free, size ≤ c.size) :
    ∃ U b V c rest h', free = U ++ b :: V ∧ Carves L h h' held U V rest b c size ∧
      ∀ fuel, free.length + 2 ≤ fuel → kheapAlloc L fuel h size = some (b.addr + headerSize, h') := by
  obtain ⟨U, b, V, rfl, hfirst, hs⟩ := exists_first_fit hfit
  exact ⟨U, b, V, _, _, _, rfl, hr.carves hl hfirst hs, fun fuel hf => hr.listed.alloc_first hl hfirst hs hf⟩

end Carve

section Small
variable {h : Kheap} {held V : List Blk} {b : Blk}

theorem smallHeap_inv : HeapInv smallLayout smallHeap [⟨0x11000, 4072⟩] [] := by
  have hsup : (pmmMalloc freePmm 1).1 ≠ 0 := by decide
  obtain ⟨f, htook, hi⟩ := HeapInv.init (L := smallLayout) (fun _ => 0) (p := freePmm) rfl hsup
  have hused : (pmmMalloc freePmm 1).2.used 1 = true := by decide
  rw [htook.used, Bool.or_eq_true, decide_eq_true_iff] at hused
  obtain rfl : f = 1 := by
    rcases hused with hin | hold
    · omega
    · exact absurd hold (by decide)
  rw [smallHeap_eq] at hi
  exact hi

theorem smallHeap_unlocked : smallHeap.locked = false := by decide +kernel

/-- What `kheap_alloc` makes of a small heap whose first block fits. -/
theorem smallAlloc_inv (hi : HeapInv smallLayout h (b :: V) held) (hl : h.locked = false) (size : Nat) (hs : size ≤ b.size)
    (hlen : V.length ≤ 4) : (smallAlloc h size).1 = b.addr + headerSize ∧ (smallAlloc h size).2.locked = false ∧
      HeapInv smallLayout (smallAlloc h size).2 ((b.carve size).2 ++ V) ((b.carve size).1 :: held) := by
  have hf : ([] ++ b :: V).length + 2 ≤ 8 := by
    simp only [List.nil_append, List.length_cons]
    omega
  have hc := Listed.alloc_first (U := []) hi.rep.listed hl (by simp) hs hf
  have heq := smallAlloc_eq h size (by rw [hc]; rfl)
  rw [hc] at heq
  obtain ⟨hptr, hheap⟩ := Prod.mk.inj (Option.some.inj heq)
  rw [← hptr, ← hheap]
  exact ⟨rfl, hl, HeapInv.carve (U := []) hi hs⟩

/-- The small heap after an allocation of eight bytes. -/
theorem smallHeap_one : (smallAlloc smallHeap 8).2.locked = false ∧
    HeapInv smallLayout (smallAlloc smallHeap 8).2 [⟨0x11020, 4040⟩] [⟨0x11000, 8⟩] :=
  (smallAlloc_inv smallHeap_inv smallHeap_unlocked 8 (by decide) (by decide)).2

/-- Eight bytes of the first frame. -/
theorem eight_bytes_carved : ∃ c rest h', Carves smallLayout smallHeap h' [] [] [] rest ⟨0x11000, 4072⟩ c 8 ∧
    kheapAlloc smallLayout 8 smallHeap 8 = some (0x11018, h') := by
  obtain ⟨U, b, V, c, rest, h', hlist, hcarves, halloc⟩ :=
    kheap_alloc_carves smallHeap_inv.rep smallHeap_unlocked (show ∃ c ∈ [(⟨0x11000, 4072⟩ : Blk)], 8 ≤ c.size from ⟨⟨0x11000, 4072⟩, by simp, by decide⟩)
  obtain ⟨rfl, rfl, rfl⟩ : U = [] ∧ (⟨0x11000, 4072⟩ : Blk) = b ∧ V = [] := by
    cases U with
    | nil => simpa [eq_comm] using hlist
    | cons a U => simp at hlist
  exact ⟨c, rest, h', hcarves, halloc 8 (by decide)⟩

end Small

/-! ### No block and no frames -/

/-- The free list that memory holds. -/
structure FreeListIs (L : Layout) (m : Mem) (free : List Blk) : Prop where
  ring : Ring (nextOf m) (prevOf m) (fun _ => True) L.freeList (free.map Blk.addr)
  sizes : ∀ b ∈ free, blockSize m b.addr = b.size

/-- `kheap_alloc` returns `NULL` and leaves the free list as it is. -/
def ReportsExhaustion (L : Layout) (h : Kheap) (size : Nat) : Prop :=
  ∃ fuel h', kheapAlloc L fuel h size = some (0, h') ∧ ∀ free, FreeListIs L h.mem free → FreeListIs L h'.mem free

/-- A header at the start of frame `0` overwrites none of the list, and the call goes on
to find it there. -/
structure ZeroClear (L : Layout) (h : Kheap) (free : List Blk) (size : Nat) : Prop where
  window : 0 < L.limit
  clear : ∀ c ∈ free, L.hhdm + headerSize ≤ c.addr
  ok : AllocOk L h size

section Exhausted
variable {L : Layout} {h : Kheap} {m : Mem} {free held : List Blk} {b : Blk} {size fuel : Nat}

theorem Rep.zero_nodes (hr : Rep L m free held) (hz : 0 < L.limit) (hclear : ∀ c ∈ free, L.hhdm + headerSize ≤ c.addr) :
    Nodes fun a => a = L.hhdm ∨ a ∈ L.freeList :: free.map Blk.addr := by
  have hN := hr.placed.nodes
  have hwin := L.window_le
  have hap := L.apart
  have hframe : frameSize ≤ frameSize * L.limit := Nat.le_mul_of_pos_right _ hz
  have hlow : headerSize ≤ frameSize := by decide
  have hpos : 0 < headerSize := by decide
  have hoff : ∀ a ∈ L.freeList :: free.map Blk.addr, L.hhdm + headerSize ≤ a ∨ a + headerSize ≤ L.hhdm := by
    intro a ha
    rcases List.mem_cons.mp ha with rfl | ha
    · omega
    · obtain ⟨c, hc, rfl⟩ := List.mem_map.mp ha
      exact .inl (hclear c hc)
  constructor
  · rintro a a' (rfl | ha) (rfl | ha')
    · exact .inl rfl
    · exact .inr (hoff a' ha')
    · exact .inr (hoff a ha).symm
    · exact hN.clear a a' (isNode_of_ring ha) (isNode_of_ring ha')
  · rintro a (rfl | ha)
    · omega
    · exact hN.lt a (isNode_of_ring ha)

/-- The list after a refill without frames: the block is made of frame `0`. -/
theorem Rep.zero_listed (hr : Rep L h.mem free held) (hz : ZeroClear L h free size)
    (hnone : (pmmMalloc h.pmm (refillFrames size)).1 = 0) :
    ∃ N, Listed L N (refill L h size).mem (free ++ [⟨L.hhdm, refillFrames size * frameSize - headerSize⟩]) := by
  have hwin := L.window_le
  have hframe : frameSize ≤ frameSize * L.limit := Nat.le_mul_of_pos_right _ hz.window
  obtain ⟨hpos, hroom⟩ := refillFrames_room hz.ok.1
  have hsmall : refillFrames size * frameSize < 2 ^ 64 := by
    have hok := hz.ok.1
    rw [refillFrames_eq hok]
    simp only [headerSize, frameSize] at hok ⊢
    omega
  have hlt : L.hhdm < 2 ^ 64 := by
    have : 0 < frameSize := by decide
    omega
  have hoff : L.hhdm ∉ L.freeList :: free.map Blk.addr := by
    have hap := L.apart
    have hhead : 0 < headerSize ∧ headerSize ≤ frameSize := by decide
    intro hmem
    rcases List.mem_cons.mp hmem with heq | hmem
    · omega
    · obtain ⟨c, hc, heq⟩ := List.mem_map.mp hmem
      have := hz.clear c hc
      omega
  let b : Blk := ⟨L.hhdm, refillFrames size * frameSize - headerSize⟩
  have hbytes : b.size + headerSize = refillFrames size * frameSize := by
    simp only [b]
    omega
  have hlisted : Listed L _ h.mem free := ⟨hr.zero_nodes hz.window hz.clear, .inr List.mem_cons_self,
    fun c hc => .inr (List.mem_cons_of_mem _ (List.mem_map_of_mem hc)), hr.ring, hr.listed.sizes⟩
  have hmem : (refill L h size).mem = Memory.addBlock L h.mem b.addr (b.size + headerSize) := by
    rw [refill, hnone, Nat.zero_add, Nat.mod_eq_of_lt hlt, Nat.mod_eq_of_lt hsmall, hbytes]
  rw [hmem]
  exact ⟨_, (hlisted.addBlock (b := b) (.inl rfl) (by omega) hoff).1⟩

theorem Rep.alloc_zero (hr : Rep L h.mem free held) (hl : h.locked = false) (hno : ∀ c ∈ free, c.size < size)
    (hnone : (pmmMalloc h.pmm (refillFrames size)).1 = 0) (hz : ZeroClear L h free size) (hf : free.length + 4 ≤ fuel) :
    ∃ h', kheapAlloc L fuel h size = some (L.hhdm + headerSize, h') ∧ h'.pmm = h.pmm := by
  obtain ⟨hpos, hroom⟩ := refillFrames_room hz.ok.1
  obtain ⟨N, hg⟩ := hr.zero_listed hz hnone
  have hpmm : (pmmMalloc h.pmm (refillFrames size)).2 = h.pmm := by
    rcases pmmMalloc_spec h.pmm hpos with ⟨f, hfit, hptr, -⟩ | ⟨-, heq⟩
    · have hfpos := hfit.pos
      rw [hnone, frameSize] at hptr
      omega
    · rw [heq]
  refine ⟨_, hr.listed.alloc_refill hl hno hg (hz.ok.2 (hr.noFit_iff.mpr hno)) ?_ hf, hpmm⟩
  simp only
  omega

/-- Where no block fits and the frame allocator has nothing, `kheap_alloc` never returns
`NULL`: it takes the failed request for frames at address `0`, and the pointer it returns
is that of frame `0`, which nobody has taken. -/
theorem exhaustion_never_reported (hr : Rep L h.mem free held) (hl : h.locked = false)
    (hno : ∀ c ∈ free, c.size < size) (hnone : (pmmMalloc h.pmm (refillFrames size)).1 = 0) :
    ¬ ReportsExhaustion L h size ∧ (ZeroClear L h free size → ∀ fuel, free.length + 4 ≤ fuel →
      ∃ h', kheapAlloc L fuel h size = some (L.hhdm + headerSize, h') ∧ h'.pmm = h.pmm) := by
  refine ⟨?_, fun hz fuel hf => hr.alloc_zero hl hno hnone hz hf⟩
  rintro ⟨fuel, h', hc, -⟩
  exact kheapAlloc_ne_null hc rfl

end Exhausted

section Full

/-- The small heap when every frame is taken. -/
def fullHeap : Kheap := { smallHeap with pmm := ⟨fun _ => 255, 16, freePmm.limit_le⟩ }

theorem fullHeap_rep : Rep smallLayout fullHeap.mem [⟨0x11000, 4072⟩] [] := smallHeap_inv.rep

theorem fullHeap_noFit : ∀ c ∈ [(⟨0x11000, 4072⟩ : Blk)], c.size < 5000 := by decide

theorem fullHeap_clear : ZeroClear smallLayout fullHeap [⟨0x11000, 4072⟩] 5000 := by
  refine ⟨by decide, by decide, by decide, fun _ => ?_⟩
  exact coalesceIdle_of_closed [0x100, 0x11000, 0x10000] (by decide) (by decide +kernel) (by decide +kernel)

theorem full_heap_not_reported : ¬ ReportsExhaustion smallLayout fullHeap 5000 ∧
    ∃ h', kheapAlloc smallLayout 8 fullHeap 5000 = some (0x10018, h') ∧ h'.pmm = fullHeap.pmm := by
  obtain ⟨hnot, hzero⟩ := exhaustion_never_reported fullHeap_rep smallHeap_unlocked fullHeap_noFit
    (by decide +kernel)
  exact ⟨hnot, hzero fullHeap_clear 8 (by decide)⟩

/-- Five thousand bytes of a heap without frames are handed out all the same. -/
theorem full_heap_hands_out_frame_zero : (pmmMalloc fullHeap.pmm (refillFrames 5000)).1 = 0 ∧
    NoFit smallLayout fullHeap 5000 ∧ (∃ h', kheapAlloc smallLayout 8 fullHeap 5000 = some (0x10018, h')) ∧
    ¬ ReportsExhaustion smallLayout fullHeap 5000 := by
  have hnone : (pmmMalloc fullHeap.pmm (refillFrames 5000)).1 = 0 := by decide +kernel
  obtain ⟨h', hc, -⟩ := fullHeap_rep.alloc_zero smallHeap_unlocked fullHeap_noFit hnone fullHeap_clear
    (show _ ≤ 8 by decide)
  refine ⟨hnone, fullHeap_rep.noFit_iff.mpr fullHeap_noFit, ⟨h', hc⟩, ?_⟩
  rintro ⟨fuel, h'', hc, -⟩
  exact kheapAlloc_ne_null hc rfl

end Full

end Flan.Memory
