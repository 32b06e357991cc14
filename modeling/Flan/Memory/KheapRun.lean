import Flan.Memory.KheapBlocks

/-! Runs of the heap's clients, and what keeps their allocations disjoint. -/
namespace Flan.Memory
open Flan.Lib

/-- The heap with its live allocations: pointers and requested sizes. -/
structure HeapRun where
  heap : Kheap
  live : List (Nat × Nat)

inductive HeapOp where
  | alloc (size : Nat)
  | calloc (size : Nat)
  | realloc (ptr newSize : Nat)
  | free (ptr : Nat)
  | store (addr : Nat) (v : Byte)
  deriving DecidableEq, Repr

def payload (a : Nat × Nat) : Span := ⟨a.1, a.2⟩

def header (a : Nat × Nat) : Span := ⟨a.1 - headerSize, headerSize⟩

/-- The live allocations without the one at `ptr`. -/
def HeapRun.without (w : HeapRun) (ptr : Nat) : List (Nat × Nat) := w.live.filter fun a => a.1 ≠ ptr

section Runs
variable (L : Layout)

/-- One call that returns, or one byte a client writes to its own payload. A
pointer given to `kheap_realloc` stops being live whatever the call does to it. -/
inductive HeapStep : HeapRun → HeapOp → HeapRun → Prop
  | alloc {w : HeapRun} {size fuel ptr : Nat} {h : Kheap}
      (hc : kheapAlloc L fuel w.heap size = some (ptr, h)) :
      HeapStep w (.alloc size) ⟨h, (ptr, size) :: w.live⟩
  | calloc {w : HeapRun} {size fuel ptr : Nat} {h : Kheap}
      (hc : kheapCalloc L fuel w.heap size = some (ptr, h)) :
      HeapStep w (.calloc size) ⟨h, (ptr, size) :: w.live⟩
  | realloc {w : HeapRun} {ptr newSize fuel ret : Nat} {h : Kheap}
      (hlive : ptr = 0 ∨ ptr ∈ w.live.map Prod.fst) (hn : newSize ≠ 0)
      (hc : kheapRealloc L fuel w.heap ptr newSize = some (ret, h)) :
      HeapStep w (.realloc ptr newSize) ⟨h, (ret, newSize) :: w.without ptr⟩
  | reallocFree {w : HeapRun} {ptr fuel ret : Nat} {h : Kheap}
      (hlive : ptr = 0 ∨ ptr ∈ w.live.map Prod.fst)
      (hc : kheapRealloc L fuel w.heap ptr 0 = some (ret, h)) :
      HeapStep w (.realloc ptr 0) ⟨h, w.without ptr⟩
  | free {w : HeapRun} {ptr fuel : Nat} {h : Kheap} (hlive : ptr ∈ w.live.map Prod.fst)
      (hc : kheapFree L fuel w.heap ptr = some h) :
      HeapStep w (.free ptr) ⟨h, w.without ptr⟩
  | store {w : HeapRun} {addr : Nat} {v : Byte} (hlive : ∃ a ∈ w.live, (payload a).Has addr) :
      HeapStep w (.store addr v)
        ⟨{ w.heap with mem := Function.update w.heap.mem addr v }, w.live⟩

/-- The payloads of live allocations have no byte in common with each other,
with the header of a live block or with a block of the free list. -/
structure HeapDisjoint (w : HeapRun) : Prop where
  payloads : w.live.Pairwise fun a b => ∀ x, (payload a).Has x → ¬ (payload b).Has x
  headers : ∀ a ∈ w.live, ∀ b ∈ w.live, ∀ x, (payload a).Has x → ¬ (header b).Has x
  free : ∀ a ∈ w.live, ∀ f, OnFreeList L w.heap.mem f → ∀ x, (payload a).Has x →
    ¬ (⟨f, headerSize + blockSize w.heap.mem f⟩ : Span).Has x

/-- No block of the free list has room for `size` bytes. -/
def NoFit (h : Kheap) (size : Nat) : Prop := ∀ f, OnFreeList L h.mem f → blockSize h.mem f < size

/-- The frame allocator has the frames a refill asks for. -/
def Supplied (h : Kheap) (size : Nat) : Prop :=
  NoFit L h size → (pmmMalloc h.pmm (refillFrames size)).1 ≠ 0

/-- The size does not wrap when it is rounded up, and after a refill no block
looks like the neighbour of another. -/
def AllocOk (h : Kheap) (size : Nat) : Prop :=
  size + headerSize + frameSize ≤ 2 ^ 64 ∧ (NoFit L h size → CoalesceIdle L (refill L h size).mem)

/-- The block goes back to the frame allocator, or after it has been linked in
no block looks like the neighbour of another. -/
def FreeOk (h : Kheap) (ptr : Nat) : Prop :=
  returnsFrames h.mem (sub64 ptr headerSize) = true ∨
  ∀ fuel r, findBlock L h.mem (fun b => sub64 ptr headerSize < b) fuel (nextOf h.mem L.freeList) =
    some r → CoalesceIdle L (linkFree L h.mem (sub64 ptr headerSize) r)

/-- The size of the block that `kheap_alloc` hands out, from the sizes on the free list. -/
def granted (free : List Blk) (size : Nat) : Nat :=
  let room := match free.find? fun c => size ≤ c.size with
    | some b => b.size
    | none => refillFrames size * frameSize - headerSize
  if headerSize ≤ room - size then size else room

/-- The copy of the whole old block fits into the block that the free list grants. -/
def CopyFits (h : Kheap) (ptr newSize : Nat) : Prop :=
  ∀ free held, Rep L h.mem free held → blockSize h.mem (sub64 ptr headerSize) ≤ granted free newSize

/-- What is taken for granted of a call: frames are there when needed. -/
def HeapOp.Supplied (h : Kheap) : HeapOp → Prop
  | .alloc size => Memory.Supplied L h size
  | .calloc size => Memory.Supplied L h size
  | .realloc _ newSize => newSize ≠ 0 → Memory.Supplied L h newSize
  | .free _ => True
  | .store _ _ => True

/-- The calls that keep the heap intact. -/
def HeapOp.Safe (h : Kheap) : HeapOp → Prop
  | .alloc size => AllocOk L h size
  | .calloc size => AllocOk L h size
  | .realloc ptr newSize =>
      if newSize = 0 then ptr = 0 ∨ FreeOk L h ptr
      else AllocOk L h newSize ∧ (ptr = 0 ∨ CopyFits L h ptr newSize)
  | .free ptr => FreeOk L h ptr
  | .store _ _ => True

/-- The states reached by calls that meet `C`. -/
inductive HeapReaches (C : Kheap → HeapOp → Prop) (w : HeapRun) : HeapRun → Prop
  | refl : HeapReaches C w w
  | tail {v v' : HeapRun} {op : HeapOp} (h : HeapReaches C w v) (hs : HeapStep L v op v')
      (hc : C v.heap op) : HeapReaches C w v'

end Runs

/-! ### The invariant -/

section Inv
variable {L : Layout} {h h' : Kheap} {free held : List Blk} {b : Blk}

/-- The blocks represented by the memory lie in frames that are in use, at least
until `kheap_free` has kept the lock for good. -/
structure HeapInv (L : Layout) (h : Kheap) (free held : List Blk) : Prop where
  rep : Rep L h.mem free held
  limit : h.pmm.limit = L.limit
  marked : h.locked = false → ∀ b ∈ free ++ held, ∀ x, b.extent.Has x →
    h.pmm.used ((x - L.hhdm) / frameSize) = true

theorem refillFrames_eq {size : Nat} (hs : size + headerSize + frameSize ≤ 2 ^ 64) :
    refillFrames size = (size + headerSize + frameSize - 1) / frameSize := by
  rw [refillFrames, alignUpFrame, Nat.mul_div_cancel _ (by decide : 0 < frameSize)]
  simp only [headerSize, frameSize] at hs ⊢
  rw [Nat.mod_eq_of_lt (by omega : size + 24 < 2 ^ 64),
    Nat.mod_eq_of_lt (by omega : size + 24 + 4096 - 1 < 2 ^ 64)]

/-- The frames of a refill have room for the request and its header. -/
theorem refillFrames_room {size : Nat} (hs : size + headerSize + frameSize ≤ 2 ^ 64) :
    0 < refillFrames size ∧ size + headerSize ≤ refillFrames size * frameSize := by
  rw [refillFrames_eq hs]
  simp only [headerSize, frameSize]
  omega

/-- The block made of `n` frames from `f` on. -/
def newBlock (L : Layout) (f n : Nat) : Blk := ⟨L.hhdm + frameSize * f, n * frameSize - headerSize⟩

theorem newBlock_bytes (L : Layout) (f : Nat) {n : Nat} (hn : 0 < n) :
    (newBlock L f n).size + headerSize = n * frameSize := by
  simp only [newBlock, headerSize, frameSize]
  omega

/-- A refill has room for the request. -/
theorem newBlock_fits (L : Layout) (f : Nat) {size : Nat} (hs : size + headerSize + frameSize ≤ 2 ^ 64) :
    size ≤ (newBlock L f (refillFrames size)).size := by
  obtain ⟨hpos, hroom⟩ := refillFrames_room hs
  have hbytes := newBlock_bytes L f hpos
  omega

theorem newBlock_hi (L : Layout) (f : Nat) {n : Nat} (hn : 0 < n) :
    (newBlock L f n).extent.hi = L.hhdm + frameSize * f + n * frameSize := by
  rw [← newBlock_bytes L f hn, Nat.add_comm _ headerSize]
  rfl

/-- The bytes of the block are those of its frames. -/
theorem newBlock_has {f n x : Nat} (hn : 0 < n) : (newBlock L f n).extent.Has x ↔
    L.hhdm ≤ x ∧ f ≤ (x - L.hhdm) / frameSize ∧ (x - L.hhdm) / frameSize < f + n := by
  rw [Span.Has, newBlock_hi L f hn]
  simp only [newBlock, Blk.extent, frameSize]
  omega

/-- Frames of the frame allocator lie in the window. -/
theorem FirstFit.in_window {p : Pmm} {f n : Nat} (hfit : FirstFit p n f) (hlim : p.limit = L.limit) :
    L.hhdm + frameSize * f + n * frameSize ≤ L.top := by
  have hmul : frameSize * (f + n) ≤ frameSize * L.limit := Nat.mul_le_mul_left _ (hlim ▸ hfit.fits)
  rw [Nat.mul_add, Nat.mul_comm frameSize n] at hmul
  rw [Layout.top]
  omega

/-- The arguments of `add_block` do not wrap. -/
theorem FirstFit.addBlock_args {p : Pmm} {f n : Nat} (hfit : FirstFit p n f) (hlim : p.limit = L.limit) (hn : 0 < n) :
    (frameSize * f + L.hhdm) % 2 ^ 64 = (newBlock L f n).addr ∧
      n * frameSize % 2 ^ 64 = (newBlock L f n).size + headerSize := by
  have hpos := hfit.pos
  have hend := (hfit.in_window hlim).trans L.window_le
  rw [newBlock_bytes L f hn, Nat.add_comm]
  simp only [newBlock, frameSize] at hend ⊢
  exact ⟨Nat.mod_eq_of_lt (by omega), Nat.mod_eq_of_lt (by omega)⟩

/-- A block made of frames that were free is clear of every block of the heap. -/
theorem HeapInv.place (hi : HeapInv L h free held) (hl : h.locked = false) {f n : Nat}
    (hfit : FirstFit h.pmm n f) (hn : 0 < n) : Placed L (newBlock L f n :: (free ++ held)) := by
  refine ⟨List.pairwise_cons.mpr ⟨?_, hi.rep.placed.apart⟩, List.forall_mem_cons.mpr ⟨?_, hi.rep.placed.window⟩⟩
  · intro c hc
    refine Span.apart_of_not_has (Nat.add_pos_left (by decide) _) (Nat.add_pos_left (by decide) _) ?_
    intro x hx hcx
    obtain ⟨-, hlo, hhi⟩ := (newBlock_has hn).mp hx
    have hused := hi.marked hl c hc x hcx
    rw [hfit.free _ hlo hhi] at hused
    cases hused
  · rw [newBlock_hi L f hn]
    exact ⟨Nat.le_add_right _ _, hfit.in_window hi.limit⟩

/-- `add_block` on frames that `pmm_malloc` has just handed out. -/
theorem HeapInv.grow (hi : HeapInv L h free held) (hl : h.locked = false) {n : Nat} (hn : 0 < n)
    (hsup : (pmmMalloc h.pmm n).1 ≠ 0) : ∃ f, Took h.pmm n f (pmmMalloc h.pmm n).2 ∧
      addBlock L h.mem (((pmmMalloc h.pmm n).1 + L.hhdm) % 2 ^ 64) (n * frameSize % 2 ^ 64) =
        addBlock L h.mem (newBlock L f n).addr ((newBlock L f n).size + headerSize) ∧ HeapInv L
      { h with mem := addBlock L h.mem (((pmmMalloc h.pmm n).1 + L.hhdm) % 2 ^ 64)
                 (n * frameSize % 2 ^ 64), pmm := (pmmMalloc h.pmm n).2 }
      (free ++ [newBlock L f n]) held := by
  obtain ⟨f, hfit, hptr, htook⟩ := pmmMalloc_some h.pmm hn hsup
  obtain ⟨haddr, hbytes⟩ := hfit.addBlock_args hi.limit hn
  rw [hptr, haddr, hbytes]
  refine ⟨f, htook, rfl, ⟨hi.rep.addBlock (hi.place hl hfit hn), htook.limit.trans hi.limit, ?_⟩⟩
  intro _ c hc x hx
  refine (htook.used ((x - L.hhdm) / frameSize)).trans ?_
  rw [Bool.or_eq_true, decide_eq_true_iff]
  have hperm : (free ++ [newBlock L f n] ++ held).Perm (newBlock L f n :: (free ++ held)) := by
    rw [List.append_assoc]
    exact List.perm_middle
  rcases List.mem_cons.mp (hperm.mem_iff.mp hc) with rfl | hc'
  · exact .inl ((newBlock_has hn).mp hx).2
  · exact .inr (hi.marked hl c hc' x hx)

/-- Handing out part of a free block. -/
theorem HeapInv.carve {U V : List Blk} (hi : HeapInv L h (U ++ b :: V) held) {size : Nat}
    (hs : size ≤ b.size) :
    HeapInv L { h with mem := dllRemove (splitBlock h.mem b.addr size) b.addr }
      (U ++ (b.carve size).2 ++ V) ((b.carve size).1 :: held) := by
  have hrep := hi.rep.carve size
  refine ⟨hrep, hi.limit, ?_⟩
  intro hl c hc x hx
  have hcase : c ∈ (b.carve size).1 :: (b.carve size).2 ∨ c ∈ U ++ b :: V ++ held := by
    generalize b.carve size = p at hc
    simp only [List.mem_append, List.mem_cons] at hc ⊢
    tauto
  rcases hcase with hpart | hold
  · have hw := Blk.carve_within hs c hpart
    exact hi.marked hl b (by simp) x ⟨Nat.le_trans hw.1 hx.1, Nat.lt_of_lt_of_le hx.2 hw.2⟩
  · exact hi.marked hl c hold x hx

/-- The block that the walk of `kheap_alloc` finds, as a member of the list. -/
theorem Rep.find_fit {m : Mem} (hr : Rep L m free held) {size fuel : Nat} {r : Option Nat}
    (hf : findBlock L m (fun b => size ≤ blockSize m b) fuel (nextOf m L.freeList) = some r) :
    (r = none ∧ ∀ c ∈ free, c.size < size) ∨
    ∃ U b V, free = U ++ b :: V ∧ (∀ c ∈ U, c.size < size) ∧ size ≤ b.size ∧ r = some b.addr := by
  rw [hr.ring.next_head] at hf
  have hsound := findBlock_sound hr.ring fuel [] _ rfl hf
  have hsize : ∀ c ∈ free, blockSize m c.addr = c.size :=
    fun c hc => hr.sizes c (List.mem_append_left _ hc)
  rw [List.find?_map] at hsound
  cases hfound : free.find? ((fun b => decide (size ≤ blockSize m b)) ∘ Blk.addr) with
  | none =>
      rw [hfound] at hsound
      refine .inl ⟨hsound, fun c hc => ?_⟩
      have hno := List.find?_eq_none.mp hfound c hc
      simp only [Function.comp_apply, hsize c hc, decide_eq_true_eq, Nat.not_le] at hno
      exact hno
  | some b =>
      rw [hfound] at hsound
      obtain ⟨hfit, U, V, hlist, hbefore⟩ := List.find?_eq_some_iff_append.mp hfound
      subst hlist
      refine .inr ⟨U, b, V, rfl, fun c hc => ?_, ?_, hsound⟩
      · have hno := hbefore c hc
        simp only [Function.comp_apply, hsize c (by simp [hc]), Bool.not_eq_true', decide_eq_false_iff_not,
          Nat.not_le] at hno
        exact hno
      · simpa [hsize b (by simp)] using hfit

theorem Rep.noFit_iff (hr : Rep L h.mem free held) {size : Nat} :
    NoFit L h size ↔ ∀ c ∈ free, c.size < size := by
  have hsize : ∀ c ∈ free, blockSize h.mem c.addr = c.size :=
    fun c hc => hr.sizes c (List.mem_append_left _ hc)
  constructor
  · intro hno c hc
    rw [← hsize c hc]
    exact hno _ ((onFreeList_iff hr.ring).mpr (List.mem_map_of_mem hc))
  · intro hno f hf
    obtain ⟨c, hc, rfl⟩ := List.mem_map.mp ((onFreeList_iff hr.ring).mp hf)
    rw [hsize c hc]
    exact hno c hc

/-! ### Calls -/

/-- The byte lies in one of the blocks. -/
def Covers (bs : List Blk) (x : Nat) : Prop := ∃ b ∈ bs, b.extent.Has x

/-- An allocation hands out the block `c`. No block's byte is lost, and the bytes
of frames that were taken for it lie in blocks as well. -/
structure Gave (L : Layout) (h h' : Kheap) (free held free' : List Blk) (c : Blk) (size ptr : Nat) : Prop where
  inv : HeapInv L h' free' (c :: held)
  ptr : ptr = c.addr + headerSize
  sized : c.size = granted free size
  size : size ≤ c.size
  unlocked : h'.locked = false
  bytes : ∀ x, Covers (free ++ held) x → Covers (free' ++ c :: held) x
  fresh : ∀ x, L.hhdm ≤ x → h'.pmm.used ((x - L.hhdm) / frameSize) = true →
    h.pmm.used ((x - L.hhdm) / frameSize) = true ∨ Covers (free' ++ c :: held) x

theorem Blk.carve_sized (b : Blk) (size : Nat) :
    (b.carve size).1.size = if headerSize ≤ b.size - size then size else b.size := by
  unfold Blk.carve
  split <;> rfl

theorem carve_granted {U V : List Blk} {size : Nat} (hfirst : ∀ d ∈ U, d.size < size) (hs : size ≤ b.size) :
    (b.carve size).1.size = granted (U ++ b :: V) size := by
  have hfind : (U ++ b :: V).find? (fun c => decide (size ≤ c.size)) = some b := by
    refine List.find?_eq_some_iff_append.mpr ⟨decide_eq_true hs, U, V, rfl, fun d hd => ?_⟩
    rw [decide_eq_false (Nat.not_le.mpr (hfirst d hd)), Bool.not_false]
  rw [Blk.carve_sized, granted, hfind]

/-- Without a block that fits, the size comes from the frames of the refill. -/
theorem granted_refill {f size : Nat} (hno : ∀ d ∈ free, d.size < size)
    (hs : size ≤ (newBlock L f (refillFrames size)).size) :
    granted (free ++ [newBlock L f (refillFrames size)]) size = granted free size := by
  have hnone : free.find? (fun c => decide (size ≤ c.size)) = none := by
    apply List.find?_eq_none.mpr
    intro d hd
    rw [decide_eq_true_iff]
    exact Nat.not_le.mpr (hno d hd)
  rw [← carve_granted hno hs, Blk.carve_sized, granted, hnone]
  rfl

/-- The parts of a block that is carved still cover it. -/
theorem Blk.carve_covers {size x : Nat} (hx : b.extent.Has x) :
    Covers ((b.carve size).1 :: (b.carve size).2) x := by
  simp only [Span.Has, Span.hi, Blk.extent] at hx
  unfold Blk.carve
  split
  · by_cases hfront : x < b.addr + headerSize + size
    · refine ⟨⟨b.addr, size⟩, by simp, hx.1, ?_⟩
      simp only [Span.hi, Blk.extent]
      omega
    · refine ⟨b.rest size, by simp, ?_, ?_⟩
      · simp only [Blk.extent, Blk.rest]
        omega
      · simp only [Span.hi, Blk.extent, Blk.rest]
        omega
  · exact ⟨b, by simp, hx⟩

theorem covers_carve {U V : List Blk} {x : Nat} (size : Nat) (hx : Covers (U ++ b :: V ++ held) x) :
    Covers (U ++ (b.carve size).2 ++ V ++ (b.carve size).1 :: held) x := by
  obtain ⟨c, hc, hcx⟩ := hx
  by_cases hcb : c = b
  · obtain ⟨d, hd, hdx⟩ := Blk.carve_covers (hcb ▸ hcx)
    refine ⟨d, ?_, hdx⟩
    generalize b.carve size = parts at hd
    simp only [List.mem_append, List.mem_cons] at hd ⊢
    tauto
  · refine ⟨c, ?_, hcx⟩
    generalize b.carve size = parts
    simp only [List.mem_append, List.mem_cons] at hc ⊢
    tauto

/-- With a block that fits on the list, `kheap_alloc` carves one. -/
theorem HeapInv.alloc_fit (hi : HeapInv L h free held) {size fuel ptr : Nat}
    (hex : ¬ ∀ c ∈ free, c.size < size) (hc : kheapAlloc L fuel h size = some (ptr, h')) :
    h'.pmm = h.pmm ∧ ∃ free' c, Gave L h h' free held free' c size ptr := by
  cases fuel with
  | zero => cases hc
  | succ fuel =>
      unfold kheapAlloc at hc
      split at hc
      · cases hc
      · rename_i hl
        split at hc
        · cases hc
        · rename_i block hf
          rcases hi.rep.find_fit hf with ⟨hnone, _⟩ | ⟨U, b, V, rfl, hfirst, hs, hb⟩
          · cases hnone
          · obtain ⟨rfl, rfl⟩ := Prod.mk.inj (Option.some.inj hc)
            cases hb
            refine ⟨rfl, _, _, hi.carve hs, ?_, carve_granted hfirst hs, Blk.carve_size hs, by simpa using hl,
              fun x => covers_carve size, fun x _ hx => .inl hx⟩
            rw [Blk.carve_addr]
        · rename_i hf
          rcases hi.rep.find_fit hf with ⟨_, hno⟩ | ⟨_, _, _, _, _, _, hsome⟩
          · exact absurd hno hex
          · cases hsome

/-- A byte of frames that have been taken lies in the block they are made into. -/
theorem Took.covered {p p' : Pmm} {n f x : Nat} (ht : Took p n f p') (hn : 0 < n) (hx : L.hhdm ≤ x)
    (hused : p'.used ((x - L.hhdm) / frameSize) = true) :
    p.used ((x - L.hhdm) / frameSize) = true ∨
      (newBlock L f n).extent.Has x := by
  rw [ht.used, Bool.or_eq_true, decide_eq_true_iff] at hused
  exact hused.symm.imp_right fun hin => (newBlock_has hn).mpr ⟨hx, hin⟩

theorem HeapInv.alloc (hi : HeapInv L h free held) {size fuel ptr : Nat} (hok : AllocOk L h size)
    (hsup : Supplied L h size) (hc : kheapAlloc L fuel h size = some (ptr, h')) :
    ∃ free' c, Gave L h h' free held free' c size ptr := by
  by_cases hex : ∀ c ∈ free, c.size < size
  · cases fuel with
    | zero => cases hc
    | succ fuel =>
        unfold kheapAlloc at hc
        split at hc
        · cases hc
        · rename_i hl
          split at hc
          · cases hc
          · rename_i hf
            rcases hi.rep.find_fit hf with ⟨hnone, _⟩ | ⟨U, b, V, rfl, _, hs, _⟩
            · cases hnone
            · exact absurd hs (Nat.not_le.mpr (hex b (by simp)))
          · -- The refill leaves a block that fits at the end of the list.
            have hno := hi.rep.noFit_iff.mpr hex
            have hpos := (refillFrames_room hok.1).1
            obtain ⟨f, htook, -, hgrown⟩ := hi.grow (by simpa using hl) hpos (hsup hno)
            have hmem := coalesceDll_idle hgrown.rep.ring (hok.2 hno) fuel
            split at hc
            · cases hc
            · rename_i m hm
              have hsame : m = (refill L h size).mem := by
                rw [refill, hmem] at hm
                exact (Option.some.inj (Option.ite_none_right_eq_some.mp hm).2).symm
              subst hsame
              have hsize := newBlock_fits L f hok.1
              have hfits : ¬ ∀ c ∈ free ++ [newBlock L f (refillFrames size)], c.size < size :=
                fun hall => Nat.not_lt.mpr hsize (hall _ (List.mem_append_right _ List.mem_cons_self))
              obtain ⟨hpmm, free', c, hg⟩ := HeapInv.alloc_fit (h := refill L h size) hgrown hfits hc
              refine ⟨free', c, hg.inv, hg.ptr, hg.sized.trans (granted_refill hex hsize), hg.size,
                hg.unlocked, ?_, ?_⟩
              · rintro x ⟨d, hd, hdx⟩
                refine hg.bytes x ⟨d, ?_, hdx⟩
                simp only [List.mem_append] at hd ⊢
                tauto
              · intro x hlo hused
                rw [hpmm] at hused
                refine (htook.covered hpos hlo hused).imp_right fun hx => hg.bytes x ⟨_, ?_, hx⟩
                simp
  · exact (hi.alloc_fit hex hc).2

/-- `kheap_calloc` clears the payload of a block that `kheap_alloc` hands out. -/
theorem HeapInv.calloc (hi : HeapInv L h free held) {size fuel ptr : Nat} (hok : AllocOk L h size)
    (hsup : Supplied L h size) (hc : kheapCalloc L fuel h size = some (ptr, h')) :
    ∃ h₁ free' c, Gave L h h₁ free held free' c size ptr ∧
      h' = { h₁ with mem := memset h₁.mem ptr 0 size } := by
  unfold kheapCalloc at hc
  split at hc
  · cases hc
  · rename_i p h₁ halloc
    obtain ⟨free', c, hg⟩ := hi.alloc hok hsup halloc
    have hptr : p ≠ 0 := by
      rw [hg.ptr]
      simp [headerSize]
    rw [if_pos hptr] at hc
    obtain ⟨rfl, rfl⟩ := Prod.mk.inj (Option.some.inj hc)
    exact ⟨h₁, free', c, hg, rfl⟩

/-- The bytes that are cleared are the client's. -/
theorem Gave.memset {free' : List Blk} {c : Blk} {size ptr : Nat} (hg : Gave L h h' free held free' c size ptr)
    (y : Nat) (hy : ¬ (c.addr + headerSize ≤ y ∧ y < c.addr + headerSize + c.size)) :
    Lib.memset h'.mem ptr 0 size y = h'.mem y := by
  have hptr := hg.ptr
  have hsize := hg.size
  exact memset_outside (by omega)

/-- `kheap_realloc` to nothing is `kheap_free`, but for a null pointer. -/
theorem kheapRealloc_zero {fuel ptr ret : Nat} (hc : kheapRealloc L fuel h ptr 0 = some (ret, h')) :
    (ptr = 0 ∧ h' = h) ∨ (ptr ≠ 0 ∧ kheapFree L fuel h ptr = some h') := by
  unfold kheapRealloc at hc
  by_cases hz : ptr = 0
  · rw [if_pos ⟨hz, rfl⟩] at hc
    obtain ⟨rfl, rfl⟩ := Prod.mk.inj (Option.some.inj hc)
    exact .inl ⟨hz, rfl⟩
  · rw [if_neg fun h => hz h.1, if_pos rfl] at hc
    obtain ⟨h₁, hfree, heq⟩ := Option.map_eq_some_iff.mp hc
    obtain ⟨_, rfl⟩ := Prod.mk.inj heq
    exact .inr ⟨hz, hfree⟩

theorem sub64_header {a : Nat} (h : a + headerSize ≤ 2 ^ 64) :
    sub64 (a + headerSize) headerSize = a := by
  simp only [sub64, headerSize] at h ⊢
  omega

theorem Rep.drop {m : Mem} (hr : Rep L m free (b :: held)) : Rep L m free held := by
  have hsub : (free ++ held).Sublist (free ++ b :: held) :=
    (List.Sublist.refl free).append (List.sublist_cons_self b held)
  exact ⟨hr.ring, fun c hc => hr.sizes c (hsub.subset hc), hr.placed.apart.sublist hsub,
    fun c hc => hr.placed.window c (hsub.subset hc)⟩

/-- The list with a freed block on it: in front of the first block that is behind it in
memory, or at the head. -/
def linkBlocks (b : Blk) (free : List Blk) : List Blk :=
  if free.any fun c => b.addr < c.addr then
    (free.takeWhile fun c => !decide (b.addr < c.addr)) ++ b :: free.dropWhile fun c => !decide (b.addr < c.addr)
  else b :: free

theorem linkBlocks_between {c : Blk} {U V : List Blk} (hU : ∀ d ∈ U, ¬ b.addr < d.addr) (hc : b.addr < c.addr) :
    linkBlocks b (U ++ c :: V) = U ++ b :: c :: V := by
  have hany : (U ++ c :: V).any (fun d => decide (b.addr < d.addr)) = true :=
    List.any_eq_true.mpr ⟨c, by simp, decide_eq_true hc⟩
  have hpos : ∀ d ∈ U, (!decide (b.addr < d.addr)) = true := by
    intro d hd
    rw [decide_eq_false (hU d hd), Bool.not_false]
  have hneg : ¬ (!decide (b.addr < c.addr)) = true := by
    rw [decide_eq_true hc]
    decide
  rw [linkBlocks, if_pos hany, List.takeWhile_append_of_pos hpos, List.dropWhile_append_of_pos hpos,
    List.takeWhile_cons_of_neg (p := fun d : Blk => !decide (b.addr < d.addr)) hneg,
    List.dropWhile_cons_of_neg (p := fun d : Blk => !decide (b.addr < d.addr)) hneg, List.append_nil]

theorem linkBlocks_head (h : ∀ c ∈ free, ¬ b.addr < c.addr) : linkBlocks b free = b :: free := by
  apply if_neg
  rw [List.any_eq_true]
  rintro ⟨c, hc, hlt⟩
  exact h c hc (of_decide_eq_true hlt)

/-- The freed block is linked in on the list. -/
theorem Rep.linkFree {m : Mem} (hr : Rep L m free (b :: held)) {fuel : Nat} {r : Option Nat}
    (hf : findBlock L m (fun a => b.addr < a) fuel (nextOf m L.freeList) = some r) :
    ∃ U V, free = U ++ V ∧ linkBlocks b free = U ++ b :: V ∧ Rep L (linkFree L m b.addr r) (U ++ b :: V) held := by
  have hhead := hr.ring.next_head
  rw [hhead] at hf
  have hsound := findBlock_sound hr.ring fuel [] _ rfl hf
  rw [List.find?_map] at hsound
  cases hfound : free.find? ((fun a => decide (b.addr < a)) ∘ Blk.addr) with
  | none =>
      rw [hfound] at hsound
      subst hsound
      have hno : ∀ c ∈ free, ¬ b.addr < c.addr := by
        intro c hc hlt
        exact List.find?_eq_none.mp hfound c hc (decide_eq_true hlt)
      refine ⟨[], free, rfl, linkBlocks_head hno, ?_⟩
      have hq : free.map Blk.addr ++ [L.freeList] =
          nextOf m L.freeList :: (free.map Blk.addr ++ [L.freeList]).tail := by
        rw [hhead]
        cases free <;> rfl
      exact Rep.insert (U := []) (A := []) hr rfl hq
  | some c =>
      rw [hfound] at hsound
      subst hsound
      obtain ⟨hlt, U, V, rfl, hbefore⟩ := List.find?_eq_some_iff_append.mp hfound
      obtain ⟨A, p, hp⟩ := exists_last L.freeList (U.map Blk.addr)
      obtain ⟨q, B, hq⟩ := exists_first L.freeList (V.map Blk.addr)
      have hring := hr.ring
      rw [List.map_append, List.map_cons] at hring
      have hprev := (hring.neighbours hp hq trivial).2.1
      have hU : ∀ d ∈ U, ¬ b.addr < d.addr := by
        intro d hd h
        have := hbefore d hd
        simp [h] at this
      refine ⟨U, c :: V, rfl, linkBlocks_between hU (of_decide_eq_true hlt), ?_⟩
      have hins := hr.insert hp (q := c.addr) rfl
      rw [← hprev] at hins
      exact hins

theorem HeapInv.release (hi : HeapInv L h free (b :: held)) {fuel : Nat}
    (hok : FreeOk L h (b.addr + headerSize))
    (hc : kheapFree L fuel h (b.addr + headerSize) = some h') :
    ∃ free', HeapInv L h' free' held ∧
      (returnsFrames h.mem b.addr = false → h'.pmm = h.pmm ∧ free'.Perm (b :: free)) := by
  have hbound := hi.rep.placed.bound (b := b) (by simp)
  have haddr : sub64 (b.addr + headerSize) headerSize = b.addr := sub64_header (by omega)
  unfold FreeOk at hok
  unfold kheapFree at hc
  rw [haddr] at hok
  simp only [haddr] at hc
  split at hc
  · cases hc
  · split at hc
    · rename_i hret
      cases hc
      refine ⟨free, ⟨hi.rep.drop, (pmmFree_limit ..).trans hi.limit, fun h => by cases h⟩, ?_⟩
      exact fun hno => absurd (hret.symm.trans hno) Bool.noConfusion
    · rename_i hl hret
      split at hc
      · cases hc
      · rename_i r hf
        obtain ⟨m, hm, rfl⟩ := Option.map_eq_some_iff.mp hc
        obtain ⟨U, V, rfl, -, hrep⟩ := hi.rep.linkFree hf
        rw [coalesceDll_idle hrep.ring (hok.resolve_left hret fuel r hf) fuel] at hm
        obtain ⟨_, hmem⟩ := Option.ite_none_right_eq_some.mp hm
        cases hmem
        refine ⟨U ++ b :: V, ⟨hrep, hi.limit, ?_⟩, fun _ => ⟨rfl, List.perm_middle⟩⟩
        intro hl' c hc' x hx
        exact hi.marked hl' c ((perm_free_held U V held b).mem_iff.mp hc') x hx

/-- Bytes written inside a payload are none of the heap's own. -/
theorem HeapInv.store (hi : HeapInv L h free held) {m' : Mem} (hb : b ∈ held)
    (hm : ∀ y, ¬ (b.addr + headerSize ≤ y ∧ y < b.addr + headerSize + b.size) →
      m' y = h.mem y) : HeapInv L { h with mem := m' } free held := by
  have hbin : b ∈ free ++ held := List.mem_append_right _ hb
  have hrep : Rep L m' free held := by
    refine hi.rep.congr ?_
    intro x hx i
    refine read64_congr ?_
    intro y hlo hhi
    refine hm y ?_
    have hilt := i.isLt
    rcases List.mem_cons.mp hx with rfl | hx
    · have hwin := hi.rep.placed.window b hbin
      have hap := L.apart
      simp only [Blk.extent, Span.hi, Layout.top, headerSize] at hwin hap ⊢
      omega
    · obtain ⟨c, hc, rfl⟩ := List.mem_map.mp hx
      by_cases hcb : c = b
      · subst hcb
        simp only [headerSize]
        omega
      · have hap := hi.rep.placed.apart.forall hc hbin hcb
        simp only [Blk.Apart, Blk.extent, Span.Apart, Span.hi, headerSize] at hap ⊢
        omega
  exact ⟨hrep, hi.limit, hi.marked⟩

end Inv

/-! ### Runs -/

section Safety
variable {L : Layout} {w w' : HeapRun}

/-- Every live pointer is the payload of a block handed out, with room for the
request; the blocks left over by `kheap_realloc` are handed out as well. -/
structure Owned (held : List Blk) (live : List (Nat × Nat)) : Prop where
  block : ∀ a ∈ live, ∃ b ∈ held, b.addr + headerSize = a.1 ∧ a.2 ≤ b.size
  once : (live.map Prod.fst).Nodup

def RunInv (L : Layout) (w : HeapRun) : Prop :=
  ∃ free held, HeapInv L w.heap free held ∧ Owned held w.live

theorem Placed.addr_ne {free held : List Blk} {b c : Blk} (hp : Placed L (free ++ c :: held))
    (hb : b ∈ held) : b.addr ≠ c.addr := by
  have hap := (List.pairwise_cons.mp (List.pairwise_append.mp hp.apart).2.1).1 b hb
  simp only [Blk.Apart, Blk.extent, Span.Apart, Span.hi, headerSize] at hap
  omega

theorem Owned.give {h : Kheap} {free held : List Blk} {c : Blk} {size : Nat}
    {live : List (Nat × Nat)} (ho : Owned held live) (hi : HeapInv L h free (c :: held))
    (hs : size ≤ c.size) : Owned (c :: held) ((c.addr + headerSize, size) :: live) := by
  refine ⟨List.forall_mem_cons.mpr ⟨⟨c, by simp, rfl, hs⟩, ?_⟩, List.nodup_cons.mpr ⟨?_, ho.once⟩⟩
  · intro a ha
    obtain ⟨b, hb, hba⟩ := ho.block a ha
    exact ⟨b, List.mem_cons_of_mem c hb, hba⟩
  · intro hmem
    obtain ⟨a, ha, heq⟩ := List.mem_map.mp hmem
    obtain ⟨b, hb, hba, _⟩ := ho.block a ha
    have hne := hi.rep.placed.addr_ne hb
    simp only [heq] at hba
    omega

theorem Owned.without {held : List Blk} (ho : Owned held w.live) (ptr : Nat) :
    Owned held (w.without ptr) :=
  ⟨fun a ha => ho.block a (List.mem_of_mem_filter ha),
    ho.once.sublist (List.filter_sublist.map Prod.fst)⟩

/-- Taking back the block at a live pointer. -/
theorem Owned.erase {held : List Blk} {b : Blk} (ho : Owned held w.live) :
    Owned (held.erase b) (w.without (b.addr + headerSize)) := by
  refine ⟨?_, (ho.without _).once⟩
  intro a ha
  obtain ⟨hlive, hne⟩ := List.mem_filter.mp ha
  obtain ⟨c, hc, hca, hs⟩ := ho.block a hlive
  refine ⟨c, (List.mem_erase_of_ne ?_).mpr hc, hca, hs⟩
  rintro rfl
  rw [hca] at hne
  simp at hne

theorem RunInv.gave {free held : List Blk} {h : Kheap} {size ptr : Nat} (ho : Owned held w.live)
    (hg : ∃ free' c, Gave L w.heap h free held free' c size ptr) : RunInv L ⟨h, (ptr, size) :: w.live⟩ := by
  obtain ⟨free', c, hg⟩ := hg
  rw [hg.ptr]
  exact ⟨free', c :: held, hg.inv, ho.give hg.inv hg.size⟩

theorem RunInv.calloc {free held : List Blk} {h : Kheap} {size fuel ptr : Nat}
    (hw : HeapInv L w.heap free held) (ho : Owned held w.live) (hok : AllocOk L w.heap size)
    (hsup : Supplied L w.heap size) (hc : kheapCalloc L fuel w.heap size = some (ptr, h)) :
    RunInv L ⟨h, (ptr, size) :: w.live⟩ := by
  obtain ⟨h₁, free', c, hg, rfl⟩ := hw.calloc hok hsup hc
  refine ⟨free', c :: held, hg.inv.store List.mem_cons_self hg.memset, ?_⟩
  rw [hg.ptr]
  exact ho.give hg.inv hg.size

/-- A byte that a client writes is in the payload of a block. -/
theorem Owned.store {held : List Blk} (ho : Owned held w.live) {addr : Nat} {v : Byte} (m : Mem)
    (hlive : ∃ a ∈ w.live, (payload a).Has addr) :
    ∃ b ∈ held, ∀ y, ¬ (b.addr + headerSize ≤ y ∧ y < b.addr + headerSize + b.size) →
      Function.update m addr v y = m y := by
  obtain ⟨a, ha, hlo, hhi⟩ := hlive
  obtain ⟨b, hb, hba, hs⟩ := ho.block a ha
  refine ⟨b, hb, fun y hy => Function.update_of_ne ?_ _ _⟩
  simp only [payload, Span.hi] at hlo hhi
  omega

/-- The block at a live pointer, in front of the others that are handed out. -/
theorem HeapInv.live_block {free held : List Blk} {ptr : Nat} (hw : HeapInv L w.heap free held)
    (ho : Owned held w.live) (hlive : ptr ∈ w.live.map Prod.fst) :
    ∃ b ∈ held, b.addr + headerSize = ptr ∧ HeapInv L w.heap free (b :: held.erase b) := by
  obtain ⟨a, ha, rfl⟩ := List.mem_map.mp hlive
  obtain ⟨b, hb, hba, _⟩ := ho.block a ha
  have hperm := List.perm_cons_erase hb
  exact ⟨b, hb, hba, hw.rep.perm hperm, hw.limit,
    fun hl c hc => hw.marked hl c ((hperm.append_left free).mem_iff.mpr hc)⟩

theorem RunInv.release {free held : List Blk} {h : Kheap} {fuel ptr : Nat}
    (hw : HeapInv L w.heap free held) (ho : Owned held w.live) (hlive : ptr ∈ w.live.map Prod.fst)
    (hok : FreeOk L w.heap ptr) (hc : kheapFree L fuel w.heap ptr = some h) :
    RunInv L ⟨h, w.without ptr⟩ := by
  obtain ⟨b, hb, rfl, hw'⟩ := hw.live_block ho hlive
  obtain ⟨free', hi, -⟩ := hw'.release hok hc
  exact ⟨free', held.erase b, hi, ho.erase⟩

theorem RunInv.realloc {free held : List Blk} {h : Kheap} {fuel ptr newSize ret : Nat}
    (hw : HeapInv L w.heap free held) (ho : Owned held w.live) (hn : newSize ≠ 0)
    (hok : AllocOk L w.heap newSize) (hsup : Supplied L w.heap newSize)
    (hcopy : ptr = 0 ∨ CopyFits L w.heap ptr newSize)
    (hc : kheapRealloc L fuel w.heap ptr newSize = some (ret, h)) :
    RunInv L ⟨h, (ret, newSize) :: w.without ptr⟩ := by
  unfold kheapRealloc at hc
  rw [if_neg fun hz => hn hz.2, if_neg hn] at hc
  split at hc
  · exact RunInv.gave (w := ⟨w.heap, w.without ptr⟩) (ho.without ptr) (hw.alloc hok hsup hc)
  · rename_i hz
    dsimp only at hc
    split at hc
    · cases hc
    · rename_i p h₁ halloc
      have hroom := hcopy.resolve_left hz free held hw.rep
      obtain ⟨free', c, hi, rfl, hsized, hs, -⟩ := hw.alloc hok hsup halloc
      rw [if_neg (by simp [headerSize])] at hc
      obtain ⟨rfl, rfl⟩ := Prod.mk.inj (Option.some.inj hc)
      rw [← hsized] at hroom
      refine ⟨free', c :: held, hi.store List.mem_cons_self ?_, (ho.without ptr).give hi hs⟩
      intro y hy
      exact memcpy_outside (by omega)

theorem RunInv.step {op : HeapOp} (hw : RunInv L w) (hsup : op.Supplied L w.heap)
    (hsafe : op.Safe L w.heap) (hs : HeapStep L w op w') : RunInv L w' := by
  obtain ⟨free, held, hi, ho⟩ := hw
  cases hs with
  | alloc hc => exact RunInv.gave ho (hi.alloc hsafe hsup hc)
  | calloc hc => exact RunInv.calloc hi ho hsafe hsup hc
  | realloc hlive hn hc =>
      rw [HeapOp.Safe, if_neg hn] at hsafe
      exact RunInv.realloc hi ho hn hsafe.1 (hsup hn) hsafe.2 hc
  | @reallocFree ptr fuel ret h hlive hc =>
      rw [HeapOp.Safe, if_pos rfl] at hsafe
      rcases kheapRealloc_zero hc with ⟨-, rfl⟩ | ⟨hz, hfree⟩
      · exact ⟨free, held, hi, ho.without ptr⟩
      · exact RunInv.release hi ho (hlive.resolve_left hz) (hsafe.resolve_left hz) hfree
  | free hlive hc => exact RunInv.release hi ho hlive hsafe hc
  | store hlive =>
      obtain ⟨b, hb, hm⟩ := ho.store w.heap.mem hlive
      exact ⟨free, held, hi.store hb hm, ho⟩

theorem RunInv.disjoint (hw : RunInv L w) : HeapDisjoint L w := by
  obtain ⟨free, held, hi, ho⟩ := hw
  have hplaced := hi.rep.placed
  have hin : ∀ {b}, b ∈ held → b ∈ free ++ held := fun hb => List.mem_append_right _ hb
  refine ⟨?_, ?_, ?_⟩
  · have hpw := List.pairwise_map.mp ho.once
    refine hpw.imp_of_mem ?_
    intro a c ha hc hne x hx hcx
    obtain ⟨b, hb, hba, hbs⟩ := ho.block a ha
    obtain ⟨d, hd, hdc, hds⟩ := ho.block c hc
    have hbd : b ≠ d := fun h => hne (by rw [← hba, ← hdc, h])
    have hap := hplaced.apart.forall (hin hb) (hin hd) hbd
    simp only [Blk.Apart, Span.Apart, Span.Has, Span.hi, Blk.extent, payload] at hap hx hcx
    omega
  · intro a ha c hc x hx hcx
    obtain ⟨b, hb, hba, hbs⟩ := ho.block a ha
    obtain ⟨d, hd, hdc, _⟩ := ho.block c hc
    by_cases hbd : b = d
    · subst hbd
      simp only [Span.Has, Span.hi, payload, header] at hx hcx
      omega
    · have hap := hplaced.apart.forall (hin hb) (hin hd) hbd
      simp only [Blk.Apart, Span.Apart, Span.Has, Span.hi, Blk.extent, payload, header] at hap hx hcx
      omega
  · intro a ha f hf x hx hfx
    obtain ⟨b, hb, hba, hbs⟩ := ho.block a ha
    obtain ⟨d, hd, rfl⟩ := List.mem_map.mp ((onFreeList_iff hi.rep.ring).mp hf)
    have hap := (List.pairwise_append.mp hplaced.apart).2.2 d hd b hb
    rw [hi.rep.sizes d (List.mem_append_left _ hd)] at hfx
    simp only [Blk.Apart, Span.Apart, Span.Has, Span.hi, Blk.extent, payload] at hap hx hfx
    omega

/-- The heap `kheap_init` builds is one free block. -/
theorem HeapInv.init (m : Mem) {p : Pmm} (hlim : p.limit = L.limit) (hsup : (pmmMalloc p 1).1 ≠ 0) :
    ∃ f, Took p 1 f (pmmMalloc p 1).2 ∧
      HeapInv L (kheapInit L m p) [newBlock L f 1] [] := by
  let m₀ := setPrev (setNext m L.freeList L.freeList) L.freeList L.freeList
  have hplaced : Placed L [] := ⟨.nil, by simp⟩
  have hN := hplaced.nodes
  have hfl : IsNode L [] L.freeList := isNode_freeList
  have hlt := hN.lt _ hfl
  have hnext : nextOf m₀ L.freeList = L.freeList :=
    (word_setWord_ne hN hfl hfl (by decide)).trans ((word_setWord hN hfl hfl 0 hlt).trans (if_pos rfl))
  have hprev : prevOf m₀ L.freeList = L.freeList :=
    (word_setWord hN hfl hfl 1 hlt).trans (if_pos rfl)
  have hrep : Rep L m₀ [] [] := by
    refine ⟨⟨by simp, ?_⟩, by simp, hplaced⟩
    simp [Link, hnext, hprev]
  have hi : HeapInv L ⟨m₀, p, false⟩ [] [] := ⟨hrep, hlim, fun _ b hb => by cases hb⟩
  obtain ⟨f, htook, -, hgrown⟩ := hi.grow rfl (by decide) hsup
  exact ⟨f, htook, hgrown⟩

theorem owned_nil : Owned [] [] := ⟨fun a ha => (by cases ha), List.nodup_nil⟩

theorem RunInv.init (m : Mem) {p : Pmm} (hlim : p.limit = L.limit) (hsup : (pmmMalloc p 1).1 ≠ 0) :
    RunInv L ⟨kheapInit L m p, []⟩ := by
  obtain ⟨f, -, hi⟩ := HeapInv.init m hlim hsup
  exact ⟨_, [], hi, owned_nil⟩

/-- From `kheap_init` on, as long as frames are there when needed and every call
is a safe one, the live allocations stay clear of each other, of the headers of
live blocks and of the free list. -/
theorem heap_disjoint_of_safe (L : Layout) (m : Mem) {p : Pmm} (hlim : p.limit = L.limit)
    (hsup : (pmmMalloc p 1).1 ≠ 0) {w : HeapRun}
    (h : HeapReaches L (fun h op => op.Supplied L h ∧ op.Safe L h) ⟨kheapInit L m p, []⟩ w) :
    HeapDisjoint L w := by
  have hw : RunInv L w := by
    induction h with
    | refl => exact RunInv.init m hlim hsup
    | tail _ hs hc ih => exact ih.step hc.1 hc.2 hs
  exact hw.disjoint

end Safety

/-! ### A small heap -/

section Small
variable {L : Layout} {m : Mem} {h : Kheap}

/-- The first block of the list has room. -/
theorem not_noFit {size : Nat} (hne : nextOf h.mem L.freeList ≠ L.freeList)
    (hs : size ≤ blockSize h.mem (nextOf h.mem L.freeList)) : ¬ NoFit L h size :=
  fun hno => Nat.not_lt.mpr hs (hno _ ⟨hne, 1, rfl⟩)

/-- A list of addresses closed under `next` shows all there is on the free list. -/
theorem onFreeList_closed {xs : List Nat} (hfl : L.freeList ∈ xs) (hclosed : ∀ a ∈ xs, nextOf m a ∈ xs)
    {a : Nat} (ha : OnFreeList L m a) : a ∈ xs := by
  obtain ⟨-, k, rfl⟩ := ha
  induction k with
  | zero => exact hfl
  | succ k ih =>
      rw [Function.iterate_succ_apply']
      exact hclosed _ ih

theorem coalesceIdle_of_closed (xs : List Nat) (hfl : L.freeList ∈ xs)
    (hclosed : ∀ a ∈ xs, nextOf m a ∈ xs)
    (hok : ∀ a ∈ xs, a ≠ L.freeList → nextOf m a ≠ L.freeList → scaledEnd m a ≠ nextOf m a) :
    CoalesceIdle L m :=
  fun a ha => hok a (onFreeList_closed hfl hclosed ha) ha.1

/-- Sixteen frames behind `0x10000`. -/
def smallLayout : Layout where
  freeList := 0x100
  hhdm := 0x10000
  limit := 16
  aligned := by decide
  window_le := by decide
  apart := by decide
  freeList_lt := by decide
  freeList_ne := by decide

def freePmm : Pmm := ⟨fun _ => 0, 16, by decide⟩

def smallHeap : Kheap := kheapInit smallLayout (fun _ => 0) freePmm

/-- What `kheap_alloc` returns on the small heap, where it always returns. -/
def smallAlloc (h : Kheap) (size : Nat) : Nat × Kheap :=
  (kheapAlloc smallLayout 8 h size).getD (0, h)

def smallFree (h : Kheap) (ptr : Nat) : Kheap := (kheapFree smallLayout 8 h ptr).getD h

theorem alloc_safe {size : Nat} (hfit : ¬ NoFit L h size)
    (hs : size + headerSize + frameSize ≤ 2 ^ 64) :
    (HeapOp.alloc size).Supplied L h ∧ (HeapOp.alloc size).Safe L h :=
  ⟨fun hno => absurd hno hfit, hs, fun hno => absurd hno hfit⟩

theorem smallAlloc_eq (h : Kheap) (size : Nat) (hs : (kheapAlloc smallLayout 8 h size).isSome = true) :
    kheapAlloc smallLayout 8 h size = some ((smallAlloc h size).1, (smallAlloc h size).2) := by
  obtain ⟨p, hp⟩ := Option.isSome_iff_exists.mp hs
  rw [smallAlloc, hp]
  rfl

theorem smallFree_eq (h : Kheap) (ptr : Nat) (hs : (kheapFree smallLayout 8 h ptr).isSome = true) :
    kheapFree smallLayout 8 h ptr = some (smallFree h ptr) := by
  obtain ⟨p, hp⟩ := Option.isSome_iff_exists.mp hs
  rw [smallFree, hp]
  rfl

theorem smallHeap_eq : kheapInit smallLayout (fun _ => 0) freePmm = smallHeap := rfl

-- The runs below are evaluated by the kernel, never by unification.
attribute [irreducible] smallHeap smallAlloc smallFree

/-- Two allocations of eight bytes, the first of which is freed again. -/
theorem freed_block_stays_clear : ∃ w,
    HeapReaches smallLayout (fun h op => op.Supplied smallLayout h ∧ op.Safe smallLayout h)
      ⟨kheapInit smallLayout (fun _ => 0) freePmm, []⟩ w ∧
    w.live = [(0x11038, 8)] ∧ HeapDisjoint smallLayout w := by
  rw [smallHeap_eq]
  let h₁ := (smallAlloc smallHeap 8).2
  let h₂ := (smallAlloc h₁ 8).2
  have hp₁ : (smallAlloc smallHeap 8).1 = 0x11018 := by decide +kernel
  have hp₂ : (smallAlloc h₁ 8).1 = 0x11038 := by decide +kernel
  have hfit₀ : ¬ NoFit smallLayout smallHeap 8 := not_noFit (by decide +kernel) (by decide +kernel)
  have hfit₁ : ¬ NoFit smallLayout h₁ 8 := not_noFit (by decide +kernel) (by decide +kernel)
  have hidle : CoalesceIdle smallLayout (linkFree smallLayout h₂.mem 0x11000 (some 0x11040)) :=
    coalesceIdle_of_closed [0x100, 0x11000, 0x11040] (by decide) (by decide +kernel)
      (by decide +kernel)
  have hok : FreeOk smallLayout h₂ 0x11018 := by
    have hblock : sub64 0x11018 headerSize = 0x11000 := by decide
    have hnext : nextOf h₂.mem smallLayout.freeList = 0x11040 := by decide +kernel
    unfold FreeOk
    rw [hblock, hnext]
    right
    intro fuel r hf
    cases fuel with
    | zero => cases hf
    | succ fuel =>
        cases hf
        exact hidle
  have s₁ := HeapStep.alloc (w := ⟨smallHeap, []⟩) (smallAlloc_eq smallHeap 8
    (by decide +kernel))
  rw [hp₁] at s₁
  have s₂ := HeapStep.alloc (w := ⟨h₁, [(0x11018, 8)]⟩) (smallAlloc_eq h₁ 8
    (by decide +kernel))
  rw [hp₂] at s₂
  have s₃ := HeapStep.free (w := ⟨h₂, [(0x11038, 8), (0x11018, 8)]⟩) (by decide)
    (smallFree_eq h₂ 0x11018 (by decide +kernel))
  have r₁ := HeapReaches.tail
    (C := fun h op => op.Supplied smallLayout h ∧ op.Safe smallLayout h) .refl s₁
    (alloc_safe hfit₀ (by decide))
  have r₂ := r₁.tail s₂ (alloc_safe hfit₁ (by decide))
  have hsafe : (HeapOp.free 0x11018).Supplied smallLayout h₂ ∧
      (HeapOp.free 0x11018).Safe smallLayout h₂ := ⟨trivial, hok⟩
  have hrun := r₂.tail s₃ hsafe
  have hlive : (⟨h₂, [(0x11038, 8), (0x11018, 8)]⟩ : HeapRun).without 0x11018 =
      [(0x11038, 8)] := by decide
  rw [hlive] at hrun
  refine ⟨_, hrun, rfl, ?_⟩
  rw [← smallHeap_eq] at hrun
  exact heap_disjoint_of_safe smallLayout _ rfl (by decide +kernel) hrun

/-- With 968 bytes between two blocks of eight, the blocks are freed into one
that reaches into the allocation between them. -/
theorem freed_blocks_swallow_live : ∃ w,
    HeapReaches smallLayout (fun h op => op.Supplied smallLayout h)
      ⟨kheapInit smallLayout (fun _ => 0) freePmm, []⟩ w ∧
    w.live = [(0x11038, 968)] ∧ ¬ HeapDisjoint smallLayout w := by
  rw [smallHeap_eq]
  let h₁ := (smallAlloc smallHeap 8).2
  let h₂ := (smallAlloc h₁ 968).2
  let h₃ := (smallAlloc h₂ 8).2
  let h₄ := smallFree h₃ 0x11018
  have hp₁ : (smallAlloc smallHeap 8).1 = 0x11018 := by decide +kernel
  have hp₂ : (smallAlloc h₁ 968).1 = 0x11038 := by decide +kernel
  have hp₃ : (smallAlloc h₂ 8).1 = 0x11418 := by decide +kernel
  have hfit₀ : ¬ NoFit smallLayout smallHeap 8 := not_noFit (by decide +kernel) (by decide +kernel)
  have hfit₁ : ¬ NoFit smallLayout h₁ 968 := not_noFit (by decide +kernel) (by decide +kernel)
  have hfit₂ : ¬ NoFit smallLayout h₂ 8 := not_noFit (by decide +kernel) (by decide +kernel)
  have s₁ := HeapStep.alloc (w := ⟨smallHeap, []⟩) (smallAlloc_eq smallHeap 8
    (by decide +kernel))
  rw [hp₁] at s₁
  have s₂ := HeapStep.alloc (w := ⟨h₁, [(0x11018, 8)]⟩) (smallAlloc_eq h₁ 968
    (by decide +kernel))
  rw [hp₂] at s₂
  have s₃ := HeapStep.alloc (w := ⟨h₂, [(0x11038, 968), (0x11018, 8)]⟩)
    (smallAlloc_eq h₂ 8 (by decide +kernel))
  rw [hp₃] at s₃
  have s₄ := HeapStep.free (w := ⟨h₃, [(0x11418, 8), (0x11038, 968), (0x11018, 8)]⟩)
    (by decide) (smallFree_eq h₃ 0x11018 (by decide +kernel))
  have s₅ := HeapStep.free (w := ⟨h₄, [(0x11418, 8), (0x11038, 968)]⟩)
    (by decide) (smallFree_eq h₄ 0x11418 (by decide +kernel))
  have r₁ := HeapReaches.tail (C := fun h op => op.Supplied smallLayout h) .refl s₁
    (alloc_safe hfit₀ (by decide)).1
  have r₂ := r₁.tail s₂ (alloc_safe hfit₁ (by decide)).1
  have r₃ := r₂.tail s₃ (alloc_safe hfit₂ (by decide)).1
  have hrun := (r₃.tail s₄ trivial).tail s₅ trivial
  have hlive : (⟨h₄, [(0x11418, 8), (0x11038, 968)]⟩ : HeapRun).without 0x11418 =
      [(0x11038, 968)] := by decide
  rw [hlive] at hrun
  refine ⟨_, hrun, rfl, ?_⟩
  intro hd
  have hon : OnFreeList smallLayout (smallFree h₄ 0x11418).mem 0x11000 :=
    ⟨by decide, 1, by decide +kernel⟩
  have hsize : blockSize (smallFree h₄ 0x11418).mem 0x11000 = 40 := by decide +kernel
  have hclash := hd.free (0x11038, 968) (by decide) 0x11000 hon 0x11038 (by decide)
  rw [hsize] at hclash
  exact hclash (by decide)

end Small

end Flan.Memory
