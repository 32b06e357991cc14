import Flan.Memory.KheapCarve
import Flan.Memory.PmmBounds

/-! The branch of `kheap_free` that hands frames back to the frame allocator. -/
namespace Flan.Memory
open Flan.Lib

/-- The frames that `kheap_free` passes to `pmm_free`. -/
def releasedFrames (L : Layout) (h : Kheap) (ptr : Nat) : List Nat :=
  let block := sub64 ptr headerSize
  if returnsFrames h.mem block then
    freeBits (sub64 (sub64 block headerSize) (sizeofAllocNode * L.hhdm))
      ((blockSize h.mem block + sizeofAllocNode) % 2 ^ 64 / frameSize)
  else []

/-- The bytes of a frame in the window of the heap. -/
def frameSpan (L : Layout) (f : Nat) : Span := ⟨L.hhdm + frameSize * f, frameSize⟩

/-- The block whose header is at `a`. -/
def blockSpan (m : Mem) (a : Nat) : Span := ⟨a, headerSize + blockSize m a⟩

/-- The frames that `kheap_free` hands back are part of the block and of nothing else, and
the lock is free again. -/
structure ReturnsOwn (L : Layout) (w : HeapRun) (ptr : Nat) (h' : Kheap) : Prop where
  inside : ∀ f ∈ releasedFrames L w.heap ptr, (frameSpan L f).Within (blockSpan w.heap.mem (sub64 ptr headerSize))
  live : ∀ f ∈ releasedFrames L w.heap ptr, ∀ x, (frameSpan L f).Has x → ∀ a ∈ w.live, a.1 ≠ ptr →
    ¬ (blockSpan w.heap.mem (sub64 a.1 headerSize)).Has x
  free : ∀ f ∈ releasedFrames L w.heap ptr, ∀ x, (frameSpan L f).Has x → ∀ c, OnFreeList L w.heap.mem c →
    ¬ (blockSpan w.heap.mem c).Has x
  unlocked : h'.locked = false

section Return
variable {L : Layout} {h h' : Kheap} {w : HeapRun} {ptr fuel f : Nat}

/-- What either branch does to the frame allocator and to the lock. -/
theorem kheapFree_cases (hc : kheapFree L fuel h ptr = some h') :
    (∀ f, f ∉ releasedFrames L h ptr → h'.pmm.used f = h.pmm.used f) ∧
      h'.locked = returnsFrames h.mem (sub64 ptr headerSize) := by
  unfold kheapFree at hc
  split at hc
  · cases hc
  · rename_i hl
    unfold releasedFrames
    simp only at hc ⊢
    split at hc
    · rename_i hret
      cases hc
      rw [if_pos hret, hret]
      exact ⟨fun f hf => pmmFree_elsewhere hf, rfl⟩
    · rename_i hret
      split at hc
      · cases hc
      · obtain ⟨m, -, rfl⟩ := Option.map_eq_some_iff.mp hc
        rw [Bool.not_eq_true] at hl hret
        exact ⟨fun f _ => rfl, hl.trans hret.symm⟩

theorem releasedFrames_nil (hret : returnsFrames h.mem (sub64 ptr headerSize) = false) :
    releasedFrames L h ptr = [] := by
  simp only [releasedFrames, hret, Bool.false_eq_true, if_false]

/-- `kheap_free` does what its branch is for where it does not take it: the lock stays
taken after every call that hands frames back. -/
theorem kheap_free_returns_own_iff (hc : kheapFree L fuel w.heap ptr = some h') :
    ReturnsOwn L w ptr h' ↔ returnsFrames w.heap.mem (sub64 ptr headerSize) = false := by
  have hlock := (kheapFree_cases hc).2
  constructor
  · intro hown
    exact hlock.symm.trans hown.unlocked
  · intro hret
    have hnone : ∀ f, f ∉ releasedFrames L w.heap ptr := by
      rw [releasedFrames_nil hret]
      exact fun f => List.not_mem_nil
    exact ⟨fun f hf => absurd hf (hnone f), fun f hf => absurd hf (hnone f), fun f hf => absurd hf (hnone f),
      hlock.trans hret⟩

end Return

section Small

theorem eight_bytes_returned : ReturnsOwn smallLayout ⟨(smallAlloc smallHeap 8).2, [(0x11018, 8)]⟩ 0x11018
    (smallFree (smallAlloc smallHeap 8).2 0x11018) := by
  have hc := smallFree_eq (smallAlloc smallHeap 8).2 0x11018 (by decide +kernel)
  exact (kheap_free_returns_own_iff (w := ⟨(smallAlloc smallHeap 8).2, [(0x11018, 8)]⟩) hc).mpr (by decide +kernel)

/-- A block of three frames is freed and split, and the part that begins a header behind
the second frame is freed: the frame that goes back is none of the heap's, and the lock
stays taken. -/
theorem freed_part_keeps_lock : ∃ w h',
    HeapReaches smallLayout (fun h op => op.Supplied smallLayout h)
      ⟨kheapInit smallLayout (fun _ => 0) freePmm, []⟩ w ∧
    w.live = [(0x13030, 8144), (0x12018, 4096)] ∧ kheapFree smallLayout 8 w.heap 0x13030 = some h' ∧
    h'.locked = true ∧ (∃ f ∈ releasedFrames smallLayout w.heap 0x13030,
      ¬ (frameSpan smallLayout f).Within (blockSpan w.heap.mem 0x13018)) ∧
    ¬ ReturnsOwn smallLayout w 0x13030 h' := by
  rw [smallHeap_eq]
  let h₁ := (smallAlloc smallHeap 12264).2
  let h₂ := smallFree h₁ 0x12018
  let h₃ := (smallAlloc h₂ 4096).2
  let h₄ := (smallAlloc h₃ 8144).2
  have hp₁ : (smallAlloc smallHeap 12264).1 = 0x12018 := by decide +kernel
  have hp₃ : (smallAlloc h₂ 4096).1 = 0x12018 := by decide +kernel
  have hp₄ : (smallAlloc h₃ 8144).1 = 0x13030 := by decide +kernel
  have s₁ := HeapStep.alloc (w := ⟨smallHeap, []⟩) (smallAlloc_eq smallHeap 12264 (by decide +kernel))
  rw [hp₁] at s₁
  have s₂ := HeapStep.free (w := ⟨h₁, [(0x12018, 12264)]⟩) (by decide) (smallFree_eq h₁ 0x12018 (by decide +kernel))
  have s₃ := HeapStep.alloc (w := ⟨h₂, []⟩) (smallAlloc_eq h₂ 4096 (by decide +kernel))
  rw [hp₃] at s₃
  have s₄ := HeapStep.alloc (w := ⟨h₃, [(0x12018, 4096)]⟩) (smallAlloc_eq h₃ 8144 (by decide +kernel))
  rw [hp₄] at s₄
  have hsup : ∀ h size, (pmmMalloc h.pmm (refillFrames size)).1 ≠ 0 → Supplied smallLayout h size :=
    fun _ _ hframes _ => hframes
  have r₁ := HeapReaches.tail (C := fun h op => op.Supplied smallLayout h) .refl s₁ (hsup _ _ (by decide +kernel))
  have r₂ := r₁.tail s₂ trivial
  have hrun := (r₂.tail s₃ (hsup _ _ (by decide +kernel))).tail s₄ (hsup _ _ (by decide +kernel))
  have hc := smallFree_eq h₄ 0x13030 (by decide +kernel)
  have hlocked : (smallFree h₄ 0x13030).locked = true := by decide +kernel
  refine ⟨⟨h₄, [(0x13030, 8144), (0x12018, 4096)]⟩, _, hrun, rfl, hc, hlocked, ?_, fun hown => ?_⟩
  · refine ⟨0xffffffffffe13, by decide +kernel, fun hin => ?_⟩
    have hsize : blockSize h₄.mem 0x13018 = 8144 := by decide +kernel
    simp only [Span.Within, Span.hi, frameSpan, blockSpan, hsize] at hin
    exact absurd hin.2 (by decide)
  · exact absurd (hlocked.symm.trans hown.unlocked) Bool.noConfusion

end Small

end Flan.Memory
