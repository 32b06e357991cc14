import Flan.Memory.KheapRun

/-! The account of the heap: which of its bytes are on the free list when no
client holds a pointer any more. -/
namespace Flan.Memory
open Flan.Lib

section Ledger
variable (L : Layout)

/-- The byte lies in a frame that the heap has obtained and not handed back: it is
in use now and was not before `kheap_init`, when the frame allocator was `p`. -/
def HeapByte (p : Pmm) (h : Kheap) (x : Nat) : Prop :=
  L.hhdm ≤ x ∧ h.pmm.used ((x - L.hhdm) / frameSize) = true ∧ p.used ((x - L.hhdm) / frameSize) = false

/-- Every byte of the heap lies in exactly one block of the free list. -/
def Conserved (p : Pmm) (h : Kheap) : Prop :=
  ∀ x, HeapByte L p h x → ∃! f, OnFreeList L h.mem f ∧
    (⟨f, headerSize + blockSize h.mem f⟩ : Span).Has x

/-- `kheap_free` links the block in, and no block looks like the neighbour of
another. -/
def LinksIn (h : Kheap) (ptr : Nat) : Prop :=
  returnsFrames h.mem (sub64 ptr headerSize) = false ∧ FreeOk L h ptr

/-- The calls that lose no byte: frames are there when needed, no size wraps, no
block looks like a neighbour, no block goes to the frame allocator, and
`kheap_realloc` is not given an old block together with a new size. -/
def HeapOp.Conserves (h : Kheap) : HeapOp → Prop
  | .alloc size => Memory.Supplied L h size ∧ AllocOk L h size
  | .calloc size => Memory.Supplied L h size ∧ AllocOk L h size
  | .realloc ptr newSize =>
      if newSize = 0 then ptr = 0 ∨ LinksIn L h ptr
      else ptr = 0 ∧ Memory.Supplied L h newSize ∧ AllocOk L h newSize
  | .free ptr => LinksIn L h ptr
  | .store _ _ => True

/-- The blocks handed out are those of the live pointers, and together with the
free ones they cover the bytes of the heap. -/
structure Accounted (p : Pmm) (w : HeapRun) (free held : List Blk) : Prop where
  inv : HeapInv L w.heap free held
  owned : Owned held w.live
  live : ∀ b ∈ held, b.addr + headerSize ∈ w.live.map Prod.fst
  bytes : ∀ x, HeapByte L p w.heap x → Covers (free ++ held) x

end Ledger

section Steps
variable {L : Layout} {p : Pmm} {w : HeapRun} {free held free' : List Blk} {b c : Blk} {h' : Kheap}
  {size ptr fuel : Nat}

theorem Accounted.gave (ha : Accounted L p w free held) (hg : Gave L w.heap h' free held free' c size ptr) :
    Accounted L p ⟨h', (ptr, size) :: w.live⟩ free' (c :: held) := by
  refine ⟨hg.inv, ?_, ?_, ?_⟩
  · rw [hg.ptr]
    exact ha.owned.give hg.inv hg.size
  · refine List.forall_mem_cons.mpr ⟨?_, fun d hd => ?_⟩
    · rw [hg.ptr]
      exact List.mem_cons_self
    · exact List.mem_cons_of_mem _ (ha.live d hd)
  · rintro x ⟨hlo, hused, hnew⟩
    rcases hg.fresh x hlo hused with hold | hcov
    · exact hg.bytes x (ha.bytes x ⟨hlo, hold, hnew⟩)
    · exact hcov

/-- Clients that write to their own payloads change no block. -/
theorem Accounted.store (ha : Accounted L p w free held) {m : Mem} (hb : b ∈ held)
    (hm : ∀ y, ¬ (b.addr + headerSize ≤ y ∧ y < b.addr + headerSize + b.size) → m y = w.heap.mem y) :
    Accounted L p ⟨{ w.heap with mem := m }, w.live⟩ free held :=
  ⟨ha.inv.store hb hm, ha.owned, ha.live, ha.bytes⟩

/-- No live pointer is null, so nothing stops being live with it. -/
theorem Accounted.without_null (ha : Accounted L p w free held) :
    Accounted L p ⟨w.heap, w.without 0⟩ free held := by
  have hall : w.without 0 = w.live := by
    apply List.filter_eq_self.mpr
    intro a hmem
    obtain ⟨b, -, hb, -⟩ := ha.owned.block a hmem
    rw [← hb]
    simp [headerSize]
  rw [hall]
  exact ha

theorem Accounted.release (ha : Accounted L p w free held) (hlive : ptr ∈ w.live.map Prod.fst)
    (hok : LinksIn L w.heap ptr) (hc : kheapFree L fuel w.heap ptr = some h') :
    ∃ free' held', Accounted L p ⟨h', w.without ptr⟩ free' held' := by
  obtain ⟨b, hb, rfl, hi⟩ := ha.inv.live_block ha.owned hlive
  obtain ⟨free', hi', hkept⟩ := hi.release hok.2 hc
  have hbound := hi.rep.placed.bound (b := b) (by simp)
  have hret : returnsFrames w.heap.mem b.addr = false := by
    have := hok.1
    rwa [sub64_header (by omega)] at this
  obtain ⟨hpmm, hfree⟩ := hkept hret
  refine ⟨free', held.erase b, hi', ha.owned.erase, ?_, ?_⟩
  · intro d hd
    obtain ⟨a, hmem, haddr⟩ := List.mem_map.mp (ha.live d (List.mem_of_mem_erase hd))
    refine List.mem_map.mpr ⟨a, List.mem_filter.mpr ⟨hmem, ?_⟩, haddr⟩
    have hne := hi.rep.placed.addr_ne hd
    rw [haddr]
    exact decide_eq_true fun heq => hne (Nat.add_right_cancel heq)
  · rintro x ⟨hlo, hused, hnew⟩
    rw [hpmm] at hused
    obtain ⟨d, hd, hdx⟩ := ha.bytes x ⟨hlo, hused, hnew⟩
    -- The block has moved from the ones handed out to the free ones.
    have hperm : (free ++ held).Perm (free' ++ held.erase b) :=
      ((List.perm_cons_erase hb).append_left free).trans
        (List.perm_middle.trans (hfree.symm.append_right _))
    exact ⟨d, hperm.mem_iff.mp hd, hdx⟩

theorem Accounted.step {op : HeapOp} {w' : HeapRun} (ha : Accounted L p w free held)
    (hop : op.Conserves L w.heap) (hs : HeapStep L w op w') : ∃ free' held', Accounted L p w' free' held' := by
  cases hs with
  | alloc hc =>
      obtain ⟨free', c, hg⟩ := ha.inv.alloc hop.2 hop.1 hc
      exact ⟨free', c :: held, ha.gave hg⟩
  | calloc hc =>
      obtain ⟨h₁, free', c, hg, rfl⟩ := ha.inv.calloc hop.2 hop.1 hc
      exact ⟨free', c :: held, (ha.gave hg).store List.mem_cons_self hg.memset⟩
  | @realloc ptr newSize fuel ret h hlive hn hc =>
      rw [HeapOp.Conserves, if_neg hn] at hop
      obtain ⟨rfl, hsup, hok⟩ := hop
      rw [kheapRealloc, if_neg fun hz => hn hz.2, if_neg hn, if_pos rfl] at hc
      obtain ⟨free', c, hg⟩ := ha.inv.alloc hok hsup hc
      exact ⟨free', c :: held, ha.without_null.gave hg⟩
  | @reallocFree ptr fuel ret h hlive hc =>
      rw [HeapOp.Conserves, if_pos rfl] at hop
      rcases kheapRealloc_zero hc with ⟨rfl, rfl⟩ | ⟨hz, hfree⟩
      · exact ⟨free, held, ha.without_null⟩
      · exact ha.release (hlive.resolve_left hz) (hop.resolve_left hz) hfree
  | free hlive hc => exact ha.release hlive hop hc
  | store hlive =>
      obtain ⟨b, hb, hm⟩ := ha.owned.store w.heap.mem hlive
      exact ⟨free, held, ha.store hb hm⟩

theorem Accounted.init (m : Mem) (hlim : p.limit = L.limit) (hsup : (pmmMalloc p 1).1 ≠ 0) :
    ∃ free, Accounted L p ⟨kheapInit L m p, []⟩ free [] := by
  obtain ⟨f, htook, hi⟩ := HeapInv.init m hlim hsup
  refine ⟨_, hi, owned_nil, nofun, ?_⟩
  rintro x ⟨hlo, hused, hnew⟩
  rcases htook.covered Nat.one_pos hlo hused with hold | hx
  · exact absurd (hold.symm.trans hnew) Bool.noConfusion
  · exact ⟨_, List.mem_singleton_self _, hx⟩

/-- With no pointer live there is no block but on the free list. -/
theorem Accounted.conserved (ha : Accounted L p w free held) (hlive : w.live = []) : Conserved L p w.heap := by
  have hheld : held = [] := by
    apply List.eq_nil_iff_forall_not_mem.mpr
    intro b hb
    have hmem := ha.live b hb
    rw [hlive] at hmem
    exact nomatch hmem
  subst hheld
  have hrep := ha.inv.rep
  have hspan : ∀ b ∈ free, (⟨b.addr, headerSize + blockSize w.heap.mem b.addr⟩ : Span) = b.extent := by
    intro b hb
    rw [hrep.sizes b (List.mem_append_left _ hb), Blk.extent]
  intro x hx
  obtain ⟨b, hb, hbx⟩ := ha.bytes x hx
  rw [List.append_nil] at hb
  refine ⟨b.addr, ⟨(onFreeList_iff hrep.ring).mpr (List.mem_map_of_mem hb), hspan b hb ▸ hbx⟩, ?_⟩
  rintro f ⟨hon, hfx⟩
  obtain ⟨d, hd, rfl⟩ := List.mem_map.mp ((onFreeList_iff hrep.ring).mp hon)
  rw [hspan d hd] at hfx
  -- Two blocks that share a byte are one.
  by_contra hne
  have hdb : d ≠ b := fun heq => hne (congrArg Blk.addr heq)
  have hap := hrep.placed.apart.forall (List.mem_append_left _ hd) (List.mem_append_left _ hb) hdb
  exact Span.Apart.not_has hap hfx hbx

/-- In a run of calls that lose no byte, every byte of the heap lies in exactly one
block of the free list whenever no pointer is live. -/
theorem heap_conserved (L : Layout) (m : Mem) {p : Pmm} (hlim : p.limit = L.limit)
    (hsup : (pmmMalloc p 1).1 ≠ 0) {w : HeapRun}
    (h : HeapReaches L (HeapOp.Conserves L) ⟨kheapInit L m p, []⟩ w) (hlive : w.live = []) :
    Conserved L p w.heap := by
  have hacc : ∃ free held, Accounted L p w free held := by
    clear hlive
    induction h with
    | refl =>
        obtain ⟨free, ha⟩ := Accounted.init m hlim hsup
        exact ⟨free, [], ha⟩
    | tail _ hs hc ih =>
        obtain ⟨free, held, ha⟩ := ih
        exact ha.step hc hs
  obtain ⟨free, held, ha⟩ := hacc
  exact ha.conserved hlive

end Steps

/-! ### The small heap again -/

theorem small_links_in : LinksIn smallLayout (smallAlloc smallHeap 8).2 0x11018 := by
  have hblock : sub64 0x11018 headerSize = 0x11000 := by decide
  have hnext : nextOf (smallAlloc smallHeap 8).2.mem smallLayout.freeList = 0x11020 := by decide +kernel
  have hidle : CoalesceIdle smallLayout
      (linkFree smallLayout (smallAlloc smallHeap 8).2.mem 0x11000 (some 0x11020)) :=
    coalesceIdle_of_closed [0x100, 0x11000, 0x11020] (by decide) (by decide +kernel) (by decide +kernel)
  rw [LinksIn, FreeOk, hblock, hnext]
  refine ⟨by decide +kernel, .inr ?_⟩
  intro fuel r hf
  cases fuel with
  | zero => cases hf
  | succ fuel =>
      cases hf
      exact hidle

/-- Eight bytes are allocated and freed: the whole frame is free again. -/
theorem freed_heap_conserved : ∃ w,
    HeapReaches smallLayout (HeapOp.Conserves smallLayout) ⟨kheapInit smallLayout (fun _ => 0) freePmm, []⟩ w ∧
    w.live = [] ∧ HeapByte smallLayout freePmm w.heap 0x11000 ∧ Conserved smallLayout freePmm w.heap := by
  have hp : (smallAlloc smallHeap 8).1 = 0x11018 := by decide +kernel
  have hfit : ¬ NoFit smallLayout smallHeap 8 := not_noFit (by decide +kernel) (by decide +kernel)
  have s₁ := HeapStep.alloc (w := ⟨smallHeap, []⟩) (smallAlloc_eq smallHeap 8 (by decide +kernel))
  rw [hp] at s₁
  have s₂ := HeapStep.free (w := ⟨(smallAlloc smallHeap 8).2, [(0x11018, 8)]⟩) (by decide)
    (smallFree_eq _ 0x11018 (by decide +kernel))
  have r₁ := HeapReaches.tail (C := HeapOp.Conserves smallLayout) .refl s₁ (alloc_safe hfit (by decide))
  have hrun := r₁.tail s₂ small_links_in
  rw [← smallHeap_eq] at hrun
  refine ⟨_, hrun, by decide, ⟨by decide, by decide +kernel, by decide +kernel⟩, ?_⟩
  exact heap_conserved smallLayout _ rfl (by decide +kernel) hrun (by decide)

def smallRealloc (h : Kheap) (ptr newSize : Nat) : Nat × Kheap :=
  (kheapRealloc smallLayout 8 h ptr newSize).getD (0, h)

theorem smallRealloc_eq (h : Kheap) (ptr newSize : Nat)
    (hs : (kheapRealloc smallLayout 8 h ptr newSize).isSome = true) :
    kheapRealloc smallLayout 8 h ptr newSize =
      some ((smallRealloc h ptr newSize).1, (smallRealloc h ptr newSize).2) := by
  obtain ⟨r, hr⟩ := Option.isSome_iff_exists.mp hs
  rw [smallRealloc, hr]
  rfl

attribute [irreducible] smallRealloc

/-- Eight bytes are allocated, the block is reallocated to sixteen bytes and the
new block is freed: the first block is nowhere on the free list. -/
theorem realloc_loses_block : ∃ w,
    HeapReaches smallLayout (fun h op => op.Supplied smallLayout h)
      ⟨kheapInit smallLayout (fun _ => 0) freePmm, []⟩ w ∧
    w.live = [] ∧ ¬ Conserved smallLayout freePmm w.heap := by
  rw [smallHeap_eq]
  let h₁ := (smallAlloc smallHeap 8).2
  let h₂ := (smallRealloc h₁ 0x11018 16).2
  let h₃ := smallFree h₂ 0x11038
  have hp₁ : (smallAlloc smallHeap 8).1 = 0x11018 := by decide +kernel
  have hp₂ : (smallRealloc h₁ 0x11018 16).1 = 0x11038 := by decide +kernel
  have hfit₀ : ¬ NoFit smallLayout smallHeap 8 := not_noFit (by decide +kernel) (by decide +kernel)
  have hfit₁ : ¬ NoFit smallLayout h₁ 16 := not_noFit (by decide +kernel) (by decide +kernel)
  have s₁ := HeapStep.alloc (w := ⟨smallHeap, []⟩) (smallAlloc_eq smallHeap 8 (by decide +kernel))
  rw [hp₁] at s₁
  have s₂ := HeapStep.realloc (w := ⟨h₁, [(0x11018, 8)]⟩) (.inr (by decide)) (by decide)
    (smallRealloc_eq h₁ 0x11018 16 (by decide +kernel))
  rw [hp₂] at s₂
  have s₃ := HeapStep.free (w := ⟨h₂, [(0x11038, 16)]⟩) (by decide)
    (smallFree_eq h₂ 0x11038 (by decide +kernel))
  have hsup₁ : (HeapOp.realloc 0x11018 16).Supplied smallLayout h₁ := fun _ hno => absurd hno hfit₁
  have r₁ := HeapReaches.tail (C := fun h op => op.Supplied smallLayout h) .refl s₁
    (alloc_safe hfit₀ (by decide)).1
  have r₂ := r₁.tail s₂ hsup₁
  refine ⟨_, r₂.tail s₃ trivial, by decide, ?_⟩
  intro hcons
  have hbyte : HeapByte smallLayout freePmm h₃ 0x11000 := ⟨by decide, by decide +kernel, by decide +kernel⟩
  obtain ⟨f, ⟨hon, hx⟩, -⟩ := hcons 0x11000 hbyte
  have hmem : f ∈ [0x100, 0x11020, 0x11048] :=
    onFreeList_closed (by decide) (by decide +kernel) hon
  have hnone : ∀ f ∈ [0x100, 0x11020, 0x11048], f = 0x100 ∨
      ¬ (⟨f, headerSize + blockSize h₃.mem f⟩ : Span).Has 0x11000 := by decide +kernel
  rcases hnone f hmem with hfl | hnot
  · exact hon.1 hfl
  · exact hnot hx

end Flan.Memory
