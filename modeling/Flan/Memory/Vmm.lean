import Flan.Memory.Pmm

/-! The page tables of `memory/vmm.c`. Every table is read and written through
the direct map at `HHDM_OFFSET`, so a pointer to a table is modelled by the
physical address behind it and a pagemap by the physical address of its `top`.
A failed `assert` halts the machine: the function then has no result. -/
namespace Flan.Memory
open Flan.Lib

def pteAddrMask : Nat := 0x000ffffffffff000
def ptePresent : Nat := 1 <<< 0
def pteWritable : Nat := 1 <<< 1
def pteUser : Nat := 1 <<< 2

/-- Where the tables' frames come from. A successful request yields frames below
`2^52` that nobody holds, and they are held from then on. -/
structure FrameSource (σ : Type) where
  malloc : σ → Nat → Nat × σ
  Taken : σ → Nat → Prop
  keeps : ∀ s n f, Taken s f → Taken (malloc s n).2 f
  fresh : ∀ s n, 0 < n → (malloc s n).1 ≠ 0 → ∃ b, (malloc s n).1 = frameSize * b ∧
    b + n ≤ 2 ^ 40 ∧ ∀ k, b ≤ k → k < b + n → ¬ Taken s k ∧ Taken (malloc s n).2 k

/-- The source grants `n` more requests for one frame. -/
def FrameSource.Ready {σ : Type} (F : FrameSource σ) : σ → Nat → Prop
  | _, 0 => True
  | s, n+1 => (F.malloc s 1).1 ≠ 0 ∧ F.Ready (F.malloc s 1).2 n

/-- `pmm_malloc` on machines with at most `2^40` frames. -/
def pmmSource : FrameSource { p : Pmm // p.limit ≤ 2 ^ 40 } where
  malloc p n := ((pmmMalloc p.val n).1, ⟨(pmmMalloc p.val n).2, (pmmMalloc_limit p.val n).trans_le p.property⟩)
  Taken p f := p.val.used f = true
  keeps p n f h := pmmMalloc_keeps p.val n h
  fresh p n hn h := by
    obtain ⟨b, hfit, hptr, ht⟩ := pmmMalloc_some p.val hn h
    refine ⟨b, hptr, hfit.fits.trans p.property, fun k hlo hhi => ⟨?_, ?_⟩⟩
    · rw [hfit.free k hlo hhi]
      decide
    · rw [ht.used, decide_eq_true ⟨hlo, hhi⟩, Bool.true_or]

/-- Every free frame answers one request. -/
theorem pmmSource_ready {p : { p : Pmm // p.limit ≤ 2 ^ 40 }} {frames : List Nat}
    (hnodup : frames.Nodup) {n : Nat} (hn : n ≤ frames.length)
    (hfree : ∀ x ∈ frames, 1 ≤ x ∧ x < p.val.limit ∧ p.val.used x = false) :
    pmmSource.Ready p n := by
  induction n generalizing p frames with
  | zero => trivial
  | succ n ih =>
      rcases pmmMalloc_spec p.val (show 0 < 1 by decide) with ⟨b, hfit, hptr, ht⟩ | ⟨hblocked, -⟩
      · have hpos := hfit.pos
        have hne : frameSize * b ≠ 0 := Nat.mul_ne_zero (by decide) (by omega)
        refine ⟨hptr.trans_ne hne, ih (hnodup.erase b) ?_ ?_⟩
        · have hlen := List.le_length_erase (l := frames) (a := b)
          omega
        · intro x hx
          have hxb : x ≠ b := fun h : x = b => hnodup.not_mem_erase (h ▸ hx)
          obtain ⟨hlo, hhi, hunused⟩ := hfree x (List.mem_of_mem_erase hx)
          refine ⟨hlo, ht.limit ▸ hhi, (ht.used x).trans ?_⟩
          rw [hunused, Bool.or_false]
          exact decide_eq_false (by omega)
      · obtain ⟨x, hx⟩ := List.exists_mem_of_length_pos (Nat.lt_of_lt_of_le n.succ_pos hn)
        obtain ⟨hlo, hhi, hunused⟩ := hfree x hx
        obtain ⟨i, hle, hlt, hused⟩ := hblocked x hlo (by omega)
        rw [show i = x by omega, hunused] at hused
        cases hused

/-- Physical memory and the source of frames. -/
structure Vmm (σ : Type) where
  mem : Mem
  src : σ

section Source
variable {σ : Type} (F : FrameSource σ)

/-- `pmm_calloc`: the range is zeroed even when there is none. -/
def pmmCalloc (s : Vmm σ) (frames : Nat) : Nat × Vmm σ :=
  let r := F.malloc s.src frames
  (r.1, ⟨memset s.mem r.1 0 (frames * frameSize % 2 ^ 64), r.2⟩)

/-- It is the function of `pmm.c` where the frames come from there. -/
theorem pmmCalloc_pmmSource (m : Mem) (p : { p : Pmm // p.limit ≤ 2 ^ 40 }) (frames : Nat) :
    (pmmCalloc pmmSource ⟨m, p⟩ frames).1 = (Ram.pmmCalloc ⟨m, p.val⟩ frames).1 ∧
    (pmmCalloc pmmSource ⟨m, p⟩ frames).2.mem = (Ram.pmmCalloc ⟨m, p.val⟩ frames).2.mem ∧
    (pmmCalloc pmmSource ⟨m, p⟩ frames).2.src.val = (Ram.pmmCalloc ⟨m, p.val⟩ frames).2.pmm := ⟨rfl, rfl, rfl⟩

def pmmAlloc (s : Vmm σ) (size : Nat) : Option (Nat × Vmm σ) :=
  let frames := (size + (frameSize - 1)) % 2 ^ 64 / frameSize
  let r := pmmCalloc F s frames
  if r.1 = 0 then none else some r

def getNextLevel (s : Vmm σ) (current index : Nat) : Option (Nat × Vmm σ) :=
  let entry := read64 s.mem (current + 8 * index)
  if entry &&& 1 ≠ 0 then some (entry &&& pteAddrMask, s)
  else
    let r := pmmCalloc F s 1
    if r.1 = 0 then none
    else
      let entry := r.1 ||| ptePresent ||| pteWritable ||| pteUser
      some (r.1, { r.2 with mem := write64 r.2.mem (current + 8 * index) entry })

def pmlIndex (virtual shift : Nat) : Nat := (virtual &&& (0x1ff <<< shift)) >>> shift

/-- The descent that every page operation begins with: the table `pml1`. The
asserts on the pointers hold, since no pointer into the direct map is null. -/
def pml1Of (s : Vmm σ) (top virtual : Nat) : Option (Nat × Vmm σ) := do
  let (pml3, s) ← getNextLevel F s top (pmlIndex virtual 39)
  let (pml2, s) ← getNextLevel F s pml3 (pmlIndex virtual 30)
  getNextLevel F s pml2 (pmlIndex virtual 21)

def virtToPte (s : Vmm σ) (top virtual : Nat) : Option (Nat × Vmm σ) := do
  let (pml1, s) ← pml1Of F s top virtual
  return (pml1 + 8 * pmlIndex virtual 12, s)

def virtToPhys (s : Vmm σ) (top virtual : Nat) : Option (Nat × Vmm σ) := do
  let (pte, s) ← virtToPte F s top virtual
  return (read64 s.mem pte &&& pteAddrMask, s)

def vmmUnmapPage (s : Vmm σ) (top virtual : Nat) : Option (Vmm σ) := do
  let (pml1, s) ← pml1Of F s top virtual
  return { s with mem := write64 s.mem (pml1 + 8 * pmlIndex virtual 12) 0 }

def vmmMapPage (s : Vmm σ) (top physical virtual flags : Nat) : Option (Vmm σ) := do
  let (pml1, s) ← pml1Of F s top virtual
  return { s with mem := write64 s.mem (pml1 + 8 * pmlIndex virtual 12) (physical ||| flags) }

def vmmMapPages (s : Vmm σ) (top physical virtual flags : Nat) : (pages : Nat) → Option (Vmm σ)
  | 0 => some s
  | i+1 => do
      let s ← vmmMapPages s top physical virtual flags i
      vmmMapPage F s top ((physical + i * frameSize) % 2 ^ 64) ((virtual + i * frameSize) % 2 ^ 64)
        flags

/-- The loop of `vmm_new_pagemap` over the top-level slots from 256 on. -/
def copySlots (m : Mem) (top kernel : Nat) : (count : Nat) → Mem
  | 0 => m
  | i+1 =>
      let m := copySlots m top kernel i
      write64 m (top + 8 * (256 + i)) (read64 m (kernel + 8 * (256 + i)))

/-- The beginning of `vmm_init` and of `vmm_new_pagemap`: the frame of the
`pagemap_t`, which holds one pointer, and then the zeroed frame of its `top`. -/
def newTop (s : Vmm σ) : Option (Nat × Vmm σ) := do
  let (_, s) ← pmmAlloc F s 8
  let r := pmmCalloc F s 1
  if r.1 = 0 then none else some r

def vmmNewPagemap (s : Vmm σ) (kernel : Nat) : Option (Nat × Vmm σ) := do
  let (top, s) ← newTop F s
  return (top, { s with mem := copySlots s.mem top kernel 256 })

end Source
end Flan.Memory
