import Flan.Lib.Ring
import Flan.Memory.Pmm

/-! The kernel heap of `memory/kheap.c`, on the bytes of its blocks: every block
is an `alloc_node_t` whose header holds the list node and the size, followed by
the payload. Addresses are virtual. -/
namespace Flan.Memory
open Flan.Lib

def headerSize : Nat := 24

/-- `sizeof(alloc_node_t)`: the header and the first word of the payload. -/
def sizeofAllocNode : Nat := 32

/-- Where things are: the `free_list` node among the kernel's data, and the
window of frame `0` to `limit` behind `HHDM_OFFSET`. -/
structure Layout where
  freeList : Nat
  hhdm : Nat
  limit : Nat
  aligned : hhdm % frameSize = 0
  window_le : hhdm + frameSize * limit ≤ 2 ^ 64
  apart : freeList + headerSize ≤ hhdm ∨ hhdm + frameSize * limit ≤ freeList
  freeList_lt : freeList + headerSize ≤ 2 ^ 64
  freeList_ne : freeList ≠ 0

/-- The heap's memory, the frame allocator below it and `kheap_lock`. -/
structure Kheap where
  mem : Mem
  pmm : Pmm
  locked : Bool

/-! ### Headers -/

/-- The `i`-th word of a header: `node.next`, `node.prev` and `size`. -/
def word (m : Mem) (b : Nat) (i : Fin 3) : Nat := read64 m (b + 8 * i)

def setWord (m : Mem) (b : Nat) (i : Fin 3) (v : Nat) : Mem := write64 m (b + 8 * i) v

def nextOf (m : Mem) (b : Nat) : Nat := word m b 0
def prevOf (m : Mem) (b : Nat) : Nat := word m b 1
def blockSize (m : Mem) (b : Nat) : Nat := word m b 2

def setNext (m : Mem) (b v : Nat) : Mem := setWord m b 0 v
def setPrev (m : Mem) (b v : Nat) : Mem := setWord m b 1 v
def setSize (m : Mem) (b v : Nat) : Mem := setWord m b 2 v

def dllListAdd (m : Mem) (n prev next : Nat) : Mem :=
  let m := setPrev m next n
  let m := setNext m n next
  let m := setPrev m n prev
  setNext m prev n

/-- The two lines that take a block off its list. -/
def dllRemove (m : Mem) (block : Nat) : Mem :=
  let m := setPrev m (nextOf m block) (prevOf m block)
  setNext m (prevOf m block) (nextOf m block)

/-! ### The operations -/

section Source
variable (L : Layout)

def addBlock (m : Mem) (addr size : Nat) : Mem :=
  let m := setSize m addr ((size + 2 ^ 64 - headerSize) % 2 ^ 64)
  dllListAdd m addr (prevOf m L.freeList) L.freeList

/-- Where `coalesce_dll` expects the neighbour of a block: the sum is pointer
arithmetic on `alloc_node_t`, so the bytes are counted thirty-two at a time. -/
def scaledEnd (m : Mem) (block : Nat) : Nat :=
  (block + sizeofAllocNode * (blockSize m block + headerSize)) % 2 ^ 64

/-- The loop of `coalesce_dll`; a zero `prevBlock` is `NULL`. Like the other
loops it yields `none` when the fuel runs out before the list ends. -/
def coalesceLoop : (fuel : Nat) → Mem → (prevBlock block : Nat) → Option Mem
  | 0, _, _, _ => none
  | fuel+1, m, prevBlock, block =>
      if block = L.freeList then some m
      else if prevBlock ≠ 0 ∧ scaledEnd m prevBlock = block then
        let m := setSize m prevBlock ((blockSize m prevBlock + (blockSize m block + headerSize)) % 2 ^ 64)
        let m := dllRemove m block
        coalesceLoop fuel m prevBlock (nextOf m block)
      else coalesceLoop fuel m block (nextOf m block)

def coalesceDll (fuel : Nat) (m : Mem) : Option Mem :=
  coalesceLoop L fuel m 0 (nextOf m L.freeList)

/-- The walks of `kheap_alloc` and `kheap_free`: the first block from `block` on
that passes the test, if any. -/
def findBlock (m : Mem) (test : Nat → Bool) : (fuel block : Nat) → Option (Option Nat)
  | 0, _ => none
  | fuel+1, block =>
      if block = L.freeList then some none
      else if test block then some (some block)
      else findBlock m test fuel (nextOf m block)

/-- Splits a remainder off the block when a header fits into it. -/
def splitBlock (m : Mem) (block size : Nat) : Mem :=
  if blockSize m block - size ≥ headerSize then
    let newBlock := block + headerSize + size
    let m := setSize m newBlock (blockSize m block - size - headerSize)
    let m := setSize m block size
    dllListAdd m newBlock block (nextOf m block)
  else m

/-- The frames requested when no block fits. -/
def refillFrames (size : Nat) : Nat := alignUpFrame ((size + headerSize) % 2 ^ 64) / frameSize

/-- The heap grown by as many frames as `size` asks for, before `coalesce_dll`. -/
def refill (h : Kheap) (size : Nat) : Kheap :=
  let new := ((pmmMalloc h.pmm (refillFrames size)).1 + L.hhdm) % 2 ^ 64
  { h with
    mem := addBlock L h.mem new (refillFrames size * frameSize % 2 ^ 64)
    pmm := (pmmMalloc h.pmm (refillFrames size)).2 }

/-- `kheap_alloc`. With the lock held the call spins until the assertion stops
the machine, so it does not return. -/
def kheapAlloc : (fuel : Nat) → Kheap → (size : Nat) → Option (Nat × Kheap)
  | 0, _, _ => none
  | fuel+1, h, size =>
      if h.locked then none
      else
        match findBlock L h.mem (fun b => size ≤ blockSize h.mem b) fuel (nextOf h.mem L.freeList) with
        | none => none
        | some (some block) =>
            some (block + headerSize, { h with mem := dllRemove (splitBlock h.mem block size) block })
        | some none =>
            match coalesceDll L fuel (refill L h size).mem with
            | none => none
            | some m => kheapAlloc fuel { refill L h size with mem := m } size

def kheapCalloc (fuel : Nat) (h : Kheap) (size : Nat) : Option (Nat × Kheap) :=
  match kheapAlloc L fuel h size with
  | none => none
  | some (ptr, h) =>
      if ptr ≠ 0 then some (ptr, { h with mem := memset h.mem ptr 0 size }) else some (0, h)

/-- A freed block goes in front of the first block behind it in memory, or to
the head of the list. -/
def linkFree (m : Mem) (block : Nat) : Option Nat → Mem
  | some freeBlock => dllListAdd m block (prevOf m freeBlock) freeBlock
  | none => dllListAdd m block L.freeList (nextOf m L.freeList)

/-- The test for whole frames: it looks one more header back, and counts the
first word of the payload to the header. -/
def returnsFrames (m : Mem) (block : Nat) : Bool :=
  frameSize ≤ (blockSize m block + sizeofAllocNode) % 2 ^ 64 &&
    sub64 block headerSize % frameSize == 0

/-- `kheap_free`. The branch that hands frames back subtracts `HHDM_OFFSET` from
an `alloc_node_t` pointer, and it leaves the lock taken. -/
def kheapFree (fuel : Nat) (h : Kheap) (ptr : Nat) : Option Kheap :=
  if h.locked then none
  else
    let block := sub64 ptr headerSize
    if returnsFrames h.mem block then
      some { h with
        pmm := pmmFree h.pmm (sub64 (sub64 block headerSize) (sizeofAllocNode * L.hhdm))
          ((blockSize h.mem block + sizeofAllocNode) % 2 ^ 64 / frameSize)
        locked := true }
    else
      match findBlock L h.mem (fun b => block < b) fuel (nextOf h.mem L.freeList) with
      | none => none
      | some r => (coalesceDll L fuel (linkFree L h.mem block r)).map fun m => { h with mem := m }

/-- `kheap_realloc`: the old block is never given back. -/
def kheapRealloc (fuel : Nat) (h : Kheap) (ptr newSize : Nat) : Option (Nat × Kheap) :=
  if ptr = 0 ∧ newSize = 0 then some (0, h)
  else if newSize = 0 then (kheapFree L fuel h ptr).map fun h => (0, h)
  else if ptr = 0 then kheapAlloc L fuel h newSize
  else
    let oldSize := blockSize h.mem (sub64 ptr headerSize)
    match kheapAlloc L fuel h newSize with
    | none => none
    | some (ret, h) =>
        if ret = 0 then some (0, h)
        else some (ret, { h with mem := memcpy h.mem ret ptr oldSize })

/-- `kheap_init`, after the static initialiser of `free_list`. -/
def kheapInit (m : Mem) (p : Pmm) : Kheap :=
  let m := setPrev (setNext m L.freeList L.freeList) L.freeList L.freeList
  { mem := addBlock L m (((pmmMalloc p 1).1 + L.hhdm) % 2 ^ 64) frameSize
    pmm := (pmmMalloc p 1).2
    locked := false }

end Source

/-! ### Header words -/

section Headers

/-- A set of addresses whose headers do not overlap. -/
structure Nodes (N : Nat → Prop) : Prop where
  clear : ∀ a b, N a → N b → a = b ∨ a + headerSize ≤ b ∨ b + headerSize ≤ a
  lt : ∀ a, N a → a < 2 ^ 64

variable {N : Nat → Prop} {m : Mem} {a b v : Nat}

theorem word_setWord (hN : Nodes N) (ha : N a) (hb : N b) (i : Fin 3) (hv : v < 2 ^ 64) :
    word (setWord m a i v) b i = if b = a then v else word m b i := by
  have hc := hN.clear a b ha hb
  rw [headerSize] at hc
  have hi := i.isLt
  split
  · rename_i h
    rw [h]
    exact read64_write64_same hv
  · exact read64_write64_apart (by omega)

theorem word_setWord_ne (hN : Nodes N) (ha : N a) (hb : N b) {i j : Fin 3} (hij : i ≠ j) :
    word (setWord m a i v) b j = word m b j := by
  have hc := hN.clear a b ha hb
  rw [headerSize] at hc
  have hi := i.isLt
  have hj := j.isLt
  have hne : i.val ≠ j.val := fun h => hij (Fin.ext h)
  exact read64_write64_apart (by omega)

/-- What linking in writes, seen from any header. -/
theorem dllListAdd_spec (hN : Nodes N) {n p q x : Nat} (hn : N n) (hp : N p) (hq : N q)
    (hx : N x) :
    nextOf (dllListAdd m n p q) x = (if x = p then n else if x = n then q else nextOf m x) ∧
    prevOf (dllListAdd m n p q) x = (if x = n then p else if x = q then n else prevOf m x) ∧
    blockSize (dllListAdd m n p q) x = blockSize m x := by
  have hn' := hN.lt n hn
  have hp' := hN.lt p hp
  have hq' := hN.lt q hq
  simp only [dllListAdd, nextOf, prevOf, blockSize, setNext, setPrev]
  refine ⟨?_, ?_, ?_⟩
  · rw [word_setWord hN hp hx 0 hn', word_setWord_ne hN hn hx (by decide),
      word_setWord hN hn hx 0 hq', word_setWord_ne hN hq hx (by decide)]
  · rw [word_setWord_ne hN hp hx (by decide), word_setWord hN hn hx 1 hp',
      word_setWord_ne hN hn hx (by decide), word_setWord hN hq hx 1 hn']
  · rw [word_setWord_ne hN hp hx (by decide), word_setWord_ne hN hn hx (by decide),
      word_setWord_ne hN hn hx (by decide), word_setWord_ne hN hq hx (by decide)]

/-- What unlinking writes, seen from any header. -/
theorem dllRemove_spec (hN : Nodes N) {b x : Nat} (hb : N b) (hp : N (prevOf m b))
    (hq : N (nextOf m b)) (hx : N x) :
    nextOf (dllRemove m b) x = (if x = prevOf m b then nextOf m b else nextOf m x) ∧
    prevOf (dllRemove m b) x = (if x = nextOf m b then prevOf m b else prevOf m x) ∧
    blockSize (dllRemove m b) x = blockSize m x := by
  have hp' := hN.lt _ hp
  have hq' := hN.lt _ hq
  have hprev : prevOf (setPrev m (nextOf m b) (prevOf m b)) b = prevOf m b :=
    (word_setWord hN hq hb 1 hp').trans (ite_eq_right_iff.mpr fun _ => rfl)
  have hnext : nextOf (setPrev m (nextOf m b) (prevOf m b)) b = nextOf m b :=
    word_setWord_ne hN hq hb (by decide)
  simp only [dllRemove, hprev, hnext]
  refine ⟨?_, ?_, ?_⟩
  · exact (word_setWord hN hp hx 0 hq').trans
      (by rw [setPrev, word_setWord_ne hN hq hx (by decide)]; rfl)
  · exact (word_setWord_ne hN hp hx (by decide)).trans (word_setWord hN hq hx 1 hp')
  · exact (word_setWord_ne hN hp hx (by decide)).trans (word_setWord_ne hN hq hx (by decide))

/-- The two link words of a header, and the whole of it. -/
def links (a : Nat) : Span := ⟨a, 16⟩

def headerAt (a : Nat) : Span := ⟨a, headerSize⟩

theorem not_links_of_not_header {x : Nat} (h : ¬ (headerAt a).Has x) : ¬ (links a).Has x := by
  simp only [headerAt, links, headerSize, Span.Has, Span.hi] at h ⊢
  omega

theorem setLink_outside {i : Fin 3} (hi : i ≠ 2) {x : Nat} (h : ¬ (links a).Has x) :
    setWord m a i v x = m x := by
  have hlt : i.val < 2 := by
    have := i.isLt
    have hne : i.val ≠ 2 := fun h => hi (Fin.ext h)
    omega
  simp only [links, Span.Has, Span.hi] at h
  exact write64_outside (by omega)

theorem setSize_outside {x : Nat} (h : ¬ (headerAt a).Has x) : setSize m a v x = m x := by
  simp only [headerAt, headerSize, Span.Has, Span.hi] at h
  exact write64_outside (by change x < a + 16 ∨ a + 16 + 8 ≤ x; omega)

/-- Linking in writes to the links of three headers. -/
theorem dllListAdd_outside {n p q x : Nat} (hn : ¬ (links n).Has x) (hp : ¬ (links p).Has x)
    (hq : ¬ (links q).Has x) : dllListAdd m n p q x = m x := by
  simp only [dllListAdd, setNext, setPrev]
  rw [setLink_outside (by decide) hp, setLink_outside (by decide) hn, setLink_outside (by decide) hn,
    setLink_outside (by decide) hq]

/-- Unlinking writes to the links of the two neighbours. -/
theorem dllRemove_outside (hN : Nodes N) {x : Nat} (hb : N b) (hp : N (prevOf m b)) (hq : N (nextOf m b))
    (hxp : ¬ (links (prevOf m b)).Has x) (hxq : ¬ (links (nextOf m b)).Has x) : dllRemove m b x = m x := by
  have hprev : prevOf (setPrev m (nextOf m b) (prevOf m b)) b = prevOf m b :=
    (word_setWord hN hq hb 1 (hN.lt _ hp)).trans (ite_eq_right_iff.mpr fun _ => rfl)
  simp only [dllRemove, hprev]
  exact (setLink_outside (by decide) hxp).trans (setLink_outside (by decide) hxq)

-- From here on the list operations are known by these lemmas only.
attribute [irreducible] dllListAdd dllRemove

end Headers

end Flan.Memory
