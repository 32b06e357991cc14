import Flan.Fs.Handles
import Flan.Memory.KheapRealloc

/-! The buffer of a regular file over any history of writes. The `data` pointer of
`fs/tmpfs.c` leads to a block of the heap of `memory/kheap.c`, which `kheap_realloc`
replaces when the file grows. -/
namespace Flan.Fs.Handles
open Flan.Lib Flan.Memory

/-- What `tmpfs_create` makes of a regular file, with the pointer from `kheap_calloc`. -/
def createFile (calloc : Nat) : Option FileNode :=
  if calloc = 0 then none else some ⟨calloc, frameSize, 1, 0, false⟩

/-- A regular file and the heap that its data lie in. -/
structure HeapFile where
  node : FileNode
  heap : Kheap

structure FileWrite where
  buff : List Byte
  offset : Nat

def storeHeap (h : Kheap) (a : Nat) (bs : List Byte) : Kheap := { h with mem := storeBytes h.mem a bs }

namespace HeapFile

/-- `tmpfs_write`, with the heap's own `kheap_realloc`. -/
def write (L : Layout) (fuel : Nat) (f : HeapFile) (w : FileWrite) : Option (Int × HeapFile) :=
  (f.node.tmpfsWrite (kheapRealloc L fuel f.heap) storeHeap f.heap w.buff w.offset).map fun (ret, node, heap) =>
    (ret, ⟨node, heap⟩)

/-- The call returns, however long it may run. -/
def Writes (L : Layout) (f : HeapFile) (w : FileWrite) (ret : Int) (f' : HeapFile) : Prop :=
  ∃ n, ∀ fuel, n ≤ fuel → f.write L fuel w = some (ret, f')

/-- How long the block at the `data` pointer is, by its header. -/
def allocated (f : HeapFile) : Nat := blockSize f.heap.mem (f.node.data - headerSize)

def block (f : HeapFile) : Blk := ⟨f.node.data - headerSize, f.allocated⟩

def buffer (f : HeapFile) : Span := ⟨f.node.data, f.allocated⟩

end HeapFile

namespace FileWrite

def stop (w : FileWrite) : Nat := w.offset + w.buff.length

/-- What `kheap_realloc` is asked for. -/
def newSize (w : FileWrite) : Nat := (w.stop / frameSize + 1) * frameSize

def Grows (w : FileWrite) (f : HeapFile) : Prop := f.node.blocks ≤ w.stop / frameSize

/-- Where the bytes are copied to, once the node is `n`. -/
def stored (w : FileWrite) (n : FileNode) : Span := ⟨(n.data + w.offset) % 2 ^ 64, w.buff.length⟩

/-- A write that does not pass the largest `off_t`. If the file grows, the frames for it are
there and no free block looks like the neighbour of another after the refill. -/
structure Safe (L : Layout) (w : FileWrite) (f : HeapFile) : Prop where
  stop : w.stop < 2 ^ 63
  supplied : w.Grows f → Supplied L f.heap w.newSize
  ok : w.Grows f → AllocOk L f.heap w.newSize

end FileWrite

/-- The states of a file after safe writes. In between the heap may change in any way that
leaves its blocks disjoint, the lock free and the file's own block alone. -/
inductive HeapFile.Reaches (L : Layout) : HeapFile → Prop
  | create {h h' : Kheap} {free held : List Blk} {fuel c : Nat} {n : FileNode} : HeapInv L h free held →
      AllocOk L h frameSize → Supplied L h frameSize → kheapCalloc L fuel h frameSize = some (c, h') →
      createFile c = some n → HeapFile.Reaches L ⟨n, h'⟩
  | write {f f' : HeapFile} {w : FileWrite} {ret : Int} : HeapFile.Reaches L f → w.Safe L f →
      f.Writes L w ret f' → HeapFile.Reaches L f'
  | others {f : HeapFile} {heap : Kheap} {free held : List Blk} : HeapFile.Reaches L f →
      HeapInv L heap free held → heap.locked = false → f.block ∈ held →
      (∀ x, f.buffer.Has x → heap.mem x = f.heap.mem x) → HeapFile.Reaches L { f with heap }

/-- A write stores inside the buffer, which has room for the old one, leaves the bytes it was
given there and keeps the others. -/
structure WriteKeeps (f : HeapFile) (w : FileWrite) (f' : HeapFile) : Prop where
  inside : (w.stored f'.node).Within f'.buffer
  room : f.allocated ≤ f'.allocated
  written : bytesAt f'.heap.mem (f'.node.data + w.offset) w.buff.length = w.buff
  kept : ∀ i < frameSize * f.node.blocks, i < w.offset ∨ w.stop ≤ i →
    f'.heap.mem (f'.node.data + i) = f.heap.mem (f.node.data + i)

/-- The new file is the one that `Fs.Tmpfs` has by value. -/
theorem createFile_view {n : FileNode} {mem m : Mem} {node : VfsNode} {mode calloc ino : Nat}
    (hm : sIsReg mode = true) (hoffset : node.offset = 0) (hl : node.locked = false)
    (hc : createFile calloc = some n) (hzero : (fun i => mem (calloc + i)) = zeroed m frameSize) :
    n.view mem (node.initTmpfs mode m ino) = node.initTmpfs mode m ino := by
  unfold createFile at hc
  split at hc
  · cases hc
  · cases hc
    simp only [FileNode.view, VfsNode.initTmpfs, hzero, hm, if_true, hoffset, hl]

/-! ### The invariant -/

/-- The file's block is handed out, and the blocks of the file fill it but for less than a
header. -/
structure HeapFileInv (L : Layout) (f : HeapFile) (free held : List Blk) (b : Blk) : Prop where
  heap : HeapInv L f.heap free held
  lockFree : f.heap.locked = false
  held : b ∈ held
  data : f.node.data = b.addr + headerSize
  size : f.node.size ≤ frameSize * f.node.blocks
  blocks : frameSize * f.node.blocks ≤ b.size
  slack : b.size < frameSize * f.node.blocks + headerSize
  unlocked : f.node.locked = false

section Inv
variable {L : Layout} {f f' : HeapFile} {free held : List Blk} {b : Blk} {w : FileWrite}

theorem granted_lt (free : List Blk) (size : Nat) : granted free size < size + headerSize := by
  have hroom : ∀ room, (if headerSize ≤ room - size then size else room) < size + headerSize := by
    intro room
    split
    · exact Nat.lt_add_of_pos_right (show 0 < headerSize by decide)
    · omega
  exact hroom _

theorem HeapFileInv.allocated (hi : HeapFileInv L f free held b) : f.allocated = b.size := by
  rw [HeapFile.allocated, hi.data, Nat.add_sub_cancel]
  exact hi.heap.rep.sizes b (List.mem_append_right _ hi.held)

theorem HeapFileInv.block (hi : HeapFileInv L f free held b) : f.block = b := by
  rw [HeapFile.block, hi.allocated, hi.data, Nat.add_sub_cancel]

theorem HeapFileInv.space (hi : HeapFileInv L f free held b) : f.node.data + b.size ≤ 2 ^ 64 := by
  rw [hi.data]
  exact hi.heap.rep.placed.bound (List.mem_append_right _ hi.held)

/-- A new file has one block. -/
theorem heapFileInv_create {h h' : Kheap} {fuel c : Nat} {n : FileNode} (hi : HeapInv L h free held)
    (hok : AllocOk L h frameSize) (hsup : Supplied L h frameSize)
    (hc : kheapCalloc L fuel h frameSize = some (c, h')) (hn : createFile c = some n) :
    ∃ free' held' b, HeapFileInv L ⟨n, h'⟩ free' held' b := by
  obtain ⟨h₁, free', b, hg, rfl⟩ := hi.calloc hok hsup hc
  have hlt := granted_lt free frameSize
  rw [← hg.sized] at hlt
  unfold createFile at hn
  obtain ⟨-, hn⟩ := Option.ite_none_left_eq_some.mp hn
  cases hn
  exact ⟨free', b :: held, b, hg.inv.store List.mem_cons_self hg.memset, hg.unlocked, List.mem_cons_self, hg.ptr,
    Nat.le_refl _, hg.size, hlt, rfl⟩

/-- Another user of the heap leaves the file as it is. -/
theorem HeapFileInv.others {heap : Kheap} {free' held' : List Blk} (hi : HeapFileInv L f free held b)
    (hheap : HeapInv L heap free' held') (hl : heap.locked = false) (hb : f.block ∈ held') :
    HeapFileInv L { f with heap } free' held' b := by
  rw [hi.block] at hb
  exact ⟨hheap, hl, hb, hi.data, hi.size, hi.blocks, hi.slack, hi.unlocked⟩

/-- Bytes that are stored inside the block. -/
theorem HeapFileInv.store (hi : HeapFileInv L f free held b) {offset : Nat} {buff : List Byte}
    (hin : offset + buff.length ≤ b.size) :
    HeapFileInv L { f with heap := storeHeap f.heap (f.node.data + offset) buff } free held b := by
  refine ⟨hi.heap.store hi.held fun y hy => ?_, hi.lockFree, hi.held, hi.data, hi.size, hi.blocks, hi.slack, hi.unlocked⟩
  have hdata := hi.data
  exact storeBytes_outside (by omega)

/-! ### One write -/

theorem stop_lt_newSize (w : FileWrite) : w.stop < w.newSize :=
  Nat.lt_mul_of_div_lt (Nat.lt_succ_self _) (by decide)

/-- A file that grows gets a block that has room for the old one. -/
theorem HeapFileInv.grows (hi : HeapFileInv L f free held b) (hs : w.Safe L f) (hg : w.Grows f) :
    ∃ n node heap free' held' c, (∀ fuel, n ≤ fuel →
        f.node.grow (kheapRealloc L fuel f.heap) f.heap w.stop = some (node, heap)) ∧
      HeapFileInv L ⟨node, heap⟩ free' held' c ∧ w.stop < frameSize * node.blocks ∧ b.size ≤ c.size ∧
      ∀ i < b.size, heap.mem (node.data + i) = f.heap.mem (f.node.data + i) := by
  have hstop := stop_lt_newSize w
  have hlimit := hs.stop
  have hmore : frameSize * f.node.blocks + frameSize ≤ w.newSize := by
    have hle := Nat.mul_le_mul_right frameSize (Nat.succ_le_succ hg)
    rw [Nat.succ_mul, Nat.mul_comm f.node.blocks] at hle
    exact hle
  have hfits : b.size ≤ granted free w.newSize := by
    obtain ⟨_, c, _, hout, -⟩ := hi.heap.handsOut hi.lockFree (hs.ok hg) (hs.supplied hg)
    have hroom := hout.room
    rw [hout.sized] at hroom
    have hslack := hi.slack
    simp only [headerSize, frameSize] at hslack hmore
    omega
  obtain ⟨free', c, heap, hinv, hl, hsized, hroom, hcopied, hcall⟩ :=
    hi.heap.realloc hi.lockFree hi.held (by omega) (hs.ok hg) (hs.supplied hg) hfits
  have hmod : w.newSize % 2 ^ 64 = w.newSize := by
    apply Nat.mod_eq_of_lt
    have hle : w.newSize ≤ w.stop + frameSize := by
      rw [FileWrite.newSize, Nat.succ_mul]
      exact Nat.add_le_add_right (Nat.div_mul_le_self ..) _
    simp only [frameSize] at hle
    omega
  have hlt := granted_lt free w.newSize
  rw [← hsized] at hlt hfits
  have hcomm : frameSize * (w.stop / frameSize + 1) = w.newSize := Nat.mul_comm ..
  let node : FileNode := { f.node with data := c.addr + headerSize, blocks := w.stop / frameSize + 1, size := w.stop }
  refine ⟨free.length + 4, node, heap, free', c :: held, c, fun fuel hf => ?_,
    ⟨hinv, hl, List.mem_cons_self, rfl, ?_, ?_, ?_, hi.unlocked⟩, ?_, hfits, ?_⟩
  · refine FileNode.grow_grows hg (show c.addr + headerSize ≠ 0 from Nat.succ_ne_zero _) ?_
    rw [hi.data]
    exact (congrArg (kheapRealloc L fuel f.heap _) hmod).trans (hcall fuel hf)
  · exact hcomm ▸ hstop.le
  · exact hcomm ▸ hroom
  · exact hcomm ▸ hlt
  · exact hcomm ▸ hstop
  · rw [hi.data]
    exact hcopied

/-- After the growing branch the file has the block that the write ends in, and its old
blocks are as before. -/
theorem HeapFileInv.grow (hi : HeapFileInv L f free held b) (hs : w.Safe L f) :
    ∃ n node heap free' held' c, (∀ fuel, n ≤ fuel →
        f.node.grow (kheapRealloc L fuel f.heap) f.heap w.stop = some (node, heap)) ∧
      HeapFileInv L ⟨node, heap⟩ free' held' c ∧ w.stop < frameSize * node.blocks ∧ b.size ≤ c.size ∧
      ∀ i < b.size, heap.mem (node.data + i) = f.heap.mem (f.node.data + i) := by
  rcases Nat.lt_or_ge (w.stop / frameSize) f.node.blocks with hin | hg
  · refine ⟨0, f.node, f.heap, free, held, b, fun _ _ => FileNode.grow_stays hin, hi, ?_, Nat.le_refl _,
      fun _ _ => rfl⟩
    rw [Nat.mul_comm]
    exact Nat.lt_mul_of_div_lt hin (by decide)
  · exact hi.grows hs hg

/-- The rest of a write, once the growing branch has returned. -/
theorem write_of_grow {fuel : Nat} {node : FileNode} {heap : Kheap} (hl : f.node.locked = false)
    (hstop : w.stop < 2 ^ 64) (hgrow : f.node.grow (kheapRealloc L fuel f.heap) f.heap w.stop = some (node, heap))
    (hptr : node.data ≠ 0) (hspace : node.data + w.offset < 2 ^ 64) :
    f.write L fuel w =
      some (readResult w.buff.length, ⟨node, storeHeap heap (node.data + w.offset) w.buff⟩) := by
  have hdest : (node.data + w.offset) % 2 ^ 64 = node.data + w.offset := Nat.mod_eq_of_lt hspace
  have hne : node.data + w.offset ≠ 0 := fun h => hptr (Nat.eq_zero_of_add_eq_zero_right h)
  have hend : (w.offset + w.buff.length) % 2 ^ 64 = w.stop := Nat.mod_eq_of_lt hstop
  simp only [HeapFile.write, FileNode.tmpfsWrite, lockedWrite, hl, hend, hgrow, Bool.false_eq_true, if_false,
    Option.bind_eq_bind, Option.bind_some, hdest, if_neg hne, Option.pure_def, Option.map_some]

/-- One write returns, keeps the file in order and stays inside the buffer. -/
theorem HeapFileInv.write (hi : HeapFileInv L f free held b) (hs : w.Safe L f) :
    ∃ f' free' held' b', f.Writes L w (readResult w.buff.length) f' ∧ HeapFileInv L f' free' held' b' ∧
      WriteKeeps f w f' := by
  obtain ⟨n, node, heap, free', held', c, hgrow, hinv, hstop, hroom, hold⟩ := hi.grow hs
  have hlimit := hs.stop
  have hblocks := hinv.blocks
  have hspace := hinv.space
  have hdata := hinv.data
  simp only at hblocks hspace hdata
  have hoffset : w.offset ≤ w.stop := Nat.le_add_right ..
  have hdest : (node.data + w.offset) % 2 ^ 64 = node.data + w.offset := Nat.mod_eq_of_lt (by omega)
  have hend : w.offset + w.buff.length ≤ c.size := (hstop.trans_le hblocks).le
  let f' : HeapFile := ⟨node, storeHeap heap (node.data + w.offset) w.buff⟩
  have hinv' : HeapFileInv L f' free' held' c := hinv.store hend
  refine ⟨f', free', held', c, ⟨n, fun fuel hf => ?_⟩, hinv', ⟨?_, ?_, ?_, ?_⟩⟩
  · exact write_of_grow hi.unlocked (hlimit.trans (by decide)) (hgrow fuel hf) (hdata ▸ Nat.succ_ne_zero _) (by omega)
  · simp only [f', FileWrite.stored, hdest, HeapFile.buffer, Span.Within, Span.hi]
    rw [hinv'.allocated]
    omega
  · rwa [hi.allocated, hinv'.allocated]
  · exact bytesAt_storeBytes _ _ _
  · intro i hlt hout
    rw [← hold i (hlt.trans_le hi.blocks)]
    apply storeBytes_outside
    simp only [f', FileWrite.stop] at hout ⊢
    omega

end Inv

/-! ### Every history -/

section History
variable {L : Layout} {f : HeapFile}

theorem HeapFile.Writes.unique {w : FileWrite} {ret ret' : Int} {f₁ f₂ : HeapFile} (h₁ : f.Writes L w ret f₁)
    (h₂ : f.Writes L w ret' f₂) : f₁ = f₂ := by
  obtain ⟨n, hn⟩ := h₁
  obtain ⟨k, hk⟩ := h₂
  have heq := (hn _ (le_max_left n k)).symm.trans (hk _ (le_max_right n k))
  simp only [Option.some.injEq, Prod.mk.injEq] at heq
  exact heq.2

theorem HeapFile.Reaches.inv (h : HeapFile.Reaches L f) : ∃ free held b, HeapFileInv L f free held b := by
  induction h with
  | create hi hok hsup hc hn => exact heapFileInv_create hi hok hsup hc hn
  | write _ hs hw ih =>
      obtain ⟨free, held, b, hi⟩ := ih
      obtain ⟨f', free', held', b', hw', hinv, -⟩ := hi.write hs
      rw [hw.unique hw']
      exact ⟨free', held', b', hinv⟩
  | others _ hheap hl hb _ ih =>
      obtain ⟨free, held, b, hi⟩ := ih
      exact ⟨_, _, b, hi.others hheap hl hb⟩

/-- An allocation for somebody else. -/
theorem HeapFile.Reaches.alloc (h : HeapFile.Reaches L f) {size fuel ptr : Nat} {heap : Kheap}
    (hok : AllocOk L f.heap size) (hsup : Supplied L f.heap size)
    (hc : kheapAlloc L fuel f.heap size = some (ptr, heap)) : HeapFile.Reaches L { f with heap } := by
  obtain ⟨free, held, b, hi⟩ := h.inv
  obtain ⟨free', c, hg⟩ := hi.heap.alloc hok hsup hc
  obtain ⟨free₁, c₁, -, hout⟩ := hi.heap.handsOut_of hi.lockFree hok hsup hc
  refine h.others hg.inv hg.unlocked (hi.block.symm ▸ List.mem_cons_of_mem _ hi.held) fun x hx => ?_
  obtain ⟨i, rfl⟩ := Nat.exists_eq_add_of_le hx.1
  simp only [HeapFile.buffer, Span.Has, Span.hi, hi.allocated, hi.data] at hx ⊢
  exact hout.payload hi.held (by omega)

end History

/-! ### Two files on a small heap -/

section Small

end Small

end Flan.Fs.Handles
