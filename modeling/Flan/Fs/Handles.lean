import Flan.Fs.Tmpfs

/-! Handles of a regular file. `vfs_open` of `fs/vfs.c` copies the node into the
table of open files, pointer to its data included; `tmpfs_read` and `tmpfs_write`
of `fs/tmpfs.c` then work on that copy. Here the data are bytes of memory that the
copies point to. A result `none` stands for a call that does not return. -/
namespace Flan.Fs.Handles
open Flan.Lib Flan.Memory

/-- The fields of a node that reads and writes use. -/
structure FileNode where
  data : Nat
  size : Nat
  blocks : Nat
  offset : Int
  locked : Bool

namespace FileNode

/-- `tmpfs_read` from the bytes that the pointer leads to. -/
def tmpfsRead (n : FileNode) (mem : Mem) (count offset : Nat) : Option (Int × List Byte × FileNode) :=
  let f : File := ⟨n.size, fun i => mem ((n.data + i) % 2 ^ 64)⟩
  (f.tmpfsRead n.locked ((n.data + offset) % 2 ^ 64 != 0) count offset).map fun (ret, bytes, copied) =>
    (ret, bytes, { n with offset := advance n.offset copied })

section Write
variable {σ : Type} (realloc : Nat → Nat → Option (Nat × σ)) (store : σ → Nat → List Byte → σ)

/-- The growing branch of `tmpfs_write` over a memory `σ`, in which `realloc` is
`kheap_realloc` of a pointer to a size. -/
def grow (n : FileNode) (mem : σ) (stop : Nat) : Option (FileNode × σ) :=
  (growData (fun size => (realloc n.data size).filter fun r => r.1 != 0) (n.data, mem) n.blocks n.size stop).map
    fun ((data, mem), blocks, size) => ({ n with data, blocks, size }, mem)

def tmpfsWrite (n : FileNode) (mem : σ) (buff : List Byte) (offset : Nat) : Option (Int × FileNode × σ) :=
  let copy : FileNode × σ → Option (FileNode × σ) := fun (n, mem) =>
    let dest := (n.data + offset) % 2 ^ 64
    if dest = 0 then none else some (n, store mem dest buff)
  lockedWrite n.locked (n.grow realloc mem) copy buff.length offset

end Write

end FileNode

/-- A file in memory: its node is the copy 0, and the others are the handles in
the order of their opening. -/
structure OpenFile where
  mem : Mem
  copies : Nat → FileNode
  count : Nat

namespace OpenFile

/-- A file that nobody has opened. -/
def closed (mem : Mem) (n : FileNode) : OpenFile := ⟨mem, fun _ => n, 1⟩

/-- `vfs_open`, when the path leads to the node. -/
def vfsOpen (s : OpenFile) : OpenFile :=
  { s with copies := Function.update s.copies s.count (s.copies 0), count := s.count + 1 }

def vfsRead (s : OpenFile) (k count offset : Nat) : Option (Int × List Byte × OpenFile) :=
  ((s.copies k).tmpfsRead s.mem count offset).map fun (ret, bytes, n) =>
    (ret, bytes, { s with copies := Function.update s.copies k n })

/-- `realloc` is the pointer that `kheap_realloc` returns if it is called, and memory after it. -/
def vfsWrite (s : OpenFile) (k : Nat) (buff : List Byte) (offset : Nat) (realloc : Nat × Mem) :
    Option (Int × OpenFile) :=
  ((s.copies k).tmpfsWrite (fun _ _ => some realloc) storeBytes s.mem buff offset).map fun (ret, n, mem) =>
    (ret, { s with mem, copies := Function.update s.copies k n })

end OpenFile

inductive HandleCall where
  | open
  | read (k count offset : Nat)
  | write (k : Nat) (buff : List Byte) (offset : Nat) (realloc : Nat × Mem)

namespace HandleCall

/-- A call on the node or on a handle that there is. -/
def exec (s : OpenFile) : HandleCall → Option OpenFile
  | .open => some s.vfsOpen
  | .read k count offset => if k < s.count then (s.vfsRead k count offset).map fun r => r.2.2 else none
  | .write k buff offset realloc =>
      if k < s.count then (s.vfsWrite k buff offset realloc).map fun r => r.2 else none

def run (s : OpenFile) (cs : List HandleCall) : Option OpenFile := cs.foldlM exec s

/-- A write while the file is open ends in a block that it has. -/
def InBlocks (s : OpenFile) : HandleCall → Prop
  | .write k buff offset _ => s.count = 1 ∨ (offset + buff.length) % 2 ^ 64 / frameSize < (s.copies k).blocks
  | _ => True

end HandleCall

/-- The states of a file after calls that do not make it grow while it is open. -/
inductive Reaches (mem : Mem) (n : FileNode) : OpenFile → Prop
  | closed : Reaches mem n (.closed mem n)
  | call {s s' : OpenFile} {c : HandleCall} : Reaches mem n s → c.InBlocks s → c.exec s = some s' →
      Reaches mem n s'

/-! ### The node by value -/

section View
variable {f : FileNode} {mem fresh : Mem} {n : VfsNode} {count offset : Nat} {buff : List Byte}
  {realloc : Nat × Mem}

/-- The node as `Fs.Tmpfs` has it, with the bytes from its pointer on. -/
def FileNode.view (f : FileNode) (mem : Mem) (n : VfsNode) : VfsNode :=
  { n with
    data := some fun i => mem (f.data + i)
    st := { n.st with size := f.size, blocks := f.blocks }
    offset := f.offset
    locked := f.locked }

theorem tmpfsRead_view (hdata : f.data ≠ 0) (hspace : f.data + offset + count ≤ 2 ^ 64)
    (hend : f.data + offset < 2 ^ 64) :
    Fs.tmpfsRead (f.view mem n) count offset =
      (f.tmpfsRead mem count offset).map fun (ret, bytes, g) => (ret, bytes, g.view mem n) := by
  have hsrc : ((f.data + offset) % 2 ^ 64 != 0) = true := bne_iff_ne.mpr (by omega)
  have hread : (⟨f.size, fun i => mem (f.data + i)⟩ : File).read count offset =
      (⟨f.size, fun i => mem ((f.data + i) % 2 ^ 64)⟩ : File).read count offset := by
    apply List.map_congr_left
    intro i hi
    have hcopied : i < count := (List.mem_range.mp hi).trans_le (File.readCount_le _ _ _)
    exact congrArg mem (Nat.mod_eq_of_lt (by omega)).symm
  simp only [Fs.tmpfsRead, FileNode.tmpfsRead, File.tmpfsRead, FileNode.view, Option.isSome_some, Bool.true_or,
    Option.getD_some, hsrc, hread, if_true]
  split
  · rfl
  · rfl

theorem FileNode.grow_stays {σ : Type} {realloc : Nat → Nat → Option (Nat × σ)} {mem : σ} {stop : Nat}
    (h : stop / frameSize < f.blocks) : f.grow realloc mem stop = some (f, mem) := by
  rw [FileNode.grow, growData_stays h]
  rfl

theorem FileNode.grow_grows {σ : Type} {realloc : Nat → Nat → Option (Nat × σ)} {mem mem' : σ} {stop ptr : Nat}
    (h : f.blocks ≤ stop / frameSize) (hptr : ptr ≠ 0)
    (hnew : realloc f.data ((stop / frameSize + 1) * frameSize % 2 ^ 64) = some (ptr, mem')) :
    f.grow realloc mem stop =
      some ({ f with data := ptr, blocks := stop / frameSize + 1, size := stop }, mem') := by
  rw [FileNode.grow, growData_grows h, hnew, Option.filter_some, if_pos (bne_iff_ne.mpr hptr)]
  rfl

theorem grow_view {stop : Nat} (hsize : (stop / frameSize + 1) * frameSize % 2 ^ 64 ≠ 0)
    (hnew : f.blocks ≤ stop / frameSize → realloc.1 ≠ 0 ∧
      (fun i => realloc.2 (realloc.1 + i)) = (f.view mem n).reallocData fresh) :
    (f.view mem n).grow fresh stop =
      (f.grow (fun _ _ => some realloc) mem stop).map fun (g, mem) => g.view mem n := by
  rcases Nat.lt_or_ge (stop / frameSize) f.blocks with hstays | hgrow
  · rw [VfsNode.grow_stays hstays, FileNode.grow_stays hstays]
    rfl
  · obtain ⟨hptr, hcopy⟩ := hnew hgrow
    rw [VfsNode.grow_grows hgrow hsize, FileNode.grow_grows hgrow hptr rfl, ← hcopy]
    rfl

theorem storeBytes_view (mem : Mem) (data offset : Nat) (buff : List Byte) :
    (fun i => storeBytes mem (data + offset) buff (data + i)) =
      storeBytes (fun i => mem (data + i)) offset buff := by
  funext i
  rw [storeBytes_apply, storeBytes_apply, Nat.add_sub_add_left]
  simp only [Nat.add_le_add_iff_left]

/-- A write by pointer is the write by value, when the new buffer holds what
`kheap_realloc` copies and the bytes written do not start past the last address. -/
theorem tmpfsWrite_view (hsize : ((offset + buff.length) % 2 ^ 64 / frameSize + 1) * frameSize % 2 ^ 64 ≠ 0)
    (hnew : f.blocks ≤ (offset + buff.length) % 2 ^ 64 / frameSize → realloc.1 ≠ 0 ∧
      (fun i => realloc.2 (realloc.1 + i)) = (f.view mem n).reallocData fresh)
    (hspace : ∀ g mem', f.grow (fun _ _ => some realloc) mem ((offset + buff.length) % 2 ^ 64) = some (g, mem') →
      g.data ≠ 0 ∧ g.data + offset < 2 ^ 64) :
    Fs.tmpfsWrite (f.view mem n) fresh buff offset =
      (f.tmpfsWrite (fun _ _ => some realloc) storeBytes mem buff offset).map
        fun (ret, g, mem) => (ret, g.view mem n) := by
  simp only [Fs.tmpfsWrite, FileNode.tmpfsWrite, lockedWrite, grow_view hsize hnew,
    show (f.view mem n).locked = f.locked from rfl]
  split
  · rfl
  · cases hg : f.grow (fun _ _ => some realloc) mem ((offset + buff.length) % 2 ^ 64) with
    | none => rfl
    | some r =>
        obtain ⟨g, mem'⟩ := r
        obtain ⟨hdata, hend⟩ := hspace g mem' hg
        have hdest : (g.data + offset) % 2 ^ 64 = g.data + offset := Nat.mod_eq_of_lt hend
        simp only [Option.map_some, Option.bind_eq_bind, Option.bind_some, hdest,
          if_neg (show ¬ g.data + offset = 0 by omega), FileNode.view, Option.pure_def, storeBytes_view]

end View

/-! ### What the copies share -/

/-- Two copies that differ in their positions only. -/
structure Same (a b : FileNode) : Prop where
  data : a.data = b.data
  size : a.size = b.size
  blocks : a.blocks = b.blocks
  locked : a.locked = b.locked

section Coherent
variable {mem : Mem} {n n' a b c : FileNode} {s s' : OpenFile} {k count offset : Nat} {buff : List Byte}
  {realloc : Nat × Mem}

theorem Same.refl (a : FileNode) : Same a a := ⟨rfl, rfl, rfl, rfl⟩

theorem Same.symm (h : Same a b) : Same b a := ⟨h.data.symm, h.size.symm, h.blocks.symm, h.locked.symm⟩

theorem Same.trans (h : Same a b) (h' : Same b c) : Same a c :=
  ⟨h.data.trans h'.data, h.size.trans h'.size, h.blocks.trans h'.blocks, h.locked.trans h'.locked⟩

/-- Copies that are the same give the same bytes. -/
theorem Same.read_eq (h : Same a b) (mem : Mem) (count offset : Nat) :
    (a.tmpfsRead mem count offset).map (fun r => (r.1, r.2.1)) =
      (b.tmpfsRead mem count offset).map fun r => (r.1, r.2.1) := by
  simp only [FileNode.tmpfsRead, h.data, h.size, h.locked, Option.map_map, Function.comp_def]

theorem same_of_read {r : Int × List Byte × FileNode} (h : n.tmpfsRead mem count offset = some r) :
    Same r.2.2 n := by
  obtain ⟨⟨ret, bytes, pos⟩, -, rfl⟩ := Option.map_eq_some_iff.mp h
  exact ⟨rfl, rfl, rfl, rfl⟩

theorem same_of_write {r : Int × FileNode × Mem} (hin : (offset + buff.length) % 2 ^ 64 / frameSize < n.blocks)
    (h : n.tmpfsWrite (fun _ _ => some realloc) storeBytes mem buff offset = some r) : Same r.2.1 n := by
  rw [FileNode.tmpfsWrite, lockedWrite] at h
  obtain ⟨-, h⟩ := Option.ite_none_left_eq_some.mp h
  rw [FileNode.grow_stays hin, Option.bind_eq_bind, Option.bind_some] at h
  obtain ⟨r', hcopy, h⟩ := Option.bind_eq_some_iff.mp h
  obtain ⟨-, hstored⟩ := Option.ite_none_left_eq_some.mp hcopy
  cases hstored
  cases h
  exact .refl n

/-- Every handle is the same as the node. -/
def Shared (s : OpenFile) : Prop := 0 < s.count ∧ ∀ k < s.count, Same (s.copies k) (s.copies 0)

theorem Shared.alone (hone : s.count = 1) : Shared s := by
  constructor
  · omega
  · intro k hk
    obtain rfl : k = 0 := by omega
    exact .refl _

/-- A call that leaves a copy the same leaves all of them the same. -/
theorem Shared.update (h : Shared s) (hn : Same n (s.copies k)) (mem : Mem) :
    Shared { s with mem, copies := Function.update s.copies k n } := by
  have hold : ∀ i, Same (Function.update s.copies k n i) (s.copies i) := by
    intro i
    rw [Function.update_apply]
    split
    case isTrue hi => rwa [hi]
    case isFalse => exact .refl _
  exact ⟨h.1, fun i hi => ((hold i).trans (h.2 i hi)).trans (hold 0).symm⟩

theorem Shared.open (h : Shared s) : Shared s.vfsOpen := by
  have hpos := h.1
  have hzero : Function.update s.copies s.count (s.copies 0) 0 = s.copies 0 :=
    Function.update_of_ne (by omega) _ _
  refine ⟨Nat.succ_pos _, fun i hi => ?_⟩
  show Same (Function.update s.copies s.count (s.copies 0) i) (Function.update s.copies s.count (s.copies 0) 0)
  rw [hzero, Function.update_apply]
  split
  case isTrue => exact .refl _
  case isFalse hne => exact h.2 i (Nat.lt_of_le_of_ne (Nat.le_of_lt_succ hi) hne)

theorem Shared.step {c : HandleCall} (h : Shared s) (hc : c.InBlocks s) (hexec : c.exec s = some s') :
    Shared s' := by
  cases c with
  | «open» =>
      obtain rfl := Option.some.inj hexec
      exact h.open
  | read k count offset =>
      obtain ⟨-, hcall⟩ := Option.ite_none_right_eq_some.mp hexec
      obtain ⟨r, hr, rfl⟩ := Option.map_eq_some_iff.mp hcall
      obtain ⟨r', hr', rfl⟩ := Option.map_eq_some_iff.mp hr
      exact h.update (same_of_read hr') s.mem
  | write k buff offset realloc =>
      obtain ⟨-, hcall⟩ := Option.ite_none_right_eq_some.mp hexec
      obtain ⟨r, hr, rfl⟩ := Option.map_eq_some_iff.mp hcall
      obtain ⟨r', hr', rfl⟩ := Option.map_eq_some_iff.mp hr
      rcases hc with hone | hin
      · exact .alone hone
      · exact h.update (same_of_write hin hr') _

theorem Reaches.shared (h : Reaches mem n s) : Shared s := by
  induction h with
  | closed => exact .alone rfl
  | call _ hc hexec ih => exact ih.step hc hexec

/-- As long as no write makes the file grow, a handle reads what the node reads. -/
theorem handles_coherent (h : Reaches mem n s) (hk : k < s.count) (count offset : Nat) :
    (s.vfsRead k count offset).map (fun r => (r.1, r.2.1)) =
      (s.vfsRead 0 count offset).map fun r => (r.1, r.2.1) := by
  have hread := (h.shared.2 k hk).read_eq s.mem count offset
  rw [OpenFile.vfsRead, OpenFile.vfsRead, Option.map_map, Option.map_map]
  exact hread

end Coherent

/-- A new file of one block at an address of the heap. -/
def newFile : FileNode := ⟨0x10000, frameSize, 1, 0, false⟩

theorem new_file_reaches : ∃ s, HandleCall.run (.closed (fun _ => 0) newFile)
      [.open, .write 0 [7] 10 (0, fun _ => 0), .write 1 [8] 11 (0, fun _ => 0)] = some s ∧
    Reaches (fun _ => 0) newFile s ∧ s.count = 2 := by
  have h₀ : Reaches (fun _ => 0) newFile (.closed (fun _ => 0) newFile) := .closed
  have h₁ := h₀.call (c := .open) trivial rfl
  have h₂ := h₁.call (c := .write 0 [7] 10 (0, fun _ => 0)) (.inr (show 11 / frameSize < 1 by decide)) rfl
  have h₃ := h₂.call (c := .write 1 [8] 11 (0, fun _ => 0)) (.inr (show 12 / frameSize < 1 by decide)) rfl
  exact ⟨_, rfl, h₃, rfl⟩

/-- What is written to the node and to the handle is read through both. -/
theorem small_writes_coherent : ∃ s, HandleCall.run (.closed (fun _ => 0) newFile)
      [.open, .write 0 [7] 10 (0, fun _ => 0), .write 1 [8] 11 (0, fun _ => 0)] = some s ∧
    ∀ count offset, (s.vfsRead 1 count offset).map (fun r => (r.1, r.2.1)) =
      (s.vfsRead 0 count offset).map fun r => (r.1, r.2.1) := by
  obtain ⟨s, hrun, hreach, hcount⟩ := new_file_reaches
  exact ⟨s, hrun, handles_coherent hreach (by omega)⟩

/-- A byte written behind the first block: the node has it, the handle ends
before it. -/
theorem grown_file_not_coherent : ∃ s, HandleCall.run (.closed (fun _ => 0) newFile)
      [.open, .write 0 [7] frameSize (0x20000, fun _ => 0)] = some s ∧
    (s.vfsRead 0 1 frameSize).map (fun r => (r.1, r.2.1)) = some (1, [7]) ∧
    (s.vfsRead 1 1 frameSize).map (fun r => (r.1, r.2.1)) = some (0, []) := by
  refine ⟨_, rfl, ?_, ?_⟩
  · decide
  · decide

end Flan.Fs.Handles
