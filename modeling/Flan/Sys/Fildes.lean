import Flan.Fs.Vfs
import Flan.Lib.Runs
import Flan.Sys.Vector

/-! The table of open files of a process and the system calls on it, from
`lib/vector.c`, `fs/vfs.c` and `sys/syscalls/syscalls.c`. A result `none` stands
for a call that does not return. -/
namespace Flan.Sys
open Flan.Lib Flan.Fs

/-! ### Vectors -/

/-- `vector_t`. `slot` are the items from the pointer `data` on. -/
structure VectorT (α : Type) where
  items : Nat
  itemSize : Nat
  lock : Bool
  data : Nat
  slot : Nat → α

section Vector
variable {α : Type}

/-- `vector_get`: the item's index stands for its address. An index past the end
returns without releasing the lock. -/
def vectorGet (t : VectorT α) (index : Nat) : Option (Option Nat × VectorT α) :=
  if t.lock then none
  else if index ≥ t.items then some (none, { t with lock := true })
  else some (some index, t)

/-- `vector_replace` acquires the lock again after `vector_get`. -/
def vectorReplace (t : VectorT α) (data : α) (index : Nat) : Option (Nat × VectorT α) := do
  let (ptr, t) ← vectorGet t index
  if t.lock then none
  else
    let k ← ptr
    return (k, { t with slot := Function.update t.slot k data })

/-- `vector_get_index` of an address. One outside returns without releasing the
lock. -/
def vectorGetIndex (t : VectorT α) (ptr : Nat) : Option (Int × VectorT α) :=
  if t.lock then none
  else if t.data + t.itemSize * t.items < ptr ∨ ptr < t.data then some (-1, { t with lock := true })
  else some ((BitVec.ofNat 32 ((ptr - t.data) / t.itemSize)).toInt, t)

end Vector

/-- The items of a vector as they lie in its buffer. -/
def RawVector.slots (v : RawVector) : VectorT (List Byte) :=
  ⟨v.items, v.itemSize, v.lock, v.data, v.item⟩

theorem vectorGet_slots {v : RawVector} (hv : v.Sized) (index : Nat) :
    vectorGet v.slots index =
      (v.vectorGet index).map fun r => (r.1.map (· / v.itemSize), r.2.slots) := by
  rw [vectorGet, RawVector.vectorGet, RawVector.enter, RawVector.slots]
  by_cases hl : v.lock = true
  · rw [if_pos hl, if_pos hl]
    rfl
  · rw [if_neg hl, if_neg hl]
    by_cases hi : index ≥ v.items
    · simp only [if_pos hi, Option.bind_eq_bind, Option.bind_some, Option.pure_def, Option.map_some]
      rfl
    · have hsize : index * v.itemSize % 2 ^ 64 = index * v.itemSize :=
        Nat.mod_eq_of_lt (Nat.lt_of_le_of_lt (Nat.mul_le_mul_right _ (Nat.le_of_not_le hi)) hv.size_lt)
      simp only [if_neg hi, Option.bind_eq_bind, Option.bind_some, Option.pure_def, Option.map_some, hsize,
        Nat.mul_div_cancel index hv.itemSize]
      rfl

theorem vectorReplace_slots {v : RawVector} (hi : v.ListInv) {bytes : List Byte} {index : Nat}
    (hlen : bytes.length = v.itemSize) (hlt : index < v.items) :
    ∃ v', v.vectorReplace bytes index = some v' ∧
      vectorReplace v.slots bytes index = some (index, v'.slots) := by
  refine ⟨_, vectorReplace_eq hi hlen hlt, ?_⟩
  have hfree : v.slots.lock = false := hi.free
  have hlt' : ¬ index ≥ v.slots.items := Nat.not_le.mpr hlt
  rw [vectorReplace, vectorGet, hfree]
  simp only [Bool.false_eq_true, if_false, if_neg hlt', Option.bind_eq_bind, Option.bind_some, hfree,
    Option.pure_def]
  have hstored := @item_stored v bytes index hlen
  simp only [RawVector.slots, ← hstored, hi.free]
  rfl

/-! ### Open files -/

/-- Constants of the C library's headers. -/
structure Abi where
  atFdcwd : BitVec 32
  oCreat : BitVec 32
  seekSet : BitVec 32
  seekCur : BitVec 32
  seekEnd : BitVec 32

/-- A copy of a node in the table. The pointer `children` is copied with it, so
both lead to the map of the node `map`. -/
structure Filde where
  node : VfsNode
  map : Option Nat

/-- A `vfs_node_t *`: a node of the tree, or a copy in the table. -/
inductive NodePtr where
  | tree (n : Nat)
  | slot (k : Nat)
  deriving DecidableEq

/-- The tree, with the fields of the process that the calls use. -/
structure Files where
  v : Vfs
  fildes : VectorT Filde
  cwd : Option Nat
  currentFilde : BitVec 32

namespace Files

def load (s : Files) : NodePtr → VfsNode
  | .tree n => s.v.node n
  | .slot k =>
      let f := s.fildes.slot k
      { f.node with children := f.map.bind fun n => (s.v.node n).children }

def store (s : Files) (p : NodePtr) (f : VfsNode → VfsNode) : Files :=
  match p with
  | .tree n => { s with v := s.v.modify n f }
  | .slot k =>
      let old := s.fildes.slot k
      { s with fildes.slot := Function.update s.fildes.slot k { old with node := f old.node } }

def copy (s : Files) : NodePtr → Filde
  | .tree n => ⟨s.v.node n, some n⟩
  | .slot k => s.fildes.slot k

/-- The tree as `path_to_node` sees it from a copy in the table, which is one more
node. -/
def withSlot (s : Files) (k : Nat) : Vfs :=
  { s.v with
    node := Function.update s.v.node s.v.count (s.load (.slot k))
    count := s.v.count + 1 }

/-- `path_to_node` from a pointer: parent and result. -/
def pathToNode (s : Files) (dir : Option NodePtr) (path : List Byte) :
    Option (Option NodePtr × Option NodePtr) :=
  match dir with
  | none => (Fs.pathToNode s.v none path).map fun r => (r.parent.map .tree, r.result.map .tree)
  | some (.tree n) =>
      (Fs.pathToNode s.v (some n) path).map fun r => (r.parent.map .tree, r.result.map .tree)
  | some (.slot k) =>
      let ptr (n : Nat) : NodePtr := if n = s.v.count then .slot k else .tree n
      (Fs.pathToNode (s.withSlot k) (some s.v.count) path).map fun r =>
        (r.parent.map ptr, r.result.map ptr)

/-- `fd_to_node`; a negative descriptor becomes a large index. -/
def fdToNode (abi : Abi) (s : Files) (fd : BitVec 32) : Option (Option NodePtr × Files) :=
  if fd = abi.atFdcwd then some (s.cwd.map .tree, s)
  else (vectorGet s.fildes (fd.signExtend 64).toNat).map fun r =>
    (r.1.map .slot, { s with fildes := r.2 })

/-- `vfs_open`: the node is copied to the next place in the table. -/
def vfsOpen (s : Files) (dir : Option NodePtr) (path : List Byte) : Option (Option NodePtr × Files) := do
  let r ← s.pathToNode dir path
  match r.2 with
  | none => return (none, s)
  | some node =>
      let (k, fildes) ← vectorReplace s.fildes (s.copy node) (s.currentFilde.signExtend 64).toNat
      return (some (.slot k), { s with fildes, currentFilde := s.currentFilde + 1 })

/-- The address of a node. -/
def addr (nodeAddr : Nat → Nat) (s : Files) : Option NodePtr → Nat
  | none => 0
  | some (.tree n) => nodeAddr n
  | some (.slot k) => s.fildes.data + k * s.fildes.itemSize

def nodeToFd (nodeAddr : Nat → Nat) (s : Files) (node : Option NodePtr) : Option (Int × Files) :=
  (vectorGetIndex s.fildes (s.addr nodeAddr node)).map fun r => (r.1, { s with fildes := r.2 })

/-! ### System calls -/

/-- The new offset of `syscall_seek`; `none` for an unknown `whence`. -/
def seekOffset (abi : Abi) (s : Files) (node : Option NodePtr) (offset : BitVec 64) (whence : BitVec 32) :
    Option (Option Int) :=
  if whence = abi.seekSet then some (some offset.toInt)
  else if whence = abi.seekCur then
    node.map fun p => some (BitVec.ofInt 64 ((s.load p).offset + offset.toInt)).toInt
  else if whence = abi.seekEnd then
    node.map fun p => some (BitVec.ofInt 64 ((s.load p).st.size + offset.toInt)).toInt
  else some none

def syscallSeek (abi : Abi) (s : Files) (fd : BitVec 32) (offset : BitVec 64) (whence : BitVec 32) :
    Option (Int × Files) := do
  let (node, s) ← s.fdToNode abi fd
  match ← s.seekOffset abi node offset whence with
  | none => return (-1, s)
  | some newOff =>
      if newOff < 0 then return (-1, s)
      else return (newOff, s.store (← node) fun n => { n with offset := (BitVec.ofInt 32 newOff).toInt })

/-- `vfs_read`, with the bytes that the caller gets. The function table of ext2fs reads
nothing. -/
def vfsRead (s : Files) (p : NodePtr) (count : Nat) : Option (Int × List Byte × Files) := do
  let node := s.load p
  match ← node.fs with
  | .ext2fs => return (0, [], s)
  | .tmpfs =>
      let (ret, bytes, node) ← tmpfsRead node count (BitVec.ofInt 64 node.offset).toNat
      return (ret, bytes, s.store p fun n => { n with offset := node.offset })

def syscallRead (abi : Abi) (s : Files) (fd : BitVec 32) (count : Nat) :
    Option (Int × List Byte × Files) := do
  let (node, s) ← s.fdToNode abi fd
  match node with
  | none => return (-1, [], s)
  | some p => s.vfsRead p count

/-- The end of `syscall_openat` for a path that was not found. The path handed to
`vfs_create` is the machine code of the function `basename`; `created` is what
the call makes of it: a node or null, and the tree after it. -/
def openatCreate (abi : Abi) (nodeAddr : Nat → Nat) (s : Files) (dir : Option NodePtr) (path : List Byte)
    (flags : BitVec 32) (created : Option (Option Nat × Vfs)) : Option (Int × Files) := do
  if flags &&& abi.oCreat = 0 then return (-1, s)
  else
    let r ← s.pathToNode dir path
    match r.1 with
    | none => return (-1, s)
    | some _ =>
        let (node, v) ← created
        { s with v }.nodeToFd nodeAddr (node.map .tree)

def syscallOpenat (abi : Abi) (nodeAddr : Nat → Nat) (s : Files) (dirfd : BitVec 32) (path : List Byte)
    (flags : BitVec 32) (created : Option (Option Nat × Vfs)) : Option (Int × Files) := do
  let (dir, s) ← s.fdToNode abi dirfd
  let (node, s) ← s.vfsOpen dir path
  match node with
  | none => s.openatCreate abi nodeAddr dir path flags created
  | some _ => s.nodeToFd nodeAddr node

end Files

/-! ### The lock of the table -/

def maxFildes : Nat := 256

inductive FileCall where
  | openat (dirfd : BitVec 32) (path : List Byte) (flags : BitVec 32)
      (created : Option (Option Nat × Vfs))
  | read (fd : BitVec 32) (count : Nat)
  | seek (fd : BitVec 32) (offset : BitVec 64) (whence : BitVec 32)

section Lock
variable (abi : Abi) (nodeAddr : Nat → Nat)

def FileCall.exec (s : Files) : FileCall → Option (Int × Files)
  | .openat dirfd path flags created => s.syscallOpenat abi nodeAddr dirfd path flags created
  | .read fd count => (s.syscallRead abi fd count).map fun r => (r.1, r.2.2)
  | .seek fd offset whence => s.syscallSeek abi fd offset whence

def FileCall.Returns (s : Files) (c : FileCall) : Prop := (c.exec abi nodeAddr s).isSome

/-- The state after a call. -/
def Files.next (s : Files) (c : FileCall) : Files := (c.exec abi nodeAddr s).elim s Prod.snd

/-- The descriptor is the working directory or an index into the table. -/
def InTable (fd : BitVec 32) : Prop := fd = abi.atFdcwd ∨ fd.toNat < maxFildes

/-- The pointer that `fd_to_node` gives for such a descriptor. -/
def Files.dirOf (s : Files) (fd : BitVec 32) : Option NodePtr :=
  if fd = abi.atFdcwd then s.cwd.map .tree else some (.slot fd.toNat)

/-- The descriptor is in the table, and `syscall_openat` does not come to its call
of `vfs_create`: the path is found, or nothing is to be created, or the path has
no parent. -/
def FileCall.Releases (s : Files) : FileCall → Prop
  | .openat dirfd path flags _ => InTable abi dirfd ∧
      ∀ r, s.pathToNode (s.dirOf abi dirfd) path = some r →
        r.2.isSome ∨ flags &&& abi.oCreat = 0 ∨ r.1 = none
  | .read fd _ => InTable abi fd
  | .seek fd _ _ => InTable abi fd

/-- The table has its 256 items and a free lock; the heap has put it at an
address, and the nodes of the tree outside it, with a block header between. -/
structure TableInv (s : Files) : Prop where
  items : s.fildes.items = maxFildes
  free : s.fildes.lock = false
  data : 0 < s.fildes.data
  apart : ∀ n, nodeAddr n < s.fildes.data ∨
    s.fildes.data + s.fildes.itemSize * maxFildes < nodeAddr n

end Lock

section Calls
variable {abi : Abi} {nodeAddr : Nat → Nat} {s s' : Files} {fd : BitVec 32} {ret : Int}

/-- The call has left the table where it is. -/
structure SameTable (s s' : Files) : Prop where
  items : s'.fildes.items = s.fildes.items
  itemSize : s'.fildes.itemSize = s.fildes.itemSize
  data : s'.fildes.data = s.fildes.data

theorem SameTable.refl : SameTable s s := ⟨rfl, rfl, rfl⟩

theorem SameTable.trans {s'' : Files} (h : SameTable s s') (h' : SameTable s' s'') : SameTable s s'' :=
  ⟨h'.items.trans h.items, h'.itemSize.trans h.itemSize, h'.data.trans h.data⟩

theorem TableInv.same (h : TableInv nodeAddr s) (hs : SameTable s s') (hfree : s'.fildes.lock = false) :
    TableInv nodeAddr s' := by
  refine ⟨hs.items.trans h.items, hfree, ?_, ?_⟩
  · rw [hs.data]
    exact h.data
  · rw [hs.data, hs.itemSize]
    exact h.apart

theorem signExtend_of_lt {fd : BitVec 32} (h : fd.toNat < maxFildes) :
    (fd.signExtend 64).toNat = fd.toNat := by
  rw [maxFildes] at h
  have hmsb : fd.msb = false := by
    rw [BitVec.msb_eq_false_iff_two_mul_lt]
    omega
  rw [BitVec.signExtend_eq_setWidth_of_msb_false hmsb, BitVec.toNat_setWidth]
  omega

theorem signExtend_ge {fd : BitVec 32} (h : ¬ fd.toNat < maxFildes) :
    maxFildes ≤ (fd.signExtend 64).toNat := by
  rw [maxFildes] at h ⊢
  rw [BitVec.toNat_signExtend, BitVec.toNat_setWidth]
  split <;> omega

/-- What `fd_to_node` gives and does to the lock. -/
theorem fdToNode_cases (h : TableInv nodeAddr s) (abi : Abi) (fd : BitVec 32) :
    (InTable abi fd ∧ s.fdToNode abi fd = some (s.dirOf abi fd, s)) ∨
    (¬ InTable abi fd ∧ s.fdToNode abi fd = some (none, { s with fildes.lock := true })) := by
  rw [Files.fdToNode, Files.dirOf]
  by_cases hcwd : fd = abi.atFdcwd
  · rw [if_pos hcwd, if_pos hcwd]
    exact .inl ⟨.inl hcwd, rfl⟩
  · rw [if_neg hcwd, if_neg hcwd, vectorGet, h.free, if_neg Bool.false_ne_true]
    by_cases hlt : fd.toNat < maxFildes
    · have hidx : ¬ fd.toNat ≥ s.fildes.items := by
        rw [h.items]
        exact Nat.not_le.mpr hlt
      rw [signExtend_of_lt hlt, if_neg hidx]
      exact .inl ⟨.inr hlt, rfl⟩
    · have hidx : (fd.signExtend 64).toNat ≥ s.fildes.items := by
        rw [h.items]
        exact signExtend_ge hlt
      rw [if_pos hidx]
      exact .inr ⟨not_or.mpr ⟨hcwd, hlt⟩, rfl⟩

theorem store_table (s : Files) (p : NodePtr) (f : VfsNode → VfsNode) :
    SameTable s (s.store p f) ∧ (s.store p f).fildes.lock = s.fildes.lock := by
  cases p with
  | tree n => exact ⟨⟨rfl, rfl, rfl⟩, rfl⟩
  | slot k => exact ⟨⟨rfl, rfl, rfl⟩, rfl⟩

theorem vfsRead_table {p : NodePtr} {count : Nat} {bytes : List Byte} (h : s.vfsRead p count = some (ret, bytes, s')) :
    SameTable s s' ∧ s'.fildes.lock = s.fildes.lock := by
  simp only [Files.vfsRead, Option.bind_eq_bind, Option.bind_eq_some_iff] at h
  obtain ⟨fs, _, h⟩ := h
  cases fs with
  | ext2fs =>
      cases h
      exact ⟨.refl, rfl⟩
  | tmpfs =>
      obtain ⟨r, _, h⟩ := Option.bind_eq_some_iff.mp h
      cases h
      exact store_table s p _

/-- `syscall_read` leaves the lock free exactly for a descriptor of the table. -/
theorem syscallRead_lock (h : TableInv nodeAddr s) {count : Nat} {bytes : List Byte}
    (hret : s.syscallRead abi fd count = some (ret, bytes, s')) :
    SameTable s s' ∧ (s'.fildes.lock = false ↔ InTable abi fd) := by
  rcases fdToNode_cases h abi fd with ⟨hin, hfd⟩ | ⟨hout, hfd⟩
  · simp only [Files.syscallRead, hfd, Option.bind_eq_bind, Option.bind_some] at hret
    cases hdir : s.dirOf abi fd with
    | none =>
        rw [hdir] at hret
        cases hret
        exact ⟨.refl, iff_of_true h.free hin⟩
    | some p =>
        rw [hdir] at hret
        obtain ⟨hsame, hlock⟩ := vfsRead_table hret
        exact ⟨hsame, iff_of_true (hlock.trans h.free) hin⟩
  · simp only [Files.syscallRead, hfd, Option.bind_eq_bind, Option.bind_some] at hret
    cases hret
    exact ⟨⟨rfl, rfl, rfl⟩, iff_of_false Bool.noConfusion hout⟩

/-- What follows `fd_to_node` in `syscall_seek`. -/
theorem syscallSeek_table {s₁ : Files} {node : Option NodePtr} {offset : BitVec 64} {whence : BitVec 32}
    (hfd : s.fdToNode abi fd = some (node, s₁))
    (hret : s.syscallSeek abi fd offset whence = some (ret, s')) :
    SameTable s₁ s' ∧ s'.fildes.lock = s₁.fildes.lock := by
  simp only [Files.syscallSeek, hfd, Option.bind_eq_bind, Option.bind_some,
    Option.bind_eq_some_iff] at hret
  obtain ⟨off, _, hret⟩ := hret
  cases off with
  | none =>
      cases hret
      exact ⟨.refl, rfl⟩
  | some newOff =>
      simp only at hret
      split at hret
      · cases hret
        exact ⟨.refl, rfl⟩
      · obtain ⟨p, _, hret⟩ := Option.bind_eq_some_iff.mp hret
        cases hret
        exact store_table s₁ p _

theorem syscallSeek_lock (h : TableInv nodeAddr s) {offset : BitVec 64} {whence : BitVec 32}
    (hret : s.syscallSeek abi fd offset whence = some (ret, s')) :
    SameTable s s' ∧ (s'.fildes.lock = false ↔ InTable abi fd) := by
  rcases fdToNode_cases h abi fd with ⟨hin, hfd⟩ | ⟨hout, hfd⟩
  · obtain ⟨hsame, hlock⟩ := syscallSeek_table hfd hret
    exact ⟨hsame, iff_of_true (hlock.trans h.free) hin⟩
  · obtain ⟨hsame, hlock⟩ := syscallSeek_table hfd hret
    refine ⟨⟨hsame.items, hsame.itemSize, hsame.data⟩, iff_of_false ?_ hout⟩
    rw [hlock]
    exact Bool.noConfusion

theorem nodeToFd_locked {node : Option NodePtr} (h : s.fildes.lock = true) :
    s.nodeToFd nodeAddr node = none := by
  rw [Files.nodeToFd, vectorGetIndex, if_pos h]
  rfl

/-- `node_to_fd` of a node of the tree, or of none: it is not in the table. -/
theorem nodeToFd_tree (h : TableInv nodeAddr s) (node : Option Nat) :
    s.nodeToFd nodeAddr (node.map .tree) = some (-1, { s with fildes.lock := true }) := by
  have hout : s.fildes.data + s.fildes.itemSize * s.fildes.items < s.addr nodeAddr (node.map .tree) ∨
      s.addr nodeAddr (node.map .tree) < s.fildes.data := by
    cases node with
    | none => exact .inr h.data
    | some n =>
        rw [h.items]
        exact (h.apart n).symm
  rw [Files.nodeToFd, vectorGetIndex, h.free, if_neg Bool.false_ne_true, if_pos hout]
  rfl

/-- `node_to_fd` of a copy in the table. -/
theorem nodeToFd_copy (h : TableInv nodeAddr s) {k : Nat} (hk : k < maxFildes) :
    s.nodeToFd nodeAddr (some (.slot k)) =
      some ((BitVec.ofNat 32 (k * s.fildes.itemSize / s.fildes.itemSize)).toInt, s) := by
  have hin : ¬ (s.fildes.data + s.fildes.itemSize * s.fildes.items < s.fildes.data + k * s.fildes.itemSize ∨
      s.fildes.data + k * s.fildes.itemSize < s.fildes.data) := by
    have hle := Nat.mul_le_mul_right s.fildes.itemSize (Nat.le_of_lt hk)
    rw [h.items, Nat.mul_comm s.fildes.itemSize]
    omega
  rw [Files.nodeToFd, Files.addr, vectorGetIndex, h.free, if_neg Bool.false_ne_true, if_neg hin,
    Nat.add_sub_cancel_left]
  rfl

/-- `vfs_open` on a free table, once its walk has returned. -/
theorem vfsOpen_cases (h : TableInv nodeAddr s) {dir node : Option NodePtr} {path : List Byte}
    (hret : s.vfsOpen dir path = some (node, s')) :
    ∃ r, s.pathToNode dir path = some r ∧
      ((r.2 = none ∧ node = none ∧ s' = s) ∨
        ∃ p k, r.2 = some p ∧ node = some (.slot k) ∧ k < maxFildes ∧ SameTable s s' ∧
          s'.fildes.lock = false) := by
  simp only [Files.vfsOpen, Option.bind_eq_bind, Option.bind_eq_some_iff] at hret
  obtain ⟨r, hpath, hret⟩ := hret
  refine ⟨r, hpath, ?_⟩
  cases hr : r.2 with
  | none =>
      rw [hr] at hret
      cases hret
      exact .inl ⟨rfl, rfl, rfl⟩
  | some p =>
      rw [hr] at hret
      simp only [vectorReplace, vectorGet, h.free, Option.bind_eq_bind, if_neg Bool.false_ne_true] at hret
      split at hret
      · cases hret
      · rename_i hlt
        simp only [Option.bind_some, h.free, if_neg Bool.false_ne_true] at hret
        cases hret
        rw [h.items] at hlt
        exact .inr ⟨p, _, rfl, rfl, Nat.not_le.mp hlt, ⟨rfl, rfl, rfl⟩, rfl⟩

/-- `vfs_open` on a table whose lock is held returns only without a node. -/
theorem vfsOpen_locked (h : s.fildes.lock = true) {dir node : Option NodePtr} {path : List Byte}
    (hret : s.vfsOpen dir path = some (node, s')) : node = none ∧ s' = s := by
  simp only [Files.vfsOpen, Option.bind_eq_bind, Option.bind_eq_some_iff] at hret
  obtain ⟨r, hpath, hret⟩ := hret
  cases hr : r.2 with
  | none =>
      rw [hr] at hret
      cases hret
      exact ⟨rfl, rfl⟩
  | some p =>
      rw [hr] at hret
      simp only [vectorReplace, vectorGet, if_pos h, Option.bind_eq_bind, Option.bind_none] at hret
      cases hret

theorem openatCreate_cases {dir : Option NodePtr} {path : List Byte} {flags : BitVec 32}
    {created : Option (Option Nat × Vfs)}
    (hret : s.openatCreate abi nodeAddr dir path flags created = some (ret, s')) :
    (flags &&& abi.oCreat = 0 ∧ s' = s) ∨
    (flags &&& abi.oCreat ≠ 0 ∧ ∃ r, s.pathToNode dir path = some r ∧
      ((r.1 = none ∧ s' = s) ∨ (r.1 ≠ none ∧ ∃ (node : Option Nat) (v : Vfs),
        ({ s with v := v } : Files).nodeToFd nodeAddr (node.map .tree) = some (ret, s')))) := by
  rw [Files.openatCreate] at hret
  split at hret
  · rename_i hflags
    cases hret
    exact .inl ⟨hflags, rfl⟩
  · rename_i hflags
    simp only [Option.bind_eq_bind, Option.bind_eq_some_iff] at hret
    obtain ⟨r, hpath, hret⟩ := hret
    refine .inr ⟨hflags, r, hpath, ?_⟩
    cases hr : r.1 with
    | none =>
        rw [hr] at hret
        cases hret
        exact .inl ⟨rfl, rfl⟩
    | some p =>
        rw [hr] at hret
        obtain ⟨c, _, hret⟩ := Option.bind_eq_some_iff.mp hret
        exact .inr ⟨by simp, c.1, c.2, hret⟩

/-- The condition speaks about the one outcome of the walk. -/
theorem releases_openat_iff {path : List Byte} {flags : BitVec 32} {created : Option (Option Nat × Vfs)}
    {r : Option NodePtr × Option NodePtr} (hin : InTable abi fd) (hpath : s.pathToNode (s.dirOf abi fd) path = some r) :
    FileCall.Releases abi s (.openat fd path flags created) ↔
      r.2.isSome ∨ flags &&& abi.oCreat = 0 ∨ r.1 = none := by
  constructor
  · exact fun hrel => hrel.2 r hpath
  · intro hr
    refine ⟨hin, fun r' hr' => ?_⟩
    rw [hpath] at hr'
    cases hr'
    exact hr

/-- After a descriptor outside the table the lock stays taken. -/
theorem syscallOpenat_outside {path : List Byte} {flags : BitVec 32} {created : Option (Option Nat × Vfs)}
    (hfd : s.fdToNode abi fd = some (none, { s with fildes.lock := true }))
    (hret : s.syscallOpenat abi nodeAddr fd path flags created = some (ret, s')) :
    s' = { s with fildes.lock := true } := by
  simp only [Files.syscallOpenat, hfd, Option.bind_eq_bind, Option.bind_some,
    Option.bind_eq_some_iff] at hret
  obtain ⟨⟨node, s₁⟩, hopen, hret⟩ := hret
  obtain ⟨hnode, hs₁⟩ := vfsOpen_locked rfl hopen
  subst hnode hs₁
  rcases openatCreate_cases hret with ⟨_, hs⟩ | ⟨_, r, _, ⟨_, hs⟩ | ⟨_, n, v, hfd'⟩⟩
  · exact hs
  · exact hs
  · rw [nodeToFd_locked rfl] at hfd'
    cases hfd'

theorem syscallOpenat_lock (h : TableInv nodeAddr s) {path : List Byte} {flags : BitVec 32}
    {created : Option (Option Nat × Vfs)}
    (hret : s.syscallOpenat abi nodeAddr fd path flags created = some (ret, s')) :
    SameTable s s' ∧ (s'.fildes.lock = false ↔
      FileCall.Releases abi s (.openat fd path flags created)) := by
  rcases fdToNode_cases h abi fd with ⟨hin, hfd⟩ | ⟨hout, hfd⟩
  · simp only [Files.syscallOpenat, hfd, Option.bind_eq_bind, Option.bind_some,
      Option.bind_eq_some_iff] at hret
    obtain ⟨⟨node, s₁⟩, hopen, hret⟩ := hret
    obtain ⟨r, hpath, hcase⟩ := vfsOpen_cases h hopen
    rw [releases_openat_iff hin hpath]
    rcases hcase with ⟨hnone, rfl, rfl⟩ | ⟨p, k, hsome, rfl, hk, hsame, hlock⟩
    · rcases openatCreate_cases hret with ⟨hflags, rfl⟩ | ⟨hflags, r', hpath', hcase⟩
      · exact ⟨.refl, iff_of_true h.free (.inr (.inl hflags))⟩
      · rw [hpath] at hpath'
        cases hpath'
        rcases hcase with ⟨hpar, rfl⟩ | ⟨hpar, n, v, hfd'⟩
        · exact ⟨.refl, iff_of_true h.free (.inr (.inr hpar))⟩
        · have hinv : TableInv nodeAddr ({ s₁ with v := v } : Files) :=
            ⟨h.items, h.free, h.data, h.apart⟩
          rw [nodeToFd_tree hinv] at hfd'
          cases hfd'
          refine ⟨⟨rfl, rfl, rfl⟩, iff_of_false Bool.noConfusion ?_⟩
          rw [hnone]
          rintro (hc | hc | hc)
          · cases hc
          · exact hflags hc
          · exact hpar hc
    · have hfd' : s₁.nodeToFd nodeAddr (some (.slot k)) = some (ret, s') := hret
      rw [nodeToFd_copy (h.same hsame hlock) hk] at hfd'
      cases hfd'
      exact ⟨hsame, iff_of_true hlock (.inl (by rw [hsome]; rfl))⟩
  · rw [syscallOpenat_outside hfd hret]
    exact ⟨⟨rfl, rfl, rfl⟩, iff_of_false Bool.noConfusion fun hrel => hout hrel.1⟩

theorem exec_lock (h : TableInv nodeAddr s) {c : FileCall} (hret : c.exec abi nodeAddr s = some (ret, s')) :
    SameTable s s' ∧ (s'.fildes.lock = false ↔ c.Releases abi s) := by
  cases c with
  | openat dirfd path flags created => exact syscallOpenat_lock h hret
  | read fd count =>
      obtain ⟨⟨_, bytes, _⟩, hread, heq⟩ := Option.map_eq_some_iff.mp hret
      cases heq
      exact syscallRead_lock h hread
  | seek fd offset whence => exact syscallSeek_lock h hret

end Calls

/-- Along a sequence of calls that return, the lock of the table is free after
each of them exactly when each keeps to the table and creates nothing. -/
theorem table_lock_free_iff (abi : Abi) {nodeAddr : Nat → Nat} {s : Files} (hs : TableInv nodeAddr s)
    {cs : List FileCall}
    (hret : AllSteps (Files.next abi nodeAddr) (FileCall.Returns abi nodeAddr) s cs) :
    AllStates (Files.next abi nodeAddr) (fun s => s.fildes.lock = false) s cs ↔
      AllSteps (Files.next abi nodeAddr) (FileCall.Releases abi) s cs := by
  have hstep : ∀ s c, TableInv nodeAddr s → FileCall.Returns abi nodeAddr s c →
      SameTable s (s.next abi nodeAddr c) ∧
        ((s.next abi nodeAddr c).fildes.lock = false ↔ c.Releases abi s) := by
    intro s c h hr
    obtain ⟨⟨ret, s'⟩, hexec⟩ := Option.isSome_iff_exists.mp hr
    rw [Files.next, hexec]
    exact exec_lock h hexec
  refine allStates_iff_allSteps (fun s h => h.free) ?_ ?_ hs hret
  · intro s c h hr hc
    obtain ⟨hsame, hiff⟩ := hstep s c h hr
    exact h.same hsame (hiff.mpr hc)
  · intro s c h hr hfree
    exact (hstep s c h hr).2.mp hfree

def linuxAbi : Abi := ⟨-100, 0x40, 0, 1, 2⟩

/-- The table of a new process, in a tree without nodes. -/
def newFiles : Files :=
  { v := bareVfs
    fildes := ⟨maxFildes, 360, false, 0x2000, fun _ => ⟨newNode [] none none false, none⟩⟩
    cwd := some 0
    currentFilde := 0 }

def heapAddr (n : Nat) : Nat := 0x100000 + 384 * n

theorem newFiles_inv : TableInv heapAddr newFiles := by
  refine ⟨rfl, rfl, by decide, fun n => .inr ?_⟩
  show 0x2000 + 360 * 256 < 0x100000 + 384 * n
  omega

/-- Seeking in two slots of the table. -/
theorem seeks_keep_lock_free :
    AllStates (Files.next linuxAbi heapAddr) (fun s => s.fildes.lock = false) newFiles
      [.seek 3 10 0, .seek 255 7 1] := by
  have hret : AllSteps (Files.next linuxAbi heapAddr) (FileCall.Returns linuxAbi heapAddr) newFiles
      [.seek 3 10 0, .seek 255 7 1] := ⟨rfl, rfl, trivial⟩
  refine (table_lock_free_iff linuxAbi newFiles_inv hret).mpr ⟨?_, ?_, trivial⟩
  · exact .inr (by decide)
  · exact .inr (by decide)

/-- Reading from descriptor 256 returns -1 with the lock held, and the next read
from a descriptor of the table never returns. -/
theorem read_past_table_leaves_lock : ∃ s,
    FileCall.exec linuxAbi heapAddr newFiles (.read 256 1) = some (-1, s) ∧
    s.fildes.lock = true ∧
    FileCall.exec linuxAbi heapAddr s (.read 0 1) = none :=
  ⟨{ newFiles with fildes.lock := true }, rfl, rfl, rfl⟩

end Flan.Sys
