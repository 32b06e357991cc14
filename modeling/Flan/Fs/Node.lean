import Flan.Fs.Str
import Flan.Lib.Chains
import Flan.Memory.Pmm

/-! Nodes of the file system of `fs/vfs.h` with the hash maps of
`lib/hashmap.c`. Pointers to nodes are numbers, `none` is `NULL`. Memory is
taken to suffice, and a result `none` of a function stands for a call that does
not return: a null pointer is followed, an assertion fails or a lock is never
released. -/
namespace Flan.Fs
open Flan.Lib Flan.Memory

/-! ### Hash maps -/

structure Hashmap (α : Type) where
  entries : Buckets (List Byte) (Option α)
  entryCount : Nat
  items : Nat

def hash (key : List Byte) : Nat :=
  key.foldl (fun h c => ((h <<< 5) + h + c.toNat) % 2 ^ 64) 5381

section Hashmap
variable {α : Type}

/-- A bucket starts with its zeroed first entry, whose key is empty. -/
def hashmapCreate (entryCount : Nat) : Hashmap α := ⟨fun _ => [⟨[], none⟩], entryCount, 0⟩

def Hashmap.index (h : Hashmap α) (key : List Byte) : Nat := hash key % h.entryCount

def hashmapGet (h : Hashmap α) (key : List Byte) : Option α := (h.entries.get h.index key).join

def hashmapSet (h : Hashmap α) (key : List Byte) (val : α) : Hashmap α :=
  { h with
    entries := h.entries.set h.index key (some val)
    items := if (h.entries.get h.index key).isSome then h.items else h.items + 1 }

theorem hashmapGet_create (entryCount : Nat) (key : List Byte) :
    hashmapGet (hashmapCreate entryCount : Hashmap α) key = none := by
  simp only [hashmapGet, hashmapCreate, Buckets.get, chainGet]
  split <;> rfl

theorem hashmapGet_set (h : Hashmap α) (key key' : List Byte) (val : α) :
    hashmapGet (hashmapSet h key val) key' = if key' = key then some val else hashmapGet h key' := by
  have hget := h.entries.get_set h.index key key' (some val)
  change ((h.entries.set h.index key (some val)).get h.index key').join = _
  rw [hget]
  split <;> rfl

end Hashmap

/-! ### Nodes -/

/-- The fields of `struct stat` that are set. -/
structure Stat where
  blksize : Nat
  size : Nat
  blocks : Nat
  mode : Nat
  nlink : Nat
  ino : Nat

/-- The two function tables a node can point to. -/
inductive FsKind where
  | tmpfs
  | ext2fs
  deriving DecidableEq, Repr

/-- `vfs_node_t`. `data` is the memory from that pointer on. -/
structure VfsNode where
  name : List Byte
  parent : Option Nat
  children : Option (Hashmap Nat)
  fs : Option FsKind
  mountpoint : Option Nat
  link : Option Nat
  data : Option Mem
  st : Stat
  offset : Int
  locked : Bool

/-- The nodes allocated so far, with the globals `root` and `filesystems` and the
inode counter of tmpfs. `heap` is what the memory of each further data buffer
holds when it is handed out. -/
structure Vfs where
  node : Nat → VfsNode
  count : Nat
  root : Option Nat
  filesystems : Hashmap FsKind
  inodeNumber : Nat
  heap : Nat → Mem
  buffers : Nat

def Vfs.modify (v : Vfs) (n : Nat) (f : VfsNode → VfsNode) : Vfs :=
  { v with node := Function.update v.node n (f (v.node n)) }

@[simp] theorem Vfs.modify_self (v : Vfs) (n : Nat) (f : VfsNode → VfsNode) :
    (v.modify n f).node n = f (v.node n) := Function.update_self _ _ _

theorem Vfs.modify_of_ne (v : Vfs) {n x : Nat} (h : x ≠ n) (f : VfsNode → VfsNode) :
    (v.modify n f).node x = v.node x := Function.update_of_ne h _ _

/-- Calls `hashmap_set` on the children of a node. -/
def Vfs.setChild (v : Vfs) (p : Nat) (key : List Byte) (n : Nat) : Option Vfs := do
  let children ← (v.node p).children
  return v.modify p fun node => { node with children := some (hashmapSet children key n) }

/-- A zeroed node with a name, a file system and, for a directory, an empty map. -/
def newNode (name : List Byte) (parent : Option Nat) (fs : Option FsKind) (dir : Bool) : VfsNode :=
  { name, parent, fs
    children := if dir then some (hashmapCreate 256) else none
    mountpoint := none
    link := none
    data := none
    st := ⟨0, 0, 0, 0, 0, 0⟩
    offset := 0
    locked := false }

/-- `vfs_create_node`: the node becomes a child of `parent`, or of the root when
there is one. -/
def vfsCreateNode (v : Vfs) (parent : Option Nat) (name : List Byte) (fs : Option FsKind)
    (dir : Bool) : Option (Nat × Vfs) := do
  let parent := parent <|> v.root
  let n := v.count
  let v := { v with node := Function.update v.node n (newNode name parent fs dir), count := n + 1 }
  match parent with
  | none => return (n, v)
  | some p => return (n, ← v.setChild p name n)

/-- Before `vfs_init`. -/
def noVfs (heap : Nat → Mem) : Vfs :=
  { node := fun _ => newNode [] none none false
    count := 0
    root := none
    filesystems := hashmapCreate 64
    inodeNumber := 0
    heap
    buffers := 0 }

end Flan.Fs
