import Mathlib.Data.List.Induction
import Flan.Fs.Node

/-! Files of `fs/tmpfs.c`, and when they are the byte files of POSIX. -/
namespace Flan.Fs
open Flan.Lib Flan.Memory

/-! ### The source -/

def sIfmt : Nat := 0xf000
def sIfdir : Nat := 0x4000
def sIfreg : Nat := 0x8000

def sIsDir (mode : Nat) : Bool := mode &&& sIfmt == sIfdir
def sIsReg (mode : Nat) : Bool := mode &&& sIfmt == sIfreg

/-- Memory whose first `n` bytes have been cleared. -/
def zeroed (m : Mem) (n : Nat) : Mem := fun i => if i < n then 0 else m i

/-- What `tmpfs_create` sets in a new node; a regular file gets a buffer of one
frame from `kheap_calloc`. -/
def VfsNode.initTmpfs (mode : Nat) (m : Mem) (ino : Nat) (n : VfsNode) : VfsNode :=
  { n with
    data := if sIsReg mode then some (zeroed m frameSize) else none
    st := ⟨frameSize, frameSize, 1, mode, 1, ino⟩ }

def tmpfsCreate (v : Vfs) (parent : Option Nat) (name : List Byte) (mode : Nat) :
    Option (Nat × Vfs) := do
  let (n, v) ← vfsCreateNode v parent name (some .tmpfs) (sIsDir mode)
  return (n, { v.modify n (VfsNode.initTmpfs mode (v.heap v.buffers) v.inodeNumber) with
    inodeNumber := v.inodeNumber + 1
    buffers := if sIsReg mode then v.buffers + 1 else v.buffers })

/-- A node's `st_size` and the bytes from its `data` pointer on; past the size
they are whatever the memory there holds. -/
structure File where
  size : Nat
  data : Nat → Byte

namespace File

/-- How much `tmpfs_read` copies: the rest of the file is a 64-bit difference,
which is large when the offset lies past the end. -/
def readCount (f : File) (count offset : Nat) : Nat :=
  let max := sub64 f.size offset
  if count > max then max else count

theorem readCount_le (f : File) (count offset : Nat) : f.readCount count offset ≤ count := by
  rw [readCount]
  split <;> omega

/-- The bytes that `tmpfs_read` copies. -/
def read (f : File) (count offset : Nat) : List Byte :=
  (List.range (f.readCount count offset)).map fun i => f.data (offset + i)

/-- The positions in the file that those bytes come from. -/
def positions (f : File) (count offset : Nat) : List Nat :=
  (List.range (f.readCount count offset)).map (offset + ·)

theorem read_positions (f : File) (count offset : Nat) :
    f.read count offset = (f.positions count offset).map f.data := by
  rw [read, positions, List.map_map]
  rfl

/-- A structure on the stack after a read into it; a short read leaves the rest
as it was. -/
def readStruct (f : File) (stack : Mem) (count offset : Nat) : Mem :=
  storeBytes stack 0 (f.read count offset)

end File

/-- A count as the `int` that is returned for it. -/
def readResult (count : Nat) : Int := (BitVec.ofNat 32 count).toInt

/-- `tmpfs_read`: the result, the bytes copied to the caller and how many they are. `source`
says that `memcpy` accepts the address it copies from. -/
def File.tmpfsRead (f : File) (locked source : Bool) (count offset : Nat) : Option (Int × List Byte × Nat) :=
  let copied := f.readCount count offset
  if locked then none
  else if source then some (readResult copied, f.read count offset, copied)
  else none

/-- The `int` field `offset` of a node after a read. -/
def advance (offset : Int) (copied : Nat) : Int := (BitVec.ofInt 32 (offset + copied)).toInt

/-- The growing branch of `tmpfs_write` on a node's data, `st_blocks` and `st_size`, when the
file lacks the block that the write ends in. What the data are is left open, and `realloc`
is `kheap_realloc` with the assertion behind it. -/
def growData {β : Type} (realloc : Nat → Option β) (data : β) (blocks size stop : Nat) :
    Option (β × Nat × Nat) :=
  let page := stop / frameSize
  if blocks ≤ page then
    (realloc ((page + 1) * frameSize % 2 ^ 64)).map fun data => (data, page + 1, stop)
  else some (data, blocks, size)

/-- `tmpfs_write` of `count` bytes, from its growing branch and its copy. -/
def lockedWrite {ν : Type} (locked : Bool) (grow : Nat → Option ν) (copy : ν → Option ν) (count offset : Nat) :
    Option (Int × ν) :=
  if locked then none
  else do
    let n ← grow ((offset + count) % 2 ^ 64)
    let n ← copy n
    return (readResult count, n)

/-- Without a buffer `tmpfs_read` copies from the address `offset`, so only an empty copy from
a nonzero address passes. -/
def tmpfsRead (n : VfsNode) (count offset : Nat) : Option (Int × List Byte × VfsNode) :=
  let f : File := ⟨n.st.size, n.data.getD fun _ => 0⟩
  let source := n.data.isSome || (offset != 0 && f.readCount count offset == 0)
  (f.tmpfsRead n.locked source count offset).map fun (ret, bytes, copied) =>
    (ret, bytes, { n with offset := advance n.offset copied })

/-- The buffer that `kheap_realloc` returns: the old blocks, then what the
memory held before. -/
def VfsNode.reallocData (n : VfsNode) (fresh : Mem) : Mem :=
  match n.data with
  | some d => fun i => if i < n.st.blocks * frameSize then d i else fresh i
  | none => fresh

/-- A size of zero makes `kheap_realloc` return `NULL`, which the assertion catches. -/
def VfsNode.grow (n : VfsNode) (fresh : Mem) (stop : Nat) : Option VfsNode :=
  (growData (fun size => if size = 0 then none else some (some (n.reallocData fresh)))
      n.data n.st.blocks n.st.size stop).map fun (data, blocks, size) =>
    { n with data, st := { n.st with blocks, size } }

/-- `tmpfs_write` of the bytes `buff`; `fresh` is what a new buffer holds. -/
def tmpfsWrite (n : VfsNode) (fresh : Mem) (buff : List Byte) (offset : Nat) :
    Option (Int × VfsNode) :=
  let copy : VfsNode → Option VfsNode := fun n =>
    match n.data with
    | some d => some { n with data := some (storeBytes d offset buff) }
    | none => if offset ≠ 0 ∧ buff = [] then some n else none
  lockedWrite n.locked (n.grow fresh) copy buff.length offset

/-! ### The byte file of a sequence of writes -/

/-- A write, with what the heap hands out if the file grows. -/
structure Write where
  buff : List Byte
  offset : Nat
  fresh : Mem

def Write.stop (w : Write) : Nat := w.offset + w.buff.length

def Write.page (w : Write) : Nat := w.stop / frameSize

/-- The byte the write leaves at a position, if it writes there. -/
def Write.byte? (w : Write) (i : Nat) : Option Byte :=
  if w.offset ≤ i then w.buff[i - w.offset]? else none

def VfsNode.writes : VfsNode → List Write → Option VfsNode
  | n, [] => some n
  | n, w :: ws => do
      let (_, n) ← tmpfsWrite n w.fresh w.buff w.offset
      n.writes ws

/-- The furthest end of a write that is not empty. -/
def posixSize : List Write → Nat
  | [] => 0
  | w :: ws => if w.buff = [] then posixSize ws else max w.stop (posixSize ws)

/-- The last byte written at a position. -/
def lastByte : List Write → Nat → Option Byte
  | [], _ => none
  | w :: ws, i => (lastByte ws i).or (w.byte? i)

/-- What a read of the byte file returns; holes are zero. -/
def posixRead (ws : List Write) (count offset : Nat) : List Byte :=
  (List.range (min (offset + count) (posixSize ws) - offset)).map fun i =>
    (lastByte ws (offset + i)).getD 0

/-- The node stands for the byte file, as far as its size and one read tell. -/
structure PosixFile (ws : List Write) (n : VfsNode) (count offset : Nat) : Prop where
  size : n.st.size = posixSize ws
  read : ∃ n', tmpfsRead n count offset =
    some (((posixRead ws count offset).length : Int), posixRead ws count offset, n')

/-- The last write that needed more blocks than the file had. -/
def lastGrowth (ws : List Write) : Option Write :=
  ws.foldl (fun g w => if g.elim 0 Write.page < w.page then some w else g) none

/-- What the buffer holds at a position that nothing was written to: the first
block was cleared, the others come from the write that reached their block. -/
def holeByte (ws : List Write) (i : Nat) : Byte :=
  if i < frameSize then 0
  else ((ws.find? fun w => i / frameSize ≤ w.page).map fun w => w.fresh i).getD 0

/-- The last growth reaches as far as any write, the read starts inside the file,
and the heap's memory was zero in the holes it covers. -/
structure PosixWhen (ws : List Write) (count offset : Nat) : Prop where
  grown : ∃ w, lastGrowth ws = some w ∧ w.stop = posixSize ws
  start : count = 0 ∨ offset ≤ posixSize ws
  holes : ∀ i, offset ≤ i → i < min (offset + count) (posixSize ws) → lastByte ws i = none →
    holeByte ws i = 0

/-! ### What a file holds after some writes -/

section Grow
variable {β : Type} {realloc : Nat → Option β} {data : β} {blocks size stop : Nat} {n : VfsNode} {fresh : Mem}

theorem growData_stays (h : stop / frameSize < blocks) :
    growData realloc data blocks size stop = some (data, blocks, size) :=
  if_neg (Nat.not_le.mpr h)

theorem growData_grows (h : blocks ≤ stop / frameSize) :
    growData realloc data blocks size stop =
      (realloc ((stop / frameSize + 1) * frameSize % 2 ^ 64)).map fun data => (data, stop / frameSize + 1, stop) :=
  if_pos h

theorem VfsNode.grow_stays (h : stop / frameSize < n.st.blocks) : n.grow fresh stop = some n := by
  rw [VfsNode.grow, growData_stays h]
  rfl

theorem VfsNode.grow_grows (h : n.st.blocks ≤ stop / frameSize)
    (hsize : (stop / frameSize + 1) * frameSize % 2 ^ 64 ≠ 0) :
    n.grow fresh stop = some { n with
      data := some (n.reallocData fresh)
      st := { n.st with blocks := stop / frameSize + 1, size := stop } } := by
  rw [VfsNode.grow, growData_grows h, if_neg hsize]
  rfl

end Grow

structure FileInv (ws : List Write) (n : VfsNode) : Prop where
  unlocked : n.locked = false
  blocks : n.st.blocks = (lastGrowth ws).elim 0 Write.page + 1
  size : n.st.size = (lastGrowth ws).elim frameSize Write.stop
  pages : ∀ w ∈ ws, w.page < n.st.blocks
  data : ∃ d, n.data = some d ∧
    ∀ i, i < n.st.blocks * frameSize → d i = (lastByte ws i).getD (holeByte ws i)

theorem lastGrowth_concat (ws : List Write) (w : Write) :
    lastGrowth (ws ++ [w]) =
      if (lastGrowth ws).elim 0 Write.page < w.page then some w else lastGrowth ws := by
  rw [lastGrowth, List.foldl_append]
  rfl

theorem lastByte_concat (ws : List Write) (w : Write) (i : Nat) :
    lastByte (ws ++ [w]) i = (w.byte? i).or (lastByte ws i) := by
  induction ws with
  | nil => simp [lastByte]
  | cons v ws ih => rw [List.cons_append, lastByte, ih, lastByte, Option.or_assoc]

theorem lastGrowth_mem {ws : List Write} {g : Write} (h : lastGrowth ws = some g) : g ∈ ws := by
  induction ws using List.reverseRecOn with
  | nil => cases h
  | append_singleton ws w ih =>
      rw [lastGrowth_concat] at h
      split at h
      · cases h
        exact List.mem_append_right _ List.mem_cons_self
      · exact List.mem_append_left _ (ih h)

theorem Write.byte?_eq_none {w : Write} {i : Nat} (h : w.stop ≤ i) : w.byte? i = none := by
  rw [Write.stop] at h
  rw [Write.byte?, if_pos (by omega)]
  exact List.getElem?_eq_none (by omega)

theorem lastByte_eq_none {ws : List Write} {i : Nat} (h : ∀ w ∈ ws, w.stop ≤ i) :
    lastByte ws i = none := by
  induction ws with
  | nil => rfl
  | cons w ws ih =>
      rw [lastByte, ih (fun v hv => h v (List.mem_cons_of_mem _ hv)),
        Write.byte?_eq_none (h w List.mem_cons_self)]
      rfl

theorem Write.stop_lt {w : Write} {b : Nat} (h : w.page < b) : w.stop < b * frameSize := by
  simp only [Write.page, frameSize] at h ⊢
  omega

section Inv
variable {ws : List Write} {n : VfsNode} {w : Write} {i : Nat}

/-- A block that the file has already keeps its bytes. -/
theorem FileInv.hole_old (hi : FileInv ws n) (hlt : i < n.st.blocks * frameSize) :
    holeByte (ws ++ [w]) i = holeByte ws i := by
  rw [holeByte, holeByte]
  by_cases hf : i < frameSize
  · rw [if_pos hf, if_pos hf]
  · rw [if_neg hf, if_neg hf, List.find?_append]
    have hblock : i / frameSize < n.st.blocks := Nat.div_lt_of_lt_mul (by rwa [Nat.mul_comm])
    have hpos : 1 ≤ i / frameSize := (Nat.one_le_div_iff (by decide)).mpr (by omega)
    -- Beyond the first block there is a growth, and it covers the position.
    cases hg : lastGrowth ws with
    | none =>
        have hb := hi.blocks
        rw [hg] at hb
        simp only [Option.elim] at hb
        omega
    | some g =>
        have hb := hi.blocks
        rw [hg] at hb
        simp only [Option.elim] at hb
        have hsome : (ws.find? fun w => i / frameSize ≤ w.page).isSome := by
          rw [List.find?_isSome]
          exact ⟨g, lastGrowth_mem hg, by simp only [decide_eq_true_eq]; omega⟩
        rw [Option.or_of_isSome hsome]

/-- A new block holds what the heap hands out. -/
theorem FileInv.hole_new (hi : FileInv ws n) (hge : n.st.blocks * frameSize ≤ i)
    (hlt : i < (w.page + 1) * frameSize) : holeByte (ws ++ [w]) i = w.fresh i := by
  have hb := hi.blocks
  have hblock : n.st.blocks ≤ i / frameSize := (Nat.le_div_iff_mul_le (by decide)).mpr hge
  have hreach : i / frameSize ≤ w.page := by
    rw [Nat.mul_comm] at hlt
    exact Nat.lt_succ_iff.mp (Nat.div_lt_of_lt_mul hlt)
  have hone : frameSize ≤ n.st.blocks * frameSize := Nat.le_mul_of_pos_left _ (by omega)
  have hnone : ws.find? (fun w => i / frameSize ≤ w.page) = none := by
    rw [List.find?_eq_none]
    intro v hv
    have := hi.pages v hv
    simp only [decide_eq_true_eq]
    omega
  rw [holeByte, if_neg (by omega), List.find?_append, hnone, Option.none_or,
    List.find?_singleton, if_pos (by simpa using hreach)]
  rfl

/-- The bytes after a write into a buffer that holds the earlier ones. -/
theorem storeBytes_lastByte {d : Mem} (hd : d i = (lastByte ws i).getD (holeByte (ws ++ [w]) i)) :
    storeBytes d w.offset w.buff i = (lastByte (ws ++ [w]) i).getD (holeByte (ws ++ [w]) i) := by
  rw [storeBytes_apply, lastByte_concat, hd, ← Write.byte?]
  cases w.byte? i with
  | none => rfl
  | some b => rfl

theorem FileInv.grows (hi : FileInv ws n) (hw : w.stop < 2 ^ 63) (hg : n.st.blocks ≤ w.page) :
    ∃ n' d, n.grow w.fresh w.stop = some n' ∧ n'.data = some d ∧
      FileInv (ws ++ [w]) { n' with data := some (storeBytes d w.offset w.buff) } := by
  obtain ⟨d, hdata, hbytes⟩ := hi.data
  have hb := hi.blocks
  have hsize : (w.stop / frameSize + 1) * frameSize % 2 ^ 64 ≠ 0 := by
    simp only [frameSize]
    omega
  have hgrown : lastGrowth (ws ++ [w]) = some w := by
    rw [lastGrowth_concat, if_pos (by omega)]
  refine ⟨_, _, VfsNode.grow_grows hg hsize, rfl, ?_⟩
  constructor
  · exact hi.unlocked
  · rw [hgrown]
    rfl
  · rw [hgrown]
    rfl
  · intro v hv
    show v.page < w.page + 1
    rcases List.mem_append.mp hv with h | h
    · have := hi.pages v h
      omega
    · rw [List.mem_singleton.mp h]
      omega
  · refine ⟨_, rfl, fun i hlt => storeBytes_lastByte ?_⟩
    simp only [VfsNode.reallocData, hdata]
    by_cases hold : i < n.st.blocks * frameSize
    · rw [if_pos hold, hi.hole_old hold, hbytes i hold]
    · have hnone : lastByte ws i = none := lastByte_eq_none fun v hv => by
        have := Write.stop_lt (hi.pages v hv)
        omega
      rw [if_neg hold, hnone, hi.hole_new (by omega) hlt]
      rfl

theorem FileInv.stays (hi : FileInv ws n) (hg : w.page < n.st.blocks) :
    ∃ d, n.grow w.fresh w.stop = some n ∧ n.data = some d ∧
      FileInv (ws ++ [w]) { n with data := some (storeBytes d w.offset w.buff) } := by
  obtain ⟨d, hdata, hbytes⟩ := hi.data
  have hb := hi.blocks
  have hgrown : lastGrowth (ws ++ [w]) = lastGrowth ws := by
    rw [lastGrowth_concat, if_neg (by omega)]
  refine ⟨d, VfsNode.grow_stays hg, hdata, ?_⟩
  constructor
  · exact hi.unlocked
  · rw [hgrown]
    exact hi.blocks
  · rw [hgrown]
    exact hi.size
  · intro v hv
    rcases List.mem_append.mp hv with h | h
    · exact hi.pages v h
    · rw [List.mem_singleton.mp h]
      exact hg
  · refine ⟨_, rfl, fun i hlt => storeBytes_lastByte ?_⟩
    rw [hi.hole_old hlt, hbytes i hlt]

theorem tmpfsWrite_eq {n' : VfsNode} {d : Mem} (hl : n.locked = false) (hw : w.stop < 2 ^ 64)
    (hg : n.grow w.fresh w.stop = some n') (hd : n'.data = some d) :
    tmpfsWrite n w.fresh w.buff w.offset = some (readResult w.buff.length,
      { n' with data := some (storeBytes d w.offset w.buff) }) := by
  have hstop : (w.offset + w.buff.length) % 2 ^ 64 = w.stop := Nat.mod_eq_of_lt hw
  simp only [tmpfsWrite, lockedWrite, hl, hstop, hg, Option.bind_eq_bind, Option.bind_some, hd,
    Bool.false_eq_true, if_false]
  rfl

/-- A write changes nothing but the buffer and the sizes. -/
theorem tmpfsWrite_fields {n' : VfsNode} {fresh : Mem} {buff : List Byte} {offset : Nat} {ret : Int}
    (h : tmpfsWrite n fresh buff offset = some (ret, n')) :
    ∃ data st, n' = { n with data := data, st := st } ∧ st.mode = n.st.mode := by
  rw [tmpfsWrite, lockedWrite] at h
  split at h
  · cases h
  · obtain ⟨n₁, hgrow, h⟩ := Option.bind_eq_some_iff.mp h
    obtain ⟨⟨data, blocks, size⟩, -, rfl⟩ := Option.map_eq_some_iff.mp hgrow
    obtain ⟨n₂, hcopy, h⟩ := Option.bind_eq_some_iff.mp h
    cases h
    cases data with
    | some d =>
        cases hcopy
        exact ⟨_, _, rfl, rfl⟩
    | none =>
        obtain ⟨-, heq⟩ := Option.ite_none_right_eq_some.mp hcopy
        cases heq
        exact ⟨_, _, rfl, rfl⟩

/-- One write returns and keeps track of the bytes. -/
theorem FileInv.write (hi : FileInv ws n) (hw : w.stop < 2 ^ 63) :
    ∃ n', tmpfsWrite n w.fresh w.buff w.offset = some (readResult w.buff.length, n') ∧
      FileInv (ws ++ [w]) n' := by
  rcases Nat.lt_or_ge w.page n.st.blocks with hg | hg
  · obtain ⟨d, hgrow, hd, hinv⟩ := hi.stays hg
    exact ⟨_, tmpfsWrite_eq hi.unlocked (by omega) hgrow hd, hinv⟩
  · obtain ⟨n', d, hgrow, hd, hinv⟩ := hi.grows hw hg
    exact ⟨_, tmpfsWrite_eq hi.unlocked (by omega) hgrow hd, hinv⟩

theorem FileInv.writes {ws' : List Write} (hi : FileInv ws n) (hw : ∀ w ∈ ws', w.stop < 2 ^ 63) :
    ∃ n', n.writes ws' = some n' ∧ FileInv (ws ++ ws') n' := by
  induction ws' generalizing ws n with
  | nil => exact ⟨n, rfl, by rwa [List.append_nil]⟩
  | cons w ws' ih =>
      obtain ⟨n₁, hstep, hinv⟩ := hi.write (hw w List.mem_cons_self)
      obtain ⟨n', hrun, hinv'⟩ := ih hinv fun v hv => hw v (List.mem_cons_of_mem _ hv)
      refine ⟨n', ?_, by rwa [List.append_assoc] at hinv'⟩
      simp [VfsNode.writes, hstep, hrun]

theorem FileInv.size_le (hi : FileInv ws n) : n.st.size ≤ n.st.blocks * frameSize := by
  rw [hi.size, hi.blocks]
  cases lastGrowth ws with
  | none => exact Nat.le_mul_of_pos_left _ (Nat.succ_pos _)
  | some g => exact Nat.le_of_lt (Write.stop_lt (Nat.lt_succ_self _))

/-- A read that starts inside the file stops at its end. -/
theorem readCount_eq {f : File} {count offset : Nat} (hsize : f.size < 2 ^ 64)
    (hstart : offset ≤ f.size) : f.readCount count offset = min (offset + count) f.size - offset := by
  rw [File.readCount, sub64_of_le hstart hsize]
  split <;> omega

theorem readResult_eq {k : Nat} (h : k < 2 ^ 31) : readResult k = k := by
  rw [readResult, BitVec.toInt_eq_toNat_of_lt]
  · rw [BitVec.toNat_ofNat, Nat.mod_eq_of_lt (by omega)]
  · rw [BitVec.toNat_ofNat, Nat.mod_eq_of_lt (by omega)]
    omega

theorem tmpfsRead_eq {d : Mem} (hl : n.locked = false) (hd : n.data = some d) (count offset : Nat) :
    ∃ n', tmpfsRead n count offset = some (readResult ((⟨n.st.size, d⟩ : File).readCount count offset),
      (⟨n.st.size, d⟩ : File).read count offset, n') := by
  simp only [tmpfsRead, File.tmpfsRead, hl, hd, Option.isSome_some, Bool.true_or, Bool.false_eq_true, if_false,
    if_true, Option.getD_some]
  exact ⟨_, rfl⟩

end Inv

theorem sIsDir_of_sIsReg {mode : Nat} (h : sIsReg mode = true) : sIsDir mode = false := by
  rw [sIsReg, beq_iff_eq] at h
  rw [sIsDir, h]
  rfl

theorem vfsCreateNode_new {v v' : Vfs} {parent : Option Nat} {name : List Byte} {fs : Option FsKind}
    {n : Nat} (hc : vfsCreateNode v parent name fs false = some (n, v')) :
    v'.node n = newNode name (parent <|> v.root) fs false := by
  unfold vfsCreateNode at hc
  cases hp : (parent <|> v.root) with
  | none =>
      simp only [hp] at hc
      cases hc
      simp
  | some p =>
      simp only [hp, Vfs.setChild] at hc
      by_cases hpn : p = v.count
      · rw [hpn] at hc
        simp [newNode] at hc
      · simp only [Function.update_of_ne hpn] at hc
        cases hch : (v.node p).children with
        | none =>
            rw [hch] at hc
            cases hc
        | some c =>
            rw [hch] at hc
            cases hc
            simp [Vfs.modify, Function.update_of_ne (Ne.symm hpn)]

theorem fileInv_init {node : VfsNode} {mode : Nat} (hm : sIsReg mode = true) (m : Mem) (ino : Nat)
    (hl : node.locked = false) : FileInv [] (node.initTmpfs mode m ino) := by
  refine ⟨hl, rfl, rfl, fun w hw => (List.not_mem_nil hw).elim, _, if_pos hm, ?_⟩
  intro i hi
  have hlt : i < frameSize := by simpa [VfsNode.initTmpfs] using hi
  simp only [zeroed, if_pos hlt, lastByte, holeByte, Option.getD_none]

theorem tmpfsCreate_node {v v' : Vfs} {parent : Option Nat} {name : List Byte} {mode n : Nat}
    (hm : sIsReg mode = true) (hc : tmpfsCreate v parent name mode = some (n, v')) :
    ∃ m ino, v'.node n = (newNode name (parent <|> v.root) (some .tmpfs) false).initTmpfs mode m ino := by
  unfold tmpfsCreate at hc
  rw [sIsDir_of_sIsReg hm] at hc
  cases hn : vfsCreateNode v parent name (some .tmpfs) false with
  | none =>
      rw [hn] at hc
      cases hc
  | some r =>
      obtain ⟨n₁, v₁⟩ := r
      have hnew := vfsCreateNode_new hn
      simp only [hn, Option.bind_eq_bind, Option.bind_some] at hc
      cases hc
      simp only [Vfs.modify, Function.update_self, hnew]
      exact ⟨_, _, rfl⟩

/-- A new regular file. -/
theorem tmpfsCreate_file {v v' : Vfs} {parent : Option Nat} {name : List Byte} {mode n : Nat}
    (hm : sIsReg mode = true) (hc : tmpfsCreate v parent name mode = some (n, v')) :
    FileInv [] (v'.node n) := by
  obtain ⟨m, ino, hnode⟩ := tmpfsCreate_node hm hc
  rw [hnode]
  exact fileInv_init hm m ino rfl

/-! ### Files and byte files -/

theorem posixSize_lt {ws : List Write} {b : Nat} (hb : 0 < b) (h : ∀ w ∈ ws, w.stop < b) :
    posixSize ws < b := by
  induction ws with
  | nil => exact hb
  | cons w ws ih =>
      have hrest := ih fun v hv => h v (List.mem_cons_of_mem _ hv)
      rw [posixSize]
      split
      · exact hrest
      · exact max_lt (h w List.mem_cons_self) hrest

section Posix
variable {ws : List Write} {n : VfsNode} {count offset : Nat}

theorem FileInv.size_eq_iff (hi : FileInv ws n) :
    n.st.size = posixSize ws ↔ ∃ w, lastGrowth ws = some w ∧ w.stop = posixSize ws := by
  have hs := hi.size
  cases hg : lastGrowth ws with
  | none =>
      -- Without a growth every write ends inside the first block.
      have hb := hi.blocks
      rw [hg] at hs hb
      have hlt : posixSize ws < frameSize := posixSize_lt (by decide) fun w hw => by
        have := Write.stop_lt (hi.pages w hw)
        rwa [hb, Option.elim, Nat.zero_add, Nat.one_mul] at this
      constructor
      · intro h
        rw [hs, Option.elim] at h
        omega
      · rintro ⟨w, hw, -⟩
        cases hw
  | some g =>
      rw [hg] at hs
      rw [hs]
      constructor
      · exact fun h => ⟨g, rfl, h⟩
      · rintro ⟨w, hw, hstop⟩
        cases hw
        exact hstop

theorem FileInv.posix_of_when (hi : FileInv ws n) (hsize : n.st.size < 2 ^ 31)
    (h : PosixWhen ws count offset) : PosixFile ws n count offset := by
  have heq := hi.size_eq_iff.mpr h.grown
  obtain ⟨d, hdata, hbytes⟩ := hi.data
  obtain ⟨n', hread⟩ := tmpfsRead_eq hi.unlocked hdata count offset
  have hcount : (⟨n.st.size, d⟩ : File).readCount count offset =
      min (offset + count) (posixSize ws) - offset := by
    rcases h.start with rfl | hstart
    · rw [File.readCount, if_neg (Nat.not_lt_zero _)]
      omega
    · rw [← heq]
      exact readCount_eq (by simp only; omega) (by rwa [← heq] at hstart)
  refine ⟨heq, n', ?_⟩
  rw [hread, File.read, hcount, posixRead, List.length_map, List.length_range,
    readResult_eq (by omega)]
  congr 3
  apply List.map_congr_left
  intro i hin
  have hlt := List.mem_range.mp hin
  have hle := hi.size_le
  have hbyte := hbytes (offset + i) (by omega)
  show d (offset + i) = _
  rw [hbyte]
  cases hb : lastByte ws (offset + i) with
  | none => rw [h.holes (offset + i) (by omega) (by omega) hb]
  | some b => rfl

theorem FileInv.when_of_posix (hi : FileInv ws n) (hsize : n.st.size < 2 ^ 31) (ho : offset < 2 ^ 64)
    (h : PosixFile ws n count offset) : PosixWhen ws count offset := by
  obtain ⟨d, hdata, hbytes⟩ := hi.data
  obtain ⟨n', hread⟩ := tmpfsRead_eq hi.unlocked hdata count offset
  obtain ⟨n'', hposix⟩ := h.read
  have hsz := h.size
  rw [hread] at hposix
  have hlist : (⟨n.st.size, d⟩ : File).read count offset = posixRead ws count offset := by
    simp only [Option.some.injEq, Prod.mk.injEq] at hposix
    exact hposix.2.1
  have hcount : (⟨n.st.size, d⟩ : File).readCount count offset =
      min (offset + count) (posixSize ws) - offset := by
    simpa [File.read, posixRead] using congrArg List.length hlist
  refine ⟨hi.size_eq_iff.mp hsz, ?_, ?_⟩
  · by_contra hno
    rw [not_or, Nat.not_le] at hno
    -- Past the end the difference wraps, and something is copied.
    have hmax : 0 < sub64 n.st.size offset := by
      rw [sub64, Nat.mod_eq_of_lt ho]
      omega
    simp only [File.readCount] at hcount
    split at hcount <;> omega
  · intro i hlo hhi hnone
    have hle := hi.size_le
    have hbyte := hbytes i (by omega)
    rw [File.read, posixRead, hcount] at hlist
    have hat := List.map_inj_left.mp hlist (i - offset) (List.mem_range.mpr (by omega))
    rw [Nat.add_sub_cancel' hlo, hnone] at hat
    rw [hnone] at hbyte
    exact hbyte.symm.trans hat

end Posix

/-- A new regular file stands for the byte file of the writes made to it exactly
when the last growth was the furthest write, the read starts inside the file
and the holes it covers were zero before. -/
theorem tmpfs_file_posix_iff {v v' : Vfs} {parent : Option Nat} {name : List Byte} {mode n : Nat}
    (hm : sIsReg mode = true) (hc : tmpfsCreate v parent name mode = some (n, v')) (ws : List Write)
    (hw : ∀ w ∈ ws, w.stop < 2 ^ 31) (count offset : Nat) (ho : offset < 2 ^ 64) :
    ∃ node, (v'.node n).writes ws = some node ∧
      (PosixFile ws node count offset ↔ PosixWhen ws count offset) := by
  obtain ⟨node, hrun, hinv⟩ := (tmpfsCreate_file hm hc).writes fun w hmem => (hw w hmem).trans (by decide)
  rw [List.nil_append] at hinv
  have hsize : node.st.size < 2 ^ 31 := by
    rw [hinv.size]
    cases hg : lastGrowth ws with
    | none => exact (by decide : frameSize < 2 ^ 31)
    | some g => exact hw g (lastGrowth_mem hg)
  exact ⟨node, hrun, hinv.when_of_posix hsize ho, hinv.posix_of_when hsize⟩

/-- No nodes yet, and a heap whose memory is zero. -/
def bareVfs : Vfs := noVfs fun _ _ => 0

def hello : List Byte := ofChars ['h', 'e', 'l', 'l', 'o']

/-- A first file, before anything is written to it. -/
def emptyFile : VfsNode :=
  { newNode hello none (some .tmpfs) false with
    data := some (zeroed (fun _ => 0) frameSize)
    st := ⟨frameSize, frameSize, 1, sIfreg, 1, 0⟩ }

theorem bareVfs_create :
    ∃ v, tmpfsCreate bareVfs none hello sIfreg = some (0, v) ∧ v.node 0 = emptyFile := by
  refine ⟨_, rfl, rfl⟩

/-- Five bytes into the second block, read back from there. -/
theorem second_block_read_back :
    ∃ node, emptyFile.writes [⟨hello, 4096, fun _ => 0⟩] = some node ∧
      PosixFile [⟨hello, 4096, fun _ => 0⟩] node 9 4096 := by
  obtain ⟨v, hc, hv⟩ := bareVfs_create
  obtain ⟨node, hrun, hiff⟩ := tmpfs_file_posix_iff (by decide) hc
    [⟨hello, 4096, fun _ => 0⟩] (by decide) 9 4096 (by decide)
  rw [hv] at hrun
  refine ⟨node, hrun, hiff.mpr ⟨⟨_, rfl, rfl⟩, by decide, ?_⟩⟩
  intro i _ _ _
  simp only [holeByte, List.find?]
  split
  · rfl
  · split <;> rfl

/-- Five bytes at the start of a new file leave its size at a whole block. -/
theorem short_file_keeps_block_size :
    ∃ v node, tmpfsCreate bareVfs none hello sIfreg = some (0, v) ∧
      (v.node 0).writes [⟨hello, 0, fun _ => 0⟩] = some node ∧ node.st.size = 4096 ∧
      posixSize [⟨hello, 0, fun _ => 0⟩] = 5 ∧ ¬ PosixFile [⟨hello, 0, fun _ => 0⟩] node 9 0 := by
  refine ⟨_, _, rfl, rfl, rfl, rfl, ?_⟩
  intro h
  exact absurd h.size (by decide)

end Flan.Fs
