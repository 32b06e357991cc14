import Flan.Sys.Openings

/-! Reading and seeking on one descriptor, over any sequence of `syscall_read` and
`syscall_seek` of `sys/syscalls/syscalls.c`. The position of a descriptor is the `int` field
`offset` of its node: seeks compute it in 64 bits, and `tmpfs_read` advances it. -/
namespace Flan.Sys
open Flan.Lib Flan.Fs Flan.Memory

/-! ### Calls on a descriptor -/

namespace Files

/-- The node behind a pointer with another position. -/
def seekTo (s : Files) (p : NodePtr) (o : Int) : Files := s.store p fun n => { n with offset := o }

/-- The position of a node as `tmpfs_read` takes it. -/
def position (s : Files) (p : NodePtr) : Nat := (BitVec.ofInt 64 (s.load p).offset).toNat

end Files

/-- A call on a descriptor. -/
inductive IoCall where
  | read (count : Nat)
  | seek (offset : BitVec 64) (whence : BitVec 32)

namespace IoCall
variable (abi : Abi) (fd : BitVec 32)

/-- The result, the bytes copied and the state after a call. -/
def exec (s : Files) : IoCall → Option (Int × List Byte × Files)
  | .read count => s.syscallRead abi fd count
  | .seek offset whence => (s.syscallSeek abi fd offset whence).map fun r => (r.1, [], r.2)

def next (s : Files) (c : IoCall) : Files := (c.exec abi fd s).elim s fun r => r.2.2

/-- The positions of the file that a call copies. -/
def positions (s : Files) (p : NodePtr) : IoCall → List Nat
  | .read count =>
      (⟨(s.load p).st.size, (s.load p).data.getD fun _ => 0⟩ : File).positions count (s.position p)
  | .seek _ _ => []

end IoCall

section Node
variable {abi : Abi} {s s' : Files} {fd : BitVec 32} {p : NodePtr} {count : Nat} {ret : Int} {bytes : List Byte}

/-! ### The node behind a descriptor -/

/-- When `fd_to_node` gives a node: the working directory, or a slot of a table whose lock
is free. -/
theorem fdToNode_eq_some_iff : s.fdToNode abi fd = some (some p, s) ↔
    (fd = abi.atFdcwd ∧ s.cwd.map .tree = some p) ∨
      (fd ≠ abi.atFdcwd ∧ s.fildes.lock = false ∧ (fd.signExtend 64).toNat < s.fildes.items ∧
        NodePtr.slot (fd.signExtend 64).toNat = p) := by
  unfold Files.fdToNode
  by_cases hcwd : fd = abi.atFdcwd
  · simp [hcwd]
  · unfold vectorGet
    cases hl : s.fildes.lock with
    | true => simp [hcwd]
    | false =>
        by_cases hlt : (fd.signExtend 64).toNat < s.fildes.items
        · simp [hcwd, hlt, Nat.not_le.mpr hlt]
        · simp [hcwd, hlt, Nat.le_of_not_lt hlt]

@[simp] theorem load_seekTo (s : Files) (p : NodePtr) (o : Int) :
    (s.seekTo p o).load p = { s.load p with offset := o } := by
  cases p with
  | tree n => exact Function.update_self ..
  | slot k => simp only [Files.seekTo, Files.store, Files.load, Function.update_self]

theorem fdToNode_seekTo (h : s.fdToNode abi fd = some (some p, s)) (o : Int) :
    (s.seekTo p o).fdToNode abi fd = some (some p, s.seekTo p o) := by
  rw [fdToNode_eq_some_iff] at h ⊢
  obtain ⟨htable, hlock⟩ := store_table s p fun n => { n with offset := o }
  have hcwd : (s.seekTo p o).cwd = s.cwd := by
    cases p with
    | tree n => rfl
    | slot k => rfl
  rwa [hcwd, show (s.seekTo p o).fildes.lock = _ from hlock, show (s.seekTo p o).fildes.items = _ from htable.items]

theorem syscallSeek_eq (hfd : s.fdToNode abi fd = some (some p, s)) (offset : BitVec 64) (whence : BitVec 32) :
    s.syscallSeek abi fd offset whence = (s.seekOffset abi (some p) offset whence).map fun newOff =>
      newOff.elim (-1, s) fun o => if o < 0 then (-1, s) else (o, s.seekTo p (BitVec.ofInt 32 o).toInt) := by
  unfold Files.syscallSeek
  rw [hfd]
  simp only [Option.bind_eq_bind, Option.bind_some]
  cases s.seekOffset abi (some p) offset whence with
  | none => rfl
  | some newOff =>
      cases newOff with
      | none => rfl
      | some o => exact (apply_ite some _ _ _).symm

theorem syscallRead_eq (hfd : s.fdToNode abi fd = some (some p, s)) (count : Nat) :
    s.syscallRead abi fd count = s.vfsRead p count := by
  unfold Files.syscallRead
  rw [hfd]
  rfl

/-- A seek fails and changes nothing, or it returns the new position and stores it as an
`int`. -/
theorem seek_cases (hfd : s.fdToNode abi fd = some (some p, s)) {offset : BitVec 64} {whence : BitVec 32}
    (h : s.syscallSeek abi fd offset whence = some (ret, s')) :
    (ret = -1 ∧ s' = s) ∨ (0 ≤ ret ∧ s' = s.seekTo p (BitVec.ofInt 32 ret).toInt) := by
  rw [syscallSeek_eq hfd] at h
  obtain ⟨newOff, -, h⟩ := Option.map_eq_some_iff.mp h
  cases newOff with
  | none =>
      cases h
      exact .inl ⟨rfl, rfl⟩
  | some newOff =>
      dsimp only [Option.elim] at h
      split at h
      case isTrue =>
        cases h
        exact .inl ⟨rfl, rfl⟩
      case isFalse hpos =>
        cases h
        exact .inr ⟨Int.not_lt.mp hpos, rfl⟩

/-- A read copies nothing and leaves the position alone, or it adds what it has copied. -/
theorem read_cases (hfd : s.fdToNode abi fd = some (some p, s))
    (h : s.syscallRead abi fd count = some (ret, bytes, s')) :
    (bytes = [] ∧ s' = s) ∨ s' = s.seekTo p (BitVec.ofInt 32 ((s.load p).offset + bytes.length)).toInt := by
  rw [syscallRead_eq hfd] at h
  obtain ⟨fs, -, h⟩ := Option.bind_eq_some_iff.mp h
  cases fs with
  | ext2fs =>
      cases h
      exact .inl ⟨rfl, rfl⟩
  | tmpfs =>
      obtain ⟨r, hread, h⟩ := Option.bind_eq_some_iff.mp h
      cases h
      obtain ⟨copy, hcopy, rfl⟩ := Option.map_eq_some_iff.mp hread
      obtain ⟨-, hsource⟩ := Option.ite_none_left_eq_some.mp hcopy
      obtain ⟨-, hbytes⟩ := Option.ite_none_right_eq_some.mp hsource
      cases hbytes
      refine .inr ?_
      rw [File.read, List.length_map, List.length_range]
      rfl

end Node

/-! ### Regular files -/

/-- A file of tmpfs with a buffer, which nobody holds the lock of. -/
structure RegularFile (n : VfsNode) : Prop where
  fs : n.fs = some .tmpfs
  data : n.data.isSome
  size : n.st.size < 2 ^ 63
  unlocked : n.locked = false

/-- A descriptor of a regular file. -/
structure FileAt (abi : Abi) (fd : BitVec 32) (p : NodePtr) (s : Files) : Prop where
  fd : s.fdToNode abi fd = some (some p, s)
  file : RegularFile (s.load p)

theorem writes_fs {n n' : VfsNode} {ws : List Write} (h : n.writes ws = some n') : n'.fs = n.fs := by
  induction ws generalizing n with
  | nil =>
      cases h
      rfl
  | cons w ws ih =>
      obtain ⟨⟨ret, n₁⟩, hw, hrest⟩ := Option.bind_eq_some_iff.mp h
      rw [ih (n := n₁) hrest]
      obtain ⟨data, st, rfl, -⟩ := tmpfsWrite_fields hw
      rfl

/-- What `tmpfs_create` and writes make of a regular file. -/
theorem regularFile_of_writes {v v' : Vfs} {parent : Option Nat} {name : List Byte} {mode n : Nat}
    (hm : sIsReg mode = true) (hc : tmpfsCreate v parent name mode = some (n, v')) {ws : List Write}
    (hstop : ∀ w ∈ ws, w.stop < 2 ^ 63) {node : VfsNode} (hw : (v'.node n).writes ws = some node) :
    RegularFile node := by
  obtain ⟨node', hw', hinv⟩ := (tmpfsCreate_file hm hc).writes hstop
  rw [hw] at hw'
  cases hw'
  obtain ⟨m, ino, hnew⟩ := tmpfsCreate_node hm hc
  obtain ⟨d, hdata, -⟩ := hinv.data
  refine ⟨?_, Option.isSome_of_mem hdata, ?_, hinv.unlocked⟩
  · rw [writes_fs hw, hnew]
    rfl
  · rw [hinv.size]
    cases hg : lastGrowth ([] ++ ws) with
    | none => exact (by decide : frameSize < 2 ^ 63)
    | some g => exact hstop g (lastGrowth_mem hg)

section File
variable {abi : Abi} {fd : BitVec 32} {p : NodePtr} {s s' : Files} {d : Mem} {c : IoCall} {count : Nat}

theorem RegularFile.seek {n : VfsNode} (h : RegularFile n) (o : Int) : RegularFile { n with offset := o } :=
  ⟨h.fs, h.data, h.size, h.unlocked⟩

theorem FileAt.seekTo (h : FileAt abi fd p s) (o : Int) : FileAt abi fd p (s.seekTo p o) :=
  ⟨fdToNode_seekTo h.fd o, by rw [load_seekTo]; exact h.file.seek o⟩

/-- A read of a regular file returns, with the bytes at the positions it copies. -/
theorem FileAt.read (h : FileAt abi fd p s) (hd : (s.load p).data = some d) (count : Nat) :
    s.syscallRead abi fd count = some
      (readResult ((⟨(s.load p).st.size, d⟩ : File).readCount count (s.position p)),
        (⟨(s.load p).st.size, d⟩ : File).read count (s.position p),
        s.seekTo p (BitVec.ofInt 32 ((s.load p).offset +
          (⟨(s.load p).st.size, d⟩ : File).readCount count (s.position p))).toInt) := by
  rw [syscallRead_eq h.fd]
  unfold Files.vfsRead tmpfsRead File.tmpfsRead
  simp only [h.file.fs, h.file.unlocked, hd, Option.bind_eq_bind, Option.bind_some, Bool.false_eq_true,
    if_false, Option.isSome_some, Bool.true_or, if_true, Option.getD_some, Option.map_some]
  rfl

/-- Every call on a descriptor of a regular file returns, with the bytes at the positions it
copies, and it is a descriptor of that file still. -/
theorem FileAt.exec (h : FileAt abi fd p s) (c : IoCall) :
    ∃ ret d s', (s.load p).data = some d ∧ c.exec abi fd s = some (ret, (c.positions s p).map d, s') ∧
      FileAt abi fd p s' := by
  obtain ⟨d, hd⟩ := Option.isSome_iff_exists.mp h.file.data
  cases c with
  | read count =>
      have hread := h.read hd count
      have hpos : (IoCall.read count).positions s p =
          (⟨(s.load p).st.size, d⟩ : File).positions count (s.position p) := by
        rw [IoCall.positions, hd, Option.getD_some]
      rw [File.read_positions, ← hpos] at hread
      exact ⟨_, d, _, hd, hread, h.seekTo _⟩
  | seek offset whence =>
      have hsome : (s.syscallSeek abi fd offset whence).isSome := by
        rw [syscallSeek_eq h.fd, Option.isSome_map]
        unfold Files.seekOffset
        split_ifs <;> rfl
      obtain ⟨⟨ret, s'⟩, hseek⟩ := Option.isSome_iff_exists.mp hsome
      refine ⟨ret, d, s', hd, ?_, ?_⟩
      · rw [IoCall.exec, hseek]
        rfl
      · rcases seek_cases h.fd hseek with ⟨-, rfl⟩ | ⟨-, rfl⟩
        · exact h
        · exact h.seekTo _

theorem FileAt.next (h : FileAt abi fd p s) (c : IoCall) : FileAt abi fd p (c.next abi fd s) := by
  obtain ⟨ret, d, s', -, hexec, hs'⟩ := h.exec c
  rw [IoCall.next, hexec]
  exact hs'

end File

/-! ### Reads inside the file -/

namespace IoCall

/-- The call returns, and the bytes it gives are those at its positions. -/
def Copies (abi : Abi) (fd : BitVec 32) (p : NodePtr) (s : Files) (c : IoCall) : Prop :=
  ∃ ret d s', (s.load p).data = some d ∧ c.exec abi fd s = some (ret, (c.positions s p).map d, s')

def Inside (p : NodePtr) (s : Files) (c : IoCall) : Prop :=
  ∀ x ∈ c.positions s p, x < (s.load p).st.size

/-- A read of at least one byte starts at the end of the file or before it. -/
def StartsInside (p : NodePtr) (s : Files) : IoCall → Prop
  | .read count => count = 0 ∨ s.position p ≤ (s.load p).st.size
  | .seek _ _ => True

end IoCall

section Inside
variable {abi : Abi} {fd : BitVec 32} {p : NodePtr} {s : Files}

/-- Past the end the number of bytes that are left wraps, and something is copied. -/
theorem readCount_pos {f : File} {count offset : Nat} (hcount : 0 < count) (hoffset : offset < 2 ^ 64)
    (hpast : f.size < offset) : 0 < f.readCount count offset := by
  have hmax : 0 < sub64 f.size offset := by
    rw [sub64, Nat.mod_eq_of_lt hoffset]
    omega
  unfold File.readCount
  dsimp only
  split
  · exact hmax
  · exact hcount

theorem File.inside_iff {f : File} (hsize : f.size < 2 ^ 64) {count offset : Nat} (hoffset : offset < 2 ^ 64) :
    (∀ x ∈ f.positions count offset, x < f.size) ↔ count = 0 ∨ offset ≤ f.size := by
  constructor
  · intro h
    by_contra hno
    rw [not_or, Nat.not_le] at hno
    have hpos := readCount_pos (Nat.pos_of_ne_zero hno.1) hoffset hno.2
    have hfirst := h (offset + 0) (List.mem_map_of_mem (List.mem_range.mpr hpos))
    omega
  · intro h x hx
    obtain ⟨i, hi, rfl⟩ := List.mem_map.mp hx
    have hlt := List.mem_range.mp hi
    rcases h with rfl | h
    · unfold File.readCount at hlt
      dsimp only at hlt
      rw [if_neg (Nat.not_lt_zero _)] at hlt
      exact absurd hlt (Nat.not_lt_zero i)
    · rw [readCount_eq hsize h] at hlt
      omega

theorem FileAt.inside_iff (h : FileAt abi fd p s) (c : IoCall) : c.Inside p s ↔ c.StartsInside p s := by
  cases c with
  | read count => exact File.inside_iff (h.file.size.trans (by decide)) (BitVec.isLt _)
  | seek offset whence => exact iff_of_true (fun x hx => absurd hx List.not_mem_nil) trivial

/-- Calls on a descriptor of a regular file copy from inside the file exactly if no read of
at least one byte starts past its end. -/
theorem reads_stay_inside_iff (h : FileAt abi fd p s) (cs : List IoCall) :
    AllSteps (IoCall.next abi fd) (IoCall.Copies abi fd p) s cs ∧
      (AllSteps (IoCall.next abi fd) (IoCall.Inside p) s cs ↔
        AllSteps (IoCall.next abi fd) (IoCall.StartsInside p) s cs) := by
  have hkeep : ∀ s c, FileAt abi fd p s → FileAt abi fd p (IoCall.next abi fd s c) := fun _ c h => h.next c
  refine ⟨allSteps_of_inv hkeep ?_ h cs, ?_, ?_⟩
  · intro s c h
    obtain ⟨ret, d, s', hd, hexec, -⟩ := h.exec c
    exact ⟨ret, d, s', hd, hexec⟩
  · exact AllSteps.mono hkeep (fun s c h => (h.inside_iff c).mp) h
  · exact AllSteps.mono hkeep (fun s c h => (h.inside_iff c).mpr) h

end Inside

/-- The file `a/b` of `Fs.Resolve`. -/
def fileB : VfsNode :=
  { newNode pathB (some 4) (some .tmpfs) false with
    data := some (zeroed (fun _ => 0) frameSize)
    st := ⟨frameSize, frameSize, 1, sIfreg, 1, 2⟩ }

/-- That file opened as descriptor 0. -/
def fileFiles : Files :=
  { treeFiles with
    fildes.slot := Function.update newFiles.fildes.slot 0 ⟨fileB, some 7⟩
    currentFilde := 1 }

theorem fileFiles_opened : treeFiles.syscallOpenat linuxAbi heapAddr (-100) (pathA ++ slash :: pathB) 0 none =
    some (0, fileFiles) := by
  have hfirst : CanOpen linuxAbi heapAddr treeFiles 0 [⟨-100, pathA ++ slash :: pathB, 0⟩] :=
    CanOpen.left treeFiles_canOpen
  have hcall := hfirst.call
  have hres : treeFiles.resolved ⟨-100, pathA ++ slash :: pathB, 0⟩ = some 7 := by decide +kernel
  have hnode : treeFiles.v.node 7 = fileB := by rfl
  rw [found_single, hres, Option.toList_some, Files.opening, Files.opening, Files.withOpen, hnode] at hcall
  exact hcall

theorem fileFiles_at : FileAt linuxAbi 0 (.slot 0) fileFiles := by
  refine ⟨fdToNode_eq_some_iff.mpr (.inr ⟨by decide, rfl, ?_, rfl⟩), ⟨rfl, rfl, ?_, rfl⟩⟩
  · decide
  · decide

/-- The last hundred bytes, and nothing at the end. -/
theorem reads_at_end_inside : AllSteps (IoCall.next linuxAbi 0) (IoCall.Inside (.slot 0)) fileFiles
    [.seek 3996 0, .read 200, .read 200] := by
  refine (reads_stay_inside_iff fileFiles_at _).2.mpr ⟨trivial, .inr ?_, .inr ?_, trivial⟩
  · decide
  · decide

/-- A byte past the end of a file of one block. -/
theorem read_past_end_leaves_file :
    treeFiles.syscallOpenat linuxAbi heapAddr (-100) (pathA ++ slash :: pathB) 0 none = some (0, fileFiles) ∧
    FileAt linuxAbi 0 (.slot 0) fileFiles ∧ (fileFiles.load (.slot 0)).st.size = 4096 ∧
    IoCall.positions ((IoCall.seek 5000 0).next linuxAbi 0 fileFiles) (.slot 0) (.read 1) = [5000] ∧
    ¬ AllSteps (IoCall.next linuxAbi 0) (IoCall.Inside (.slot 0)) fileFiles [.seek 5000 0, .read 1] := by
  refine ⟨fileFiles_opened, fileFiles_at, rfl, ?_, ?_⟩
  · decide
  · rintro ⟨-, hread, -⟩
    exact absurd (hread 5000 (by decide)) (by decide)

/-! ### Sequential reads -/

/-- Reads one after the other: results and bytes of each. -/
def Files.readAll (abi : Abi) (fd : BitVec 32) : Files → List Nat → Option (List (Int × List Byte) × Files)
  | s, [] => some ([], s)
  | s, count :: counts => do
      let (ret, bytes, s) ← s.syscallRead abi fd count
      let (reads, s) ← s.readAll abi fd counts
      return ((ret, bytes) :: reads, s)

section Sequential
variable {abi : Abi} {fd : BitVec 32} {p : NodePtr} {s : Files} {d : Mem} {o count : Nat}

/-- One read from a position inside a file that `int` can measure. -/
theorem FileAt.read_inside (h : FileAt abi fd p s) (hd : (s.load p).data = some d) (ho : (s.load p).offset = o)
    (hle : o ≤ (s.load p).st.size) (hsize : (s.load p).st.size < 2 ^ 31) {k : Nat}
    (hk : k = min (o + count) (s.load p).st.size - o) :
    s.syscallRead abi fd count = some ((k : Int), bytesAt d o k, s.seekTo p (o + k : Nat)) := by
  have hpos : s.position p = o := by
    rw [Files.position, ho, BitVec.ofInt_natCast, BitVec.toNat_ofNat]
    exact Nat.mod_eq_of_lt (by omega)
  have hcount : (⟨(s.load p).st.size, d⟩ : File).readCount count o = k := by
    rw [hk]
    exact readCount_eq (hsize.trans (by decide)) hle
  have hint : (BitVec.ofInt 32 ((o + k : Nat) : Int)).toInt = (o + k : Nat) := by
    rw [BitVec.ofInt_natCast]
    exact readResult_eq (by omega)
  rw [h.read hd, hpos, hcount, File.read, hcount, ho, readResult_eq (by omega), ← Int.natCast_add, hint]
  rfl

/-- What two reads give is what one read of both counts gives. -/
theorem remaining_add {size rest k : Nat} (hk : k = min (o + count) size - o) (hle : o ≤ size) :
    min (o + (count + rest)) size - o = k + (min (o + k + rest) size - (o + k)) := by
  omega

/-- The bytes of sequential reads are the file from the position on, each read returns how
many it has got, and the position moves by all of them. -/
theorem sequential_reads_concatenate (h : FileAt abi fd p s) (hd : (s.load p).data = some d)
    (ho : (s.load p).offset = o) (hle : o ≤ (s.load p).st.size) (hsize : (s.load p).st.size < 2 ^ 31)
    (counts : List Nat) :
    ∃ reads s', s.readAll abi fd counts = some (reads, s') ∧
      (reads.map Prod.snd).flatten = bytesAt d o (min (o + counts.sum) (s.load p).st.size - o) ∧
      (∀ r ∈ reads, r.1 = r.2.length) ∧
      (s'.load p).offset = o + ((reads.map Prod.snd).flatten.length : Int) := by
  induction counts generalizing s o with
  | nil =>
      refine ⟨[], s, rfl, ?_, fun r hr => absurd hr List.not_mem_nil, ?_⟩
      · have hnone : min (o + [].sum) (s.load p).st.size - o = 0 := by
          rw [List.sum_nil]
          omega
        rw [hnone]
        rfl
      · exact ho.trans (Int.add_zero _).symm
  | cons count counts ih =>
      obtain ⟨k, hk⟩ : ∃ k, k = min (o + count) (s.load p).st.size - o := ⟨_, rfl⟩
      have hread := h.read_inside hd ho hle hsize hk
      have hload := load_seekTo s p (o + k : Nat)
      have hnext := h.seekTo (o + k : Nat)
      obtain ⟨reads, s', hrun, hbytes, hrets, hend⟩ := ih hnext (by rw [hload]; exact hd) (by rw [hload])
        (by rw [hload]; show o + k ≤ (s.load p).st.size; omega) (by rw [hload]; exact hsize)
      rw [hload] at hbytes
      have hlen : (bytesAt d o k).length = k := by
        rw [bytesAt, List.length_map, List.length_range]
      have htotal : min (o + (count :: counts).sum) (s.load p).st.size - o =
          k + (min (o + k + counts.sum) (s.load p).st.size - (o + k)) := by
        rw [List.sum_cons]
        exact remaining_add hk hle
      refine ⟨(k, bytesAt d o k) :: reads, s', ?_, ?_, ?_, ?_⟩
      · rw [Files.readAll, hread]
        simp only [Option.bind_eq_bind, Option.bind_some, hrun, Option.pure_def]
      · rw [List.map_cons, List.flatten_cons, hbytes, htotal, bytesAt_add]
      · exact List.forall_mem_cons.mpr ⟨congrArg Int.ofNat hlen.symm, hrets⟩
      · rw [hend, List.map_cons, List.flatten_cons, List.length_append, hlen, Int.natCast_add,
          Int.natCast_add, Int.add_assoc]

end Sequential

/-- Three reads of a file of one block, the last one at its end. -/
theorem one_block_read_in_parts : ∃ reads s', fileFiles.readAll linuxAbi 0 [3, 5000, 7] = some (reads, s') ∧
    (reads.map Prod.snd).flatten = bytesAt (zeroed (fun _ => 0) frameSize) 0 4096 ∧
    (s'.load (.slot 0)).offset = 4096 := by
  have hdata : (fileFiles.load (.slot 0)).data = some (zeroed (fun _ => 0) frameSize) := rfl
  have hle : 0 ≤ (fileFiles.load (.slot 0)).st.size := Nat.zero_le _
  obtain ⟨reads, s', hrun, hbytes, -, hend⟩ :=
    sequential_reads_concatenate fileFiles_at hdata rfl hle (by decide) [3, 5000, 7]
  have hall : min (0 + [3, 5000, 7].sum) (fileFiles.load (.slot 0)).st.size - 0 = 4096 := by decide
  rw [hall] at hbytes
  refine ⟨reads, s', hrun, hbytes, ?_⟩
  rw [hend, hbytes, bytesAt, List.length_map, List.length_range]
  rfl

/-! ### Seek and tell -/

/-- The value that seeks and reads account for: the result of the last successful seek, and
the bytes read since. -/
def IoCall.account (x : Int) (ret : Int) (bytes : List Byte) : IoCall → Int
  | .read _ => x + bytes.length
  | .seek _ _ => if ret = -1 then x else ret

/-- A sequence of calls, with the account of the position. -/
def ioRun (abi : Abi) (fd : BitVec 32) : Files → Int → List IoCall → Option (Int × Files)
  | s, x, [] => some (x, s)
  | s, x, c :: cs => do
      let (ret, bytes, s) ← c.exec abi fd s
      ioRun abi fd s (c.account x ret bytes) cs

section Tell
variable {abi : Abi} {s s' : Files} {fd : BitVec 32} {p : NodePtr} {ret x y : Int} {bytes : List Byte}
  {c : IoCall} {cs : List IoCall}

/-- The node's position is the account, as far as an `int` holds it. -/
structure Accounted (abi : Abi) (fd : BitVec 32) (p : NodePtr) (s : Files) (x : Int) : Prop where
  fd : s.fdToNode abi fd = some (some p, s)
  nonneg : 0 ≤ x
  offset : (s.load p).offset = (BitVec.ofInt 32 x).toInt

theorem Accounted.seekTo (hfd : s.fdToNode abi fd = some (some p, s)) (hx : 0 ≤ x) :
    Accounted abi fd p (s.seekTo p (BitVec.ofInt 32 x).toInt) x :=
  ⟨fdToNode_seekTo hfd _, hx, by rw [load_seekTo]⟩

theorem Accounted.step (h : Accounted abi fd p s x) (hc : c.exec abi fd s = some (ret, bytes, s')) :
    Accounted abi fd p s' (c.account x ret bytes) := by
  cases c with
  | read count =>
      rcases read_cases h.fd hc with ⟨rfl, rfl⟩ | rfl
      · rwa [IoCall.account, List.length_nil, Int.natCast_zero, Int.add_zero]
      · rw [h.offset, BitVec.ofInt_add, BitVec.ofInt_toInt, ← BitVec.ofInt_add]
        exact .seekTo h.fd (Int.add_nonneg h.nonneg (Int.natCast_nonneg _))
  | seek offset whence =>
      obtain ⟨r, hr, heq⟩ := Option.map_eq_some_iff.mp hc
      cases heq
      unfold IoCall.account
      rcases seek_cases h.fd hr with ⟨hret, hs⟩ | ⟨hret, hs⟩
      · rw [if_pos hret, hs]
        exact h
      · rw [if_neg (by omega), hs]
        exact .seekTo h.fd hret

theorem Accounted.run (h : Accounted abi fd p s x) (hrun : ioRun abi fd s x cs = some (y, s')) :
    Accounted abi fd p s' y := by
  induction cs generalizing s x with
  | nil =>
      cases hrun
      exact h
  | cons c cs ih =>
      obtain ⟨⟨ret, bytes, s₁⟩, hc, hrest⟩ := Option.bind_eq_some_iff.mp hrun
      exact ih (h.step hc) hrest

/-- `syscall_seek(fd, 0, SEEK_CUR)` returns the stored position if it is not negative. -/
theorem tell_eq (hfd : s.fdToNode abi fd = some (some p, s)) (hcur : abi.seekCur ≠ abi.seekSet) {o : BitVec 32}
    (ho : (s.load p).offset = o.toInt) :
    s.syscallSeek abi fd 0 abi.seekCur =
      some (if o.toInt < 0 then (-1, s) else (o.toInt, s.seekTo p o.toInt)) := by
  have hwide : (BitVec.ofInt 64 (o.toInt + (0 : BitVec 64).toInt)).toInt = o.toInt := by
    have hlo := BitVec.le_two_mul_toInt (x := o)
    have hhi := BitVec.two_mul_toInt_lt (x := o)
    rw [show (0 : BitVec 64).toInt = 0 from rfl, Int.add_zero, BitVec.toInt_ofInt, Int.bmod_eq_of_le] <;> omega
  rw [syscallSeek_eq hfd]
  unfold Files.seekOffset
  rw [if_neg hcur, if_pos rfl, Option.map_some, ho, hwide, Option.map_some, Option.elim_some, BitVec.ofInt_toInt]

theorem Accounted.tell_iff (h : Accounted abi fd p s x) (hcur : abi.seekCur ≠ abi.seekSet) :
    (∃ s', s.syscallSeek abi fd 0 abi.seekCur = some (x, s')) ↔ x < 2 ^ 31 := by
  have hx := h.nonneg
  rw [tell_eq h.fd hcur h.offset]
  have hhi := BitVec.two_mul_toInt_lt (x := BitVec.ofInt 32 x)
  constructor
  · rintro ⟨s', heq⟩
    split at heq
    · obtain ⟨hneg, -⟩ := Prod.mk.inj (Option.some.inj heq)
      omega
    · obtain ⟨hval, -⟩ := Prod.mk.inj (Option.some.inj heq)
      omega
  · intro hlt
    have hval : (BitVec.ofInt 32 x).toInt = x := by
      rw [BitVec.toInt_ofInt, Int.bmod_eq_of_le] <;> omega
    rw [hval, if_neg (Int.not_lt.mpr hx)]
    exact ⟨_, rfl⟩

/-- After a successful seek and any calls on the descriptor, asking for the position gives the
result of the last successful seek and the bytes read since, exactly if that fits in an
`int`; and a seek that returns -1 has changed nothing. -/
theorem seek_tell_agree_iff (hcur : abi.seekCur ≠ abi.seekSet) (hfd : s.fdToNode abi fd = some (some p, s))
    {s₁ s₂ : Files} {offset : BitVec 64} {whence : BitVec 32}
    (hseek : s.syscallSeek abi fd offset whence = some (x, s₁)) (hok : x ≠ -1)
    (hrun : ioRun abi fd s₁ x cs = some (y, s₂)) :
    ((∃ s', s₂.syscallSeek abi fd 0 abi.seekCur = some (y, s')) ↔ y < 2 ^ 31) ∧
      ∀ offset whence s', s₂.syscallSeek abi fd offset whence = some (-1, s') → s' = s₂ := by
  obtain ⟨hx, rfl⟩ := (seek_cases hfd hseek).resolve_left fun h => hok h.1
  have hacc := (Accounted.seekTo hfd hx).run hrun
  refine ⟨hacc.tell_iff hcur, fun offset whence s' h => ?_⟩
  rcases seek_cases hacc.fd h with ⟨-, hs⟩ | ⟨hpos, -⟩
  · exact hs
  · exact absurd hpos (by decide)

end Tell

/-- A seek to byte 10, a read of five bytes and a seek that fails. -/
theorem small_positions_told : ∃ s₁ s₂, fileFiles.syscallSeek linuxAbi 0 10 0 = some (10, s₁) ∧
    ioRun linuxAbi 0 s₁ 10 [.read 5, .seek (-16) 1] = some (15, s₂) ∧
    ∃ s', s₂.syscallSeek linuxAbi 0 0 1 = some (15, s') := by
  have hseek : ∃ s₁, fileFiles.syscallSeek linuxAbi 0 10 0 = some (10, s₁) ∧
      ∃ s₂, ioRun linuxAbi 0 s₁ 10 [.read 5, .seek (-16) 1] = some (15, s₂) := ⟨_, rfl, _, rfl⟩
  obtain ⟨s₁, hseek, s₂, hrun⟩ := hseek
  refine ⟨s₁, s₂, hseek, hrun, ?_⟩
  exact (seek_tell_agree_iff (by decide) fileFiles_at.fd hseek (by decide) hrun).1.mpr (by decide)

/-- A seek to 4 GiB succeeds, and the position is 0. -/
theorem far_seek_not_told : ∃ s₁ s₂, fileFiles.syscallSeek linuxAbi 0 0x100000000 0 = some (0x100000000, s₁) ∧
    s₁.syscallSeek linuxAbi 0 0 1 = some (0, s₂) := ⟨_, _, rfl, rfl⟩

end Flan.Sys
