import Flan.Proc.Process
import Flan.Sys.Fildes

/-! Which descriptors `fd_to_node` takes for open files, after calls of
`syscall_openat` by a process that `sched_process` of `proc/sched.c` made. -/
namespace Flan.Sys
open Flan.Lib Flan.Fs Flan.Memory Flan.Proc

/-! ### The source -/

/-- The values of `errno`, `EBADF` apart from the others. -/
inductive Errno where
  | ebadf
  | other (value : BitVec 32)
  deriving DecidableEq

/-- A process and its table of open files; `decode` reads a copy of a node from
the bytes of an item. The working directory is `root`, and nothing sets
`current_filde`. -/
def schedProcess (pagemap : Nat) (v : Vfs) (root : Option Nat) (heap : RawVector) (itemSize : Nat)
    (realloc : Nat × Mem) (decode : List Byte → Filde) (currentFilde : BitVec 32) : Option (Process × Files) := do
  let fildes ← (heap.vectorCreate itemSize).vectorResize maxFildes realloc
  return (freshProcess pagemap,
    ⟨v, ⟨fildes.items, fildes.itemSize, fildes.lock, fildes.data, fun i => decode (fildes.item i)⟩, root, currentFilde⟩)

namespace Files

/-- `fd_to_node`, with the thread's `errno`. -/
def fdToNodeErrno (abi : Abi) (s : Files) (errno : Errno) (fd : BitVec 32) :
    Option (Option NodePtr × Files × Errno) :=
  (s.fdToNode abi fd).map fun (node, s) => (node, s, if node.isNone then .ebadf else errno)

end Files

/-- A call of `syscall_openat`. -/
structure Openat where
  dirfd : BitVec 32
  path : List Byte
  flags : BitVec 32

/-- A sequence of calls: their results and the state after them. -/
def Files.openAll (abi : Abi) (nodeAddr : Nat → Nat) : Files → List Openat → Option (List Int × Files)
  | s, [] => some ([], s)
  | s, c :: cs => do
      let (ret, s) ← s.syscallOpenat abi nodeAddr c.dirfd c.path c.flags none
      let (rets, s) ← s.openAll abi nodeAddr cs
      return (ret :: rets, s)

/-- The results of the calls that succeeded. -/
def opened (rets : List Int) : List Int := rets.filter (· ≠ -1)

/-- `fd_to_node` finds a node for the working directory and the opened files only,
and reports `EBADF` for the others. -/
def Files.NamesOpened (abi : Abi) (s : Files) (rets : List Int) (fd : BitVec 32) : Prop :=
  ∀ errno, ∃ node s' errno', s.fdToNodeErrno abi errno fd = some (node, s', errno') ∧
    (node.isSome ↔ fd = abi.atFdcwd ∨ fd.toInt ∈ opened rets) ∧
    (node = none → errno' = .ebadf)

/-! ### The table after some openings -/

/-- The table when `k` files have been opened; its lock may be held. -/
structure Counted (nodeAddr : Nat → Nat) (s : Files) (k : Nat) : Prop where
  table : TableInv nodeAddr { s with fildes.lock := false }
  itemSize : 0 < s.fildes.itemSize
  cwd : s.cwd.isSome
  current : s.currentFilde = BitVec.ofNat 32 k
  le : k ≤ maxFildes

section Open
variable {abi : Abi} {nodeAddr : Nat → Nat} {s s' : Files} {k : Nat} {fd dirfd : BitVec 32} {ret : Int}
  {path : List Byte} {flags : BitVec 32} {cs : List Openat} {rets : List Int}

theorem Counted.inv (h : Counted nodeAddr s k) (hfree : s.fildes.lock = false) : TableInv nodeAddr s :=
  ⟨h.table.items, hfree, h.table.data, h.table.apart⟩

theorem Counted.locked (h : Counted nodeAddr s k) (b : Bool) :
    Counted nodeAddr { s with fildes.lock := b } k :=
  ⟨h.table, h.itemSize, h.cwd, h.current, h.le⟩

/-- A process starts with no file opened, if `current_filde` happens to be 0. -/
theorem schedProcess_counted {pagemap : Nat} {p : Process} {v : Vfs} {root : Nat} {heap : RawVector} {itemSize : Nat}
    {realloc : Nat × Mem} {decode : List Byte → Filde} (hsize : 0 < itemSize)
    (hspace : maxFildes * itemSize < 2 ^ 64)
    (hapart : ∀ n, nodeAddr n < realloc.1 ∨ realloc.1 + itemSize * maxFildes < nodeAddr n)
    (h : schedProcess pagemap v (some root) heap itemSize realloc decode 0 = some (p, s)) :
    Counted nodeAddr s 0 ∧ s.fildes.lock = false := by
  have hsize64 : maxFildes * itemSize % 2 ^ 64 = maxFildes * itemSize := Nat.mod_eq_of_lt hspace
  have hgrow : 0 < maxFildes * itemSize := Nat.mul_pos (by decide) hsize
  simp only [schedProcess, RawVector.vectorResize, RawVector.enter, RawVector.vectorCreate, RawVector.grow,
    Bool.false_eq_true, if_false, Option.bind_eq_bind, Option.bind_some, hsize64, if_pos hgrow] at h
  split at h
  · cases h
  case isFalse hptr =>
    obtain ⟨-, rfl⟩ := Prod.mk.inj (Option.some.inj h)
    exact ⟨⟨⟨rfl, rfl, Nat.pos_of_ne_zero hptr, hapart⟩, hsize, rfl, rfl, Nat.zero_le _⟩, rfl⟩

/-- What `fd_to_node` does when the lock of the table is held. -/
theorem fdToNode_locked (hlock : s.fildes.lock = true) :
    s.fdToNode abi fd = if fd = abi.atFdcwd then some (s.cwd.map .tree, s) else none := by
  rw [Files.fdToNode, vectorGet, if_pos hlock]
  rfl

theorem openatCreate_plain {dir : Option NodePtr} {created : Option (Option Nat × Vfs)}
    (hflags : flags &&& abi.oCreat = 0) :
    s.openatCreate abi nodeAddr dir path flags created = some (-1, s) := if_pos hflags

theorem vectorReplace_free {α : Type} {t : VectorT α} (hfree : t.lock = false) (data : α) (index : Nat) :
    vectorReplace t data index =
      if index < t.items then some (index, { t with slot := Function.update t.slot index data }) else none := by
  rw [vectorReplace, vectorGet, if_neg (by simp [hfree])]
  by_cases hlt : index < t.items
  · rw [if_neg (Nat.not_le.mpr hlt), if_pos hlt]
    exact if_neg (by simp [hfree])
  · rw [if_pos (Nat.le_of_not_lt hlt), if_neg hlt]
    rfl

/-- The place for the next file is the count, as long as the table has one. -/
theorem Counted.next_index (h : Counted nodeAddr s k)
    (hlt : (s.currentFilde.signExtend 64).toNat < s.fildes.items) :
    (s.currentFilde.signExtend 64).toNat = k ∧ k < maxFildes := by
  have htoNat : s.currentFilde.toNat = k := by
    rw [h.current]
    exact Nat.mod_eq_of_lt (Nat.lt_of_le_of_lt h.le (by decide))
  rw [show s.fildes.items = maxFildes from h.table.items] at hlt
  have hin : s.currentFilde.toNat < maxFildes := by
    by_contra hout
    exact Nat.not_lt.mpr (signExtend_ge hout) hlt
  rw [signExtend_of_lt hin, htoNat]
  exact ⟨rfl, htoNat ▸ hin⟩

/-- The walk that `syscall_openat` makes fails, or it opens the next place of the
table. -/
theorem vfsOpen_counted (h : Counted nodeAddr s k) (hfree : s.fildes.lock = false) {dir node : Option NodePtr}
    (hret : s.vfsOpen dir path = some (node, s')) :
    (node = none ∧ s' = s) ∨
      (node = some (.slot k) ∧ Counted nodeAddr s' (k + 1) ∧ s'.fildes.lock = false) := by
  obtain ⟨r, -, hret⟩ := Option.bind_eq_some_iff.mp hret
  cases hr : r.2 with
  | none =>
      rw [hr] at hret
      obtain ⟨rfl, rfl⟩ := Prod.mk.inj (Option.some.inj hret)
      exact .inl ⟨rfl, rfl⟩
  | some p =>
      rw [hr] at hret
      simp only [vectorReplace_free hfree] at hret
      split at hret
      case isFalse => exact nomatch hret
      case isTrue hidx =>
        obtain ⟨hk, hlt⟩ := h.next_index hidx
        obtain ⟨rfl, rfl⟩ := Prod.mk.inj (Option.some.inj hret)
        rw [hk]
        refine .inr ⟨rfl, ⟨⟨h.table.items, rfl, h.table.data, h.table.apart⟩, h.itemSize, h.cwd, ?_, hlt⟩, hfree⟩
        show s.currentFilde + 1 = BitVec.ofNat 32 (k + 1)
        rw [h.current, BitVec.ofNat_add]
        rfl

/-- `node_to_fd` gives a place of the table back as its index. -/
theorem nodeToFd_slot (h : Counted nodeAddr s (k + 1)) (hfree : s.fildes.lock = false) :
    s.nodeToFd nodeAddr (some (.slot k)) = some ((k : Int), s) := by
  have hlt : k < maxFildes := h.le
  have hint : (BitVec.ofNat 32 k).toInt = k := by
    rw [maxFildes] at hlt
    rw [BitVec.toInt_eq_toNat_of_lt]
    · exact congrArg Int.ofNat (Nat.mod_eq_of_lt (by omega))
    · rw [BitVec.toNat_ofNat]
      omega
  rw [nodeToFd_copy (h.inv hfree) hlt, Nat.mul_div_cancel k h.itemSize, hint]

/-- One call that creates nothing: it fails, or it returns the next index. -/
theorem syscallOpenat_counted (h : Counted nodeAddr s k) (hflags : flags &&& abi.oCreat = 0)
    (hret : s.syscallOpenat abi nodeAddr dirfd path flags none = some (ret, s')) :
    (s'.fildes.lock = false ↔ s.fildes.lock = false ∧ InTable abi dirfd) ∧
      ((ret = -1 ∧ Counted nodeAddr s' k) ∨ (ret = k ∧ Counted nodeAddr s' (k + 1))) := by
  obtain ⟨⟨dir, s₁⟩, hdir, hopens⟩ := Option.bind_eq_some_iff.mp hret
  obtain ⟨⟨node, s₂⟩, hopen, hret⟩ := Option.bind_eq_some_iff.mp hopens
  clear hopens
  simp only at hopen hret
  -- A call that starts with the lock held, or that takes it, can only fail.
  have hfails : ∀ {t : Files}, t.fildes.lock = true → s₁ = t → ret = -1 ∧ s' = t := by
    rintro t hlock rfl
    obtain ⟨rfl, rfl⟩ := vfsOpen_locked hlock hopen
    rw [openatCreate_plain hflags] at hret
    obtain ⟨rfl, rfl⟩ := Prod.mk.inj (Option.some.inj hret)
    exact ⟨rfl, rfl⟩
  cases hlock : s.fildes.lock with
  | true =>
      rw [fdToNode_locked hlock] at hdir
      split at hdir
      case isFalse => exact nomatch hdir
      case isTrue =>
        obtain ⟨rfl, rfl⟩ := hfails hlock (Prod.mk.inj (Option.some.inj hdir)).2.symm
        exact ⟨iff_of_false (by simp [hlock]) (by simp), .inl ⟨rfl, h⟩⟩
  | false =>
      rcases fdToNode_cases (h.inv hlock) abi dirfd with ⟨hin, hfd⟩ | ⟨hout, hfd⟩
      · rw [hfd] at hdir
        obtain ⟨rfl, rfl⟩ := Prod.mk.inj (Option.some.inj hdir)
        rcases vfsOpen_counted h hlock hopen with ⟨rfl, rfl⟩ | ⟨rfl, hcount, hfree⟩
        · rw [openatCreate_plain hflags] at hret
          obtain ⟨rfl, rfl⟩ := Prod.mk.inj (Option.some.inj hret)
          exact ⟨iff_of_true hlock ⟨rfl, hin⟩, .inl ⟨rfl, h⟩⟩
        · rw [nodeToFd_slot hcount hfree] at hret
          obtain ⟨rfl, rfl⟩ := Prod.mk.inj (Option.some.inj hret)
          exact ⟨iff_of_true hfree ⟨rfl, hin⟩, .inr ⟨rfl, hcount⟩⟩
      · rw [hfd] at hdir
        obtain ⟨rfl, rfl⟩ := hfails rfl (Prod.mk.inj (Option.some.inj hdir)).2.symm
        exact ⟨iff_of_false Bool.noConfusion fun hc => hout hc.2, .inl ⟨rfl, h.locked true⟩⟩

theorem opened_index (k : Nat) (rets : List Int) : opened (k :: rets) = (k : Int) :: opened rets := by
  have hne : (k : Int) ≠ -1 := by omega
  simp [opened, hne]

/-- Calls that create nothing return the indices in turn. -/
theorem openAll_counted (hcreat : ∀ c ∈ cs, c.flags &&& abi.oCreat = 0) (h : Counted nodeAddr s k)
    (hrun : s.openAll abi nodeAddr cs = some (rets, s')) :
    (s'.fildes.lock = false ↔ s.fildes.lock = false ∧ ∀ c ∈ cs, InTable abi c.dirfd) ∧
      ∃ m, Counted nodeAddr s' (k + m) ∧ opened rets = (List.range' k m).map Int.ofNat := by
  induction cs generalizing s k rets with
  | nil =>
      obtain ⟨rfl, rfl⟩ := Prod.mk.inj (Option.some.inj hrun)
      exact ⟨by simp, 0, h, rfl⟩
  | cons c cs ih =>
      obtain ⟨⟨ret, s₁⟩, hcall, hrun⟩ := Option.bind_eq_some_iff.mp hrun
      obtain ⟨⟨rets', s₂⟩, hrest, hrun⟩ := Option.bind_eq_some_iff.mp hrun
      obtain ⟨rfl, rfl⟩ := Prod.mk.inj (Option.some.inj hrun)
      obtain ⟨hflags, hcreat⟩ := List.forall_mem_cons.mp hcreat
      obtain ⟨hlock, hcase⟩ := syscallOpenat_counted h hflags hcall
      rcases hcase with ⟨rfl, hcount⟩ | ⟨rfl, hcount⟩
      · obtain ⟨hlock', m, hm, hrets⟩ := ih hcreat hcount hrest
        refine ⟨?_, m, hm, hrets⟩
        rw [hlock', hlock, List.forall_mem_cons, and_assoc]
      · obtain ⟨hlock', m, hm, hrets⟩ := ih hcreat hcount hrest
        refine ⟨?_, m + 1, ?_, ?_⟩
        · rw [hlock', hlock, List.forall_mem_cons, and_assoc]
        · rwa [Nat.add_right_comm] at hm
        · rw [opened_index, hrets, List.range'_succ]
          rfl

theorem namesOpened_iff {t : Files} {node : Option NodePtr} (hfd : s.fdToNode abi fd = some (node, t)) :
    s.NamesOpened abi rets fd ↔ (node.isSome ↔ fd = abi.atFdcwd ∨ fd.toInt ∈ opened rets) := by
  constructor
  · intro h
    obtain ⟨node', _, _, hfd', hiff, _⟩ := h .ebadf
    rw [Files.fdToNodeErrno, hfd] at hfd'
    obtain rfl := (Prod.mk.inj (Option.some.inj hfd')).1
    exact hiff
  · intro hiff errno
    refine ⟨node, t, if node.isNone then .ebadf else errno, ?_, hiff, ?_⟩
    · rw [Files.fdToNodeErrno, hfd]
      rfl
    · rintro rfl
      rfl

theorem Counted.opened_lt (h : Counted nodeAddr s (0 + k))
    (hmem : fd.toInt ∈ (List.range' 0 k).map Int.ofNat) : fd.toNat < maxFildes := by
  obtain ⟨i, hi, hint⟩ := List.mem_map.mp hmem
  have hle := h.le
  have hlt := (List.mem_range'_1.mp hi).2
  have hcast : fd.toInt = (i : Int) := hint.symm
  rw [BitVec.toInt_eq_toNat_cond] at hcast
  split at hcast
  · omega
  · have := fd.isLt
    omega

/-- `fd_to_node` names exactly the opened files for the working directory, and
otherwise while every `dirfd` was in the table: for the opened files and for what
is no index of the table. -/
theorem fd_names_opened_iff (hs : Counted nodeAddr s 0) (hfree : s.fildes.lock = false)
    (hcreat : ∀ c ∈ cs, c.flags &&& abi.oCreat = 0)
    (hrun : s.openAll abi nodeAddr cs = some (rets, s')) (fd : BitVec 32) :
    s'.NamesOpened abi rets fd ↔ fd = abi.atFdcwd ∨
      (∀ c ∈ cs, InTable abi c.dirfd) ∧ (fd.toInt ∈ opened rets ∨ maxFildes ≤ fd.toNat) := by
  obtain ⟨hlock, m, hm, hrets⟩ := openAll_counted hcreat hs hrun
  by_cases hcwd : fd = abi.atFdcwd
  · have hfd : s'.fdToNode abi fd = some (s'.cwd.map .tree, s') := if_pos hcwd
    rw [namesOpened_iff hfd, Option.isSome_map]
    exact iff_of_true (iff_of_true hm.cwd (.inl hcwd)) (.inl hcwd)
  · cases hheld : s'.fildes.lock with
    | true =>
        refine iff_of_false ?_ ?_
        · intro h
          obtain ⟨_, _, _, hfd, _⟩ := h .ebadf
          rw [Files.fdToNodeErrno, fdToNode_locked hheld, if_neg hcwd] at hfd
          exact nomatch hfd
        · rintro (h | ⟨hin, -⟩)
          · exact hcwd h
          · have := hlock.mpr ⟨hfree, hin⟩
            simp [hheld] at this
    | false =>
        have hin := (hlock.mp hheld).2
        rcases fdToNode_cases (hm.inv hheld) abi fd with ⟨hidx, hfd⟩ | ⟨hidx, hfd⟩
        · have hlt := hidx.resolve_left hcwd
          rw [namesOpened_iff hfd, Files.dirOf, if_neg hcwd, or_iff_right hcwd, or_iff_right hcwd,
            and_iff_right hin, or_iff_left (Nat.not_le.mpr hlt)]
          exact iff_true_left rfl
        · have hout : ¬ fd.toNat < maxFildes := fun hlt => hidx (.inr hlt)
          have hnot : fd.toInt ∉ opened rets := fun hmem => hout (hm.opened_lt (hrets ▸ hmem))
          rw [namesOpened_iff hfd]
          exact iff_of_true (iff_of_false Bool.noConfusion (not_or.mpr ⟨hcwd, hnot⟩))
            (.inr ⟨hin, .inr (Nat.le_of_not_lt hout)⟩)

end Open

/-- A new process, once there is a root directory. -/
def bootFiles : Files := { newFiles with v := (vfsInit fun _ _ => 0).getD bareVfs }

theorem bootFiles_counted : Counted heapAddr bootFiles 0 :=
  ⟨⟨rfl, rfl, newFiles_inv.data, newFiles_inv.apart⟩, by decide, rfl, rfl, by decide⟩

/-- The root directory is opened as 0, after a path that there is not. -/
theorem root_opened_named : ∃ s, bootFiles.openAll linuxAbi heapAddr
      [⟨-100, hello, 0⟩, ⟨-100, [slash], 0⟩] = some ([-1, 0], s) ∧
    s.NamesOpened linuxAbi [-1, 0] 0 ∧ s.NamesOpened linuxAbi [-1, 0] (-1) := by
  have hrun : ∃ s, bootFiles.openAll linuxAbi heapAddr [⟨-100, hello, 0⟩, ⟨-100, [slash], 0⟩] =
    some ([-1, 0], s) := ⟨_, rfl⟩
  obtain ⟨s, hrun⟩ := hrun
  have hiff := fd_names_opened_iff bootFiles_counted rfl (by decide) hrun
  have hin : ∀ c ∈ [(⟨-100, hello, 0⟩ : Openat), ⟨-100, [slash], 0⟩], InTable linuxAbi c.dirfd := by
    intro c hc
    refine .inl ?_
    rcases List.mem_pair.mp hc with rfl | rfl
    · rfl
    · rfl
  refine ⟨s, hrun, (hiff 0).mpr (.inr ⟨hin, .inl ?_⟩), (hiff (-1)).mpr (.inr ⟨hin, .inr ?_⟩)⟩
  · decide
  · decide

/-- Nothing has been opened, and descriptor 0 gives a node. -/
theorem unopened_fd_has_node :
    bootFiles.openAll linuxAbi heapAddr [] = some ([], bootFiles) ∧
    bootFiles.fdToNodeErrno linuxAbi (.other 0) 0 = some (some (.slot 0), bootFiles, .other 0) ∧
    ¬ bootFiles.NamesOpened linuxAbi [] 0 := by
  refine ⟨rfl, rfl, ?_⟩
  rw [namesOpened_iff (show bootFiles.fdToNode linuxAbi 0 = some (some (.slot 0), bootFiles) from rfl)]
  decide
end Flan.Sys
