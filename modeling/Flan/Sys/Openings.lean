import Flan.Fs.WalkSafety
import Flan.Sys.Descriptors

/-! Files opened one after the other: the descriptors that `syscall_openat` returns, the
copies of nodes behind them, and the branch that should create a file. -/
namespace Flan.Sys
open Flan.Lib Flan.Fs

/-! ### Opening -/

/-- The node that a path leads to from the working directory. -/
def Files.resolved (s : Files) (c : Openat) : Option Nat := (Fs.pathToNode s.v s.cwd c.path).bind PathToNode.result

/-- The table with a node copied to the place `k`, which is the next one. -/
def Files.withOpen (s : Files) (k n : Nat) : Files :=
  { s with
    fildes.slot := Function.update s.fildes.slot k ⟨s.v.node n, some n⟩
    currentFilde := s.currentFilde + 1 }

/-- Nodes opened one after the other, from the place `k` on. -/
def Files.opening : Files → (k : Nat) → List Nat → Files
  | s, _, [] => s
  | s, k, n :: ns => (s.withOpen k n).opening (k + 1) ns

/-- The results of calls when `k` is the next place: the places in turn, and -1 for each path
that leads nowhere. -/
def fdsFrom : (k : Nat) → List (Option Nat) → List Int
  | _, [] => []
  | k, none :: rs => -1 :: fdsFrom k rs
  | k, some _ :: rs => k :: fdsFrom (k + 1) rs

/-- A call for the working directory that creates nothing, with a path whose components
before the last are directories or missing. -/
structure Openat.Plain (abi : Abi) (v : Vfs) (cwd : Option Nat) (c : Openat) : Prop where
  dirfd : c.dirfd = abi.atFdcwd
  flags : c.flags &&& abi.oCreat = 0
  str : 0 ∉ c.path
  walkable : PathWalkable v cwd c.path

/-- The call fails and changes nothing, or it returns the next descriptor, which leads to a
node equal to the one that the path leads to. -/
def Files.Opens (abi : Abi) (s : Files) (k : Nat) (c : Openat) (ret : Int) (s' : Files) : Prop :=
  match s.resolved c with
  | none => ret = -1 ∧ s' = s
  | some n => ret = k ∧ s'.fdToNode abi (BitVec.ofNat 32 k) = some (some (.slot k), s') ∧
      s'.load (.slot k) = s.v.node n

/-- The nodes that some calls open. -/
def Files.found (s : Files) (cs : List Openat) : List Nat := cs.filterMap s.resolved

/-- `k` is the next place of a table whose lock is free, the calls are plain, and there is a
place for every file they find. -/
structure CanOpen (abi : Abi) (nodeAddr : Nat → Nat) (s : Files) (k : Nat) (cs : List Openat) : Prop where
  reached : VfsReaches s.v
  cwd : ∀ d, s.cwd = some d → d < s.v.count
  counted : Counted nodeAddr s k
  free : s.fildes.lock = false
  plain : ∀ c ∈ cs, c.Plain abi s.v s.cwd
  room : k + (s.found cs).length ≤ maxFildes

section Opening
variable {abi : Abi} {nodeAddr : Nat → Nat} {s s' : Files} {k n j : Nat} {ns : List Nat} {c : Openat}
  {cs pre post : List Openat}

theorem Counted.index (h : Counted nodeAddr s k) (hlt : k < maxFildes) :
    (s.currentFilde.signExtend 64).toNat = k := by
  have htoNat : s.currentFilde.toNat = k := by
    rw [h.current]
    exact Nat.mod_eq_of_lt (hlt.trans (by decide))
  rw [signExtend_of_lt (by rwa [htoNat]), htoNat]

theorem Counted.withOpen (h : Counted nodeAddr s k) (hlt : k < maxFildes) :
    Counted nodeAddr (s.withOpen k n) (k + 1) := by
  refine ⟨⟨h.table.items, rfl, h.table.data, h.table.apart⟩, h.itemSize, h.cwd, ?_, hlt⟩
  show s.currentFilde + 1 = _
  rw [h.current, BitVec.ofNat_add]
  rfl

theorem load_withOpen (s : Files) (k n : Nat) : (s.withOpen k n).load (.slot k) = s.v.node n := by
  simp only [Files.load, Files.withOpen, Function.update_self]
  rfl

/-- What the other places hold stays. -/
theorem slot_withOpen (s : Files) (n : Nat) (h : j ≠ k) : (s.withOpen k n).fildes.slot j = s.fildes.slot j :=
  Function.update_of_ne h _ _

theorem pathToNode_cwd (s : Files) (path : List Byte) : s.pathToNode (s.cwd.map .tree) path =
    (Fs.pathToNode s.v s.cwd path).map fun r => (r.parent.map .tree, r.result.map .tree) := by
  cases s.cwd with
  | none => rfl
  | some n => rfl

/-! ### What a sequence of openings leaves -/

theorem opening_append (s : Files) (k : Nat) (ns ms : List Nat) :
    s.opening k (ns ++ ms) = (s.opening k ns).opening (k + ns.length) ms := by
  induction ns generalizing s k with
  | nil => rfl
  | cons n ns ih =>
      rw [List.cons_append, Files.opening, ih, List.length_cons, Nat.add_assoc, Nat.add_comm 1]
      rfl

/-- The tree, the working directory and the lock are as before. -/
theorem opening_same (s : Files) (k : Nat) (ns : List Nat) :
    (s.opening k ns).v = s.v ∧ (s.opening k ns).cwd = s.cwd ∧ (s.opening k ns).fildes.lock = s.fildes.lock := by
  induction ns generalizing s k with
  | nil => exact ⟨rfl, rfl, rfl⟩
  | cons n ns ih => exact ih (s.withOpen k n) (k + 1)

theorem resolved_opening (s : Files) (k : Nat) (ns : List Nat) : (s.opening k ns).resolved = s.resolved := by
  obtain ⟨hv, hcwd, -⟩ := opening_same s k ns
  funext c
  rw [Files.resolved, Files.resolved, hv, hcwd]

theorem Counted.opening (h : Counted nodeAddr s k) (hroom : k + ns.length ≤ maxFildes) :
    Counted nodeAddr (s.opening k ns) (k + ns.length) := by
  induction ns generalizing s k with
  | nil => exact h
  | cons n ns ih =>
      rw [List.length_cons, ← Nat.add_assoc, Nat.add_right_comm] at hroom ⊢
      exact ih (h.withOpen (by omega)) hroom

/-- Places before the first one opened are not touched. -/
theorem slot_opening (s : Files) (hlt : j < k) (ns : List Nat) :
    (s.opening k ns).fildes.slot j = s.fildes.slot j := by
  induction ns generalizing s k with
  | nil => rfl
  | cons n ns ih =>
      rw [Files.opening, ih (s.withOpen k n) (Nat.lt_succ_of_lt hlt), slot_withOpen s n (Nat.ne_of_lt hlt)]

theorem load_opening (s : Files) (hlt : j < k) (ns : List Nat) :
    (s.opening k ns).load (.slot j) = s.load (.slot j) := by
  simp only [Files.load, slot_opening s hlt, (opening_same s k ns).1]

theorem fdsFrom_cons (k : Nat) (r : Option Nat) (rs : List (Option Nat)) :
    fdsFrom k (r :: rs) = (r.elim (-1) fun _ => (k : Int)) :: fdsFrom (k + r.toList.length) rs := by
  cases r with
  | none => rfl
  | some n => rfl

theorem opened_fdsFrom (k : Nat) (rs : List (Option Nat)) :
    opened (fdsFrom k rs) = (List.range' k (rs.filterMap id).length).map Int.ofNat := by
  induction rs generalizing k with
  | nil => rfl
  | cons r rs ih =>
      cases r with
      | none => exact ih k
      | some n =>
          rw [fdsFrom, opened_index, ih, List.filterMap_cons_some (f := id) rfl, List.length_cons, List.range'_succ]
          rfl

/-! ### Calls -/

theorem found_append (s : Files) (pre post : List Openat) : s.found (pre ++ post) = s.found pre ++ s.found post :=
  List.filterMap_append

theorem found_single (s : Files) (c : Openat) : s.found [c] = (s.resolved c).toList := by
  unfold Files.found
  cases h : s.resolved c with
  | none => rw [List.filterMap_cons_none h, List.filterMap_nil, Option.toList_none]
  | some n => rw [List.filterMap_cons_some h, List.filterMap_nil, Option.toList_some]

theorem found_opening (s : Files) (k : Nat) (ns : List Nat) (cs : List Openat) :
    (s.opening k ns).found cs = s.found cs := by
  rw [Files.found, Files.found, resolved_opening]

theorem found_eq (s : Files) (cs : List Openat) : (cs.map s.resolved).filterMap id = s.found cs := by
  rw [List.filterMap_map]
  rfl

theorem CanOpen.left (h : CanOpen abi nodeAddr s k (pre ++ post)) : CanOpen abi nodeAddr s k pre := by
  have hroom := h.room
  rw [found_append, List.length_append] at hroom
  exact ⟨h.reached, h.cwd, h.counted, h.free, fun c hc => h.plain c (List.mem_append_left post hc), by omega⟩

/-- After some of the calls the others can follow. -/
theorem CanOpen.right (h : CanOpen abi nodeAddr s k (pre ++ post)) :
    CanOpen abi nodeAddr (s.opening k (s.found pre)) (k + (s.found pre).length) post := by
  obtain ⟨hv, hcwd, hlock⟩ := opening_same s k (s.found pre)
  have hroom := h.room
  rw [found_append, List.length_append] at hroom
  refine ⟨?_, ?_, h.counted.opening (by omega), hlock.trans h.free, fun c hc => ?_, ?_⟩
  · rw [hv]
    exact h.reached
  · rw [hv, hcwd]
    exact h.cwd
  · rw [hv, hcwd]
    exact h.plain c (List.mem_append_right pre hc)
  · rw [found_opening]
    omega

/-- One call: it fails, or the copy of the node it finds is the next place of the table. -/
theorem CanOpen.call (h : CanOpen abi nodeAddr s k [c]) :
    s.syscallOpenat abi nodeAddr c.dirfd c.path c.flags none =
      some ((s.resolved c).elim (-1) fun _ => (k : Int), s.opening k (s.found [c])) := by
  have hc := h.plain c List.mem_cons_self
  have hret := (h.reached.inv.returns_iff h.cwd hc.str).mpr hc.walkable
  obtain ⟨⟨q, r⟩, hpath⟩ := Option.isSome_iff_exists.mp hret
  have hfd : s.fdToNode abi c.dirfd = some (s.cwd.map .tree, s) := if_pos hc.dirfd
  have hres : s.resolved c = r := by rw [Files.resolved, hpath, Option.bind_some]
  have hroom := h.room
  unfold Files.syscallOpenat Files.vfsOpen
  simp only [hfd, Option.bind_eq_bind, Option.bind_some, pathToNode_cwd, hpath, Option.map_some]
  rw [found_single, hres] at hroom ⊢
  cases r with
  | none => exact openatCreate_plain hc.flags
  | some n =>
      have hlt : k < maxFildes := hroom
      have hitems : k < s.fildes.items := by rwa [show s.fildes.items = maxFildes from h.counted.table.items]
      simp only [Option.map_some, vectorReplace_free h.free, h.counted.index hlt, if_pos hitems, Option.bind_some,
        Option.pure_def]
      exact nodeToFd_slot (h.counted.withOpen hlt) h.free

/-- `fd_to_node` finds every place of a table whose lock is free. -/
theorem Counted.fdToNode (h : Counted nodeAddr s k) (hfree : s.fildes.lock = false)
    (habi : maxFildes ≤ abi.atFdcwd.toNat) (hlt : j < maxFildes) :
    s.fdToNode abi (BitVec.ofNat 32 j) = some (some (.slot j), s) := by
  have htoNat : (BitVec.ofNat 32 j).toNat = j := Nat.mod_eq_of_lt (hlt.trans (by decide))
  have hin : (BitVec.ofNat 32 j).toNat < maxFildes := by rwa [htoNat]
  have hne : BitVec.ofNat 32 j ≠ abi.atFdcwd := by
    intro he
    rw [he] at hin
    omega
  rcases fdToNode_cases (h.inv hfree) abi (BitVec.ofNat 32 j) with ⟨-, hfd⟩ | ⟨hout, -⟩
  · rw [Files.dirOf, if_neg hne, htoNat] at hfd
    exact hfd
  · exact absurd (.inr hin) hout

theorem CanOpen.opens (h : CanOpen abi nodeAddr s k [c]) (habi : maxFildes ≤ abi.atFdcwd.toNat) :
    s.Opens abi k c ((s.resolved c).elim (-1) fun _ => (k : Int)) (s.opening k (s.found [c])) := by
  unfold Files.Opens
  have hroom := h.room
  rw [found_single] at hroom ⊢
  cases hres : s.resolved c with
  | none => exact ⟨rfl, rfl⟩
  | some n =>
      rw [hres] at hroom
      have hlt : k < maxFildes := hroom
      exact ⟨rfl, (h.counted.withOpen hlt).fdToNode h.free habi hlt, load_withOpen s k n⟩

/-- A sequence of calls returns, with these results and this state. -/
theorem CanOpen.openAll (h : CanOpen abi nodeAddr s k cs) :
    s.openAll abi nodeAddr cs = some (fdsFrom k (cs.map s.resolved), s.opening k (s.found cs)) := by
  induction cs generalizing s k with
  | nil => rfl
  | cons c cs ih =>
      have hsplit : CanOpen abi nodeAddr s k ([c] ++ cs) := h
      have hrest := ih hsplit.right
      rw [resolved_opening, found_opening, ← opening_append, ← found_append] at hrest
      rw [Files.openAll, hsplit.left.call]
      simp only [Option.bind_eq_bind, Option.bind_some, hrest, Option.pure_def]
      rw [List.map_cons, fdsFrom_cons, ← found_single]
      rfl

theorem openAll_append (s : Files) (pre post : List Openat) : s.openAll abi nodeAddr (pre ++ post) =
    (s.openAll abi nodeAddr pre).bind fun r => (r.2.openAll abi nodeAddr post).map fun r' => (r.1 ++ r'.1, r'.2) := by
  induction pre generalizing s with
  | nil =>
      simp only [List.nil_append, Files.openAll, Option.bind_some]
      exact Option.map_id'.symm
  | cons c pre ih =>
      rw [List.cons_append, Files.openAll, Files.openAll]
      cases s.syscallOpenat abi nodeAddr c.dirfd c.path c.flags none with
      | none => rfl
      | some r =>
          simp only [Option.bind_eq_bind, Option.bind_some, ih, Option.pure_def]
          cases r.2.openAll abi nodeAddr pre with
          | none => rfl
          | some r₁ =>
              simp only [Option.bind_some]
              cases r₁.2.openAll abi nodeAddr post <;> rfl

/-- Files opened from the working directory get the next descriptors in order, each leads to a
node equal to the one its path leads to, then and after all later calls; calls that fail
change nothing. -/
theorem opens_distinct_stable (habi : maxFildes ≤ abi.atFdcwd.toNat) (h : CanOpen abi nodeAddr s k cs) :
    ∃ rets s', s.openAll abi nodeAddr cs = some (rets, s') ∧
      opened rets = (List.range' k (s.found cs).length).map Int.ofNat ∧
      (∀ j < k, s'.load (.slot j) = s.load (.slot j)) ∧
      ∀ pre c post, cs = pre ++ c :: post → ∃ rets₁ s₁ ret s₂ rets₂,
        s.openAll abi nodeAddr pre = some (rets₁, s₁) ∧
        s₁.syscallOpenat abi nodeAddr c.dirfd c.path c.flags none = some (ret, s₂) ∧
        s₂.openAll abi nodeAddr post = some (rets₂, s') ∧ rets = rets₁ ++ ret :: rets₂ ∧
        s₁.Opens abi (k + (s.found pre).length) c ret s₂ ∧
        ∀ j : Nat, ret = j → s'.fdToNode abi (BitVec.ofNat 32 j) = some (some (.slot j), s') ∧
          s'.load (.slot j) = s₂.load (.slot j) := by
  refine ⟨_, _, h.openAll, ?_, fun j hj => load_opening s hj _, ?_⟩
  · rw [opened_fdsFrom, found_eq]
  · rintro pre c post rfl
    have hcall : CanOpen abi nodeAddr (s.opening k (s.found pre)) (k + (s.found pre).length) ([c] ++ post) :=
      h.right
    have hpost := hcall.right.openAll
    -- The whole run, taken apart at the call.
    have hall := h.openAll
    rw [openAll_append, h.left.openAll, Option.bind_some, Files.openAll, hcall.left.call] at hall
    simp only [Option.bind_eq_bind, Option.bind_some, hpost, Option.pure_def, Option.map_some] at hall
    obtain ⟨hrets, hstate⟩ := Prod.mk.inj (Option.some.inj hall)
    refine ⟨_, _, _, _, _, h.left.openAll, hcall.left.call, ?_, hrets.symm, hcall.left.opens habi, ?_⟩
    · rw [hpost, hstate]
    · intro j hj
      have hlt : j < k + (s.found pre).length + ((s.opening k (s.found pre)).found [c]).length := by
        cases hres : (s.opening k (s.found pre)).resolved c with
        | none =>
            rw [hres, Option.elim_none] at hj
            omega
        | some n =>
            rw [hres, Option.elim_some] at hj
            rw [found_single, hres, Option.toList_some, List.length_singleton]
            omega
      have hin : j < maxFildes := hlt.trans_le hcall.left.room
      constructor
      · exact (h.counted.opening h.room).fdToNode ((opening_same s k _).2.2.trans h.free) habi hin
      · rw [← hstate]
        exact load_opening _ hlt _

end Opening

/-- The working directory is the root of a tree with the directory "/a" and the file "/a/b". -/
def treeFiles : Files := { newFiles with v := treeAB }

theorem treeFiles_counted : Counted heapAddr treeFiles 0 :=
  ⟨⟨rfl, rfl, newFiles_inv.data, newFiles_inv.apart⟩, by decide, rfl, rfl, by decide⟩

theorem treeFiles_plain {path : List Byte} (hz : 0 ∉ path)
    (hlook : ∀ x ∈ pathLookups treeAB (some 0) path, (treeAB.node x).children.isSome) :
    Openat.Plain linuxAbi treeAB (some 0) ⟨-100, path, 0⟩ :=
  ⟨rfl, (by decide : (0 : BitVec 32) &&& linuxAbi.oCreat = 0), hz, pathWalkable_iff_lookups.mpr hlook⟩

/-- Opening the file, then a path that there is not, then the directory. -/
def treeCalls : List Openat := [⟨-100, pathA ++ slash :: pathB, 0⟩, ⟨-100, pathB, 0⟩, ⟨-100, pathA, 0⟩]

theorem treeFiles_canOpen : CanOpen linuxAbi heapAddr treeFiles 0 treeCalls := by
  refine ⟨treeAB_reached, by decide, treeFiles_counted, rfl, ?_, by decide +kernel⟩
  refine List.forall_mem_cons.mpr ⟨?_, List.forall_mem_cons.mpr ⟨?_, List.forall_mem_singleton.mpr ?_⟩⟩
  · exact treeFiles_plain (by decide) (by decide +kernel)
  · exact treeFiles_plain (by decide) (by decide +kernel)
  · exact treeFiles_plain (by decide) (by decide +kernel)

/-- The file and the directory get the descriptors 0 and 1, and 0 leads to the file in the
end. -/
theorem file_and_directory_opened : ∃ rets s', treeFiles.openAll linuxAbi heapAddr treeCalls = some (rets, s') ∧
    opened rets = [0, 1] ∧ s'.load (.slot 0) = treeAB.node 7 := by
  obtain ⟨rets, s', hrun, hopened, -, hcalls⟩ := opens_distinct_stable (by decide) treeFiles_canOpen
  obtain ⟨rets₁, s₁, ret, s₂, rets₂, hpre, -, -, -, hopens, hstays⟩ := hcalls [] _ _ rfl
  obtain ⟨-, rfl⟩ := Prod.mk.inj (Option.some.inj hpre)
  have hfound : (treeFiles.found treeCalls).length = 2 := by decide +kernel
  have hres : treeFiles.resolved ⟨-100, pathA ++ slash :: pathB, 0⟩ = some 7 := by decide +kernel
  rw [hfound] at hopened
  rw [Files.Opens, hres] at hopens
  obtain ⟨hret, -, hload⟩ := hopens
  exact ⟨rets, s', hrun, hopened, ((hstays 0 hret).2).trans hload⟩

/-! ### Creating -/

section Create
variable {abi : Abi} {nodeAddr : Nat → Nat} {s : Files} {dirfd flags : BitVec 32} {path : List Byte} {par : NodePtr}
  {created : Option (Option Nat × Vfs)}

/-- The call returns a descriptor of a regular file, and the path leads to that file. -/
def Files.OpensCreated (abi : Abi) (nodeAddr : Nat → Nat) (s : Files) (dirfd : BitVec 32) (path : List Byte)
    (flags : BitVec 32) (created : Option (Option Nat × Vfs)) : Prop :=
  ∃ fd s', s.syscallOpenat abi nodeAddr dirfd path flags created = some (fd, s') ∧ 0 ≤ fd ∧
    ∃ p s'' q p', s'.fdToNode abi (BitVec.ofInt 32 fd) = some (some p, s'') ∧ sIsReg (s''.load p).st.mode = true ∧
      s''.pathToNode (s.dirOf abi dirfd) path = some (q, some p') ∧ s''.load p' = s''.load p

/-- The creating branch: whatever `vfs_create` makes of its path, the node is none of the
table. -/
theorem syscallOpenat_creates (h : TableInv nodeAddr s) (hin : InTable abi dirfd) (hcreat : flags &&& abi.oCreat ≠ 0)
    (hpath : s.pathToNode (s.dirOf abi dirfd) path = some (some par, none)) :
    s.syscallOpenat abi nodeAddr dirfd path flags created =
      created.map fun r => (-1, { s with v := r.2, fildes.lock := true }) := by
  rcases fdToNode_cases h abi dirfd with ⟨-, hfd⟩ | ⟨hout, -⟩
  · unfold Files.syscallOpenat Files.vfsOpen Files.openatCreate
    simp only [hfd, Option.bind_eq_bind, Option.bind_some, hpath, Option.pure_def, if_neg hcreat]
    cases created with
    | none => rfl
    | some r =>
        have htable : TableInv nodeAddr { s with v := r.2 } := ⟨h.items, h.free, h.data, h.apart⟩
        exact nodeToFd_tree htable r.1
  · exact absurd hin hout

/-- No call of `syscall_openat` opens the file that it creates: if `vfs_create` returns at all,
the call returns -1 and keeps the lock of the table. -/
theorem creating_open_never_opens (h : TableInv nodeAddr s) (hin : InTable abi dirfd)
    (hcreat : flags &&& abi.oCreat ≠ 0) (hpath : s.pathToNode (s.dirOf abi dirfd) path = some (some par, none))
    (created : Option (Option Nat × Vfs)) :
    ¬ s.OpensCreated abi nodeAddr dirfd path flags created ∧
      ∀ fd s', s.syscallOpenat abi nodeAddr dirfd path flags created = some (fd, s') →
        fd = -1 ∧ s'.fildes.lock = true := by
  have hret : ∀ fd s', s.syscallOpenat abi nodeAddr dirfd path flags created = some (fd, s') →
      fd = -1 ∧ s'.fildes.lock = true := by
    intro fd s' hcall
    rw [syscallOpenat_creates h hin hcreat hpath] at hcall
    obtain ⟨r, -, hr⟩ := Option.map_eq_some_iff.mp hcall
    cases hr
    exact ⟨rfl, rfl⟩
  refine ⟨?_, hret⟩
  rintro ⟨fd, s', hcall, hpos, -⟩
  rw [(hret fd s' hcall).1] at hpos
  exact absurd hpos (by decide)

end Create

theorem treeFiles_inv : TableInv heapAddr treeFiles := treeFiles_counted.inv rfl

/-- There is no "/b" yet, and its parent is the root directory. -/
theorem treeFiles_missing : treeFiles.pathToNode (treeFiles.dirOf linuxAbi (-100)) pathB =
    some (some (.tree 1), none) := by decide +kernel

/-- With the file made as it should be, it is still not opened. -/
theorem created_file_not_opened : ¬ treeFiles.OpensCreated linuxAbi heapAddr (-100) pathB 0x40
    (vfsCreate treeAB (some 1) pathB sIfreg) :=
  (creating_open_never_opens treeFiles_inv (.inl rfl) (by decide) treeFiles_missing _).1

/-- Opening "/b" with `O_CREAT` returns -1, and the next read never returns. -/
theorem creating_open_locks_table : ∃ r s', vfsCreate treeAB (some 1) pathB sIfreg = some r ∧
    treeFiles.syscallOpenat linuxAbi heapAddr (-100) pathB 0x40 (some r) = some (-1, s') ∧
    s'.fildes.lock = true ∧ s'.syscallRead linuxAbi 0 1 = none ∧
    ¬ treeFiles.OpensCreated linuxAbi heapAddr (-100) pathB 0x40 (some r) := by
  have hsome : (vfsCreate treeAB (some 1) pathB sIfreg).isSome := by decide +kernel
  obtain ⟨r, hr⟩ := Option.isSome_iff_exists.mp hsome
  have hcall : treeFiles.syscallOpenat linuxAbi heapAddr (-100) pathB 0x40 (some r) =
      some (-1, { treeFiles with v := r.2, fildes.lock := true }) :=
    syscallOpenat_creates treeFiles_inv (.inl rfl) (by decide) treeFiles_missing
  refine ⟨r, _, hr, hcall, rfl, rfl, ?_⟩
  rintro ⟨fd, s', hfd, hpos, -⟩
  rw [hcall] at hfd
  cases hfd
  exact absurd hpos (by decide)

end Flan.Sys
