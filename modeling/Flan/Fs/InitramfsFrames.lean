import Flan.Memory.PmmBounds
import Flan.Fs.InitramfsKeys

/-! The frames that the loop of `initramfs_init` gives back while it goes on. Headers and
data come in blocks of 512 bytes, and what is given back for a file is counted in whole
frames. -/
namespace Flan.Fs
open Flan.Lib Flan.Memory

/-! ### The calls of `pmm_free` -/

/-- The arguments of `pmm_free` in a turn: the header and a number of frames. -/
def Unpack.freeCall (s : Unpack) : Nat × Nat :=
  (s.currentFile, (512 + alignUp512 (oct2int s.mem (s.currentFile + tarSize) 12)) % 2 ^ 64 / frameSize)

/-- The turns of the loop up to any point, whether or not it returns, and its calls of
`pmm_free` so far. -/
inductive Unpack.Turns (env : Nat → Noise) (s₀ : Unpack) : List (Nat × Nat) → Unpack → Prop
  | start : Turns env s₀ [] s₀
  | turn {calls : List (Nat × Nat)} {s s' : Unpack} (h : Turns env s₀ calls s)
      (hm : bytesAt (s.reuse (env calls.length).before).mem (s.currentFile + tarMagic) 5 = ustar)
      (ht : (s.reuse (env calls.length).before).turn (env calls.length) = some s') :
      Turns env s₀ (calls ++ [(s.reuse (env calls.length).before).freeCall]) s'

/-- The loop makes such turns until it meets a block without the magic. -/
theorem Unpack.loop_turns {env : Nat → Noise} {s₀ s s' : Unpack} {calls : List (Nat × Nat)} {fuel : Nat}
    (h : Turns env s₀ calls s) (hloop : loop env fuel calls.length s = some s') :
    ∃ calls' s₁, Turns env s₀ calls' s₁ ∧ s' = s₁.reuse (env calls'.length).before ∧
      bytesAt s'.mem (s'.currentFile + tarMagic) 5 ≠ ustar := by
  induction fuel generalizing calls s with
  | zero => cases hloop
  | succ fuel ih =>
      rw [loop] at hloop
      split at hloop
      · rename_i hm
        obtain ⟨s₁, ht, hrest⟩ := Option.bind_eq_some_iff.mp hloop
        refine ih (h.turn hm ht) ?_
        rwa [List.length_append, List.length_singleton]
      · rename_i hm
        cases hloop
        exact ⟨calls, s, h, rfl, hm⟩

/-! ### Files -/

/-- A header: the size in octal, the magic, and a zero byte at which any string in it ends. -/
structure UstarAt (m : Mem) (p size : Nat) : Prop where
  size : ∃ digits, OctalAt m (p + tarSize) 12 size digits
  magic : bytesAt m (p + tarMagic) 5 = ustar
  ends : ∃ k, k < 512 ∧ m (p + k) = 0

/-- Memory holds files of these sizes, then a block without the magic. -/
inductive FilesAt (m : Mem) : Nat → List Nat → Prop
  | stop {p : Nat} (h : bytesAt m (p + tarMagic) 5 ≠ ustar) : FilesAt m p []
  | file {p size : Nat} {sizes : List Nat} (h : UstarAt m p size) (hrest : FilesAt m (p + fileSpan size) sizes) :
      FilesAt m p (size :: sizes)

/-- The bytes of all files. -/
def spanSum (sizes : List Nat) : Nat := (sizes.map fileSpan).sum

/-- The header behind the first `i` files. -/
def headerAddr (address : Nat) (sizes : List Nat) (i : Nat) : Nat := address + spanSum (sizes.take i)

/-- The calls of `pmm_free` for files from `p` on. -/
def fileCalls : (p : Nat) → List Nat → List (Nat × Nat)
  | _, [] => []
  | p, size :: sizes => (p, fileSpan size / frameSize) :: fileCalls (p + fileSpan size) sizes

section Files
variable {m m' : Mem} {p size f x : Nat} {sizes done rest : List Nat} {a : Nat × Nat} {es : List TarEntry}

theorem spanSum_cons (size : Nat) (sizes : List Nat) : spanSum (size :: sizes) = fileSpan size + spanSum sizes := by
  rw [spanSum, List.map_cons, List.sum_cons, spanSum]

theorem spanSum_append (done rest : List Nat) : spanSum (done ++ rest) = spanSum done + spanSum rest := by
  rw [spanSum, List.map_append, List.sum_append, spanSum, spanSum]

theorem length_fileCalls (p : Nat) (sizes : List Nat) : (fileCalls p sizes).length = sizes.length := by
  induction sizes generalizing p with
  | nil => rfl
  | cons size sizes ih => rw [fileCalls, List.length_cons, ih, List.length_cons]

theorem fileCalls_append (p : Nat) (done rest : List Nat) :
    fileCalls p (done ++ rest) = fileCalls p done ++ fileCalls (p + spanSum done) rest := by
  induction done generalizing p with
  | nil => rfl
  | cons size done ih =>
      rw [List.cons_append, fileCalls, ih, fileCalls, spanSum_cons, Nat.add_assoc, List.cons_append]

/-- The files of an archive. -/
theorem ArchiveAt.files (h : ArchiveAt m p es) : FilesAt m p (es.map fun e => e.data.length) := by
  induction h with
  | stop h => exact .stop h
  | @entry p e es h _ ih =>
      refine .file ⟨h.size, h.magic, e.name.length, ?_, h.nameEnds⟩ ih
      exact h.nameShort.trans (by decide)

theorem UstarAt.congr (h : UstarAt m p size) (hm : ∀ x, p ≤ x → m' x = m x) : UstarAt m' p size := by
  obtain ⟨digits, ho⟩ := h.size
  obtain ⟨k, hk, hz⟩ := h.ends
  have hat : ∀ k n, bytesAt m' (p + k) n = bytesAt m (p + k) n :=
    fun k n => bytesAt_congr fun x hx _ => hm x (le_trans (Nat.le_add_right _ _) hx)
  refine ⟨⟨digits, ho.octal, ho.fits, (hat _ _).trans ho.bytes, fun hlt => ?_, ho.value⟩, (hat _ _).trans h.magic,
    k, hk, ?_⟩
  · rw [Nat.add_assoc, hm _ (Nat.le_add_right _ _), ← Nat.add_assoc]
    exact ho.ends hlt
  · rw [hm _ (Nat.le_add_right _ _), hz]

theorem FilesAt.congr (h : FilesAt m p sizes) (hm : ∀ x, p ≤ x → m' x = m x) : FilesAt m' p sizes := by
  induction h with
  | stop h =>
      refine .stop ?_
      rwa [bytesAt_congr fun x hx _ => hm x (le_trans (Nat.le_add_right _ _) hx)]
  | file h _ ih => exact .file (h.congr hm) (ih fun x hx => hm x (le_trans (Nat.le_add_right _ _) hx))

theorem UstarAt.size_lt (h : UstarAt m p size) : size < 2 ^ 36 := by
  obtain ⟨digits, ho⟩ := h.size
  exact ho.value_lt

theorem UstarAt.oct2int (h : UstarAt m p size) : oct2int m (p + tarSize) 12 = size := by
  obtain ⟨digits, ho⟩ := h.size
  exact ho.oct2int

/-- `512 + ALIGN_UP(size, 512)`, as the loop computes it. -/
theorem UstarAt.span (h : UstarAt m p size) : (512 + alignUp512 size) % 2 ^ 64 = fileSpan size := by
  have hlt := h.size_lt
  rw [alignUp512_eq hlt, fileSpan, Nat.mod_eq_of_lt (by omega)]

theorem UstarAt.name_short (h : UstarAt m p size) : (strAt m p).length < 512 := by
  obtain ⟨k, hk, hz⟩ := h.ends
  exact lt_of_le_of_lt (length_cString_le hz _) hk

/-! ### Frames -/

/-- The frames of a call end before the next header. -/
theorem freeBits_bounds (hf : f ∈ freeBits p (fileSpan size / frameSize)) :
    p / frameSize ≤ f ∧ (f + 1) * frameSize ≤ p + fileSpan size := by
  rw [freeBits, List.mem_range'_1] at hf
  have hle := Nat.mod_le (fileSpan size / frameSize + p / frameSize) (2 ^ 64)
  refine ⟨hf.1, frames_below ?_⟩
  rw [List.mem_range'_1]
  exact ⟨hf.1, by omega⟩

/-- The frames of the calls lie between the first header and the end of the files. -/
theorem fileCalls_bounds (ha : a ∈ fileCalls p sizes) (hf : f ∈ freeBits a.1 a.2) :
    p / frameSize ≤ f ∧ (f + 1) * frameSize ≤ p + spanSum sizes := by
  induction sizes generalizing p with
  | nil => cases ha
  | cons size sizes ih =>
      rw [spanSum_cons]
      rcases List.mem_cons.mp ha with rfl | ha
      · obtain ⟨hlo, hhi⟩ := freeBits_bounds hf
        exact ⟨hlo, by omega⟩
      · obtain ⟨hlo, hhi⟩ := ih ha
        exact ⟨(Nat.div_le_div_right (Nat.le_add_right _ _)).trans hlo, by omega⟩

theorem fileCalls_disjoint (p : Nat) (sizes : List Nat) :
    (fileCalls p sizes).Pairwise fun a b => (freeBits a.1 a.2).Disjoint (freeBits b.1 b.2) := by
  induction sizes generalizing p with
  | nil => exact .nil
  | cons size sizes ih =>
      rw [fileCalls, List.pairwise_cons]
      refine ⟨fun b hb f hf hf' => ?_, ih _⟩
      have hhi := (freeBits_bounds hf).2
      have hlo := (fileCalls_bounds hb hf').1
      have hnext : f + 1 ≤ (p + fileSpan size) / frameSize := (Nat.le_div_iff_mul_le (by decide)).mpr hhi
      omega

/-- No byte from the next header on lies in the frames of a call. -/
theorem fileCalls_behind {i : Nat} (ha : (fileCalls p sizes)[i]? = some a) (hx : headerAddr p sizes (i + 1) ≤ x) :
    x / frameSize ∉ freeBits a.1 a.2 := by
  induction sizes generalizing p i with
  | nil => cases ha
  | cons size sizes ih =>
      rw [headerAddr, List.take_succ_cons, spanSum_cons] at hx
      cases i with
      | zero =>
          cases ha
          intro hf
          have hhi := (freeBits_bounds hf).2
          have hlt := Nat.lt_div_mul_add (a := x) (show 0 < frameSize by decide)
          rw [Nat.add_mul] at hhi
          rw [List.take_zero, spanSum, List.map_nil, List.sum_nil] at hx
          omega
      | succ i =>
          refine ih (p := p + fileSpan size) (i := i) ha ?_
          rw [headerAddr, Nat.add_assoc]
          exact hx

end Files

/-! ### The run -/

section Run
variable {env : Noise} {s s' : Unpack} {n size mode : Nat} {fresh : Mem}

theorem Unpack.create_some (h : s.create mode = some (n, s')) :
    ∃ v', s' = { s with v := v', mem := cutName s.mem s.currentFile (strAt s.mem s.currentFile) } := by
  unfold Unpack.create at h
  obtain ⟨⟨node, v'⟩, -, h⟩ := Option.bind_eq_some_iff.mp h
  obtain ⟨k, -, h⟩ := Option.bind_eq_some_iff.mp h
  obtain ⟨-, rfl⟩ := Prod.mk.inj (Option.some.inj h)
  exact ⟨v', rfl⟩

theorem Unpack.write_some (h : s.write n fresh size = some s') : ∃ v', s' = { s with v := v' } := by
  unfold Unpack.write at h
  split at h
  · cases h
  · obtain ⟨⟨ret, node⟩, -, h⟩ := Option.bind_eq_some_iff.mp h
    obtain ⟨-, h⟩ := Option.ite_none_right_eq_some.mp h
    exact ⟨_, (Option.some.inj h).symm⟩
  · obtain ⟨⟨ret, node⟩, -, h⟩ := Option.bind_eq_some_iff.mp h
    obtain ⟨-, h⟩ := Option.ite_none_right_eq_some.mp h
    exact ⟨_, (Option.some.inj h).symm⟩

/-- Creating a node changes no byte behind the header. -/
theorem Unpack.create_behind (hname : (strAt s.mem s.currentFile).length < 512)
    (h : s.create mode = some (n, s')) : s'.freed = s.freed ∧ s'.currentFile = s.currentFile ∧
      ∀ x, s.currentFile + 512 ≤ x → s'.mem x = s.mem x := by
  obtain ⟨v', rfl⟩ := create_some h
  exact ⟨rfl, rfl, fun x hx => cutName_above (by omega)⟩

theorem Unpack.unpackType_behind (hname : (strAt s.mem s.currentFile).length < 512) (hf : s.FreedBelow)
    (h : s.unpackType env size = some s') : s'.freed = s.freed ∧
      ∀ x, s.currentFile + 512 ≤ x → s'.mem x = s.mem x := by
  unfold Unpack.unpackType at h
  dsimp only at h
  split at h
  · obtain ⟨⟨n, s₁⟩, hcreate, hwrite⟩ := Option.bind_eq_some_iff.mp h
    obtain ⟨hfreed, hcur, hmem⟩ := create_behind hname hcreate
    obtain ⟨v', rfl⟩ := write_some hwrite
    have hf₁ : s₁.FreedBelow := by
      unfold FreedBelow
      rw [hfreed, hcur]
      exact hf
    refine ⟨hfreed, fun x hx => ?_⟩
    exact (hf₁.reuse env.during (by omega)).trans (hmem x hx)
  · split at h
    · obtain ⟨⟨n, s₁⟩, hcreate, rfl⟩ := Option.map_eq_some_iff.mp h
      obtain ⟨hfreed, -, hmem⟩ := create_behind hname hcreate
      exact ⟨hfreed, hmem⟩
    · cases h
      exact ⟨rfl, fun _ _ => rfl⟩

/-- A turn that is completed steps over one file, gives back frames before the next header
and leaves everything from there on. -/
theorem Unpack.turn_behind (hh : UstarAt s.mem s.currentFile size) (hf : s.FreedBelow) (h : s.turn env = some s') :
    s'.currentFile = s.currentFile + fileSpan size ∧
    s'.freed = s.freed ++ List.range' (s.currentFile / frameSize) (fileSpan size / frameSize) ∧
    s'.FreedBelow ∧ ∀ x, s'.currentFile ≤ x → s'.mem x = s.mem x := by
  unfold Unpack.turn at h
  obtain ⟨s₁, htype, h⟩ := Option.bind_eq_some_iff.mp h
  rw [hh.oct2int] at htype h
  rw [hh.span] at h
  obtain ⟨hfreed, hmem⟩ := unpackType_behind hh.name_short hf htype
  cases h
  have hspan : 512 ≤ fileSpan size := Nat.le_add_right _ _
  refine ⟨rfl, by rw [hfreed], ?_, fun x hx => hmem x (le_trans (Nat.add_le_add_left hspan _) hx)⟩
  intro f hmem
  rcases List.mem_append.mp hmem with hold | hnew
  · rw [hfreed] at hold
    exact (hf f hold).trans (Nat.le_add_right _ _)
  · exact frames_below hnew

end Run

section Consumed
variable {env : Nat → Noise} {m : Mem} {address size : Nat} {v : Vfs} {sizes : List Nat} {calls : List (Nat × Nat)}
  {s : Unpack}

/-- After some turns: the files done, the calls made for them, and the files left, which are
still as they were. -/
structure Unpack.Consumed (address : Nat) (sizes : List Nat) (calls : List (Nat × Nat)) (s : Unpack)
    (done rest : List Nat) : Prop where
  files : sizes = done ++ rest
  frees : calls = fileCalls address done
  cursor : s.currentFile = address + spanSum done
  freed : s.freed = calls.flatMap fun a => List.range' (a.1 / frameSize) a.2
  below : s.FreedBelow
  left : FilesAt s.mem s.currentFile rest

/-- What one turn keeps. -/
theorem Unpack.Consumed.turn {done rest : List Nat} (h : Unpack.Consumed address sizes calls s done rest)
    {noise : Noise} {s' : Unpack} (hm : bytesAt (s.reuse noise.before).mem (s.currentFile + tarMagic) 5 = ustar)
    (ht : (s.reuse noise.before).turn noise = some s') :
    ∃ done' rest', Unpack.Consumed address sizes (calls ++ [(s.reuse noise.before).freeCall]) s' done' rest' := by
  have hleft : FilesAt (s.reuse noise.before).mem s.currentFile rest := h.left.congr fun x => h.below.reuse noise.before
  cases hleft with
  | stop hno => exact absurd hm hno
  | @file _ size rest hh hrest =>
      have hbelow : (s.reuse noise.before).FreedBelow := h.below
      obtain ⟨hcur, hfreed, hbelow', hmem⟩ := turn_behind hh hbelow ht
      have hcall : (s.reuse noise.before).freeCall = (s.currentFile, fileSpan size / frameSize) := by
        rw [freeCall, show (s.reuse noise.before).currentFile = s.currentFile from rfl, hh.oct2int, hh.span]
      refine ⟨done ++ [size], rest, ?_, ?_, ?_, ?_, hbelow', ?_⟩
      · rw [h.files, List.append_assoc]
        rfl
      · rw [hcall, fileCalls_append, ← h.frees, ← h.cursor]
        rfl
      · rw [hcur, spanSum_append, ← Nat.add_assoc, ← h.cursor]
        rfl
      · rw [hfreed, List.flatMap_append, hcall]
        exact congrArg₂ (· ++ ·) h.freed (List.append_nil _).symm
      · rw [hcur] at hmem ⊢
        exact hrest.congr hmem

theorem Unpack.Turns.consumed (hfiles : FilesAt m address sizes)
    (hr : Turns env ⟨m, address, v, [], []⟩ calls s) : ∃ done rest, Consumed address sizes calls s done rest := by
  induction hr with
  | start => exact ⟨[], sizes, rfl, rfl, rfl, rfl, fun f hf => absurd hf List.not_mem_nil, hfiles⟩
  | turn _ hm ht ih =>
      obtain ⟨done, rest, h⟩ := ih
      exact h.turn hm ht

/-- A run that returns has made the calls for all files. -/
theorem initramfsInit_turns {fuel : Nat} (hfiles : FilesAt m address sizes)
    (hinit : initramfsInit env fuel m address v = some s) :
    ∃ s₁, Unpack.Turns env ⟨m, address, v, [], []⟩ (fileCalls address sizes) s₁ ∧ s.freed = s₁.freed := by
  obtain ⟨calls, s₁, hr, rfl, hm⟩ := Unpack.loop_turns .start hinit
  obtain ⟨done, rest, h⟩ := hr.consumed hfiles
  have hleft := h.left.congr fun x => h.below.reuse (env calls.length).before
  refine ⟨s₁, ?_, rfl⟩
  cases hleft with
  | stop hno =>
      rw [h.files, List.append_nil, ← h.frees]
      exact hr
  | file hh hrest => exact absurd hh.magic hm

/-- Unpacking an archive in a module at a multiple of a frame: at any point of the loop the
frames of the calls of `pmm_free` so far are pairwise disjoint and lie in the module, none of
them has a byte of the header that follows or of anything behind it, and the files that are
left are still there. -/
theorem freed_frames_are_consumed (ha : address % frameSize = 0) (hfiles : FilesAt m address sizes)
    (hin : spanSum sizes ≤ size) (hr : Unpack.Turns env ⟨m, address, v, [], []⟩ calls s) :
    calls.Pairwise (fun a b => (freeBits a.1 a.2).Disjoint (freeBits b.1 b.2)) ∧
    (∀ a ∈ calls, ∀ f ∈ freeBits a.1 a.2, address ≤ f * frameSize ∧ (f + 1) * frameSize ≤ address + size) ∧
    (∀ (i : Nat) a, calls[i]? = some a → ∀ x, headerAddr address sizes (i + 1) ≤ x →
      x / frameSize ∉ freeBits a.1 a.2) ∧
    s.currentFile = headerAddr address sizes calls.length ∧
    FilesAt s.mem s.currentFile (sizes.drop calls.length) := by
  obtain ⟨done, rest, h⟩ := hr.consumed hfiles
  have hlen : calls.length = done.length := by rw [h.frees, length_fileCalls]
  have hall : fileCalls address sizes = calls ++ fileCalls (address + spanSum done) rest := by
    rw [h.files, fileCalls_append, ← h.frees]
  refine ⟨?_, ?_, ?_, ?_, ?_⟩
  · rw [h.frees]
    exact fileCalls_disjoint address done
  · intro a hmem f hf
    obtain ⟨hlo, hhi⟩ := fileCalls_bounds (hall ▸ List.mem_append_left _ hmem) hf
    refine ⟨?_, by omega⟩
    simp only [frameSize] at ha hlo ⊢
    omega
  · intro i a hi x hx
    refine fileCalls_behind ?_ hx
    rw [hall, List.getElem?_append_left (List.getElem?_eq_some_iff.mp hi).1]
    exact hi
  · rw [headerAddr, hlen, h.files, List.take_left, h.cursor]
  · rw [hlen, h.files, List.drop_left]
    exact h.left

end Consumed

theorem contiguousArchive_files : FilesAt contiguousArchive 4096 [3584, 3584, 2] := by
  have hfiles := contiguousArchive_at.files
  have hlen : ∀ name, (contiguous name).data.length = 3584 := fun _ => List.length_replicate
  rwa [List.map_cons, List.map_cons, hlen, hlen] at hfiles

/-- The files of seven blocks give back the one frame that each of them fills, the short one none. -/
theorem contiguous_frames_consumed : ∃ s,
    Unpack.Turns (fun _ => ⟨fun _ => 255, fun _ => 255, fun _ => 255⟩) ⟨contiguousArchive, 4096, initTree, [], []⟩
      [(4096, 1), (8192, 1), (12288, 0)] s ∧
    [(4096, 1), (8192, 1), (12288, 0)].Pairwise (fun a b => (freeBits a.1 a.2).Disjoint (freeBits b.1 b.2)) ∧
    (∀ a ∈ [(4096, 1), (8192, 1), (12288, 0)], ∀ f ∈ freeBits a.1 a.2,
      4096 ≤ f * frameSize ∧ (f + 1) * frameSize ≤ 4096 + 9728) ∧
    (∀ (i : Nat) a, [(4096, 1), (8192, 1), (12288, 0)][i]? = some a →
      ∀ x, headerAddr 4096 [3584, 3584, 2] (i + 1) ≤ x → x / frameSize ∉ freeBits a.1 a.2) ∧
    s.currentFile = headerAddr 4096 [3584, 3584, 2] 3 ∧ FilesAt s.mem s.currentFile [] := by
  obtain ⟨s, hkeys, -⟩ := initramfsKeys_eq (show vfsInit (fun _ _ => 0) = some initTree from rfl)
    contiguousArchive_at contiguousArchive_wellFormed fun _ => ⟨fun _ => 255, fun _ => 255, fun _ => 255⟩
  have hinit := (Unpack.loopKeys_state _ _ 0 _ []).symm.trans (congrArg (Option.map Prod.fst) hkeys)
  obtain ⟨s₁, hr, -⟩ := initramfsInit_turns contiguousArchive_files hinit
  exact ⟨s₁, hr, freed_frames_are_consumed (by decide) contiguousArchive_files (by decide) hr⟩

end Flan.Fs
