import Flan.Memory.VmmRun
import Flan.Proc.Process

/-! `syscall_mmap` of `sys/syscalls/syscalls.c`, and what it can reach of the
half of the address space that belongs to the kernel. -/
namespace Flan.Sys
open Flan.Lib Flan.Memory Flan.Proc

def userSpaceEnd : Nat := 0x00007FFFFFFFFFFF
def mapFixed : BitVec 32 := 0x10
def mapAnon : BitVec 32 := 0x20
def mapFailed : Nat := 2 ^ 64 - 1
def einval : Nat := 22

/-- The pointer returned, what the call stored to `errno` and printed, and the
process and machine after it. -/
structure MmapResult (σ : Type) where
  ret : Nat
  errno : Option Nat
  printed : String
  proc : Process
  vmm : Vmm σ

/-- `prot | PTE_PRESENT | PTE_WRITABLE | PTE_USER`, where the int is widened to
64 bits with its sign. -/
def mmapFlags (prot : BitVec 32) : Nat :=
  (prot.signExtend 64).toNat ||| ptePresent ||| pteWritable ||| pteUser

section Source
variable {σ : Type} (F : FrameSource σ)

/-- The part of the call after the address has been chosen. -/
def mmapAt (s : Vmm σ) (proc : Process) (virt pages : Nat) (prot : BitVec 32) :
    Option (MmapResult σ) :=
  let r := pmmCalloc F s pages
  if r.1 = 0 then some ⟨mapFailed, none, "", proc, r.2⟩
  else do
    let s ← vmmMapPages F r.2 proc.pagemap r.1 virt (mmapFlags prot) pages
    return ⟨virt, none, "", proc, s⟩

def syscallMmap (s : Vmm σ) (proc : Process) (hint length : Nat) (prot flags : BitVec 32) :
    Option (MmapResult σ) :=
  if flags &&& mapAnon = 0 then some ⟨mapFailed, none, "Not implemented.\n", proc, s⟩
  else
    let pages := alignUpFrame length / frameSize
    if flags &&& mapFixed ≠ 0 then
      if hint > userSpaceEnd ∨ length = 0 ∨ hint = 0 then some ⟨mapFailed, some einval, "", proc, s⟩
      else mmapAt F s proc hint pages prot
    else
      let proc' := { proc with anonBase := (proc.anonBase + pages * frameSize) % 2 ^ 64 }
      mmapAt F s proc' proc.anonBase pages prot

end Source

/-! ### The condition -/

section Calls
variable {σ : Type} {F : FrameSource σ} {s : Vmm σ} {proc : Process} {lev : Nat → Nat}

/-- The arguments of a call. -/
structure MmapCall where
  hint : Nat
  length : Nat
  prot : BitVec 32
  flags : BitVec 32

def MmapCall.exec (F : FrameSource σ) (s : Vmm σ) (proc : Process) (c : MmapCall) :
    Option (MmapResult σ) := syscallMmap F s proc c.hint c.length c.prot c.flags

def MmapCall.pages (c : MmapCall) : Nat := alignUpFrame c.length / frameSize

/-- Where the call would map, if it comes to that. -/
def MmapCall.target (proc : Process) (c : MmapCall) : Option Nat :=
  if c.flags &&& mapAnon = 0 then none
  else if c.flags &&& mapFixed ≠ 0 then
    if c.hint > userSpaceEnd ∨ c.length = 0 ∨ c.hint = 0 then none else some c.hint
  else some proc.anonBase

/-- The process once the call has taken its addresses. -/
def MmapCall.reserve (proc : Process) (c : MmapCall) : Process :=
  if c.flags &&& mapFixed ≠ 0 then proc
  else { proc with anonBase := (proc.anonBase + c.pages * frameSize) % 2 ^ 64 }

/-- A table with an entry that is reached through a slot from 256 on. -/
def UpperTable (m : Mem) (top table : Nat) : Prop :=
  ∃ i is j, Upper i ∧ is.length ≤ 3 ∧ reach (child m) top (i :: is) = some (table, j)

/-- The range ends at or below the end of user space; or, when there are no
frames for it, none of the frames that the failed `pmm_calloc` zeroes is a
table of the upper half. -/
def MmapCall.Safe (F : FrameSource σ) (s : Vmm σ) (proc : Process) (c : MmapCall) : Prop :=
  ∀ virt, c.target proc = some virt →
    if (pmmCalloc F s c.pages).1 = 0 then
      ∀ table, UpperTable s.mem proc.pagemap table → c.pages * frameSize ≤ table
    else c.length = 0 ∨ virt + c.length ≤ 2 ^ 47

/-- The call returns a range that lies at or below the end of user space, or
fails. -/
def MmapCall.Below (c : MmapCall) (r : MmapResult σ) : Prop :=
  r.ret ≠ mapFailed → ∀ a, r.ret ≤ a → a < r.ret + c.length → a ≤ userSpaceEnd

/-! ### One call -/

theorem MmapCall.pages_lt (c : MmapCall) : c.pages < 2 ^ 52 := by
  simp only [MmapCall.pages, alignUpFrame, frameSize]
  omega

/-- The last page begins inside the range. -/
theorem MmapCall.page_inside (c : MmapCall) (hlen : c.length ≤ 2 ^ 47) {i : Nat} (hi : i < c.pages) :
    i * frameSize < c.length := by
  simp only [MmapCall.pages, alignUpFrame, frameSize] at hi ⊢
  omega

theorem MmapCall.exec_fixed (s : Vmm σ) (proc : Process) {c : MmapCall} (hanon : c.flags &&& mapAnon ≠ 0)
    (hfixed : c.flags &&& mapFixed ≠ 0) (hok : ¬ (c.hint > userSpaceEnd ∨ c.length = 0 ∨ c.hint = 0)) :
    c.exec F s proc = mmapAt F s proc c.hint c.pages c.prot := by
  rw [MmapCall.exec, syscallMmap, if_neg hanon, if_pos hfixed, if_neg hok, MmapCall.pages]

theorem MmapCall.exec_anywhere (s : Vmm σ) (proc : Process) {c : MmapCall} (hanon : c.flags &&& mapAnon ≠ 0)
    (hfixed : ¬ c.flags &&& mapFixed ≠ 0) : c.exec F s proc = mmapAt F s
      { proc with anonBase := (proc.anonBase + c.pages * frameSize) % 2 ^ 64 } proc.anonBase c.pages
      c.prot := by
  rw [MmapCall.exec, syscallMmap, if_neg hanon, if_neg hfixed, MmapCall.pages]

theorem MmapCall.reserve_pagemap (proc : Process) (c : MmapCall) : (c.reserve proc).pagemap = proc.pagemap := by
  rw [MmapCall.reserve]
  split
  · rfl
  · rfl

/-- A call is refused for its arguments, or it has addresses. -/
theorem MmapCall.exec_cases {c : MmapCall} {r : MmapResult σ} (h : c.exec F s proc = some r) :
    (c.target proc = none ∧ r.ret = mapFailed ∧ r.vmm = s ∧ r.proc = proc) ∨
    ∃ virt, c.target proc = some virt ∧ mmapAt F s (c.reserve proc) virt c.pages c.prot = some r := by
  rw [MmapCall.target, MmapCall.reserve]
  by_cases hanon : c.flags &&& mapAnon = 0
  · rw [MmapCall.exec, syscallMmap, if_pos hanon] at h
    cases h
    exact .inl ⟨if_pos hanon, rfl, rfl, rfl⟩
  · rw [if_neg hanon]
    by_cases hfixed : c.flags &&& mapFixed ≠ 0
    · rw [if_pos hfixed, if_pos hfixed]
      by_cases hbad : c.hint > userSpaceEnd ∨ c.length = 0 ∨ c.hint = 0
      · rw [MmapCall.exec, syscallMmap, if_neg hanon, if_pos hfixed, if_pos hbad] at h
        cases h
        exact .inl ⟨if_pos hbad, rfl, rfl, rfl⟩
      · rw [MmapCall.exec_fixed s proc hanon hfixed hbad] at h
        exact .inr ⟨c.hint, if_neg hbad, h⟩
    · rw [if_neg hfixed, if_neg hfixed]
      rw [MmapCall.exec_anywhere s proc hanon hfixed] at h
      exact .inr ⟨proc.anonBase, rfl, h⟩

theorem mmapAt_cases {virt pages : Nat} {prot : BitVec 32} {r : MmapResult σ}
    (h : mmapAt F s proc virt pages prot = some r) :
    ((pmmCalloc F s pages).1 = 0 ∧ r = ⟨mapFailed, none, "", proc, (pmmCalloc F s pages).2⟩) ∨
    ((pmmCalloc F s pages).1 ≠ 0 ∧ ∃ s', vmmMapPages F (pmmCalloc F s pages).2 proc.pagemap
      (pmmCalloc F s pages).1 virt (mmapFlags prot) pages = some s' ∧ r = ⟨virt, none, "", proc, s'⟩) := by
  simp only [mmapAt] at h
  split at h
  case isTrue hnull =>
      cases h
      exact .inl ⟨hnull, rfl⟩
  case isFalse hne =>
      simp only [Option.bind_eq_bind, Option.bind_eq_some_iff, Option.pure_def,
        Option.some.injEq] at h
      obtain ⟨s', hmap, rfl⟩ := h
      exact .inr ⟨hne, s', hmap, rfl⟩

/-- A failed request zeroes the first frames of memory. -/
theorem failed_calloc (ht : Tables F s lev) {pages : Nat} (hpages : pages < 2 ^ 52)
    (hnull : (pmmCalloc F s pages).1 = 0) :
    Tables F (pmmCalloc F s pages).2 lev ∧
      (∀ x k, lev x ≠ 0 → pages * frameSize ≤ x →
        entry (pmmCalloc F s pages).2.mem x k = entry s.mem x k) ∧
      ∀ x k, lev x ≠ 0 → entry (pmmCalloc F s pages).2.mem x k = entry s.mem x k ∨
        entry (pmmCalloc F s pages).2.mem x k = 0 := by
  have hsize : pages * frameSize % 2 ^ 64 = pages * frameSize :=
    Nat.mod_eq_of_lt (by rw [frameSize]; omega)
  have hnull' : (F.malloc s.src pages).1 = frameSize * 0 := hnull
  have hmem : (pmmCalloc F s pages).2.mem = memset s.mem (frameSize * 0) 0 (pages * frameSize) := by
    simp only [pmmCalloc, hnull', hsize]
  have hkeep : ∀ x k, lev x ≠ 0 → pages * frameSize ≤ x →
      entry (pmmCalloc F s pages).2.mem x k = entry s.mem x k := by
    intro x k hx hle
    obtain ⟨b, rfl, -, -⟩ := ht.frame x hx
    rw [hmem]
    refine entry_memset_ne (.inr ?_)
    rw [frameSize] at hle
    omega
  have hclear : ∀ x k, lev x ≠ 0 → entry (pmmCalloc F s pages).2.mem x k = entry s.mem x k ∨
      entry (pmmCalloc F s pages).2.mem x k = 0 := by
    intro x k hx
    by_cases hle : pages * frameSize ≤ x
    · exact .inl (hkeep x k hx hle)
    · obtain ⟨b, rfl, -, -⟩ := ht.frame x hx
      rw [hmem]
      refine .inr (entry_memset_same (Nat.zero_le b) ?_)
      rw [frameSize] at hle
      omega
  exact ⟨ht.cleared _ hclear fun f => F.keeps s.src pages f, hkeep, hclear⟩

/-- Pages below the end of user space leave the upper half alone. -/
theorem mapped_below (ht : Tables F s lev) {top physical virt flags n : Nat} (htop : lev top = 4)
    (hf : flags < 2 ^ 64) (hbelow : ∀ i, i < n → virt + i * frameSize < 2 ^ 47) {s' : Vmm σ}
    (h : vmmMapPages F s top physical virt flags n = some s') :
    UpperSame s.mem s'.mem top ∧ ∃ lev', Tables F s' lev' ∧ lev' top = 4 := by
  refine vmmMapPages_rule (P := fun _ s₁ => UpperSame s.mem s₁.mem top ∧
    ∃ lev', Tables F s₁ lev' ∧ lev' top = 4) ⟨.refl, lev, ht, htop⟩ ?_ h
  rintro i s₁ s₂ hi ⟨hup, lev₁, ht₁, htop₁⟩ hmap
  have hb := hbelow i hi
  rw [Nat.mod_eq_of_lt (show virt + i * frameSize < 2 ^ 64 by omega)] at hmap
  obtain ⟨lev₂, hs, -⟩ := vmmMapPage_spec ht₁ htop₁ (Nat.mod_lt _ (by decide)) hf hmap
  exact ⟨hup.trans (hs.upper (lower_slot hb)), lev₂, hs.tables, (hs.level top (by omega)).trans htop₁⟩

theorem mmapFlags_lt (prot : BitVec 32) : mmapFlags prot < 2 ^ 64 :=
  Nat.or_lt_two_pow (Nat.or_lt_two_pow (Nat.or_lt_two_pow (BitVec.isLt _) (by decide)) (by decide))
    (by decide)

/-- A safe call keeps the upper half, returns a range of user space, and leaves
the tables in order. -/
theorem MmapCall.step (ht : Tables F s lev) (htop : lev proc.pagemap = 4) {c : MmapCall}
    (hsafe : c.Safe F s proc) {r : MmapResult σ} (h : c.exec F s proc = some r) :
    UpperSame s.mem r.vmm.mem proc.pagemap ∧ c.Below r ∧ r.proc.pagemap = proc.pagemap ∧
      ∃ lev', Tables F r.vmm lev' ∧ lev' proc.pagemap = 4 := by
  rcases MmapCall.exec_cases h with ⟨-, hret, hvmm, hproc⟩ | ⟨virt, htarget, hat⟩
  · rw [hvmm, hproc]
    exact ⟨.refl, fun hok => absurd hret hok, rfl, lev, ht, htop⟩
  · have hcond := hsafe virt htarget
    have hproc := c.reserve_pagemap proc
    rcases mmapAt_cases hat with ⟨hnull, rfl⟩ | ⟨hne, s', hmap, rfl⟩
    · rw [if_pos hnull] at hcond
      obtain ⟨ht', hkeep, -⟩ := failed_calloc ht c.pages_lt hnull
      refine ⟨?_, fun hok => absurd rfl hok, hproc, lev, ht', htop⟩
      refine upperSame_of_cells htop fun i is q hup hk hsame => ?_
      have hlev := reach_level ht.levelled hk hsame
      rw [htop, List.length_cons] at hk
      exact hkeep q.1 q.2 (by omega) (hcond q.1 ⟨i, is, q.2, hup, by omega, hsame⟩)
    · rw [if_neg hne] at hcond
      have hcalloc := ht.upper_of_same htop (ht.calloc_keeps hne)
      have hbelow : ∀ i, i < c.pages → virt + i * frameSize < 2 ^ 47 := by
        intro i hi
        have hinside := c.page_inside (by omega) hi
        omega
      rw [hproc] at hmap
      obtain ⟨hup, lev', ht', htop'⟩ := mapped_below (ht.calloc hne).tables htop (mmapFlags_lt c.prot)
        hbelow hmap
      refine ⟨hcalloc.trans hup, fun _ a hlo hhi => ?_, hproc, lev', ht', htop'⟩
      simp only at hlo hhi
      rw [userSpaceEnd]
      omega

/-- The states that safe calls of one process lead to. -/
inductive SafeMmaps (F : FrameSource σ) (s : Vmm σ) (proc : Process) : Vmm σ → Process → Prop
  | start : SafeMmaps F s proc s proc
  | call {s₁ : Vmm σ} {proc₁ : Process} {c : MmapCall} {r : MmapResult σ}
      (hrun : SafeMmaps F s proc s₁ proc₁) (h : c.exec F s₁ proc₁ = some r)
      (hsafe : c.Safe F s₁ proc₁) : SafeMmaps F s proc r.vmm r.proc

theorem SafeMmaps.tables (ht : Tables F s lev) (htop : lev proc.pagemap = 4) {s₁ : Vmm σ}
    {proc₁ : Process} (hrun : SafeMmaps F s proc s₁ proc₁) :
    proc₁.pagemap = proc.pagemap ∧ UpperSame s.mem s₁.mem proc.pagemap ∧
      ∃ lev', Tables F s₁ lev' ∧ lev' proc.pagemap = 4 := by
  induction hrun with
  | start => exact ⟨rfl, .refl, lev, ht, htop⟩
  | call _ h hsafe ih =>
      obtain ⟨hproc, hup, lev₁, ht₁, htop₁⟩ := ih
      rw [← hproc] at htop₁
      obtain ⟨hup', -, hproc', lev₂, ht₂, htop₂⟩ := MmapCall.step ht₁ htop₁ hsafe h
      rw [hproc] at hup' hproc' htop₂
      exact ⟨hproc', hup.trans hup', lev₂, ht₂, htop₂⟩

/-- In every run of safe calls, from any state of the page tables and of the
process, no call changes an entry that is reached through the slots from 256
on, and every range returned lies at or below the end of user space. -/
theorem mmap_keeps_upper_half {w : VmmRun σ} (hw : VmmReaches F w) (hproc : proc.pagemap ∈ w.tops)
    {s₁ : Vmm σ} {proc₁ : Process} (hrun : SafeMmaps F w.vmm proc s₁ proc₁) {c : MmapCall}
    (hsafe : c.Safe F s₁ proc₁) {r : MmapResult σ} (h : c.exec F s₁ proc₁ = some r) :
    UpperSame s₁.mem r.vmm.mem proc.pagemap ∧ c.Below r := by
  obtain ⟨lev, hinv⟩ := hw.inv
  obtain ⟨heq, -, lev₁, ht₁, htop₁⟩ := hrun.tables hinv.tables (hinv.tops _ hproc)
  rw [← heq] at htop₁ ⊢
  obtain ⟨hup, hbelow, -⟩ := MmapCall.step ht₁ htop₁ hsafe h
  exact ⟨hup, hbelow⟩

/-! ### Two calls on a new pagemap -/

/-- A source after four requests for one frame. -/
def takeFour {σ : Type} (F : FrameSource σ) (t : σ) : σ :=
  let take t := (F.malloc t 1).2
  take (take (take (take t)))

/-- The tops of the kernel and of one pagemap with nothing in its slots. -/
theorem new_pagemap {σ : Type} {F : FrameSource σ} {s : Vmm σ} (hready : F.Ready s.src 4) :
    ∃ w top, VmmReaches F w ∧ top ∈ w.tops ∧ w.vmm.src = takeFour F s.src ∧
      ∀ i, child w.vmm.mem top i = none := by
  obtain ⟨r, hr, hsrc, hready⟩ := newTop_returns (n := 2) hready
  obtain ⟨q, hq, hsrc', -⟩ := newTop_returns (n := 0) hready
  have hnew : vmmNewPagemap F r.2 r.1 =
      some (q.1, { q.2 with mem := copySlots q.2.mem q.1 r.1 256 }) := by
    simp only [vmmNewPagemap, hq, Option.bind_eq_bind, Option.bind_some, Option.pure_def]
  have hexec : VmmOp.newPagemap.exec F ⟨r.2, r.1, [], []⟩ = some
      ⟨{ q.2 with mem := copySlots q.2.mem q.1 r.1 256 }, r.1,
        [⟨q.1, fun i => (child r.2.mem r.1 i).isSome⟩], []⟩ := by
    simp only [VmmOp.exec, hnew, Option.bind_eq_bind, Option.bind_some, Option.pure_def]
  have hnone : Tables F s fun _ => 0 := Tables.none
  obtain ⟨lev, hs, -⟩ := newTop_spec hnone hr
  obtain ⟨lev', hs', -⟩ := vmmNewPagemap_spec hs.tables hs.root hnew
  refine ⟨_, q.1, (VmmReaches.init hr).step hexec trivial, by simp [VmmRun.tops], ?_, fun i => ?_⟩
  · simp only [hsrc', hsrc]
    rfl
  · refine (hs'.slots i).trans ?_
    split
    · exact hs.slots i
    · rfl

/-- The frames left after the tops of the kernel and of one pagemap. -/
def fourTaken : { p : Pmm // p.limit ≤ 2 ^ 40 } := takeFour pmmSource openVmm.src

theorem openVmm_four : pmmSource.Ready openVmm.src 4 :=
  pmmSource_ready (show (List.range' 1 4).Nodup by decide) (by decide) (by decide)

theorem fresh_pagemap : ∃ w top, VmmReaches pmmSource w ∧ top ∈ w.tops ∧ w.vmm.src = fourTaken ∧
    ∀ i, child w.vmm.mem top i = none := new_pagemap openVmm_four

theorem fourTaken_ready : (pmmSource.malloc fourTaken 2).1 ≠ 0 ∧
    pmmSource.Ready (pmmSource.malloc fourTaken 2).2 6 :=
  ⟨by decide, pmmSource_ready (show (List.range' 7 6).Nodup by decide) (by decide) (by decide)⟩

theorem two_pages {w : VmmRun { p : Pmm // p.limit ≤ 2 ^ 40 }} (hsrc : w.vmm.src = fourTaken)
    (proc : Process) (virt : Nat) (prot : BitVec 32) : (pmmCalloc pmmSource w.vmm 2).1 ≠ 0 ∧
    ∃ s', vmmMapPages pmmSource (pmmCalloc pmmSource w.vmm 2).2 proc.pagemap
        (pmmCalloc pmmSource w.vmm 2).1 virt (mmapFlags prot) 2 = some s' ∧
      mmapAt pmmSource w.vmm proc virt 2 prot = some ⟨virt, none, "", proc, s'⟩ := by
  have hgrant := fourTaken_ready
  rw [← hsrc] at hgrant
  have hne : (pmmCalloc pmmSource w.vmm 2).1 ≠ 0 := hgrant.1
  have hready : pmmSource.Ready (pmmCalloc pmmSource w.vmm 2).2.src (0 + 3 * 2) := hgrant.2
  obtain ⟨s', hmap, -⟩ := vmmMapPages_returns hready
  refine ⟨hne, s', hmap, ?_⟩
  rw [mmapAt, if_neg hne, hmap]
  rfl

/-- Two pages anywhere, for a process that has none yet. -/
theorem anonymous_pages_stay_below : ∃ w proc, VmmReaches pmmSource w ∧ proc.pagemap ∈ w.tops ∧
    ∃ r, MmapCall.exec pmmSource w.vmm proc ⟨0, 0x1800, 3, 0x20⟩ = some r ∧ r.ret = 0x80000000000 ∧
      UpperSame w.vmm.mem r.vmm.mem proc.pagemap := by
  obtain ⟨w, top, hw, htop, hsrc, -⟩ := fresh_pagemap
  let c : MmapCall := ⟨0, 0x1800, 3, 0x20⟩
  have hpages : c.pages = 2 := by decide
  have hexec := MmapCall.exec_anywhere (F := pmmSource) w.vmm (freshProcess top) (c := c)
    (by decide) (by decide)
  rw [hpages] at hexec
  obtain ⟨hne, s', -, hat⟩ := two_pages hsrc _ (freshProcess top).anonBase c.prot
  have hsafe : c.Safe pmmSource w.vmm (freshProcess top) := by
    intro virt htarget
    rw [MmapCall.target, if_neg (by decide), if_neg (by decide)] at htarget
    cases htarget
    rw [hpages, if_neg hne]
    exact .inr (show 0x80000000000 + 0x1800 ≤ 2 ^ 47 by decide)
  exact ⟨w, freshProcess top, hw, htop, _, hexec.trans hat, rfl,
    (mmap_keeps_upper_half hw htop .start hsafe (hexec.trans hat)).1⟩

/-- Two pages fixed at the last page of user space: the second one goes into
slot 256. -/
theorem fixed_range_enters_upper_half : ∃ w proc, VmmReaches pmmSource w ∧ proc.pagemap ∈ w.tops ∧
    ∃ r, MmapCall.exec pmmSource w.vmm proc ⟨0x7FFFFFFFF000, 0x2000, 3, 0x30⟩ = some r ∧
      r.ret = 0x7FFFFFFFF000 ∧ ¬ UpperSame w.vmm.mem r.vmm.mem proc.pagemap ∧
      ¬ MmapCall.Below ⟨0x7FFFFFFFF000, 0x2000, 3, 0x30⟩ r := by
  obtain ⟨w, top, hw, htop, hsrc, hblank⟩ := fresh_pagemap
  let c : MmapCall := ⟨0x7FFFFFFFF000, 0x2000, 3, 0x30⟩
  have hpages : c.pages = 2 := by decide
  have hexec := MmapCall.exec_fixed (F := pmmSource) w.vmm (freshProcess top) (c := c)
    (by decide) (by decide) (by decide)
  rw [hpages] at hexec
  obtain ⟨hne, s', hmap, hat⟩ := two_pages hsrc (freshProcess top) c.hint c.prot
  refine ⟨w, freshProcess top, hw, htop, _, hexec.trans hat, rfl, fun hup => ?_, fun hbelow => ?_⟩
  · obtain ⟨lev, hinv⟩ := hw.inv
    have hlev := hinv.tops top htop
    rw [vmmMapPages, Option.bind_eq_bind, Option.bind_eq_some_iff] at hmap
    obtain ⟨s₁, hfirst, hlast⟩ := hmap
    obtain ⟨-, lev₁, ht₁, hlev₁⟩ := mapped_below (hinv.tables.calloc hne).tables hlev (mmapFlags_lt c.prot)
      (by decide) hfirst
    obtain ⟨_, hs, -⟩ := vmmMapPage_spec ht₁ hlev₁ (Nat.mod_lt _ (by decide)) (mmapFlags_lt c.prot) hlast
    -- The second page is mapped now, so its slot is in use, and it was not before.
    have hmapped := hs.here 0x800000000000 (by decide)
    have hcell := hup 256 [] (by decide) (by decide)
    simp only [cellAt, reach, Option.map_some, Option.some.injEq] at hcell
    have habsent : child s'.mem top (slotAt 0x800000000000 39) = none :=
      (child_congr hcell).trans (hblank 256)
    rw [translation_absent habsent] at hmapped
    exact absurd (Nat.or_eq_zero_iff.mp hmapped.symm).2 (by decide)
  · have hret : c.hint ≠ mapFailed := by decide
    have hlo : c.hint ≤ 0x800000000000 := by decide
    have hhi : 0x800000000000 < c.hint + c.length := by decide
    exact absurd (hbelow hret 0x800000000000 hlo hhi) (by decide)

end Calls
end Flan.Sys
