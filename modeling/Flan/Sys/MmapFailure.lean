import Flan.Memory.VmmInit
import Flan.Sys.Mmap

/-! What calls of `syscall_mmap` that return `MAP_FAILED` leave behind. Where `pmm_calloc`
has found no frames it clears memory from `HHDM_OFFSET` on all the same, through the tables
of the process. `vmm_init` leaves the first page there out, and the write to a page that is
not mapped faults: the call does not return. -/
namespace Flan.Sys
open Flan.Lib Flan.Memory Flan.Proc

/-- Memory with the bitmap of its frames, and the process that calls. -/
structure MmapState where
  vmm : Vmm { p : Pmm // p.limit ≤ 2 ^ 40 }
  proc : Process

/-- The frame behind a page of the direct map. -/
def directFrame (m : Mem) (top hhdm i : Nat) : Nat :=
  translation m top ((hhdm + i * frameSize) % 2 ^ 64) &&& pteAddrMask

/-- `memset` from `HHDM_OFFSET` on, page by page. -/
def clearDirect (m : Mem) (top hhdm : Nat) : (pages : Nat) → Option Mem
  | 0 => some m
  | i+1 => do
      let m ← clearDirect m top hhdm i
      if flagWalk pteWritable m top (path ((hhdm + i * frameSize) % 2 ^ 64)) then
        some (memset m (directFrame m top hhdm i) 0 frameSize)
      else none

/-- The call with the direct map at `hhdm`; the frames that are handed out are in it. -/
def MmapState.exec (hhdm : Nat) (x : MmapState) (c : MmapCall) :
    Option (MmapResult { p : Pmm // p.limit ≤ 2 ^ 40 }) :=
  let r := pmmSource.malloc x.vmm.src c.pages
  if (c.target x.proc).isSome ∧ r.1 = 0 then do
    let mem ← clearDirect x.vmm.mem x.proc.pagemap hhdm c.pages
    return ⟨mapFailed, none, "", c.reserve x.proc, ⟨mem, r.2⟩⟩
  else c.exec pmmSource x.vmm x.proc

/-- The state after a call. -/
def MmapState.next (hhdm : Nat) (x : MmapState) (c : MmapCall) : MmapState :=
  (x.exec hhdm c).elim x fun r => ⟨r.vmm, r.proc⟩

/-- The call returns, and what it returns is `MAP_FAILED`. -/
def MmapState.Fails (hhdm : Nat) (x : MmapState) (c : MmapCall) : Prop :=
  ∃ r, x.exec hhdm c = some r ∧ r.ret = mapFailed

/-- The first page of the direct map is there. -/
def MmapState.DirectZero (hhdm : Nat) (x : MmapState) : Prop :=
  flagWalk pteWritable x.vmm.mem x.proc.pagemap (path (hhdm % 2 ^ 64))

instance (hhdm : Nat) (x : MmapState) : Decidable (x.DirectZero hhdm) := flagWalk.decidable ..

/-- The call is refused for its arguments; or it asks for no page; or the direct map begins
behind its first page, and `anon_base` is not `MAP_FAILED` itself; or the call brings its own
address, and what the direct map shows of its pages is zero already. -/
def MmapState.Harmless (hhdm : Nat) (x : MmapState) (c : MmapCall) : Prop :=
  c.target x.proc = none ∨ c.pages = 0 ∨ (¬ x.DirectZero hhdm ∧ x.proc.anonBase ≠ mapFailed) ∨
    (c.flags &&& mapFixed ≠ 0 ∧ ∀ i, i < c.pages → ∀ a, a < frameSize →
      x.vmm.mem (directFrame x.vmm.mem x.proc.pagemap hhdm i + a) = 0)

section Fails
variable {x : MmapState} {c : MmapCall} {r : MmapResult { p : Pmm // p.limit ≤ 2 ^ 40 }} {hhdm n : Nat}

/-- A request that fails, and one for nothing, leaves the bitmap as it is. -/
theorem malloc_unchanged (p : { p : Pmm // p.limit ≤ 2 ^ 40 }) (h : n = 0 ∨ (pmmSource.malloc p n).1 = 0) :
    (pmmSource.malloc p n).2 = p := by
  refine Subtype.ext ?_
  show (pmmMalloc p.val n).2 = p.val
  rcases Nat.eq_zero_or_pos n with rfl | hn
  · exact pmmMalloc_nothing p.val
  · have hnull : (pmmMalloc p.val n).1 = 0 := h.resolve_left (Nat.ne_of_gt hn)
    rcases pmmMalloc_spec p.val hn with ⟨b, hfit, hptr, -⟩ | ⟨-, hnone⟩
    · have hpos : 0 < frameSize * b := Nat.mul_pos (by decide) hfit.pos
      omega
    · rw [hnone]

theorem memset_zero_iff (m : Mem) (b n : Nat) : memset m b 0 n = m ↔ ∀ a, a < n → m (b + a) = 0 := by
  constructor
  · intro h a ha
    rw [← congrFun h (b + a), memset_apply, if_pos ⟨Nat.le_add_right b a, Nat.add_lt_add_left ha b⟩]
  · intro h
    funext y
    rw [memset_apply]
    split
    case isTrue hy =>
        obtain ⟨a, rfl⟩ := Nat.exists_eq_add_of_le hy.1
        exact (h a (by omega)).symm
    case isFalse => rfl

theorem clearDirect_succ {m m' : Mem} {top i : Nat} (h : clearDirect m top hhdm (i+1) = some m') :
    ∃ m₁, clearDirect m top hhdm i = some m₁ ∧
      flagWalk pteWritable m₁ top (path ((hhdm + i * frameSize) % 2 ^ 64)) ∧
      m' = memset m₁ (directFrame m₁ top hhdm i) 0 frameSize := by
  obtain ⟨m₁, hrest, h⟩ := Option.bind_eq_some_iff.mp h
  split at h
  case isTrue hwalk => exact ⟨m₁, hrest, hwalk, (Option.some.inj h).symm⟩
  case isFalse => cases h

/-- Bytes are kept, or they become zero. -/
theorem clearDirect_bytes {m m' : Mem} {top : Nat} (h : clearDirect m top hhdm n = some m') (a : Nat) :
    m' a = m a ∨ m' a = 0 := by
  induction n generalizing m' with
  | zero =>
      cases h
      exact .inl rfl
  | succ n ih =>
      obtain ⟨m₁, hrest, -, rfl⟩ := clearDirect_succ h
      rw [memset_apply]
      split
      · exact .inr rfl
      · exact ih hrest

/-- Nothing is changed exactly if it was zero before. -/
theorem clearDirect_same_iff {m m' : Mem} {top : Nat} (h : clearDirect m top hhdm n = some m') :
    m' = m ↔ ∀ i, i < n → ∀ a, a < frameSize → m (directFrame m top hhdm i + a) = 0 := by
  induction n generalizing m' with
  | zero =>
      cases h
      exact iff_of_true rfl fun i hi => absurd hi (Nat.not_lt_zero i)
  | succ n ih =>
      obtain ⟨m₁, hrest, -, rfl⟩ := clearDirect_succ h
      constructor
      · intro hsame
        -- What was cleared on the way has not come back.
        have hkept : m₁ = m := by
          funext a
          rcases clearDirect_bytes hrest a with hkeep | hzero
          · exact hkeep
          · have hend := congrFun hsame a
            rw [memset_apply] at hend
            split at hend
            · rw [hzero, hend]
            · exact hend
        rw [hkept] at hsame
        intro i hi
        rcases Nat.lt_succ_iff_lt_or_eq.mp hi with hlt | rfl
        · exact (ih hrest).mp hkept i hlt
        · exact (memset_zero_iff ..).mp hsame
      · intro hzero
        obtain rfl := (ih hrest).mpr fun i hi => hzero i (Nat.lt_succ_of_lt hi)
        exact (memset_zero_iff ..).mpr (hzero n n.lt_succ_self)

/-- It begins with the first page. -/
theorem clearDirect_first {m m' : Mem} {top : Nat} (hn : 0 < n) (h : clearDirect m top hhdm n = some m') :
    flagWalk pteWritable m top (path (hhdm % 2 ^ 64)) := by
  induction n generalizing m' with
  | zero => exact absurd hn (Nat.lt_irrefl 0)
  | succ n ih =>
      obtain ⟨m₁, hrest, hwalk, -⟩ := clearDirect_succ h
      rcases Nat.eq_zero_or_pos n with rfl | hpos
      · cases hrest
        rwa [Nat.zero_mul] at hwalk
      · exact ih hpos hrest

/-- Only an address of its own, or no page at all, leaves `anon_base` alone. -/
theorem MmapCall.reserve_eq_iff (proc : Process) (hbase : proc.anonBase < 2 ^ 64) (c : MmapCall) :
    c.reserve proc = proc ↔ c.pages = 0 ∨ c.flags &&& mapFixed ≠ 0 := by
  have hpages := c.pages_lt
  rw [MmapCall.reserve]
  split
  case isTrue hfixed => exact iff_of_true rfl (.inr hfixed)
  case isFalse hfixed =>
      rw [or_iff_left hfixed]
      constructor
      · intro h
        have hsame := congrArg Process.anonBase h
        simp only [frameSize] at hsame
        omega
      · intro hzero
        rw [hzero, Nat.zero_mul, Nat.add_zero, Nat.mod_eq_of_lt hbase]

/-- A call for no page that comes to `pmm_calloc` does nothing more. -/
theorem mmapAt_nothing {virt : Nat} {proc : Process} {prot : BitVec 32}
    (h : mmapAt pmmSource x.vmm proc virt 0 prot = some r) : r.vmm = x.vmm ∧ r.proc = proc := by
  have hcalloc : (pmmCalloc pmmSource x.vmm 0).2 = x.vmm := by
    simp only [pmmCalloc, Nat.zero_mul, Nat.zero_mod, memset, malloc_unchanged x.vmm.src (.inl rfl)]
  rcases mmapAt_cases h with ⟨-, rfl⟩ | ⟨-, s', hmap, rfl⟩
  · exact ⟨hcalloc, rfl⟩
  · cases hmap
    exact ⟨hcalloc, rfl⟩

/-- A call with a fixed address that returns `MAP_FAILED` has found no frames. -/
theorem fixed_fails {virt : Nat} (htarget : c.target x.proc = some virt) (hfixed : c.flags &&& mapFixed ≠ 0) :
    virt ≠ mapFailed := by
  rw [MmapCall.target, if_pos hfixed] at htarget
  split at htarget
  · cases htarget
  · split at htarget
    · cases htarget
    case isFalse hok =>
        cases htarget
        rw [userSpaceEnd] at hok
        rw [mapFailed]
        omega

/-- A call is refused for its arguments; or it finds no frames; or it has some. -/
theorem MmapState.exec_cases (h : x.exec hhdm c = some r) :
    (c.target x.proc = none ∧ r.vmm = x.vmm ∧ r.proc = x.proc) ∨
    ∃ virt, c.target x.proc = some virt ∧
      ((∃ mem, clearDirect x.vmm.mem x.proc.pagemap hhdm c.pages = some mem ∧
        r = ⟨mapFailed, none, "", c.reserve x.proc, ⟨mem, x.vmm.src⟩⟩) ∨
      ((pmmCalloc pmmSource x.vmm c.pages).1 ≠ 0 ∧
        mmapAt pmmSource x.vmm (c.reserve x.proc) virt c.pages c.prot = some r)) := by
  rw [MmapState.exec] at h
  split at h
  case isTrue hnull =>
      obtain ⟨virt, hvirt⟩ := Option.isSome_iff_exists.mp hnull.1
      obtain ⟨mem, hclear, h⟩ := Option.bind_eq_some_iff.mp h
      rw [malloc_unchanged x.vmm.src (.inr hnull.2)] at h
      exact .inr ⟨virt, hvirt, .inl ⟨mem, hclear, (Option.some.inj h).symm⟩⟩
  case isFalse hsome =>
      rcases MmapCall.exec_cases h with ⟨hnone, -, hvmm, hproc⟩ | ⟨virt, hvirt, hat⟩
      · exact .inl ⟨hnone, hvmm, hproc⟩
      · exact .inr ⟨virt, hvirt, .inr ⟨fun hnull => hsome ⟨Option.isSome_iff_exists.mpr ⟨virt, hvirt⟩, hnull⟩, hat⟩⟩

theorem MmapState.next_eq_iff (hbase : x.proc.anonBase < 2 ^ 64) (hfail : x.Fails hhdm c) :
    x.next hhdm c = x ↔ x.Harmless hhdm c := by
  obtain ⟨r, hexec, hret⟩ := hfail
  have hnext : x.next hhdm c = x ↔ r.vmm = x.vmm ∧ r.proc = x.proc := by
    rw [MmapState.next, hexec]
    exact ⟨fun h => ⟨congrArg MmapState.vmm h, congrArg MmapState.proc h⟩, fun h => by cases x; cases h.1; cases h.2; rfl⟩
  rw [hnext, MmapState.Harmless]
  rcases MmapState.exec_cases hexec with ⟨hnone, hvmm, hproc⟩ | ⟨virt, htarget, hat⟩
  · exact iff_of_true ⟨hvmm, hproc⟩ (.inl hnone)
  rw [htarget, or_iff_right (by simp)]
  have hreserve := c.reserve_eq_iff x.proc hbase
  rcases Nat.eq_zero_or_pos c.pages with hzero | hpos
  · refine iff_of_true ?_ (.inl hzero)
    rw [← hreserve.mpr (.inl hzero)]
    rw [hzero] at hat
    rcases hat with ⟨mem, hclear, rfl⟩ | ⟨-, hat⟩
    · cases hclear
      exact ⟨rfl, rfl⟩
    · exact mmapAt_nothing hat
  rw [or_iff_right (Nat.ne_of_gt hpos)] at hreserve ⊢
  rcases hat with ⟨mem, hclear, rfl⟩ | ⟨hne, hat⟩
  · have hthere : x.DirectZero hhdm := clearDirect_first hpos hclear
    have hmem : (⟨mem, x.vmm.src⟩ : Vmm _) = x.vmm ↔ mem = x.vmm.mem :=
      ⟨congrArg Vmm.mem, fun h => by rw [h]⟩
    rw [or_iff_right fun h => h.1 hthere, hmem, clearDirect_same_iff hclear, hreserve, and_comm]
  · -- The address happens to be `MAP_FAILED`, so it was not fixed.
    rcases mmapAt_cases hat with ⟨hnull, -⟩ | ⟨-, s', -, rfl⟩
    · exact absurd hnull hne
    have hfree : ¬ c.flags &&& mapFixed ≠ 0 := fun hfixed => fixed_fails htarget hfixed hret
    have hanon : x.proc.anonBase = mapFailed := by
      rw [MmapCall.target, if_neg hfree] at htarget
      split at htarget
      · cases htarget
      · exact (Option.some.inj htarget).trans hret
    refine iff_of_false (fun h => hfree (hreserve.mp h.2)) ?_
    rintro (h | h)
    · exact h.2 hanon
    · exact hfree h.1

end Fails

/-- Along any sequence of failing calls memory, bitmap and process stay as they were
exactly if every call is harmless. -/
theorem failing_mmaps_change_nothing_iff {hhdm : Nat} {x : MmapState} (hbase : x.proc.anonBase < 2 ^ 64)
    {cs : List MmapCall} (hfail : AllSteps (MmapState.next hhdm) (MmapState.Fails hhdm) x cs) :
    AllStates (MmapState.next hhdm) (· = x) x cs ↔ AllSteps (MmapState.next hhdm) (MmapState.Harmless hhdm) x cs := by
  have hkeep : ∀ y c, y = x → y.Fails hhdm c → y.Harmless hhdm c → y.next hhdm c = x := by
    rintro _ c rfl hf hc
    exact (MmapState.next_eq_iff hbase hf).mpr hc
  have hbreak : ∀ y c, y = x → y.Fails hhdm c → y.next hhdm c = x → y.Harmless hhdm c := by
    rintro _ c rfl hf hsame
    exact (MmapState.next_eq_iff hbase hf).mp hsame
  exact allStates_iff_allSteps (fun _ h => h) hkeep hbreak rfl hfail

/-- A new process. -/
def newMachine : MmapState := ⟨openVmm, freshProcess 0x3000⟩

/-- A call for a file and one for no bytes, without the first page of the direct map. -/
theorem refused_mmaps_change_nothing : AllStates (MmapState.next 0xffff800000000000) (· = newMachine) newMachine
    [⟨0, 0x1000, 3, 0⟩, ⟨0x400000, 0, 3, 0x30⟩] := by
  have hfail : AllSteps (MmapState.next 0xffff800000000000) (MmapState.Fails 0xffff800000000000) newMachine
      [⟨0, 0x1000, 3, 0⟩, ⟨0x400000, 0, 3, 0x30⟩] := ⟨⟨_, rfl, rfl⟩, ⟨_, rfl, rfl⟩, trivial⟩
  have hmissing : ¬ newMachine.DirectZero 0xffff800000000000 ∧ newMachine.proc.anonBase ≠ mapFailed := by
    decide +kernel
  exact (failing_mmaps_change_nothing_iff (by decide) hfail).mpr
    ⟨.inr (.inr (.inl hmissing)), .inr (.inr (.inl hmissing)), trivial⟩

/-- The tables keep a flag that new ones get. -/
theorem mapped_flagged {σ : Type} {F : FrameSource σ} {s s' : Vmm σ} {lev : Nat → Nat} (ht : Tables F s lev)
    {top physical virt flags n flag : Nat} (htop : lev top = 4) (hf : flags < 2 ^ 64) (hflag : 7 &&& flag ≠ 0)
    (hold : Flagged flag s.mem lev) (h : vmmMapPages F s top physical virt flags n = some s') :
    ∃ lev', Tables F s' lev' ∧ lev' top = 4 ∧ Flagged flag s'.mem lev' := by
  refine vmmMapPages_rule (P := fun _ s₁ => ∃ lev', Tables F s₁ lev' ∧ lev' top = 4 ∧ Flagged flag s₁.mem lev')
    ⟨lev, ht, htop, hold⟩ ?_ h
  rintro i s₁ s₂ - ⟨lev₁, ht₁, htop₁, hold₁⟩ hmap
  obtain ⟨lev₂, hs, hquiet⟩ := vmmMapPage_spec ht₁ htop₁ (Nat.mod_lt _ (by decide)) hf hmap
  exact ⟨lev₂, hs.tables, (hs.level top (by omega)).trans htop₁, hquiet.flags flag hflag hold₁⟩

/-- Two pages at the last page of user space: the second one is the first page of the direct map. -/
theorem second_page_direct {σ : Type} {F : FrameSource σ} {w : VmmRun σ} {top : Nat} {s' : Vmm σ}
    (hw : VmmReaches F w) (htop : top ∈ w.tops) (hne : (pmmCalloc F w.vmm 2).1 ≠ 0)
    (hmap : vmmMapPages F (pmmCalloc F w.vmm 2).2 top (pmmCalloc F w.vmm 2).1 0x7FFFFFFFF000 (mmapFlags 3) 2 = some s') :
    flagWalk pteWritable s'.mem top (path 0xffff800000000000) := by
  obtain ⟨lev, hinv, hflags⟩ := hw.flagged
  have ht := (hinv.tables.calloc hne).tables
  have hlev := hinv.tops top htop
  have hold := (hinv.tables.calloc_quiet (by decide) hne).flags pteWritable (by decide) (hflags _ (by decide))
  obtain ⟨_, ht', hlev', hold'⟩ := mapped_flagged ht hlev (mmapFlags_lt 3) (by decide) hold hmap
  obtain ⟨s₁, hfirst, hlast⟩ := Option.bind_eq_some_iff.mp hmap
  obtain ⟨_, ht₁, hlev₁, -⟩ := mapped_flagged ht hlev (mmapFlags_lt 3) (by decide) hold hfirst
  obtain ⟨_, hs, -⟩ := vmmMapPage_spec ht₁ hlev₁ (Nat.mod_lt _ (by decide)) (mmapFlags_lt 3) hlast
  exact ht'.flagWalk_of_leaf hlev' hold' (hs.here 0xffff800000000000 (by decide)) (by decide) (by decide)

/-- The same frames, and none is free. -/
def noFrames : { p : Pmm // p.limit ≤ 2 ^ 40 } :=
  ⟨{ openVmm.src.val with bitmap := fun _ => 0xff#8 }, openVmm.src.property⟩

/-- Two pages fixed at the last page of user space: the second one is the first page of the
direct map. When the frames have run out, a call for a page returns `MAP_FAILED`, and
`anon_base` has gone on. -/
theorem failing_mmap_leaves_traces : ∃ w top r r', VmmReaches pmmSource w ∧ top ∈ w.tops ∧
    MmapCall.exec pmmSource w.vmm (freshProcess top) ⟨0x7FFFFFFFF000, 0x2000, 3, 0x30⟩ = some r ∧
    MmapState.exec 0xffff800000000000 ⟨⟨r.vmm.mem, noFrames⟩, r.proc⟩ ⟨0, 0x1000, 3, 0x20⟩ = some r' ∧
    r'.ret = mapFailed ∧ r.proc.anonBase = 0x80000000000 ∧ r'.proc.anonBase = 0x80000001000 := by
  obtain ⟨w, top, hw, htop, hsrc, -⟩ := fresh_pagemap
  let c : MmapCall := ⟨0x7FFFFFFFF000, 0x2000, 3, 0x30⟩
  have hpages : c.pages = 2 := by decide
  have hexec := MmapCall.exec_fixed (F := pmmSource) w.vmm (freshProcess top) (c := c)
    (by decide) (by decide) (by decide)
  rw [hpages] at hexec
  obtain ⟨hne, s', hmap, hat⟩ := two_pages hsrc (freshProcess top) c.hint c.prot
  have hwalk : flagWalk pteWritable s'.mem top (path 0xffff800000000000) := second_page_direct hw htop hne hmap
  let c' : MmapCall := ⟨0, 0x1000, 3, 0x20⟩
  have hone : c'.pages = 1 := by decide
  have hnull : (pmmSource.malloc noFrames c'.pages).1 = 0 := by
    rw [hone]
    decide +kernel
  have hclear : clearDirect s'.mem top 0xffff800000000000 c'.pages =
      some (memset s'.mem (directFrame s'.mem top 0xffff800000000000 0) 0 frameSize) := by
    rw [hone]
    exact if_pos hwalk
  have hreserve : (c'.reserve (freshProcess top)).anonBase = 0x80000001000 := by
    rw [MmapCall.reserve, if_neg (by decide), hone]
    exact (by decide : (0x80000000000 + 1 * frameSize) % 2 ^ 64 = 0x80000001000)
  have hfail : MmapState.exec 0xffff800000000000 ⟨⟨s'.mem, noFrames⟩, freshProcess top⟩ c' =
      (clearDirect s'.mem top 0xffff800000000000 c'.pages).bind fun mem =>
        some ⟨mapFailed, none, "", c'.reserve (freshProcess top), ⟨mem, (pmmSource.malloc noFrames c'.pages).2⟩⟩ :=
    if_pos ⟨by rw [MmapCall.target, if_neg (by decide), if_neg (by decide)]; rfl, hnull⟩
  rw [hclear, Option.bind_some] at hfail
  exact ⟨w, top, _, _, hw, htop, hexec.trans hat, hfail, rfl, rfl, hreserve⟩

end Flan.Sys
