import Mathlib.Data.Finset.Card
import Mathlib.Order.Interval.Finset.Nat
import Flan.Proc.Image
import Flan.Sys.Mmap

/-! The range that `syscall_mmap` returns, and the frames it is mapped to. -/
namespace Flan.Sys
open Flan.Lib Flan.Memory Flan.Proc

/-- The addresses that the processor translates: bits 48 to 63 repeat bit 47. -/
def Canonical (va : Nat) : Prop := va < 2 ^ 47 ∨ 2 ^ 64 - 2 ^ 47 ≤ va ∧ va < 2 ^ 64

/-- The address leads to a byte of memory. -/
def Mapped (m : Mem) (top va : Nat) : Prop := Canonical va ∧ translation m top va &&& ptePresent ≠ 0

/-- The frame that an address is mapped to. -/
def mappedFrame (m : Mem) (top va : Nat) : Nat := physical m top va / frameSize

/-- Every byte of the range is mapped into one of the frames, and no two of its pages
into the same. -/
structure MapsOwn (m : Mem) (top base length frame frames : Nat) : Prop where
  mapped : ∀ a, base ≤ a → a < base + length → Mapped m top a
  owned : ∀ a, base ≤ a → a < base + length → frame ≤ mappedFrame m top a ∧ mappedFrame m top a < frame + frames
  apart : ∀ a b, base ≤ a → a < base + length → base ≤ b → b < base + length →
    mappedFrame m top a = mappedFrame m top b → a / frameSize = b / frameSize

/-- Where the call maps: at the hint, or from `anon_base` on. -/
def MmapCall.address (proc : Process) (c : MmapCall) : Nat :=
  if c.flags &&& mapFixed ≠ 0 then c.hint else proc.anonBase

/-- The pages that are mapped reach to the end of the range, its addresses are ones that
the processor translates, and `prot` has no bit in the address field that a frame of the
call lacks. -/
structure MmapCall.Fits (c : MmapCall) (virt phys : Nat) : Prop where
  room : virt % frameSize + c.length ≤ c.pages * frameSize
  canonical : virt + c.length ≤ 2 ^ 47 ∨ 2 ^ 64 - 2 ^ 47 ≤ virt ∧ virt + c.length ≤ 2 ^ 64
  bits : ∀ i, i < c.pages → (phys + i * frameSize ||| mmapFlags c.prot) &&& pteAddrMask = phys + i * frameSize

section Frames
variable {m : Mem} {top base length frame frames : Nat}

/-- A function on the first `n` numbers that never decreases one and keeps them apart
leaves each where it is. -/
theorem eq_of_le_of_apart {f : Nat → Nat} {n : Nat} (hlt : ∀ i, i < n → f i < n) (hle : ∀ i, i < n → i ≤ f i)
    (hapart : ∀ i j, i < n → j < n → f i = f j → i = j) {i : Nat} (hi : i < n) : f i = i := by
  -- From the last one down: all places above `i` are taken.
  obtain ⟨k, hk⟩ : ∃ k, n - i = k := ⟨_, rfl⟩
  induction k using Nat.strong_induction_on generalizing i with
  | _ k ih =>
      by_contra hne
      have hlow := hle i hi
      have hfix := ih (n - f i) (by omega) (hlt i hi) rfl
      exact hne (hapart (f i) i (hlt i hi) hi hfix)

/-- A range whose ends are translated lies in one half. -/
theorem MapsOwn.canonical (h : MapsOwn m top base length frame frames) (hpos : 0 < length) :
    base + length ≤ 2 ^ 47 ∨ 2 ^ 64 - 2 ^ 47 ≤ base ∧ base + length ≤ 2 ^ 64 := by
  have hfirst := (h.mapped base (le_refl _) (by omega)).1
  have hlast := (h.mapped (base + length - 1) (by omega) (by omega)).1
  have hgap : base < 2 ^ 47 → base + length ≤ 2 ^ 47 := by
    intro hlow
    by_contra hout
    rcases (h.mapped (2 ^ 47) (by omega) (by omega)).1 with hc | hc
    · exact Nat.lt_irrefl _ hc
    · exact absurd hc.1 (by decide)
  simp only [Canonical] at hfirst hlast
  omega

/-- The first address of the range in each of its pages. -/
def pageStart (base i : Nat) : Nat := max base ((base / frameSize + i) * frameSize)

theorem pageStart_page (base i : Nat) : pageStart base i / frameSize = base / frameSize + i := by
  rw [pageStart, frameSize]
  omega

theorem pageStart_inside {i : Nat} (hpos : 0 < length) (hi : i * frameSize < base % frameSize + length) :
    base ≤ pageStart base i ∧ pageStart base i < base + length := by
  rw [pageStart, frameSize] at *
  omega

/-- As many frames as the range has pages are needed. -/
theorem MapsOwn.room (h : MapsOwn m top base length frame frames) (hpos : 0 < length) :
    base % frameSize + length ≤ frames * frameSize := by
  by_contra hlong
  have hin : ∀ i ∈ Finset.range (frames + 1), base ≤ pageStart base i ∧ pageStart base i < base + length := by
    intro i hi
    have hle : i * frameSize ≤ frames * frameSize :=
      Nat.mul_le_mul_right _ (Nat.le_of_lt_succ (Finset.mem_range.mp hi))
    exact pageStart_inside hpos (by omega)
  have hmaps : ∀ i ∈ Finset.range (frames + 1),
      mappedFrame m top (pageStart base i) ∈ Finset.Ico frame (frame + frames) :=
    fun i hi => Finset.mem_Ico.mpr (h.owned _ (hin i hi).1 (hin i hi).2)
  have hinj : Set.InjOn (fun i => mappedFrame m top (pageStart base i)) (Finset.range (frames + 1)) := by
    intro i hi j hj heq
    have hpage := h.apart _ _ (hin i hi).1 (hin i hi).2 (hin j hj).1 (hin j hj).2 heq
    rw [pageStart_page, pageStart_page] at hpage
    exact Nat.add_left_cancel hpage
  have hcard := Finset.card_le_card_of_injOn _ hmaps hinj
  rw [Finset.card_range, Nat.card_Ico] at hcard
  omega

end Frames

section Range
variable {σ : Type} {F : FrameSource σ} {s s' : Vmm σ} {proc : Process} {lev : Nat → Nat} {c : MmapCall}
  {r : MmapResult σ} {virt b flags n i : Nat}

theorem MmapCall.target_eq (h : c.target proc = some virt) : virt = c.address proc := by
  rw [MmapCall.target] at h
  rw [MmapCall.address]
  split at h
  · cases h
  · split at h
    case isTrue hfixed =>
        rw [if_pos hfixed]
        split at h
        · cases h
        · exact (Option.some.inj h).symm
    case isFalse hfree =>
        rw [if_neg hfree]
        exact (Option.some.inj h).symm

/-- A call that does not fail has its frames and maps its pages. -/
theorem MmapCall.exec_ok (h : c.exec F s proc = some r) (hok : r.ret ≠ mapFailed) :
    (pmmCalloc F s c.pages).1 ≠ 0 ∧ r.ret = c.address proc ∧
      vmmMapPages F (pmmCalloc F s c.pages).2 proc.pagemap (pmmCalloc F s c.pages).1 (c.address proc)
        (mmapFlags c.prot) c.pages = some r.vmm := by
  rcases MmapCall.exec_cases h with ⟨-, hret, -, -⟩ | ⟨virt, htarget, hat⟩
  · exact absurd hret hok
  · obtain rfl := MmapCall.target_eq htarget
    rcases mmapAt_cases hat with ⟨-, rfl⟩ | ⟨hne, s', hmap, rfl⟩
    · exact absurd rfl hok
    · rw [c.reserve_pagemap proc] at hmap
      exact ⟨hne, rfl, hmap⟩

theorem mask_page (z : Nat) : (z &&& pteAddrMask) % frameSize = 0 := by
  have hmod := Nat.and_mod_two_pow (a := z) (b := pteAddrMask) (n := 12)
  have hmask : pteAddrMask % 2 ^ 12 = 0 := by decide
  rw [hmask, Nat.and_zero] at hmod
  exact hmod

theorem mask_or_frame (hb : b < 2 ^ 40) :
    (frameSize * b ||| flags) &&& pteAddrMask = frameSize * b ||| (flags &&& pteAddrMask) := by
  rw [Nat.and_or_distrib_right, mask_frame hb]

/-- The frame that an entry leads to, with flags that may reach into its address. -/
theorem frame_or_ge (flags : Nat) (hb : b < 2 ^ 40) : b ≤ ((frameSize * b ||| flags) &&& pteAddrMask) / frameSize := by
  rw [mask_or_frame hb, Nat.le_div_iff_mul_le (by decide), Nat.mul_comm]
  exact Nat.left_le_or

/-- The pages of the call hold its frames, or what `prot` makes of their addresses. -/
theorem mapped_leaves (ht : Tables F s lev) (htop : lev proc.pagemap = 4) (hn : 0 < n) (hfew : n ≤ 2 ^ 36)
    (hf : flags < 2 ^ 64) (hne : (pmmCalloc F s n).1 ≠ 0)
    (hmap : vmmMapPages F (pmmCalloc F s n).2 proc.pagemap (pmmCalloc F s n).1 virt flags n = some s') :
    ∃ b, (pmmCalloc F s n).1 = frameSize * b ∧ b + n ≤ 2 ^ 40 ∧
      ∀ i, i < n → ∀ va, va / frameSize = virt / frameSize + i →
        translation s'.mem proc.pagemap va = frameSize * (b + i) ||| flags := by
  obtain ⟨b, heq, hb, -⟩ := pmmCalloc_some hn hne
  have hptr : (pmmCalloc F s n).1 = frameSize * b := by rw [heq]
  obtain ⟨lev', -, -, hleaf, -⟩ := vmmMapPages_leaves (ht.calloc hne).tables htop hf hfew hmap
  refine ⟨b, hptr, hb, fun i hi va hva => ?_⟩
  have hphys : ((pmmCalloc F s n).1 + i * frameSize) % 2 ^ 64 = frameSize * (b + i) := by
    rw [hptr, frameSize]
    omega
  rw [← hphys]
  refine hleaf i hi va ?_
  rw [path_eq_iff, Nat.add_mul_div_right _ _ (by decide), hva]

theorem mappedFrame_leaf {m : Mem} {top va v : Nat} (h : translation m top va = v) :
    mappedFrame m top va = (v &&& pteAddrMask) / frameSize := by
  have hlow := mask_page v
  rw [mappedFrame, physical, h, frameSize] at *
  omega

theorem mmapFlags_present (prot : BitVec 32) (v : Nat) : (v ||| mmapFlags prot) &&& ptePresent ≠ 0 := by
  apply flag_or
  have hcomm : mmapFlags prot = (prot.signExtend 64).toNat ||| (ptePresent ||| pteWritable ||| pteUser) := by
    simp only [mmapFlags, Nat.or_assoc]
  rw [hcomm]
  exact flag_or _ (by decide)

/-- A range that fits is mapped to the frames of the call. -/
theorem MmapCall.Fits.mapsOwn {m : Mem} {top : Nat} (h : c.Fits virt (frameSize * b)) (hb : b + c.pages ≤ 2 ^ 40)
    (hleaf : ∀ i, i < c.pages → ∀ va, va / frameSize = virt / frameSize + i →
      translation m top va = frameSize * (b + i) ||| mmapFlags c.prot) :
    MapsOwn m top virt c.length b c.pages := by
  have hroom := h.room
  have hcanon := h.canonical
  have hpage : ∀ a, virt ≤ a → a < virt + c.length →
      ∃ i, i < c.pages ∧ a / frameSize = virt / frameSize + i := by
    intro a hlo hhi
    refine ⟨a / frameSize - virt / frameSize, ?_⟩
    rw [frameSize] at hroom ⊢
    omega
  have hframe : ∀ i, i < c.pages → ∀ a, a / frameSize = virt / frameSize + i → mappedFrame m top a = b + i := by
    intro i hi a ha
    have hbits := h.bits i hi
    rw [show frameSize * b + i * frameSize = frameSize * (b + i) by rw [Nat.mul_add, Nat.mul_comm i]] at hbits
    rw [mappedFrame_leaf (hleaf i hi a ha), hbits, Nat.mul_div_cancel_left _ (by decide)]
  constructor
  · intro a hlo hhi
    obtain ⟨i, hi, ha⟩ := hpage a hlo hhi
    constructor
    · rw [Canonical]
      omega
    · rw [hleaf i hi a ha]
      exact mmapFlags_present _ _
  · intro a hlo hhi
    obtain ⟨i, hi, ha⟩ := hpage a hlo hhi
    rw [hframe i hi a ha]
    omega
  · intro a a' hlo hhi hlo' hhi' heq
    obtain ⟨i, hi, ha⟩ := hpage a hlo hhi
    obtain ⟨j, hj, ha'⟩ := hpage a' hlo' hhi'
    rw [hframe i hi a ha, hframe j hj a' ha'] at heq
    rw [ha, ha', Nat.add_left_cancel heq]

/-- A range that is mapped to the frames of the call has flags that leave their addresses
alone. -/
theorem MapsOwn.fits {m : Mem} {top : Nat} (h : MapsOwn m top virt c.length b c.pages) (hpos : 0 < c.length)
    (hb : b + c.pages ≤ 2 ^ 40)
    (hleaf : ∀ i, i < c.pages → ∀ va, va / frameSize = virt / frameSize + i →
      translation m top va = frameSize * (b + i) ||| mmapFlags c.prot) :
    c.Fits virt (frameSize * b) := by
  have hcanon := h.canonical hpos
  refine ⟨h.room hpos, hcanon, ?_⟩
  have hin : ∀ i, i < c.pages → virt ≤ pageStart virt i ∧ pageStart virt i < virt + c.length := by
    intro i hi
    have hinside := c.page_inside (by omega) hi
    exact pageStart_inside hpos (by omega)
  have hframe : ∀ i, i < c.pages → mappedFrame m top (pageStart virt i) =
      ((frameSize * (b + i) ||| mmapFlags c.prot) &&& pteAddrMask) / frameSize :=
    fun i hi => mappedFrame_leaf (hleaf i hi _ (pageStart_page virt i))
  -- The frames stay in place, counted from the first one.
  have hfix : ∀ i, i < c.pages → mappedFrame m top (pageStart virt i) - b = i := by
    intro i hi
    refine eq_of_le_of_apart (f := fun i => mappedFrame m top (pageStart virt i) - b) ?_ ?_ ?_ hi
    · intro i hi
      have := h.owned _ (hin i hi).1 (hin i hi).2
      omega
    · intro i hi
      have hge := frame_or_ge (mmapFlags c.prot) (show b + i < 2 ^ 40 by omega)
      rw [← hframe i hi] at hge
      omega
    · intro i j hi hj heq
      have hlo := (h.owned _ (hin i hi).1 (hin i hi).2).1
      have hlo' := (h.owned _ (hin j hj).1 (hin j hj).2).1
      have hpage := h.apart _ _ (hin i hi).1 (hin i hi).2 (hin j hj).1 (hin j hj).2 (by omega)
      rw [pageStart_page, pageStart_page] at hpage
      exact Nat.add_left_cancel hpage
  intro i hi
  have hlow := mask_page (frameSize * (b + i) ||| mmapFlags c.prot)
  have hown := (h.owned _ (hin i hi).1 (hin i hi).2).1
  have hfixed := hfix i hi
  rw [hframe i hi] at hfixed hown
  rw [show frameSize * b + i * frameSize = frameSize * (b + i) by rw [Nat.mul_add, Nat.mul_comm i]]
  rw [frameSize] at *
  omega

/-- The range that a call returns is mapped, page by page, to the frames allocated in the
call, exactly if it is empty or fits. -/
theorem mmap_maps_own_iff (ht : Tables F s lev) (htop : lev proc.pagemap = 4) (h : c.exec F s proc = some r)
    (hok : r.ret ≠ mapFailed) :
    MapsOwn r.vmm.mem proc.pagemap r.ret c.length ((pmmCalloc F s c.pages).1 / frameSize) c.pages ↔
      c.length = 0 ∨ c.Fits (c.address proc) (pmmCalloc F s c.pages).1 := by
  obtain ⟨hne, hret, hmap⟩ := MmapCall.exec_ok h hok
  rw [hret]
  generalize c.address proc = virt at hmap ⊢
  rcases Nat.eq_zero_or_pos c.length with hzero | hpos
  · refine iff_of_true ⟨fun a hlo hhi => ?_, fun a hlo hhi => ?_, fun a b hlo hhi => ?_⟩ (.inl hzero)
    · omega
    · omega
    · omega
  · rw [or_iff_right (Nat.ne_of_gt hpos)]
    -- Either side keeps the range in one half, so that its pages are all different.
    have hhalf : virt + c.length ≤ 2 ^ 47 ∨ 2 ^ 64 - 2 ^ 47 ≤ virt ∧ virt + c.length ≤ 2 ^ 64 →
        0 < c.pages ∧ c.pages ≤ 2 ^ 36 := by
      intro hcanon
      simp only [MmapCall.pages, alignUpFrame, frameSize]
      omega
    constructor
    · intro hmaps
      obtain ⟨hn, hfew⟩ := hhalf (hmaps.canonical hpos)
      obtain ⟨b, hptr, hb, hleaf⟩ := mapped_leaves ht htop hn hfew (mmapFlags_lt c.prot) hne hmap
      rw [hptr, Nat.mul_div_cancel_left _ (by decide)] at hmaps
      rw [hptr]
      exact hmaps.fits hpos hb hleaf
    · intro hfits
      obtain ⟨hn, hfew⟩ := hhalf hfits.canonical
      obtain ⟨b, hptr, hb, hleaf⟩ := mapped_leaves ht htop hn hfew (mmapFlags_lt c.prot) hne hmap
      rw [hptr] at hfits
      rw [hptr, Nat.mul_div_cancel_left _ (by decide)]
      exact hfits.mapsOwn hb hleaf

end Range

theorem fourTaken_frames : (pmmSource.malloc fourTaken 2).1 = 0x5000 := by decide

/-- Two pages anywhere go to frames 5 and 6. -/
theorem anonymous_pages_own : ∃ w proc, VmmReaches pmmSource w ∧ proc.pagemap ∈ w.tops ∧
    ∃ r, MmapCall.exec pmmSource w.vmm proc ⟨0, 0x1800, 3, 0x20⟩ = some r ∧ r.ret = 0x80000000000 ∧
      MapsOwn r.vmm.mem proc.pagemap 0x80000000000 0x1800 5 2 := by
  obtain ⟨w, top, hw, htop, hsrc, -⟩ := fresh_pagemap
  obtain ⟨lev, hinv⟩ := hw.inv
  let c : MmapCall := ⟨0, 0x1800, 3, 0x20⟩
  have hpages : c.pages = 2 := by decide
  have hexec := MmapCall.exec_anywhere (F := pmmSource) w.vmm (freshProcess top) (c := c) (by decide) (by decide)
  rw [hpages] at hexec
  obtain ⟨-, s', -, hat⟩ := two_pages hsrc _ (freshProcess top).anonBase c.prot
  have hphys : (pmmCalloc pmmSource w.vmm c.pages).1 = 0x5000 := by
    rw [hpages, pmmCalloc, hsrc]
    exact fourTaken_frames
  have hlevel : lev (freshProcess top).pagemap = 4 := hinv.tops top htop
  have hiff := mmap_maps_own_iff hinv.tables hlevel (hexec.trans hat) (show 0x80000000000 ≠ mapFailed by decide)
  rw [hphys, hpages] at hiff
  have haddress : c.address (freshProcess top) = 0x80000000000 := if_neg (by decide)
  rw [haddress] at hiff
  have hfits : c.Fits 0x80000000000 0x5000 := ⟨by decide, by decide, by decide⟩
  exact ⟨w, freshProcess top, hw, htop, _, hexec.trans hat, rfl, hiff.mpr (.inr hfits)⟩

/-- Two pages at an address in the middle of one: the range ends in a third page, which
is not mapped. -/
theorem unaligned_range_not_mapped : ∃ w proc, VmmReaches pmmSource w ∧ proc.pagemap ∈ w.tops ∧
    ∃ r, MmapCall.exec pmmSource w.vmm proc ⟨0x400800, 0x2000, 3, 0x30⟩ = some r ∧ r.ret = 0x400800 ∧
      0x402000 < r.ret + 0x2000 ∧ ¬ Mapped r.vmm.mem proc.pagemap 0x402000 ∧
      ∀ frame frames, ¬ MapsOwn r.vmm.mem proc.pagemap r.ret 0x2000 frame frames := by
  obtain ⟨w, top, hw, htop, hsrc, hblank⟩ := fresh_pagemap
  obtain ⟨lev, hinv⟩ := hw.inv
  let c : MmapCall := ⟨0x400800, 0x2000, 3, 0x30⟩
  have hpages : c.pages = 2 := by decide
  have hexec := MmapCall.exec_fixed (F := pmmSource) w.vmm (freshProcess top) (c := c)
    (by decide) (by decide) (by decide)
  rw [hpages] at hexec
  obtain ⟨hne, s', hmap, hat⟩ := two_pages hsrc (freshProcess top) c.hint c.prot
  have hgrows := hinv.tables.calloc hne
  obtain ⟨-, -, -, -, hothers⟩ := vmmMapPages_leaves hgrows.tables (hinv.tops top htop) (mmapFlags_lt c.prot)
    (by decide) hmap
  have hpath : ∀ i, i < 2 → path 0x402000 ≠ path (c.hint + i * frameSize) := by decide
  have hzero : translation s'.mem top 0x402000 = 0 := by
    rw [hothers 0x402000 hpath]
    exact (hgrows.same top (path 0x402000) (hinv.tops top htop)).trans (translation_absent (hblank _))
  have hnot : ¬ Mapped s'.mem top 0x402000 := by
    rintro ⟨-, hpresent⟩
    rw [hzero] at hpresent
    exact hpresent rfl
  have hin : 0x400800 ≤ 0x402000 ∧ 0x402000 < 0x400800 + 0x2000 := by decide
  exact ⟨w, freshProcess top, hw, htop, _, hexec.trans hat, rfl, hin.2, hnot,
    fun _ _ hmaps => hnot (hmaps.mapped 0x402000 hin.1 hin.2)⟩

end Flan.Sys
