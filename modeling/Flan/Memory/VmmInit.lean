import Flan.Memory.PmmInit
import Flan.Memory.VmmRun

/-! `vmm_init`, and which frames the kernel reaches through the direct map after it. -/
namespace Flan.Memory
open Flan.Lib

/-- `HHDM_OFFSET` and the kernel's addresses, as the bootloader tells them, and
`kernel_end_addr` of the linker. -/
structure Handover where
  hhdm : Nat
  physicalBase : Nat
  virtualBase : Nat
  kernelEnd : Nat

/-- The `length` that is mapped of the kernel's image. -/
def Handover.length (h : Handover) : Nat := sub64 (alignUpFrame h.kernelEnd) h.virtualBase

def Handover.pages (h : Handover) : Nat := (h.length + frameSize - 1) / frameSize

/-- The turns of the loop from 0x1000 up to 4 GiB. -/
def directPages : Nat := (0x100000000 - 0x1000) / frameSize

section Init
variable {σ : Type} (F : FrameSource σ)

/-- Each frame at its own address and in the direct map. -/
def mapDirect (s : Vmm σ) (top hhdm : Nat) : (pages : Nat) → Option (Vmm σ)
  | 0 => some s
  | i+1 => do
      let s ← mapDirect s top hhdm i
      let physical := frameSize * (i+1)
      let s ← vmmMapPage F s top physical physical (ptePresent ||| pteWritable)
      vmmMapPage F s top physical ((physical + hhdm) % 2 ^ 64) (ptePresent ||| pteWritable)

def vmmInit (s : Vmm σ) (h : Handover) : Option (Nat × Vmm σ) := do
  let (top, s) ← newTop F s
  let s ← vmmMapPages F s top h.physicalBase h.virtualBase (ptePresent ||| pteWritable) h.pages
  let s ← mapDirect F s top h.hhdm directPages
  return (top, s)

end Init

/-! ### What it maps -/

/-- The direct map leads to the frame, and every entry on the way is present and
writable. -/
structure DirectMapped (m : Mem) (top hhdm a : Nat) : Prop where
  walk : flagWalk pteWritable m top (path ((hhdm + a) % 2 ^ 64))
  frame : translation m top ((hhdm + a) % 2 ^ 64) &&& pteAddrMask = a

/-- What the bootloader promises: usable entries are made of whole frames, and the
direct map begins at a page of the upper half and ends, with 4 GiB and all usable memory
in it, below the kernel's image. -/
structure Promised (mmaps : List MemmapEntry) (h : Handover) : Prop where
  framed : ∀ e ∈ mmaps, e.Framed
  aligned : frameSize ∣ h.hhdm
  upper : 2 ^ 64 - 2 ^ 47 ≤ h.hhdm
  first : h.hhdm + 2 ^ 32 ≤ h.virtualBase
  memory : h.hhdm + highest mmaps ≤ h.virtualBase
  image : h.virtualBase + h.length ≤ 2 ^ 64

/-- The leaf of a page after `k` turns, where it was `old` before. -/
def directLeaf (base k old n : Nat) : Nat :=
  if 1 ≤ n ∧ n ≤ k then frameSize * n ||| 3
  else if base + 1 ≤ n ∧ n ≤ base + k then frameSize * (n - base) ||| 3
  else old

structure KernelTables {σ : Type} (F : FrameSource σ) (s : Vmm σ) (top : Nat) (lev : Nat → Nat) : Prop where
  tables : Tables F s lev
  root : lev top = 4
  writable : Flagged pteWritable s.mem lev

section Spec
variable {σ : Type} {F : FrameSource σ} {s s' : Vmm σ} {lev : Nat → Nat} {top : Nat} {h : Handover}
  {mmaps : List MemmapEntry}

theorem kernelTables_new {r : Nat × Vmm σ} (hnew : newTop F s = some r) :
    ∃ lev, KernelTables F r.2 r.1 lev ∧ ∀ va, translation r.2.mem r.1 va = 0 := by
  obtain ⟨lev, htops, hflags⟩ := newTop_spec .none hnew
  refine ⟨lev, ⟨htops.tables, htops.root, ?_⟩, fun va => translation_absent (htops.slots _)⟩
  exact hflags _ fun _ _ _ h => absurd h (Nat.not_succ_le_zero 1)

theorem KernelTables.mapPage (ht : KernelTables F s top lev) {physical virtual : Nat} (hp : physical < 2 ^ 64)
    (hmap : vmmMapPage F s top physical virtual (ptePresent ||| pteWritable) = some s') :
    ∃ lev', KernelTables F s' top lev' ∧ ∀ va, translation s'.mem top va =
      if page va = page virtual then physical ||| 3 else translation s.mem top va := by
  obtain ⟨lev', hs, hq⟩ := vmmMapPage_spec ht.tables ht.root hp (by decide) hmap
  have hroot := ht.root
  refine ⟨lev', ⟨hs.tables, (hs.level top (by omega)).trans hroot, hq.flags _ (by decide) ht.writable⟩, fun va => ?_⟩
  split
  · rename_i hpage
    exact hs.here va (path_eq_iff.mpr hpage)
  · rename_i hpage
    exact hs.others top va hroot fun hsame => hpage (path_eq_iff.mp hsame.1)

theorem KernelTables.image (ht : KernelTables F s top lev) {physical virtual n : Nat}
    (hmap : vmmMapPages F s top physical virtual (ptePresent ||| pteWritable) n = some s') :
    ∃ lev', KernelTables F s' top lev' ∧
      ∀ va, (∀ i, i < n → page va ≠ page ((virtual + i * frameSize) % 2 ^ 64)) →
        translation s'.mem top va = translation s.mem top va := by
  refine vmmMapPages_rule (P := fun k s₁ => ∃ lev₁, KernelTables F s₁ top lev₁ ∧
    ∀ va, (∀ i, i < k → page va ≠ page ((virtual + i * frameSize) % 2 ^ 64)) →
      translation s₁.mem top va = translation s.mem top va) ?_ ?_ hmap
  · exact ⟨lev, ht, fun _ _ => rfl⟩
  · rintro k s₁ s₂ - ⟨lev₁, ht₁, hothers⟩ hmap
    obtain ⟨lev₂, ht₂, hleaf⟩ := ht₁.mapPage (Nat.mod_lt _ (Nat.two_pow_pos 64)) hmap
    refine ⟨lev₂, ht₂, fun va hva => ?_⟩
    rw [hleaf, if_neg (hva k k.lt_succ_self)]
    exact hothers va fun i hi => hva i (Nat.lt_succ_of_lt hi)

/-- The direct map's pages are in a row. -/
theorem page_direct {hhdm f : Nat} (haligned : frameSize ∣ hhdm) (hupper : 2 ^ 64 - 2 ^ 47 ≤ hhdm)
    (hf : hhdm + frameSize * f < 2 ^ 64) : page ((frameSize * f + hhdm) % 2 ^ 64) = page hhdm + f := by
  obtain ⟨b, rfl⟩ := haligned
  rw [page, page, frameSize] at *
  omega

theorem page_above {hhdm f v : Nat} (haligned : frameSize ∣ hhdm) (hupper : 2 ^ 64 - 2 ^ 47 ≤ hhdm)
    (hv : hhdm + frameSize * (f + 1) ≤ v) (hlt : v < 2 ^ 64) : page hhdm + f < page v := by
  obtain ⟨b, rfl⟩ := haligned
  rw [page, page, frameSize] at *
  omega

theorem page_low {i : Nat} (hi : i < 2 ^ 36) : page (frameSize * i) = i := by
  rw [page, frameSize]
  omega

theorem page_upper {hhdm : Nat} (hupper : 2 ^ 64 - 2 ^ 47 ≤ hhdm) (hlt : hhdm < 2 ^ 64) : 2 ^ 35 ≤ page hhdm := by
  rw [page, frameSize]
  omega

/-- A turn sets one page on each side; below `base` the two sides are apart. -/
theorem directLeaf_succ {base k old n : Nat} (hk : k + 1 ≤ base) : directLeaf base (k+1) old n =
    if n = base + (k+1) then frameSize * (k+1) ||| 3
    else if n = k + 1 then frameSize * (k+1) ||| 3 else directLeaf base k old n := by
  rw [directLeaf, directLeaf]
  by_cases hhigh : n = base + (k+1)
  · rw [if_pos hhigh, if_neg (by omega), if_pos (by omega), hhigh, Nat.add_sub_cancel_left]
  · rw [if_neg hhigh]
    by_cases hlow : n = k + 1
    · rw [if_pos hlow, if_pos (by omega), hlow]
    · rw [if_neg hlow]
      exact if_congr (by omega) rfl (if_congr (by omega) rfl rfl)

theorem KernelTables.direct (ht : KernelTables F s top lev) {hhdm k : Nat} (haligned : frameSize ∣ hhdm)
    (hupper : 2 ^ 64 - 2 ^ 47 ≤ hhdm) (hfirst : hhdm + 2 ^ 32 ≤ 2 ^ 64) (hk : k < 2 ^ 20)
    (hmap : mapDirect F s top hhdm k = some s') :
    ∃ lev', KernelTables F s' top lev' ∧
      ∀ va, translation s'.mem top va = directLeaf (page hhdm) k (translation s.mem top va) (page va) := by
  have hbase := page_upper hupper (by omega)
  induction k generalizing s' with
  | zero =>
      cases hmap
      refine ⟨lev, ht, fun va => ?_⟩
      rw [directLeaf, if_neg (by omega), if_neg (by omega)]
  | succ k ih =>
      obtain ⟨s₁, hrest, hmap⟩ := Option.bind_eq_some_iff.mp hmap
      obtain ⟨s₂, hlow, hhigh⟩ := Option.bind_eq_some_iff.mp hmap
      obtain ⟨lev₁, ht₁, hleaf₁⟩ := ih (by omega) hrest
      have hsmall : frameSize * (k + 1) < 2 ^ 32 := by
        rw [frameSize]
        omega
      obtain ⟨lev₂, ht₂, hleaf₂⟩ := ht₁.mapPage (by omega) hlow
      obtain ⟨lev₃, ht₃, hleaf₃⟩ := ht₂.mapPage (by omega) hhigh
      refine ⟨lev₃, ht₃, fun va => ?_⟩
      rw [hleaf₃, hleaf₂, hleaf₁, page_direct haligned hupper (by omega), page_low (by omega), directLeaf_succ (by omega)]

/-- The pages that `vmm_init` maps: those of the direct map to their frames, without the
first, and nothing outside of the first 4 GiB, of their direct map and of the image. -/
theorem vmmInit_spec (hh : Promised mmaps h) (hrun : vmmInit F s h = some (top, s')) :
    ∃ lev, KernelTables F s' top lev ∧
      (∀ f, 1 ≤ f → f < 2 ^ 20 → translation s'.mem top ((h.hhdm + frameSize * f) % 2 ^ 64) = frameSize * f ||| 3) ∧
      ∀ f, f = 0 ∨ 2 ^ 20 ≤ f ∧ f < highest mmaps / frameSize →
        translation s'.mem top ((h.hhdm + frameSize * f) % 2 ^ 64) = 0 := by
  have haligned := hh.aligned
  have hupper := hh.upper
  have hfirst := hh.first
  have hmemory := hh.memory
  have himage := hh.image
  obtain ⟨⟨top₀, s₀⟩, hnew, hrun⟩ := Option.bind_eq_some_iff.mp hrun
  obtain ⟨s₁, hmap, hrun⟩ := Option.bind_eq_some_iff.mp hrun
  obtain ⟨s₂, hdirect, hrun⟩ := Option.bind_eq_some_iff.mp hrun
  obtain ⟨rfl, rfl⟩ := Prod.mk.inj (Option.some.inj hrun)
  obtain ⟨lev, ht₀, hblank⟩ := kernelTables_new hnew
  obtain ⟨lev₁, ht₁, hothers⟩ := ht₀.image hmap
  obtain ⟨lev₂, ht₂, hleaf⟩ := ht₁.direct haligned hupper (by omega) (by decide) hdirect
  rw [show directPages = 2 ^ 20 - 1 from rfl] at hleaf
  have hbase := page_upper hupper (by omega)
  have hpage : ∀ f, h.hhdm + frameSize * f < 2 ^ 64 →
      page ((h.hhdm + frameSize * f) % 2 ^ 64) = page h.hhdm + f := by
    intro f hf
    rw [Nat.add_comm]
    exact page_direct haligned hupper hf
  refine ⟨lev₂, ht₂, fun f hpos hlt => ?_, fun f hf => ?_⟩
  · rw [hleaf, hpage f (by rw [frameSize]; omega), directLeaf, if_neg (by omega), if_pos (by omega),
      Nat.add_sub_cancel_left]
  · have hend : h.hhdm + frameSize * (f + 1) ≤ h.virtualBase := by
      rcases hf with rfl | ⟨-, hlt⟩
      · have htop : frameSize * (0 + 1) ≤ 2 ^ 32 := by rw [frameSize]; omega
        exact (Nat.add_le_add_left htop _).trans hfirst
      · have htop : frameSize * (f + 1) ≤ highest mmaps := by
          rw [frameSize] at hlt ⊢
          omega
        exact (Nat.add_le_add_left htop _).trans hmemory
    have hlt : h.hhdm + frameSize * f < 2 ^ 64 := by
      rw [frameSize] at hend ⊢
      omega
    rw [hleaf, hpage f hlt, directLeaf, if_neg (by omega), if_neg (by omega), hothers]
    · exact hblank _
    · intro i hi
      have hinside : i * frameSize < h.length := by
        rw [Handover.pages] at hi
        rw [frameSize] at hi ⊢
        omega
      have hmod : (h.virtualBase + i * frameSize) % 2 ^ 64 = h.virtualBase + i * frameSize :=
        Nat.mod_eq_of_lt (by omega)
      rw [hpage f hlt, hmod]
      exact (page_above haligned hupper (by omega) (by omega)).ne

/-! ### The frames that the kernel reaches -/

theorem Promised.limit_le (hh : Promised mmaps h) {mem : Mem} {p : Pmm} (hp : pmmInit mem mmaps = some p) :
    p.limit ≤ 2 ^ 40 := by
  have hupper := hh.upper
  have hmemory := hh.memory
  have himage := hh.image
  rw [pmmInit_limit hp, frameSize]
  omega

variable {mem : Mem} {p : Pmm}

theorem direct_of_low (hh : Promised mmaps h) (hrun : vmmInit F s h = some (top, s')) {f : Nat} (hpos : 1 ≤ f)
    (hlow : f < 2 ^ 20) : DirectMapped s'.mem top h.hhdm (frameSize * f) := by
  obtain ⟨lev, ht, hleaf, -⟩ := vmmInit_spec hh hrun
  have hf := hleaf f hpos hlow
  refine ⟨ht.tables.flagWalk_of_leaf ht.root ht.writable hf (by decide) (by decide), ?_⟩
  rw [hf]
  exact mask_or (by omega) (by decide)

theorem not_direct_of_high (hh : Promised mmaps h) (hrun : vmmInit F s h = some (top, s')) {f : Nat}
    (hhigh : 2 ^ 20 ≤ f) (hlt : f < highest mmaps / frameSize) : ¬ DirectMapped s'.mem top h.hhdm (frameSize * f) := by
  intro hd
  obtain ⟨lev, -, -, hnone⟩ := vmmInit_spec hh hrun
  have hzero := hd.frame
  rw [hnone f (.inr ⟨hhigh, hlt⟩), Nat.zero_and, frameSize] at hzero
  omega

/-- The first page of the direct map is left out. -/
theorem direct_zero_missing (hh : Promised mmaps h) (hrun : vmmInit F s h = some (top, s')) :
    ¬ flagWalk pteWritable s'.mem top (path (h.hhdm % 2 ^ 64)) := by
  intro hwalk
  obtain ⟨lev, -, -, hnone⟩ := vmmInit_spec hh hrun
  exact lookup_of_flagWalk (List.cons_ne_nil _ _) hwalk (hnone 0 (.inl rfl))

/-! ### It returns -/

theorem getNextLevel_present {a c : Nat} {i : Slot} (hc : child s.mem a i = some c) :
    getNextLevel F s a i = some (c, s) := by
  rw [getNextLevel]
  obtain ⟨hp, rfl⟩ := child_some hc
  exact if_pos hp

/-- A page next to one that is mapped, under the same tables, needs no frame. -/
theorem vmmMapPage_shared {va : Nat} (hne : translation s.mem top va ≠ 0) (physical va' flags : Nat)
    (hblock : va / 2 ^ 21 % 2 ^ 27 = va' / 2 ^ 21 % 2 ^ 27) :
    ∃ s', vmmMapPage F s top physical va' flags = some s' ∧ s'.src = s.src := by
  have hslot : ∀ k, k = 21 ∨ k = 30 ∨ k = 39 → slotAt va k = slotAt va' k := by
    rintro k (rfl | rfl | rfl) <;> exact Fin.ext (by simp only [slotAt]; omega)
  rw [translation, lookup] at hne
  cases hreach : reach (child s.mem) top (path va) with
  | none =>
      rw [hreach] at hne
      exact absurd rfl hne
  | some q =>
      simp only [path, reach, Option.bind_eq_some_iff] at hreach
      obtain ⟨pml3, h₃, pml2, h₂, pml1, h₁, -⟩ := hreach
      rw [hslot 39 (by decide)] at h₃
      rw [hslot 30 (by decide)] at h₂
      rw [hslot 21 (by decide)] at h₁
      have hwalk : pml1Of F s top va' = some (pml1, s) := by
        simp only [pml1Of, pmlIndex_eq, getNextLevel_present h₃, getNextLevel_present h₂, getNextLevel_present h₁,
          Option.bind_eq_bind, Option.bind_some]
      rw [vmmMapPage, hwalk]
      exact ⟨_, rfl, rfl⟩

theorem vmmMapPage_returns {n : Nat} (hready : F.Ready s.src (n+3)) (physical virtual flags : Nat) :
    ∃ s', vmmMapPage F s top physical virtual flags = some s' ∧ F.Ready s'.src n := by
  obtain ⟨r, hwalk, hr⟩ := pml1Of_returns hready top virtual
  rw [vmmMapPage, hwalk]
  exact ⟨_, rfl, hr⟩

/-- Six tables at most for each 2 MiB: the turns in between find theirs. -/
theorem mapDirect_returns (ht : KernelTables F s top lev) {hhdm k : Nat} (haligned : 2 ^ 21 ∣ hhdm)
    (hupper : 2 ^ 64 - 2 ^ 47 ≤ hhdm) (hfirst : hhdm + 2 ^ 32 ≤ 2 ^ 64) (hk : k < 2 ^ 20)
    (hready : F.Ready s.src (6 * 2048)) :
    ∃ s', mapDirect F s top hhdm k = some s' ∧
      F.Ready s'.src (if k = 0 then 6 * 2048 else 6 * (2047 - k / 512)) := by
  have hframes : frameSize ∣ hhdm := Nat.dvd_trans (by decide) haligned
  have hbase := page_upper hupper (by omega)
  induction k with
  | zero => exact ⟨s, rfl, hready⟩
  | succ k ih =>
      obtain ⟨s₁, hrest, hready₁⟩ := ih (by omega)
      obtain ⟨lev₁, ht₁, hleaf₁⟩ := ht.direct hframes hupper hfirst (by omega) hrest
      rw [if_neg (by omega)]
      suffices hturn : ∃ s₂ s₃,
          vmmMapPage F s₁ top (frameSize * (k+1)) (frameSize * (k+1)) (ptePresent ||| pteWritable) = some s₂ ∧
          vmmMapPage F s₂ top (frameSize * (k+1)) ((frameSize * (k+1) + hhdm) % 2 ^ 64)
            (ptePresent ||| pteWritable) = some s₃ ∧ F.Ready s₃.src (6 * (2047 - (k+1) / 512)) by
        obtain ⟨s₂, s₃, h₂, h₃, hr⟩ := hturn
        refine ⟨s₃, ?_, hr⟩
        simp only [mapDirect, hrest, h₂, h₃, Option.bind_eq_bind, Option.bind_some]
      by_cases hnew : k = 0 ∨ (k + 1) % 512 = 0
      · have hsix : (if k = 0 then 6 * 2048 else 6 * (2047 - k / 512)) = 6 * (2047 - (k+1) / 512) + 3 + 3 := by
          split <;> omega
        rw [hsix] at hready₁
        obtain ⟨s₂, h₂, hready₂⟩ := vmmMapPage_returns hready₁ (frameSize * (k+1)) (frameSize * (k+1))
          (ptePresent ||| pteWritable)
        obtain ⟨s₃, h₃, hready₃⟩ := vmmMapPage_returns hready₂ (frameSize * (k+1))
          ((frameSize * (k+1) + hhdm) % 2 ^ 64) (ptePresent ||| pteWritable)
        exact ⟨s₂, s₃, h₂, h₃, hready₃⟩
      · rw [if_neg (by omega)] at hready₁
        have hpage := page_direct hframes hupper (f := k) (by rw [frameSize]; omega)
        have hlow : translation s₁.mem top (frameSize * k) ≠ 0 := by
          rw [hleaf₁, page_low (by omega), directLeaf, if_pos (by omega)]
          exact fun h => absurd (Nat.or_eq_zero_iff.mp h).2 (by decide)
        have hhigh : translation s₁.mem top ((frameSize * k + hhdm) % 2 ^ 64) ≠ 0 := by
          rw [hleaf₁, hpage, directLeaf, if_neg (by omega), if_pos (by omega)]
          exact fun h => absurd (Nat.or_eq_zero_iff.mp h).2 (by decide)
        obtain ⟨s₂, h₂, hsrc₂⟩ := vmmMapPage_shared (F := F) hlow (frameSize * (k+1)) (frameSize * (k+1))
          (ptePresent ||| pteWritable) (by rw [frameSize]; omega)
        obtain ⟨lev₂, -, hleaf₂⟩ := ht₁.mapPage (by rw [frameSize]; omega) h₂
        rw [← (hleaf₂ _).trans (if_neg (by rw [hpage, page_low (by omega)]; omega))] at hhigh
        obtain ⟨s₃, h₃, hsrc₃⟩ := vmmMapPage_shared (F := F) hhigh (frameSize * (k+1))
          ((frameSize * (k+1) + hhdm) % 2 ^ 64) (ptePresent ||| pteWritable)
          (by obtain ⟨c, rfl⟩ := haligned; rw [frameSize]; omega)
        refine ⟨s₂, s₃, h₂, h₃, ?_⟩
        rw [hsrc₃, hsrc₂, show (k + 1) / 512 = k / 512 by omega]
        exact hready₁

theorem vmmInit_returns (hh : Promised mmaps h) (haligned : 2 ^ 21 ∣ h.hhdm)
    (hready : F.Ready s.src (6 * 2048 + 3 * h.pages + 2)) : ∃ top s', vmmInit F s h = some (top, s') := by
  have hfirst := hh.first
  have himage := hh.image
  obtain ⟨⟨top, s₀⟩, hnew, -, hready₀⟩ := newTop_returns hready
  obtain ⟨lev, ht₀, -⟩ := kernelTables_new hnew
  obtain ⟨s₁, hmap, hready₁⟩ : ∃ s₁, vmmMapPages F s₀ top h.physicalBase h.virtualBase
      (ptePresent ||| pteWritable) h.pages = some s₁ ∧ F.Ready s₁.src (6 * 2048) := vmmMapPages_returns hready₀
  obtain ⟨lev₁, ht₁, -⟩ := ht₀.image hmap
  obtain ⟨s₂, hdirect, -⟩ := mapDirect_returns (k := directPages) ht₁ haligned hh.upper (by omega) (by decide) hready₁
  refine ⟨top, s₂, Option.bind_eq_some_iff.mpr ⟨(top, s₀), hnew, ?_⟩⟩
  refine Option.bind_eq_some_iff.mpr ⟨s₁, hmap, ?_⟩
  exact Option.bind_eq_some_iff.mpr ⟨s₂, hdirect, rfl⟩

end Spec

/-! ### Two machines -/

/-- 128 MiB from the first MiB on. -/
def lowEntry : MemmapEntry := ⟨0x100000, 0x8000000, limineMemmapUsable⟩

/-- 16 MiB behind the first 4 GiB. -/
def highEntry : MemmapEntry := ⟨0x100000000, 0x1000000, limineMemmapUsable⟩

def smallHandover : Handover := ⟨0xffff800000000000, 0x200000, 0xffffffff80000000, 0xffffffff80010000⟩

theorem lowEntry_framed : lowEntry.Framed := fun _ => by decide

theorem highEntry_framed : highEntry.Framed := fun _ => by decide

theorem small_promised : Promised [lowEntry] smallHandover :=
  ⟨by simp [lowEntry_framed], by decide, by decide, by decide, by decide, by decide⟩

theorem large_promised : Promised [lowEntry, highEntry] smallHandover :=
  ⟨by simp [lowEntry_framed, highEntry_framed], by decide, by decide, by decide, by decide, by decide⟩

section Low
variable {high : List MemmapEntry} (hsize : bitmapSize (lowEntry :: high) ≤ 0x100000)
include hsize

/-- The bitmap is in the low memory. -/
theorem carve_low : carve (bitmapSize (lowEntry :: high)) (lowEntry :: high) = some (lowEntry.base,
    ⟨(lowEntry.base + bitmapSize (lowEntry :: high)) % 2 ^ 64, lowEntry.length - bitmapSize (lowEntry :: high),
      limineMemmapUsable⟩ :: high) := by
  rw [carve, if_neg (by decide), if_pos (hsize.trans (by decide))]
  rfl

theorem low_allocatable (mem : Mem) (htop : 0x8100000 ≤ highest (lowEntry :: high)) {x : Nat} (hlo : 0x200 ≤ x)
    (hhi : x < 0x8100) : Allocatable mem (lowEntry :: high) x := by
  refine ⟨_, _, carve_low hsize, by omega, ?_, .inl ⟨_, List.mem_cons_self, rfl, ?_⟩⟩
  · rw [frameSize]
    omega
  · simp only [MemmapEntry.Has, lowEntry, frameSize] at hsize ⊢
    omega

/-- A machine with the low memory boots: there are frames for all tables. -/
theorem low_boots (mem : Mem) (htop : 0x8100000 ≤ highest (lowEntry :: high))
    (hh : Promised (lowEntry :: high) smallHandover) :
    ∃ p, ∃ hp : pmmInit mem (lowEntry :: high) = some p, ∃ top s',
      vmmInit pmmSource ⟨mem, p, hh.limit_le hp⟩ smallHandover = some (top, s') := by
  obtain ⟨p, hp⟩ : ∃ p, pmmInit mem (lowEntry :: high) = some p := by
    rw [pmmInit, carve_low hsize]
    exact ⟨_, rfl⟩
  refine ⟨p, hp, vmmInit_returns hh (by decide) ?_⟩
  have hpages : 6 * 2048 + 3 * smallHandover.pages + 2 = 12338 := by decide
  have hfree : ∀ x ∈ List.range' 512 12338, 1 ≤ x ∧ x < p.limit ∧ p.used x = false := by
    intro x hx
    rw [List.mem_range'_1] at hx
    exact (allocatable_iff hh.framed hp x).mp (low_allocatable hsize mem htop (by omega) (by omega))
  rw [hpages]
  exact pmmSource_ready List.nodup_range' (by rw [List.length_range']) hfree

end Low

/-- After `pmm_init` and `vmm_init`, the kernel reaches every frame that can be handed
out exactly when all allocatable frames are below 4 GiB. -/
theorem frames_reached_iff {mem mem' : Mem} {mmaps : List MemmapEntry} {h : Handover} {p : Pmm} {top : Nat}
    {s' : Vmm { p : Pmm // p.limit ≤ 2 ^ 40 }} (hh : Promised mmaps h) (hp : pmmInit mem mmaps = some p)
    (hrun : vmmInit pmmSource ⟨mem', p, hh.limit_le hp⟩ h = some (top, s')) :
    (∀ a, CanReturn p a → DirectMapped s'.mem top h.hhdm a) ↔ ∀ f, Allocatable mem mmaps f → f < 2 ^ 20 := by
  constructor
  · intro hall f hf
    by_contra hhigh
    have hfree := (allocatable_iff hh.framed hp f).mp hf
    have hlt : f < highest mmaps / frameSize := pmmInit_limit hp ▸ hfree.2.1
    exact not_direct_of_high hh hrun (Nat.le_of_not_lt hhigh) hlt (hall _ (canReturn_iff.mpr ⟨f, hfree, rfl⟩))
  · intro hlow a ha
    obtain ⟨f, hfree, rfl⟩ := canReturn_iff.mp ha
    exact direct_of_low hh hrun hfree.1 (hlow f ((allocatable_iff hh.framed hp f).mpr hfree))

/-- A machine with 128 MiB: its frames can be handed out, and the kernel reaches them all. -/
theorem low_frames_reached : ∃ p, ∃ hp : pmmInit (fun _ => 0) [lowEntry] = some p, ∃ top s',
    vmmInit pmmSource ⟨fun _ => 0, p, small_promised.limit_le hp⟩ smallHandover = some (top, s') ∧
    CanReturn p 0x200000 ∧ ∀ a, CanReturn p a → DirectMapped s'.mem top smallHandover.hhdm a := by
  obtain ⟨p, hp, top, s', hrun⟩ := low_boots (by decide) (fun _ => 0) (by decide) small_promised
  have hframe : Allocatable (fun _ => 0) [lowEntry] 0x200 :=
    low_allocatable (by decide) (fun _ => 0) (by decide) (le_refl 0x200) (by decide)
  have hfree := (allocatable_iff small_promised.framed hp _).mp hframe
  refine ⟨p, hp, top, s', hrun, canReturn_iff.mpr ⟨0x200, hfree, by decide⟩, ?_⟩
  refine (frames_reached_iff small_promised hp hrun).mpr ?_
  rintro f ⟨-, -, -, -, hlt, -⟩
  exact hlt.trans (by decide)

/-- With 16 MiB behind 4 GiB: the first frame there can be handed out, and the kernel
does not reach it. -/
theorem high_frame_not_reached : ∃ p, ∃ hp : pmmInit (fun _ => 0) [lowEntry, highEntry] = some p, ∃ top s',
    vmmInit pmmSource ⟨fun _ => 0, p, large_promised.limit_le hp⟩ smallHandover = some (top, s') ∧
    CanReturn p 0x100000000 ∧ ¬ DirectMapped s'.mem top smallHandover.hhdm 0x100000000 := by
  obtain ⟨p, hp, top, s', hrun⟩ := low_boots (by decide) (fun _ => 0) (by decide) large_promised
  have hframe : Allocatable (fun _ => 0) [lowEntry, highEntry] (2 ^ 20) :=
    ⟨_, _, carve_low (by decide), by decide, by decide,
      .inl ⟨highEntry, List.mem_cons_of_mem _ List.mem_cons_self, rfl, by decide, by decide⟩⟩
  have hfree := (allocatable_iff large_promised.framed hp _).mp hframe
  have hlt : 2 ^ 20 < highest [lowEntry, highEntry] / frameSize := pmmInit_limit hp ▸ hfree.2.1
  exact ⟨p, hp, top, s', hrun, canReturn_iff.mpr ⟨2 ^ 20, hfree, by decide⟩,
    not_direct_of_high large_promised hrun (le_refl _) hlt⟩

end Flan.Memory
