import Flan.Memory.PageTables

/-! Runs of the operations of `memory/vmm.c` over the kernel's pagemap and any
number of others. The tables of the upper half are shared between pagemaps and
those of the lower half are not. -/
namespace Flan.Memory
open Flan.Lib

/-- A pagemap of `vmm_new_pagemap`, with the slots that were present in
`kernel_pagemap` when it was made. -/
structure Pagemap where
  top : Nat
  shared : Slot → Bool

/-- A call that set the entry of a page: to a physical address and flags, or to
nothing. -/
structure PageSet where
  top : Nat
  virtual : Nat
  mapped : Option (Nat × Nat)

/-- The machine with the pagemaps made so far and the calls that set a page,
last one first. -/
structure VmmRun (σ : Type) where
  vmm : Vmm σ
  kernel : Nat
  made : List Pagemap
  log : List PageSet

inductive VmmOp where
  | newPagemap
  | mapPage (top physical virtual flags : Nat)
  | unmapPage (top virtual : Nat)
  | virtToPte (top virtual : Nat)
  | virtToPhys (top virtual : Nat)

section Runs
variable {σ : Type} {F : FrameSource σ} {w w' : VmmRun σ} {op : VmmOp} {lev lev' : Nat → Nat}
  {top virtual : Nat}

def VmmRun.tops (w : VmmRun σ) : List Nat := w.kernel :: w.made.map Pagemap.top

def VmmOp.exec (F : FrameSource σ) (w : VmmRun σ) : VmmOp → Option (VmmRun σ)
  | .newPagemap => do
      let (top, s) ← vmmNewPagemap F w.vmm w.kernel
      let shared i := (child w.vmm.mem w.kernel i).isSome
      return { w with vmm := s, made := ⟨top, shared⟩ :: w.made }
  | .mapPage top physical virtual flags => do
      let s ← vmmMapPage F w.vmm top physical virtual flags
      return { w with vmm := s, log := ⟨top, virtual, some (physical, flags)⟩ :: w.log }
  | .unmapPage top virtual => do
      let s ← vmmUnmapPage F w.vmm top virtual
      return { w with vmm := s, log := ⟨top, virtual, none⟩ :: w.log }
  | .virtToPte top virtual => do
      let (_, s) ← Memory.virtToPte F w.vmm top virtual
      return { w with vmm := s }
  | .virtToPhys top virtual => do
      let (_, s) ← Memory.virtToPhys F w.vmm top virtual
      return { w with vmm := s }

/-- The call is on a pagemap of the run, and what it stores fits 64 bits. -/
def VmmOp.On (w : VmmRun σ) : VmmOp → Prop
  | .newPagemap => True
  | .mapPage top physical _ flags => top ∈ w.tops ∧ physical < 2 ^ 64 ∧ flags < 2 ^ 64
  | .unmapPage top _ => top ∈ w.tops
  | .virtToPte top _ => top ∈ w.tops
  | .virtToPhys top _ => top ∈ w.tops

/-- A run starts where `vmm_init` has made the kernel's empty top; the mappings
of `vmm_init` are the first calls. -/
inductive VmmReaches (F : FrameSource σ) : VmmRun σ → Prop
  | init {s : Vmm σ} {r : Nat × Vmm σ} (h : newTop F s = some r) : VmmReaches F ⟨r.2, r.1, [], []⟩
  | step {w w' : VmmRun σ} {op : VmmOp} (hw : VmmReaches F w)
      (h : op.exec F w = some w') (hon : op.On w) : VmmReaches F w'

/-- Bits 12 to 47. -/
def page (virtual : Nat) : Nat := virtual / frameSize % 2 ^ 36

/-- The last call that set the page, if that was a map: its address and flags. -/
def lastMap : List PageSet → (top virtual : Nat) → Option (Nat × Nat)
  | [], _, _ => none
  | e :: log, top, virtual =>
      if e.top = top ∧ page e.virtual = page virtual then e.mapped else lastMap log top virtual

def leafOf : Option (Nat × Nat) → Nat
  | none => 0
  | some (physical, flags) => physical ||| flags

/-- The address whose page the call sets, and in which pagemap. -/
def VmmOp.sets : VmmOp → Option (Nat × Nat)
  | .mapPage top _ virtual _ => some (top, virtual)
  | .unmapPage top virtual => some (top, virtual)
  | _ => none

/-! ### The invariant -/

structure VmmInv (F : FrameSource σ) (w : VmmRun σ) (lev : Nat → Nat) : Prop where
  tables : Tables F w.vmm lev
  tops : ∀ x ∈ w.tops, lev x = 4
  logged : ∀ e ∈ w.log, lev e.top = 4
  leaves : ∀ x ∈ w.tops, ∀ va, ¬ Upper (slotAt va 39) →
    translation w.vmm.mem x va = leafOf (lastMap w.log x va)
  shared : ∀ e ∈ w.made, ∀ i, Upper i → e.shared i = true →
    ∃ c, child w.vmm.mem e.top i = some c ∧ child w.vmm.mem w.kernel i = some c

theorem lastMap_absent {log : List PageSet} (h : ∀ e ∈ log, e.top ≠ top) :
    lastMap log top virtual = none := by
  induction log with
  | nil => rfl
  | cons e log ih =>
      have he := h e List.mem_cons_self
      rw [lastMap, if_neg fun h => he h.1]
      exact ih fun e' he' => h e' (List.mem_cons_of_mem _ he')

theorem lower_slot (h : virtual < 2 ^ 47) : ¬ Upper (slotAt virtual 39) := by
  simp only [Upper, slotAt]
  omega

theorem VmmRun.mem_tops {e : Pagemap} (he : e ∈ w.made) : e.top ∈ w.tops :=
  List.mem_cons_of_mem _ (List.mem_map_of_mem he)

/-- Entries above the leaves that are present stay, so shared slots stay shared. -/
theorem VmmInv.shared_keep (hw : VmmInv F w lev) {m : Mem}
    (hkeep : ∀ x i c, 2 ≤ lev x → child w.vmm.mem x i = some c → child m x i = some c) :
    ∀ e ∈ w.made, ∀ i, Upper i → e.shared i = true →
      ∃ c, child m e.top i = some c ∧ child m w.kernel i = some c := by
  intro e he i hi hs
  obtain ⟨c, hc, hk⟩ := hw.shared e he i hi hs
  have hte := hw.tops e.top (VmmRun.mem_tops he)
  have htk := hw.tops w.kernel List.mem_cons_self
  exact ⟨c, hkeep _ i c (by omega) hc, hkeep _ i c (by omega) hk⟩

/-- Calls that look a page up only grow the tables. -/
theorem VmmInv.grow (hw : VmmInv F w lev) {s : Vmm σ} (hg : Grows F w.vmm lev s lev') :
    VmmInv F { w with vmm := s } lev' := by
  have hlev : ∀ x, lev x = 4 → lev' x = 4 := fun x hx => (hg.level x (by omega)).trans hx
  refine ⟨hg.tables, fun x hx => hlev x (hw.tops x hx), fun e he => hlev _ (hw.logged e he), ?_, ?_⟩
  · intro x hx va hva
    rw [← hw.leaves x hx va hva]
    exact hg.same x (path va) (hw.tops x hx)
  · exact hw.shared_keep hg.child

theorem VmmInv.set (hw : VmmInv F w lev) {s : Vmm σ} {mapped : Option (Nat × Nat)}
    (htop : top ∈ w.tops) (hs : Sets F w.vmm lev s lev' top virtual (leafOf mapped)) :
    VmmInv F { w with vmm := s, log := ⟨top, virtual, mapped⟩ :: w.log } lev' := by
  have hlev : ∀ x, lev x = 4 → lev' x = 4 := fun x hx => (hs.level x (by omega)).trans hx
  refine ⟨hs.tables, fun x hx => hlev x (hw.tops x hx), ?_, ?_, ?_⟩
  · refine List.forall_mem_cons.mpr ⟨hlev top (hw.tops top htop), ?_⟩
    exact fun e he => hlev _ (hw.logged e he)
  · intro x hx va hva
    rw [lastMap]
    by_cases hpage : page virtual = page va
    · have hpath : path va = path virtual := path_eq_iff.mpr hpage.symm
      by_cases hx' : top = x
      · subst hx'
        rw [if_pos ⟨rfl, hpage⟩]
        exact hs.here va hpath
      · rw [if_neg fun h => hx' h.1, ← hw.leaves x hx va hva]
        have hslot : slotAt virtual 39 = slotAt va 39 := (List.cons.inj hpath).1.symm
        refine hs.others x va (hw.tops x hx) ?_
        rintro ⟨-, rfl | hup⟩
        · exact hx' rfl
        · exact hva (hslot ▸ hup)
    · rw [if_neg fun h => hpage h.2, ← hw.leaves x hx va hva]
      exact hs.others x va (hw.tops x hx) fun h => hpage (path_eq_iff.mp h.1).symm
  · exact hw.shared_keep hs.child

theorem VmmInv.make (hw : VmmInv F w lev) {s : Vmm σ}
    (hs : Tops F w.vmm lev s lev' top fun i =>
      if 256 ≤ (i : Nat) then child w.vmm.mem w.kernel i else none) :
    VmmInv F { w with vmm := s, made := ⟨top, fun i => (child w.vmm.mem w.kernel i).isSome⟩ :: w.made }
      lev' := by
  have hold := hw.grow hs.toGrows
  have htk := hw.tops w.kernel List.mem_cons_self
  have hmem : ∀ x, x ∈ VmmRun.tops { w with vmm := s, made := ⟨top, fun i => (child w.vmm.mem w.kernel i).isSome⟩ :: w.made } →
      x = top ∨ x ∈ w.tops := by
    intro x hx
    rcases List.mem_cons.mp hx with rfl | hx
    · exact .inr List.mem_cons_self
    · rcases List.mem_cons.mp hx with rfl | hx
      · exact .inl rfl
      · exact .inr (List.mem_cons_of_mem _ hx)
  refine ⟨hs.tables, ?_, hold.logged, ?_, ?_⟩
  · intro x hx
    rcases hmem x hx with rfl | hx
    · exact hs.root
    · exact hold.tops x hx
  · intro x hx va hva
    rcases hmem x hx with rfl | hx
    · have hnone : lastMap w.log x va = none := lastMap_absent fun e he h => by
        have := hw.logged e he
        rw [h, hs.new] at this
        omega
      rw [hnone]
      exact translation_absent ((hs.slots _).trans (if_neg hva))
    · exact hold.leaves x hx va hva
  · refine List.forall_mem_cons.mpr ⟨?_, hold.shared⟩
    intro i hi hsome
    obtain ⟨c, hc⟩ := Option.isSome_iff_exists.mp hsome
    exact ⟨c, ((hs.slots i).trans (if_pos hi)).trans hc, hs.child w.kernel i c (by omega) hc⟩

theorem VmmInv.init {s : Vmm σ} {r : Nat × Vmm σ} (h : newTop F s = some r) :
    ∃ lev, VmmInv F ⟨r.2, r.1, [], []⟩ lev ∧ ∀ flag, Flagged flag r.2.mem lev := by
  obtain ⟨lev, hs, hflags⟩ := newTop_spec .none h
  refine ⟨lev, ⟨hs.tables, ?_, fun _ h => absurd h List.not_mem_nil, ?_,
    fun _ h => absurd h List.not_mem_nil⟩, fun flag => hflags flag fun _ _ _ h => absurd h (Nat.not_succ_le_zero 1)⟩
  · intro x hx
    rw [List.mem_singleton.mp hx]
    exact hs.root
  · intro x hx va _
    rw [List.mem_singleton.mp hx]
    exact translation_absent (hs.slots _)

theorem VmmOp.exec_newPagemap (h : VmmOp.newPagemap.exec F w = some w') :
    ∃ top s, vmmNewPagemap F w.vmm w.kernel = some (top, s) ∧ w' = { w with
      vmm := s, made := ⟨top, fun i => (child w.vmm.mem w.kernel i).isSome⟩ :: w.made } := by
  simp only [VmmOp.exec, Option.bind_eq_bind, Option.bind_eq_some_iff, Option.pure_def,
    Option.some.injEq] at h
  obtain ⟨⟨top, s⟩, hnew, rfl⟩ := h
  exact ⟨top, s, hnew, rfl⟩

theorem VmmOp.exec_mapPage {physical flags : Nat}
    (h : (VmmOp.mapPage top physical virtual flags).exec F w = some w') :
    ∃ s, vmmMapPage F w.vmm top physical virtual flags = some s ∧ w' = { w with
      vmm := s, log := ⟨top, virtual, some (physical, flags)⟩ :: w.log } := by
  simp only [VmmOp.exec, Option.bind_eq_bind, Option.bind_eq_some_iff, Option.pure_def,
    Option.some.injEq] at h
  obtain ⟨s, hmap, rfl⟩ := h
  exact ⟨s, hmap, rfl⟩

theorem VmmOp.tops_mono (h : op.exec F w = some w') {x : Nat} (hx : x ∈ w.tops) : x ∈ w'.tops := by
  cases op with
  | newPagemap =>
      obtain ⟨_, _, -, rfl⟩ := VmmOp.exec_newPagemap h
      rcases List.mem_cons.mp hx with rfl | hx
      · exact List.mem_cons_self
      · exact List.mem_cons_of_mem _ (List.mem_cons_of_mem _ hx)
  | _ =>
      simp only [VmmOp.exec, Option.bind_eq_bind, Option.bind_eq_some_iff, Option.pure_def,
        Option.some.injEq] at h
      obtain ⟨r, -, rfl⟩ := h
      exact hx

/-- A call keeps the invariant, and changes at most the translations of the
page it sets: in its own pagemap, and in the others if that page is in the
upper half. -/
theorem VmmInv.step (hw : VmmInv F w lev) (hon : op.On w) (h : op.exec F w = some w') :
    (∃ lev', VmmInv F w' lev' ∧
      ∀ flag, 7 &&& flag ≠ 0 → Flagged flag w.vmm.mem lev → Flagged flag w'.vmm.mem lev') ∧
      ∀ x ∈ w.tops, ∀ va,
      (∀ t v, op.sets = some (t, v) → ¬ (page va = page v ∧ (x = t ∨ Upper (slotAt v 39)))) →
      translation w'.vmm.mem x va = translation w.vmm.mem x va := by
  cases op with
  | newPagemap =>
      obtain ⟨_, _, hnew, rfl⟩ := VmmOp.exec_newPagemap h
      obtain ⟨lev', hs, hflags⟩ := vmmNewPagemap_spec hw.tables (hw.tops _ List.mem_cons_self) hnew
      exact ⟨⟨lev', hw.make hs, fun flag _ => hflags flag⟩, fun x hx va _ => hs.same x (path va) (hw.tops x hx)⟩
  | mapPage top physical virtual flags =>
      obtain ⟨s, hmap, rfl⟩ := VmmOp.exec_mapPage h
      obtain ⟨htop, hp, hf⟩ := hon
      obtain ⟨lev', hs, hquiet⟩ := vmmMapPage_spec hw.tables (hw.tops top htop) hp hf hmap
      refine ⟨⟨lev', hw.set htop hs, hquiet.flags⟩, fun x hx va hother => ?_⟩
      exact hs.others x va (hw.tops x hx) fun hsame =>
        hother top virtual rfl ⟨path_eq_iff.mp hsame.1, hsame.2⟩
  | unmapPage top virtual =>
      simp only [VmmOp.exec, Option.bind_eq_bind, Option.bind_eq_some_iff, Option.pure_def,
        Option.some.injEq] at h
      obtain ⟨s, hunmap, rfl⟩ := h
      obtain ⟨lev', hs, hquiet⟩ := vmmUnmapPage_spec hw.tables (hw.tops top hon) hunmap
      refine ⟨⟨lev', hw.set hon hs, hquiet.flags⟩, fun x hx va hother => ?_⟩
      exact hs.others x va (hw.tops x hx) fun hsame =>
        hother top virtual rfl ⟨path_eq_iff.mp hsame.1, hsame.2⟩
  | virtToPte top virtual =>
      simp only [VmmOp.exec, Option.bind_eq_bind, Option.bind_eq_some_iff, Option.pure_def,
        Option.some.injEq] at h
      obtain ⟨r, hpte, rfl⟩ := h
      obtain ⟨lev', hg, -, hquiet⟩ := virtToPte_spec hw.tables (hw.tops top hon) hpte
      exact ⟨⟨lev', hw.grow hg, hquiet.flags⟩, fun x hx va _ => hg.same x (path va) (hw.tops x hx)⟩
  | virtToPhys top virtual =>
      simp only [VmmOp.exec, Option.bind_eq_bind, Option.bind_eq_some_iff, Option.pure_def,
        Option.some.injEq] at h
      obtain ⟨r, hphys, rfl⟩ := h
      obtain ⟨p, hpte, rfl⟩ := virtToPhys_spec hphys
      obtain ⟨lev', hg, -, hquiet⟩ := virtToPte_spec hw.tables (hw.tops top hon) hpte
      exact ⟨⟨lev', hw.grow hg, hquiet.flags⟩, fun x hx va _ => hg.same x (path va) (hw.tops x hx)⟩

/-- The invariant holds in every run, and all tables are writable and open to the user. -/
theorem VmmReaches.flagged (hw : VmmReaches F w) :
    ∃ lev, VmmInv F w lev ∧ ∀ flag, 7 &&& flag ≠ 0 → Flagged flag w.vmm.mem lev := by
  induction hw with
  | init h =>
      obtain ⟨lev, hinv, hflags⟩ := VmmInv.init h
      exact ⟨lev, hinv, fun flag _ => hflags flag⟩
  | step _ h hon ih =>
      obtain ⟨lev, hinv, hflags⟩ := ih
      obtain ⟨⟨lev', hinv', hkeep⟩, -⟩ := hinv.step hon h
      exact ⟨lev', hinv', fun flag hflag => hkeep flag hflag (hflags flag hflag)⟩

theorem VmmReaches.inv (hw : VmmReaches F w) : ∃ lev, VmmInv F w lev := by
  obtain ⟨lev, hinv, -⟩ := hw.flagged
  exact ⟨lev, hinv⟩

/-- Every call returns while the source has three frames left. -/
theorem VmmOp.exec_returns {n : Nat} (h : F.Ready w.vmm.src (n+3)) (op : VmmOp) :
    ∃ w', op.exec F w = some w' ∧ F.Ready w'.vmm.src n := by
  cases op with
  | newPagemap =>
      obtain ⟨r, hnew, -, hr⟩ := newTop_returns h.pred
      simp only [VmmOp.exec, vmmNewPagemap, hnew, Option.bind_eq_bind, Option.bind_some, Option.pure_def]
      exact ⟨_, rfl, hr⟩
  | mapPage top physical virtual flags =>
      obtain ⟨r, hwalk, hr⟩ := pml1Of_returns h top virtual
      simp only [VmmOp.exec, vmmMapPage, hwalk, Option.bind_eq_bind, Option.bind_some, Option.pure_def]
      exact ⟨_, rfl, hr⟩
  | unmapPage top virtual =>
      obtain ⟨r, hwalk, hr⟩ := pml1Of_returns h top virtual
      simp only [VmmOp.exec, vmmUnmapPage, hwalk, Option.bind_eq_bind, Option.bind_some, Option.pure_def]
      exact ⟨_, rfl, hr⟩
  | virtToPte top virtual =>
      obtain ⟨r, hwalk, hr⟩ := pml1Of_returns h top virtual
      simp only [VmmOp.exec, Memory.virtToPte, hwalk, Option.bind_eq_bind, Option.bind_some,
        Option.pure_def]
      exact ⟨_, rfl, hr⟩
  | virtToPhys top virtual =>
      obtain ⟨r, hwalk, hr⟩ := pml1Of_returns h top virtual
      simp only [VmmOp.exec, Memory.virtToPhys, Memory.virtToPte, hwalk, Option.bind_eq_bind,
        Option.bind_some, Option.pure_def]
      exact ⟨_, rfl, hr⟩

/-! ### Translation -/

theorem slotAt_of_page {v v' : Nat} (h : page v = page v') : slotAt v 39 = slotAt v' 39 :=
  (List.cons.inj (path_eq_iff.mpr h)).1

/-- A machine of 128 free frames. -/
def openVmm : Vmm { p : Pmm // p.limit ≤ 2 ^ 40 } :=
  ⟨fun _ => 0, ⟨fun _ => 0, 128, by decide⟩, by decide⟩

theorem openVmm_ready : pmmSource.Ready openVmm.src 20 :=
  pmmSource_ready (show (List.range' 1 20).Nodup by decide) (by decide) (by decide)

/-- What a map call leaves in its pagemap. -/
theorem translation_mapped (hw : VmmReaches F w) {physical flags : Nat} (htop : top ∈ w.tops)
    (hp : physical < 2 ^ 64) (hf : flags < 2 ^ 64) {s : Vmm σ}
    (h : vmmMapPage F w.vmm top physical virtual flags = some s) :
    translation s.mem top virtual = physical ||| flags := by
  obtain ⟨lev, hinv⟩ := hw.inv
  obtain ⟨_, hs, -⟩ := vmmMapPage_spec hinv.tables (hinv.tops top htop) hp hf h
  exact hs.here virtual rfl

/-- In every state of a run, for every pagemap made in it and every lower-half
address: the entry that `virt_to_pte` finds is that of the last map of the
page, or zero; `virt_to_phys` gives the physical page of that map; a call on
another page changes nothing; and every call returns while there are frames. -/
theorem leaf_is_last_map (hw : VmmReaches F w) (htop : top ∈ w.made.map Pagemap.top)
    (hva : virtual < 2 ^ 47) :
    (∀ pte s, virtToPte F w.vmm top virtual = some (pte, s) →
      read64 s.mem pte = leafOf (lastMap w.log top virtual)) ∧
    (∀ physical flags, lastMap w.log top virtual = some (physical, flags) →
      physical % frameSize = 0 → physical < 2 ^ 52 → flags &&& pteAddrMask = 0 →
      ∀ found s, virtToPhys F w.vmm top virtual = some (found, s) → found = physical) ∧
    (∀ (op : VmmOp) (w' : VmmRun σ), op.On w → op.exec F w = some w' →
      (∀ v, op.sets = some (top, v) → page v ≠ page virtual) →
      ∀ pte s pte' s', virtToPte F w.vmm top virtual = some (pte, s) →
        virtToPte F w'.vmm top virtual = some (pte', s') → read64 s'.mem pte' = read64 s.mem pte) ∧
    (F.Ready w.vmm.src 3 → ∀ op, ∃ w', VmmOp.exec F w op = some w') := by
  obtain ⟨lev, hinv⟩ := hw.inv
  have hmem : top ∈ w.tops := List.mem_cons_of_mem _ htop
  have hlow := lower_slot hva
  have hleaf : ∀ pte s, virtToPte F w.vmm top virtual = some (pte, s) →
      read64 s.mem pte = translation w.vmm.mem top virtual := by
    intro pte s hpte
    obtain ⟨_, -, hread, -⟩ := virtToPte_spec hinv.tables (hinv.tops top hmem) hpte
    exact hread
  refine ⟨fun pte s hpte => (hleaf pte s hpte).trans (hinv.leaves top hmem virtual hlow), ?_, ?_, ?_⟩
  · intro physical flags hlast halign hsmall hflags found s hphys
    obtain ⟨p, hpte, hp⟩ := virtToPhys_spec hphys
    obtain ⟨b, rfl⟩ := Nat.dvd_of_mod_eq_zero halign
    have hb : b < 2 ^ 40 := by
      rw [frameSize] at hsmall
      omega
    rw [(Prod.mk.inj hp).1, hleaf p.1 p.2 hpte, hinv.leaves top hmem virtual hlow, hlast]
    exact mask_or hb hflags
  · intro op w' hon hexec hother pte s pte' s' hpte hpte'
    obtain ⟨⟨lev', hinv', -⟩, hsame⟩ := hinv.step hon hexec
    have htop' : lev' top = 4 := hinv'.tops top (VmmOp.tops_mono hexec hmem)
    obtain ⟨_, -, hread, -⟩ := virtToPte_spec hinv'.tables htop' hpte'
    rw [hleaf pte s hpte, hread]
    refine hsame top hmem virtual ?_
    rintro t v hsets ⟨hpage, rfl | hup⟩
    · exact hother v hsets hpage.symm
    · exact hlow (slotAt_of_page hpage ▸ hup)
  · intro hready op
    obtain ⟨w', hexec, -⟩ := VmmOp.exec_returns (n := 0) hready op
    exact ⟨w', hexec⟩

/-- A new pagemap with one page mapped: an address of that page translates to
the frame, and one of another page to nothing. -/
theorem mapped_page_found : ∃ w top, VmmReaches pmmSource w ∧ top ∈ w.made.map Pagemap.top ∧
    (∃ s, virtToPhys pmmSource w.vmm top 0x400123 = some (0x5000, s)) ∧
    ∃ pte s, virtToPte pmmSource w.vmm top 0x401000 = some (pte, s) ∧ read64 s.mem pte = 0 := by
  obtain ⟨r, hr, -, hready⟩ := newTop_returns (n := 18) openVmm_ready
  obtain ⟨w₁, h₁, hready₁⟩ := VmmOp.exec_returns (w := ⟨r.2, r.1, [], []⟩) (n := 15) hready .newPagemap
  have hreach₁ := (VmmReaches.init hr).step h₁ trivial
  obtain ⟨top, s₁, -, rfl⟩ := VmmOp.exec_newPagemap h₁
  obtain ⟨w₂, h₂, hready₂⟩ := VmmOp.exec_returns (n := 12) hready₁ (.mapPage top 0x5000 0x400000 7)
  have hreach₂ := hreach₁.step h₂ (by simp [VmmOp.On, VmmRun.tops])
  obtain ⟨s₂, -, rfl⟩ := VmmOp.exec_mapPage h₂
  obtain ⟨p, hp, -⟩ := pml1Of_returns (n := 9) hready₂ top 0x400123
  obtain ⟨q, hq, -⟩ := pml1Of_returns (n := 9) hready₂ top 0x401000
  have htop : top ∈ [top] := List.mem_singleton_self top
  have hphys : virtToPhys pmmSource s₂ top 0x400123 =
      some (read64 p.2.mem (p.1 + 8 * pmlIndex 0x400123 12) &&& pteAddrMask, p.2) := by
    simp only [virtToPhys, virtToPte, hp, Option.bind_eq_bind, Option.bind_some, Option.pure_def]
  have hpte : virtToPte pmmSource s₂ top 0x401000 = some (q.1 + 8 * pmlIndex 0x401000 12, q.2) := by
    simp only [virtToPte, hq, Option.bind_eq_bind, Option.bind_some, Option.pure_def]
  refine ⟨_, top, hreach₂, htop, ⟨p.2, ?_⟩, ⟨_, _, hpte, ?_⟩⟩
  · have hfound := (leaf_is_last_map hreach₂ htop (by decide)).2.1 0x5000 7
      (by simp [lastMap, page, frameSize]) (by decide) (by decide) (by decide) _ _ hphys
    rw [hphys, hfound]
  · rw [(leaf_is_last_map hreach₂ htop (by decide)).1 _ _ hpte]
    simp [lastMap, page, frameSize, leafOf]

/-- In every state of a run, a call on a lower-half address changes no
translation of another pagemap, and under a slot that was present in the
kernel's pagemap when a pagemap was made, the two translate every address
alike. What is called a translation is the entry that `virt_to_pte` finds. -/
theorem pagemaps_isolated_and_shared (hw : VmmReaches F w) :
    (∀ (op : VmmOp) (w' : VmmRun σ), op.On w → op.exec F w = some w' →
      ∀ x ∈ w.tops, (∀ t v, op.sets = some (t, v) → v < 2 ^ 47 ∧ x ≠ t) →
      ∀ va, translation w'.vmm.mem x va = translation w.vmm.mem x va) ∧
    (∀ e ∈ w.made, ∀ va, 256 ≤ (slotAt va 39 : Nat) → e.shared (slotAt va 39) = true →
      translation w.vmm.mem e.top va = translation w.vmm.mem w.kernel va) ∧
    (∀ x ∈ w.tops, ∀ va pte s, virtToPte F w.vmm x va = some (pte, s) →
      read64 s.mem pte = translation w.vmm.mem x va) := by
  obtain ⟨lev, hinv⟩ := hw.inv
  refine ⟨?_, ?_, ?_⟩
  · intro op w' hon hexec x hx hother va
    refine (hinv.step hon hexec).2 x hx va ?_
    rintro t v hsets ⟨-, rfl | hup⟩
    · exact (hother x v hsets).2 rfl
    · exact lower_slot (hother t v hsets).1 hup
  · intro e he va hup hshared
    obtain ⟨c, hc, hk⟩ := hinv.shared e he _ hup hshared
    exact translation_congr (hc.trans hk.symm)
  · intro x hx va pte s hpte
    obtain ⟨_, -, hread, -⟩ := virtToPte_spec hinv.tables (hinv.tops x hx) hpte
    exact hread

/-- A page that the kernel maps under a slot it had before shows up in a
pagemap made in between. -/
theorem later_kernel_page_seen : ∃ w e, VmmReaches pmmSource w ∧ e ∈ w.made ∧
    translation w.vmm.mem e.top 0xffff800000002000 = 0x6003 := by
  obtain ⟨r, hr, -, hready⟩ := newTop_returns (n := 18) openVmm_ready
  obtain ⟨w₁, h₁, hready₁⟩ := VmmOp.exec_returns (w := ⟨r.2, r.1, [], []⟩) (n := 15) hready
    (.mapPage r.1 0x5000 0xffff800000001000 3)
  have hreach₁ := (VmmReaches.init hr).step h₁ (by simp [VmmOp.On, VmmRun.tops])
  obtain ⟨s₁, hmap₁, rfl⟩ := VmmOp.exec_mapPage h₁
  have hleaf₁ := translation_mapped (VmmReaches.init hr) List.mem_cons_self (by decide) (by decide) hmap₁
  obtain ⟨w₂, h₂, hready₂⟩ := VmmOp.exec_returns (n := 12) hready₁ .newPagemap
  have hreach₂ := hreach₁.step h₂ trivial
  obtain ⟨top, s₂, -, rfl⟩ := VmmOp.exec_newPagemap h₂
  obtain ⟨w₃, h₃, hready₃⟩ := VmmOp.exec_returns (n := 9) hready₂
    (.mapPage r.1 0x6000 0xffff800000002000 3)
  have hreach₃ := hreach₂.step h₃ (by simp [VmmOp.On, VmmRun.tops])
  obtain ⟨s₃, hmap₃, rfl⟩ := VmmOp.exec_mapPage h₃
  have hleaf₃ := translation_mapped hreach₂ List.mem_cons_self (by decide) (by decide) hmap₃
  refine ⟨_, _, hreach₃, List.mem_cons_self, ?_⟩
  rw [(pagemaps_isolated_and_shared hreach₃).2.1 _ List.mem_cons_self _ (by decide) ?_]
  · exact hleaf₃
  · -- The slot was present when the pagemap was made, since an address under it was mapped.
    have hslot : slotAt 0xffff800000002000 39 = slotAt 0xffff800000001000 39 := by decide
    refine Option.isSome_iff_ne_none.mpr fun habsent => ?_
    rw [hslot] at habsent
    rw [translation_absent habsent] at hleaf₁
    exact absurd hleaf₁ (by decide)

end Runs
end Flan.Memory
