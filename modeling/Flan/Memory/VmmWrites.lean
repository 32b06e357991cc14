import Flan.Memory.PageTables

/-! The bytes of physical memory that the operations on page tables write, write
by write, also when the operation then does not return. -/
namespace Flan.Memory
open Flan.Lib

/-- One write: the range, memory before and after it, and the source of frames at
that time. -/
structure Write (σ : Type) where
  src : σ
  mem : Mem
  span : Span
  after : Mem

/-! ### The writes -/

section Source
variable {σ : Type} (F : FrameSource σ)

/-- The `memset` of `pmm_calloc`. -/
def callocWrites (s : Vmm σ) (frames : Nat) : List (Write σ) :=
  let r := F.malloc s.src frames
  [⟨r.2, s.mem, ⟨r.1, frames * frameSize % 2 ^ 64⟩, memset s.mem r.1 0 (frames * frameSize % 2 ^ 64)⟩]

/-- An entry of a table. -/
def entryWrite (s : Vmm σ) (a v : Nat) : Write σ := ⟨s.src, s.mem, ⟨a, 8⟩, write64 s.mem a v⟩

def nextLevelWrites (s : Vmm σ) (current index : Nat) : List (Write σ) :=
  if read64 s.mem (current + 8 * index) &&& 1 ≠ 0 then []
  else
    let r := pmmCalloc F s 1
    callocWrites F s 1 ++
      if r.1 = 0 then []
      else [entryWrite r.2 (current + 8 * index) (r.1 ||| ptePresent ||| pteWritable ||| pteUser)]

def pml1Writes (s : Vmm σ) (top virtual : Nat) : List (Write σ) :=
  nextLevelWrites F s top (pmlIndex virtual 39) ++
    (getNextLevel F s top (pmlIndex virtual 39)).elim [] fun (pml3, s) =>
      nextLevelWrites F s pml3 (pmlIndex virtual 30) ++
        (getNextLevel F s pml3 (pmlIndex virtual 30)).elim [] fun (pml2, s) =>
          nextLevelWrites F s pml2 (pmlIndex virtual 21)

def mapPageWrites (s : Vmm σ) (top physical virtual flags : Nat) : List (Write σ) :=
  pml1Writes F s top virtual ++
    (pml1Of F s top virtual).elim [] fun (pml1, s) =>
      [entryWrite s (pml1 + 8 * pmlIndex virtual 12) (physical ||| flags)]

def mapPagesWrites (s : Vmm σ) (top physical virtual flags : Nat) : (pages : Nat) → List (Write σ)
  | 0 => []
  | i+1 =>
      mapPagesWrites s top physical virtual flags i ++
        (vmmMapPages F s top physical virtual flags i).elim [] fun s =>
          mapPageWrites F s top ((physical + i * frameSize) % 2 ^ 64) ((virtual + i * frameSize) % 2 ^ 64)
            flags

end Source

/-! ### The writes make up the operation -/

/-- The writes lead from one memory to the other, and each leaves the rest alone. -/
inductive Chain {σ : Type} : Mem → List (Write σ) → Mem → Prop
  | nil {m : Mem} : Chain m [] m
  | cons {w : Write σ} {ws : List (Write σ)} {m' : Mem} : (∀ x, ¬ w.span.Has x → w.after x = w.mem x) →
      Chain w.after ws m' → Chain w.mem (w :: ws) m'

section Chains
variable {σ : Type} {F : FrameSource σ} {s s' : Vmm σ} {m m' m'' : Mem} {ws ws' : List (Write σ)}
  {top physical virtual flags : Nat}

theorem Chain.append (h : Chain m ws m') (h' : Chain m' ws' m'') : Chain m (ws ++ ws') m'' := by
  induction h with
  | nil => exact h'
  | cons hw _ ih => exact .cons hw (ih h')

theorem Chain.single {w : Write σ} (hm : w.mem = m) (hm' : w.after = m')
    (h : ∀ x, ¬ w.span.Has x → w.after x = w.mem x) : Chain m [w] m' := by
  subst hm hm'
  exact .cons h .nil

/-- Memory changes in the ranges written only. -/
theorem Chain.outside (h : Chain m ws m') {x : Nat} (hx : ∀ w ∈ ws, ¬ w.span.Has x) : m' x = m x := by
  induction h with
  | nil => rfl
  | cons hw _ ih =>
      obtain ⟨hout, hws⟩ := List.forall_mem_cons.mp hx
      rw [ih hws, hw x hout]

/-- What holds of memory before and after every write holds in the end. -/
theorem Chain.last {P : Mem → Prop} (h : Chain m ws m') (hm : P m) (hws : ∀ w ∈ ws, P w.after) : P m' := by
  induction h with
  | nil => exact hm
  | cons _ _ ih =>
      obtain ⟨hw, hws⟩ := List.forall_mem_cons.mp hws
      exact ih hw hws

theorem callocWrites_chain (s : Vmm σ) (n : Nat) :
    Chain s.mem (callocWrites F s n) (pmmCalloc F s n).2.mem := by
  refine Chain.single rfl rfl fun x hx => memset_outside ?_
  simp only [Span.Has, Span.hi] at hx
  omega

theorem entryWrite_chain (s : Vmm σ) (a v : Nat) : Chain s.mem [entryWrite s a v] (write64 s.mem a v) := by
  refine Chain.single rfl rfl fun x hx => write64_outside ?_
  simp only [entryWrite, Span.Has, Span.hi] at hx
  omega

theorem nextLevelWrites_chain {current index : Nat} {r : Nat × Vmm σ}
    (h : getNextLevel F s current index = some r) :
    Chain s.mem (nextLevelWrites F s current index) r.2.mem := by
  rw [getNextLevel] at h
  rw [nextLevelWrites]
  split at h
  case isTrue hpresent =>
    rw [if_pos hpresent]
    obtain rfl := Option.some.inj h
    exact .nil
  case isFalse habsent =>
    rw [if_neg habsent]
    simp only at h ⊢
    split at h
    case isTrue => cases h
    case isFalse hne =>
      rw [if_neg hne]
      obtain rfl := Option.some.inj h
      exact (callocWrites_chain s 1).append (entryWrite_chain ..)

theorem pml1Writes_chain {r : Nat × Vmm σ} (h : pml1Of F s top virtual = some r) :
    Chain s.mem (pml1Writes F s top virtual) r.2.mem := by
  obtain ⟨⟨pml3, s₁⟩, h₁, h⟩ := Option.bind_eq_some_iff.mp h
  obtain ⟨⟨pml2, s₂⟩, h₂, h₃⟩ := Option.bind_eq_some_iff.mp h
  simp only [pml1Writes, h₁, h₂, Option.elim_some]
  exact (nextLevelWrites_chain h₁).append ((nextLevelWrites_chain h₂).append (nextLevelWrites_chain h₃))

theorem mapPageWrites_chain (h : vmmMapPage F s top physical virtual flags = some s') :
    Chain s.mem (mapPageWrites F s top physical virtual flags) s'.mem := by
  obtain ⟨⟨pml1, s₁⟩, hwalk, h⟩ := Option.bind_eq_some_iff.mp h
  obtain rfl := Option.some.inj h
  simp only [mapPageWrites, hwalk, Option.elim_some]
  exact (pml1Writes_chain hwalk).append (entryWrite_chain ..)

theorem mapPagesWrites_chain {n : Nat} (h : vmmMapPages F s top physical virtual flags n = some s') :
    Chain s.mem (mapPagesWrites F s top physical virtual flags n) s'.mem := by
  induction n generalizing s' with
  | zero =>
      obtain rfl := Option.some.inj h
      exact .nil
  | succ n ih =>
      obtain ⟨s₁, hrest, hlast⟩ := Option.bind_eq_some_iff.mp h
      simp only [mapPagesWrites, hrest, Option.elim_some]
      exact (ih hrest).append (mapPageWrites_chain hlast)

end Chains

/-! ### Where the writes go -/

/-- A table on the way from the top to an entry. -/
def TableOf (m : Mem) (top a : Nat) : Prop := ∃ ks i, reach (child m) top ks = some (a, i)

/-- A write goes to frames that were free in `s` and have been handed out since,
or to tables of the top; and no leaf of an upper slot is other than in `s`. -/
structure WriteOk {σ : Type} (F : FrameSource σ) (s : Vmm σ) (top : Nat) (w : Write σ) : Prop where
  place : ∀ x, w.span.Has x → (¬ F.Taken s.src (x / frameSize) ∧ F.Taken w.src (x / frameSize)) ∨
    TableOf w.mem top (frameSize * (x / frameSize))
  upper : ∀ va, Upper (slotAt va 39) → translation w.after top va = translation s.mem top va

section Confined
variable {σ : Type} {F : FrameSource σ} {s₀ s s' : Vmm σ} {lev lev' : Nat → Nat} {top physical virtual flags n : Nat}

theorem UpperSame.translation {m m' : Mem} (h : UpperSame m m' top) {va : Nat} (hup : Upper (slotAt va 39)) :
    translation m' top va = translation m top va := by
  have hlookup : ∀ m : Mem, Memory.translation m top va = (cellAt (child m) (entry m) top (path va)).getD 0 := by
    intro m
    rw [Memory.translation, lookup, cellAt]
    cases reach (child m) top (path va) with
    | none => rfl
    | some q => rfl
  rw [hlookup, hlookup]
  exact congrArg (Option.getD · 0) (h _ [slotAt va 30, slotAt va 21, slotAt va 12] hup (le_refl 3))

/-- The state has come about from `s₀` without a change to the upper half. -/
structure Since (F : FrameSource σ) (s₀ : Vmm σ) (top : Nat) (s : Vmm σ) (lev : Nat → Nat) : Prop where
  tables : Tables F s lev
  level : lev top = 4
  taken : ∀ f, F.Taken s₀.src f → F.Taken s.src f
  upper : UpperSame s₀.mem s.mem top

theorem Since.refl (ht : Tables F s lev) (htop : lev top = 4) : Since F s top s lev :=
  ⟨ht, htop, fun _ h => h, .refl⟩

theorem Since.keeps (h : Since F s₀ top s lev) (hk : Keeps F s lev s' lev') (hu : UpperSame s.mem s'.mem top) :
    Since F s₀ top s' lev' := by
  have htop := h.level
  exact ⟨hk.tables, (hk.level top (by omega)).trans htop, fun f hf => hk.taken f (h.taken f hf), h.upper.trans hu⟩

/-- Frames that the source hands out are nobody's. -/
theorem Since.calloc (h : Since F s₀ top s lev) (hne : (pmmCalloc F s n).1 ≠ 0) :
    Since F s₀ top (pmmCalloc F s n).2 lev :=
  h.keeps (h.tables.calloc hne).toKeeps (h.tables.upper_of_same h.level (h.tables.calloc_keeps hne))

theorem Since.callocWrites (h : Since F s₀ top s lev) (hne : n = 0 ∨ (pmmCalloc F s n).1 ≠ 0) :
    ∀ w ∈ callocWrites F s n, WriteOk F s₀ top w := by
  intro w hw
  obtain rfl := List.mem_singleton.mp hw
  rcases Nat.eq_zero_or_pos n with rfl | hpos
  · refine ⟨fun x hx => ?_, fun va hva => ?_⟩
    · simp only [Span.Has, Span.hi, Nat.zero_mul, Nat.zero_mod] at hx
      omega
    · simp only [Nat.zero_mul, Nat.zero_mod, memset]
      exact h.upper.translation hva
  · have hne := hne.resolve_left (by omega)
    refine ⟨fun x hx => .inl ?_, fun va hva => (h.calloc hne).upper.translation hva⟩
    obtain ⟨b, heq, hb, hnew⟩ := pmmCalloc_some hpos hne
    have hptr : (F.malloc s.src n).1 = frameSize * b := congrArg Prod.fst heq
    simp only [Span.Has, Span.hi, hptr] at hx
    rw [frameSize] at hx
    have hx' := hnew (x / 4096) (by omega) (by omega)
    exact ⟨fun hold => hx'.1 (h.taken _ hold), hx'.2⟩

/-- The bytes of an entry are in the frame of its table. -/
theorem entry_page {a x : Nat} {i : Slot} (ha : Framed a) (hx : (⟨a + 8 * i, 8⟩ : Span).Has x) :
    frameSize * (x / frameSize) = a := by
  obtain ⟨b, rfl⟩ := ha
  have hi := i.isLt
  simp only [Span.Has, Span.hi, frameSize] at hx ⊢
  omega

theorem Since.entryWrite (h : Since F s₀ top s lev) {a v : Nat} {i : Slot} {ks : List Slot} (ha : lev a ≠ 0)
    (hreach : reach (child s.mem) top ks = some (a, i)) (hup : UpperSame s₀.mem (write64 s.mem (a + 8 * i) v) top) :
    WriteOk F s₀ top (entryWrite s (a + 8 * i) v) := by
  refine ⟨fun x hx => .inr ⟨ks, i, ?_⟩, fun va hva => hup.translation hva⟩
  rw [entry_page (h.tables.framed ha) hx]
  exact hreach

theorem Since.nextLevel (h : Since F s₀ top s lev) {a k : Nat} {i : Slot} {ks : List Slot} (ha : 2 ≤ lev a)
    (hk : ks.length + k = 4) (hreach : reach (child s.mem) top ks = some (a, i))
    (hlow : ∀ j, ks.head? = some j → ¬ Upper j) {r : Nat × Vmm σ} (hr : getNextLevel F s a i = some r) :
    UpperSame s₀.mem r.2.mem top ∧ ∀ w ∈ nextLevelWrites F s a i, WriteOk F s₀ top w := by
  have hup := h.upper.trans (getNextLevel_upper h.tables h.level ha hk hreach hlow hr)
  refine ⟨hup, ?_⟩
  rw [getNextLevel] at hr
  rw [nextLevelWrites]
  split at hr
  case isTrue hpresent =>
    rw [if_pos hpresent]
    intro w hw
    cases hw
  case isFalse habsent =>
    rw [if_neg habsent]
    simp only at hr ⊢
    split at hr
    case isTrue => cases hr
    case isFalse hne =>
      obtain rfl := Option.some.inj hr
      have hcalloc := h.calloc hne
      have hreach' : reach (child (pmmCalloc F s 1).2.mem) top ks = some (a, i) := by
        have hchild : ∀ x j, 2 ≤ lev x → child (pmmCalloc F s 1).2.mem x j = child s.mem x j :=
          fun x j hx => child_congr (h.tables.calloc_keeps hne x j (by omega))
        rw [reach_congr (k := k) h.tables.levelled hchild (h.level.trans hk.symm)]
        exact hreach
      rw [if_neg hne]
      intro w hw
      rcases List.mem_append.mp hw with hw | hw
      · exact h.callocWrites (.inr hne) w hw
      · obtain rfl := List.mem_singleton.mp hw
        exact hcalloc.entryWrite (by omega) hreach' hup

theorem Since.pml1 (h : Since F s₀ top s lev) (hlow : ¬ Upper (slotAt virtual 39)) {r : Nat × Vmm σ}
    (hr : pml1Of F s top virtual = some r) : ∀ w ∈ pml1Writes F s top virtual, WriteOk F s₀ top w := by
  obtain ⟨pml3, pml2, s₁, s₂, lev₁, lev₂, lev₃, hd⟩ := pml1Of_descent h.tables h.level hr
  have hhead := head_lower hlow
  have htop := h.level
  have hl₁ := hd.level₁
  have hl₂ := hd.level₂
  obtain ⟨htop₁, htop₂⟩ := hd.level_top htop
  obtain ⟨hu₁, hw₁⟩ := h.nextLevel (by omega) (k := 3) rfl rfl (hhead []) hd.first
  have hs₁ : Since F s₀ top s₁ lev₁ :=
    ⟨hd.grows₁.tables, htop₁, fun f hf => hd.grows₁.taken f (h.taken f hf), hu₁⟩
  obtain ⟨hu₂, hw₂⟩ := hs₁.nextLevel (by omega) (k := 2) rfl hd.reach₁ (hhead _) hd.second
  have hs₂ : Since F s₀ top s₂ lev₂ :=
    ⟨hd.grows₂.tables, htop₂, fun f hf => hd.grows₂.taken f (hs₁.taken f hf), hu₂⟩
  obtain ⟨-, hw₃⟩ := hs₂.nextLevel (by omega) (k := 1) rfl hd.reach₂ (hhead _) hd.third
  simp only [pml1Writes, pmlIndex_eq, hd.first, hd.second, Option.elim_some, List.forall_mem_append]
  exact ⟨hw₁, hw₂, hw₃⟩

theorem Since.mapPage (h : Since F s₀ top s lev) (hlow : ¬ Upper (slotAt virtual 39)) (hp : physical < 2 ^ 64)
    (hf : flags < 2 ^ 64) (hmap : vmmMapPage F s top physical virtual flags = some s') :
    (∃ lev', Keeps F s lev s' lev' ∧ Since F s₀ top s' lev') ∧
      ∀ w ∈ mapPageWrites F s top physical virtual flags, WriteOk F s₀ top w := by
  obtain ⟨lev', hsets, -⟩ := vmmMapPage_spec h.tables h.level hp hf hmap
  have hsince := h.keeps hsets.toKeeps (hsets.upper hlow)
  refine ⟨⟨lev', hsets.toKeeps, hsince⟩, ?_⟩
  obtain ⟨⟨pml1, s₁⟩, hwalk, hmap⟩ := Option.bind_eq_some_iff.mp hmap
  obtain rfl := Option.some.inj hmap
  obtain ⟨lev₁, hg, hreach, hup, -⟩ := pml1Of_spec h.tables h.level hwalk
  have hs₁ := h.keeps hg.toKeeps (hup hlow)
  have hpml1 : lev₁ pml1 = 1 := reach_level (k := 0) hs₁.tables.levelled hs₁.level hreach
  simp only [mapPageWrites, hwalk, Option.elim_some, List.forall_mem_append, List.forall_mem_singleton]
  refine ⟨h.pml1 hlow hwalk, ?_⟩
  rw [pmlIndex_eq]
  refine hs₁.entryWrite (by omega) hreach ?_
  have hafter := hsince.upper
  simp only [pmlIndex_eq] at hafter
  exact hafter

/-- The writes of `vmm_map_pages` in the lower half. -/
theorem Since.mapPages (h : Since F s₀ top s lev) (hf : flags < 2 ^ 64)
    (hlow : ∀ i, i < n → ¬ Upper (slotAt ((virtual + i * frameSize) % 2 ^ 64) 39))
    (hmap : vmmMapPages F s top physical virtual flags n = some s') :
    (∃ lev', Keeps F s lev s' lev' ∧ Since F s₀ top s' lev') ∧
      ∀ w ∈ mapPagesWrites F s top physical virtual flags n, WriteOk F s₀ top w := by
  induction n generalizing s' with
  | zero =>
      obtain rfl := Option.some.inj hmap
      exact ⟨⟨lev, (Grows.refl h.tables).toKeeps, h⟩, nofun⟩
  | succ n ih =>
      obtain ⟨s₁, hrest, hlast⟩ := Option.bind_eq_some_iff.mp hmap
      obtain ⟨⟨lev₁, hk₁, hs₁⟩, hws⟩ := ih (fun i hi => hlow i (by omega)) hrest
      obtain ⟨⟨lev₂, hk₂, hs₂⟩, hws'⟩ :=
        hs₁.mapPage (hlow n n.lt_succ_self) (Nat.mod_lt _ (Nat.two_pow_pos 64)) hf hlast
      simp only [mapPagesWrites, hrest, Option.elim_some, List.forall_mem_append]
      exact ⟨⟨lev₂, hk₁.trans hk₂, hs₂⟩, hws, hws'⟩

end Confined

end Flan.Memory
