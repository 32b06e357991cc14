import Flan.Proc.Elf
import Flan.Sys.Mmap

/-! Which frames the processes' pages are. A run is a sequence of calls that
give a process memory. In between the kernel heap takes frames, as the records
of threads and paths need it, and heap and processes write to what they have. -/
namespace Flan.Proc
open Flan.Lib Flan.Memory Flan.Sys Flan.Fs

/-- Frames that `pmm_malloc` has handed out: for the process of that index, or
for the kernel heap. -/
structure Grant where
  owner : Option Nat
  base : Nat
  count : Nat

structure UserRun (σ : Type) where
  vmm : Vmm σ
  kernel : Nat
  procs : List Process
  grants : List Grant

inductive UserCall where
  | newProcess
  | kernelMap (physical virtual flags : Nat)
  | elfLoad (k : Nat) (f : File) (header : Mem) (stack : Nat → Mem) (wantsPath : Bool) (aux : Auxval)
  | userThread (k start arg : Nat) (argv envp : List (List Byte)) (aux : Auxval)
  | mmap (k : Nat) (call : MmapCall)
  | heapTake (frames : Nat)
  | store (mem : Mem)

section Runs
variable {σ : Type} {F : FrameSource σ} {u u' : UserRun σ} {lev lev' : Nat → Nat} {k : Nat}
  {p : Process}

/-- The frame belongs to a grant of the owner. -/
def UserRun.Granted (u : UserRun σ) (owner : Option Nat) (frame : Nat) : Prop :=
  ∃ g ∈ u.grants, g.owner = owner ∧ g.base ≤ frame ∧ frame < g.base + g.count

def stackFrames : Nat := stackSize / frameSize

/-- The grants of the segments that were loaded. -/
def loadedGrants (k : Nat) (loaded : List (Nat × Nat)) : List Grant :=
  loaded.map fun r => ⟨some k, r.1 / frameSize, r.2⟩

def UserCall.exec (F : FrameSource σ) (u : UserRun σ) : UserCall → Option (UserRun σ)
  | .newProcess => do
      let (top, s) ← vmmNewPagemap F u.vmm u.kernel
      return { u with vmm := s, procs := u.procs ++ [freshProcess top] }
  | .kernelMap physical virtual flags => do
      let s ← vmmMapPage F u.vmm u.kernel physical virtual flags
      return { u with vmm := s }
  | .elfLoad k f before stack wantsPath aux => do
      let p ← u.procs[k]?
      let (_, out, s) ← Proc.elfLoad F p.pagemap f before stack wantsPath u.vmm aux
      return { u with vmm := s, grants := loadedGrants k out.loaded ++ u.grants }
  | .userThread k start arg argv envp aux => do
      let p ← u.procs[k]?
      let (_, p, s) ← schedUserThread F u.vmm start arg p argv envp aux
      let base := (F.malloc u.vmm.src stackFrames).1 / frameSize
      return { u with vmm := s, procs := u.procs.set k p, grants := ⟨some k, base, stackFrames⟩ :: u.grants }
  | .mmap k call => do
      let p ← u.procs[k]?
      let r ← call.exec F u.vmm p
      let base := (F.malloc u.vmm.src call.pages).1 / frameSize
      return { u with
        vmm := r.vmm
        procs := u.procs.set k r.proc
        grants := if r.ret = mapFailed then u.grants else ⟨some k, base, call.pages⟩ :: u.grants }
  | .heapTake frames =>
      let r := F.malloc u.vmm.src frames
      some { u with
        vmm := { u.vmm with src := r.2 }
        grants := if r.1 = 0 then u.grants else ⟨none, r.1 / frameSize, frames⟩ :: u.grants }
  | .store mem => some { u with vmm := { u.vmm with mem } }

/-- Anonymous mappings are not at a fixed place, not empty, and succeed; their
protection is made of the three bits there are. Stores go to frames that were
handed out. -/
def UserCall.Valid (F : FrameSource σ) (u : UserRun σ) : UserCall → Prop
  | .kernelMap physical _ flags => physical < 2 ^ 64 ∧ flags < 2 ^ 64
  | .mmap k call => call.flags &&& mapAnon ≠ 0 ∧ call.flags &&& mapFixed = 0 ∧ 0 < call.length ∧
      call.prot.toNat < 8 ∧ ∀ p r, u.procs[k]? = some p → call.exec F u.vmm p = some r → r.ret ≠ mapFailed
  | .heapTake frames => 0 < frames
  | .store mem => ∀ x, (∀ o, ¬ u.Granted o (x / frameSize)) → mem x = u.vmm.mem x
  | _ => True

/-- The runs in which every call meets `C`. They start where `vmm_init` has made
the kernel's top; the heap may hold frames from before. -/
inductive UserReaches (F : FrameSource σ) (C : UserRun σ → UserCall → Prop) : UserRun σ → Prop
  | init {s : Vmm σ} {r : Nat × Vmm σ} {heap : List Grant} (h : newTop F s = some r)
      (hheap : ∀ g ∈ heap, g.owner = none ∧ ∀ f, g.base ≤ f → f < g.base + g.count → F.Taken s.src f) :
      UserReaches F C ⟨r.2, r.1, [], heap⟩
  | step {u u' : UserRun σ} {c : UserCall} (hu : UserReaches F C u) (h : c.exec F u = some u')
      (hv : c.Valid F u) (hc : C u c) : UserReaches F C u'

/-! ### Ownership -/

def UserEntry (e : Nat) : Prop := e &&& ptePresent ≠ 0 ∧ e &&& pteUser ≠ 0

def frameOf (e : Nat) : Nat := (e &&& pteAddrMask) / frameSize

/-- A user page of the lower half of the process is a frame. -/
def UserRun.Maps (u : UserRun σ) (k frame : Nat) : Prop :=
  ∃ p va, u.procs[k]? = some p ∧ (slotAt va 39 : Nat) < 256 ∧
    UserEntry (translation u.vmm.mem p.pagemap va) ∧
    frameOf (translation u.vmm.mem p.pagemap va) = frame

/-- Every user page is a frame handed out for the process, and no frame is a
user page of two processes. -/
def UserRun.Owned (u : UserRun σ) : Prop :=
  (∀ k f, u.Maps k f → u.Granted (some k) f) ∧ ∀ k k' f, u.Maps k f → u.Maps k' f → k = k'

/-! ### The condition -/

/-- The file's bytes fit into the frames of every segment, and the paths of
interpreters into their blocks of the heap. -/
def CopiesFit (f : File) (stack : Nat → Mem) (h : Ehdr) : Prop :=
  ∀ i, i < h.phnum →
    let ph := Phdr.ofMem (f.readStruct (stack i) phdrSize ((h.phoff + i * h.phentsize) % 2 ^ 64))
    (ph.type = ptLoad → ph.unaligned + f.readCount ph.filesz ph.offset ≤ ph.pages * frameSize) ∧
      (ph.type = ptInterp → f.readCount ph.filesz ph.offset ≤ (ph.filesz + 1) % 2 ^ 64)

/-- What is copied from a file is not longer than the place for it; the frame behind a
new stack belongs to the process already, and the strings of a first thread fit. -/
def UserCall.Safe (F : FrameSource σ) (u : UserRun σ) : UserCall → Prop
  | .elfLoad _ f before stack _ _ => CopiesFit f stack (Ehdr.ofMem (f.readStruct before ehdrSize 0))
  | .userThread k _ _ argv envp _ => ∀ p, u.procs[k]? = some p →
      u.Granted (some k) ((F.malloc u.vmm.src stackFrames).1 / frameSize + stackFrames) ∧
        (p.threads = 0 → fillSize argv envp ≤ stackSize)
  | _ => True

/-! ### The invariant -/

/-- The tables of the processes and the frames that were handed out. -/
structure UserBase (F : FrameSource σ) (u : UserRun σ) (lev : Nat → Nat) : Prop where
  tables : Tables F u.vmm lev
  kernel : lev u.kernel = 4
  tops : ∀ (k : Nat) (p : Process), u.procs[k]? = some p → lev p.pagemap = 4 ∧ p.pagemap ≠ u.kernel
  distinct : ∀ (k k' : Nat) (p p' : Process), u.procs[k]? = some p → u.procs[k']? = some p' →
    p.pagemap = p'.pagemap → k = k'
  taken : ∀ o f, u.Granted o f → F.Taken u.vmm.src f
  apart : ∀ o o' f, u.Granted o f → u.Granted o' f → o = o'
  noTable : ∀ o f, u.Granted o f → lev (frameSize * f) = 0
  below : ∀ k f, u.Granted (some k) f → f < 2 ^ 40

/-- The entry is empty or maps a frame of the process for the user. -/
def UserRun.Own (u : UserRun σ) (k e : Nat) : Prop :=
  e = 0 ∨ ∃ f, f < 2 ^ 40 ∧ u.Granted (some k) f ∧ e = frameSize * f ||| 7

structure UserInv (F : FrameSource σ) (u : UserRun σ) (lev : Nat → Nat) : Prop
    extends UserBase F u lev where
  own : ∀ (k : Nat) (p : Process) (va : Nat), u.procs[k]? = some p → ¬ Upper (slotAt va 39) →
    u.Own k (translation u.vmm.mem p.pagemap va)

theorem frameOf_leaf {f : Nat} (hf : f < 2 ^ 40) : frameOf (frameSize * f ||| 7) = f := by
  rw [frameOf, mask_or hf (by decide), Nat.mul_div_cancel_left f (by decide)]

theorem maps_of_leaf {va f : Nat} (hp : u.procs[k]? = some p) (hlow : (slotAt va 39 : Nat) < 256)
    (hf : f < 2 ^ 40) (h : translation u.vmm.mem p.pagemap va = frameSize * f ||| 7) : u.Maps k f := by
  refine ⟨p, va, hp, hlow, ?_, ?_⟩
  · rw [h, UserEntry, Nat.and_or_distrib_right, Nat.and_or_distrib_right]
    exact ⟨fun hz => absurd (Nat.or_eq_zero_iff.mp hz).2 (by decide),
      fun hz => absurd (Nat.or_eq_zero_iff.mp hz).2 (by decide)⟩
  · rw [h, frameOf_leaf hf]

theorem UserInv.owned (hu : UserInv F u lev) : u.Owned := by
  have hmaps : ∀ k f, u.Maps k f → u.Granted (some k) f := by
    rintro k f ⟨p, va, hp, hlow, huser, rfl⟩
    rcases hu.own k p va hp (Nat.not_le_of_lt hlow) with hzero | ⟨f, hf, hgrant, heq⟩
    · rw [hzero] at huser
      exact absurd rfl huser.1
    · rw [heq, frameOf_leaf hf]
      exact hgrant
  refine ⟨hmaps, fun k k' f hk hk' => ?_⟩
  exact Option.some.inj (hu.apart _ _ f (hmaps k f hk) (hmaps k' f hk'))

/-- Growing tables leave the grants alone. -/
theorem UserBase.keep (hu : UserBase F u lev) {s : Vmm σ} (hk : Keeps F u.vmm lev s lev') :
    UserBase F { u with vmm := s } lev' := by
  have hfour : ∀ x, lev x = 4 → lev' x = 4 := fun x hx => (hk.level x (by omega)).trans hx
  refine ⟨hk.tables, hfour _ hu.kernel, ?_, hu.distinct, ?_, hu.apart, ?_, hu.below⟩
  · exact fun k p hp => ⟨hfour _ (hu.tops k p hp).1, (hu.tops k p hp).2⟩
  · exact fun o f hf => hk.taken f (hu.taken o f hf)
  · exact fun o f hf => hk.no_table (hu.taken o f hf) (hu.noTable o f hf)

theorem UserInv.grow (hu : UserInv F u lev) {s : Vmm σ} (hg : Grows F u.vmm lev s lev') :
    UserInv F { u with vmm := s } lev' := by
  refine ⟨hu.toUserBase.keep hg.toKeeps, fun k p va hp hlow => ?_⟩
  have hsame : translation s.mem p.pagemap va = translation u.vmm.mem p.pagemap va :=
    hg.same p.pagemap (path va) (hu.tops k p hp).1
  simp only [hsame]
  exact hu.own k p va hp hlow

/-- Frames that nobody held before and that are held now. -/
def NewFrames (F : FrameSource σ) (t t' : σ) (b n : Nat) : Prop :=
  ∀ f, b ≤ f → f < b + n → f < 2 ^ 40 ∧ ¬ F.Taken t f ∧ F.Taken t' f

/-- A successful request yields new frames. -/
theorem malloc_new {t : σ} {n : Nat} (hne : (F.malloc t n).1 ≠ 0) :
    NewFrames F t (F.malloc t n).2 ((F.malloc t n).1 / frameSize) n := by
  intro f hlo hhi
  obtain ⟨b, hptr, hlt, hnew⟩ := F.fresh t n (by omega) hne
  rw [hptr, Nat.mul_div_cancel_left b (by decide)] at hlo hhi
  exact ⟨by omega, hnew f hlo hhi⟩

def UserRun.grant (u : UserRun σ) (s : Vmm σ) (g : Grant) : UserRun σ :=
  { u with vmm := s, grants := g :: u.grants }

theorem UserRun.granted_grant {s : Vmm σ} {g : Grant} {o : Option Nat} {f : Nat} :
    (u.grant s g).Granted o f ↔ (g.owner = o ∧ g.base ≤ f ∧ f < g.base + g.count) ∨ u.Granted o f :=
  List.exists_mem_cons_iff ..

/-- A grant of new frames. -/
theorem UserBase.grant (hu : UserBase F u lev) {s : Vmm σ} (hg : Grows F u.vmm lev s lev) {g : Grant}
    (hnew : NewFrames F u.vmm.src s.src g.base g.count) : UserBase F (u.grant s g) lev := by
  have hold := hu.keep hg.toKeeps
  refine ⟨hold.tables, hold.kernel, hold.tops, hold.distinct, ?_, ?_, ?_, ?_⟩
  · intro o f hf
    rcases UserRun.granted_grant.mp hf with ⟨-, hlo, hhi⟩ | hf
    · exact (hnew f hlo hhi).2.2
    · exact hold.taken o f hf
  · intro o₁ o₂ f h₁ h₂
    rcases UserRun.granted_grant.mp h₁ with ⟨rfl, hlo, hhi⟩ | hold₁
    · rcases UserRun.granted_grant.mp h₂ with ⟨rfl, -, -⟩ | hold₂
      · rfl
      · exact absurd (hu.taken o₂ f hold₂) (hnew f hlo hhi).2.1
    · rcases UserRun.granted_grant.mp h₂ with ⟨rfl, hlo, hhi⟩ | hold₂
      · exact absurd (hu.taken o₁ f hold₁) (hnew f hlo hhi).2.1
      · exact hu.apart o₁ o₂ f hold₁ hold₂
  · intro o f hf
    rcases UserRun.granted_grant.mp hf with ⟨-, hlo, hhi⟩ | hf
    · exact hu.tables.level_fresh (hnew f hlo hhi).2.1
    · exact hu.noTable o f hf
  · intro k f hf
    rcases UserRun.granted_grant.mp hf with ⟨-, hlo, hhi⟩ | hf
    · exact (hnew f hlo hhi).1
    · exact hu.below k f hf

theorem UserRun.Own.mono {e : Nat} (h : u.Own k e)
    (hmono : ∀ f, u.Granted (some k) f → u'.Granted (some k) f) : u'.Own k e :=
  h.imp id fun ⟨f, hf, hgrant, heq⟩ => ⟨f, hf, hmono f hgrant, heq⟩

theorem UserInv.grant (hu : UserInv F u lev) {s : Vmm σ} (hg : Grows F u.vmm lev s lev) {g : Grant}
    (hnew : NewFrames F u.vmm.src s.src g.base g.count) : UserInv F (u.grant s g) lev := by
  refine ⟨hu.toUserBase.grant hg hnew, fun k p va hp hlow => ?_⟩
  exact ((hu.grow hg).own k p va hp hlow).mono fun f hf => UserRun.granted_grant.mpr (.inr hf)

/-- A page of a process is set to a frame of its own. -/
theorem UserInv.set (hu : UserInv F u lev) {s : Vmm σ} {virtual v : Nat} (hp : u.procs[k]? = some p)
    (hs : Sets F u.vmm lev s lev' p.pagemap virtual v) (hown : u.Own k v) :
    UserInv F { u with vmm := s } lev' := by
  refine ⟨hu.toUserBase.keep hs.toKeeps, fun k' p' va hp' hlow => ?_⟩
  by_cases hhere : path va = path virtual ∧ p'.pagemap = p.pagemap
  · have hkk := hu.distinct k' k p' p hp' hp hhere.2
    have hleaf : translation s.mem p'.pagemap va = v := by
      rw [hhere.2]
      exact hs.here va hhere.1
    simp only [hleaf, hkk]
    exact hown
  · have hsame : translation s.mem p'.pagemap va = translation u.vmm.mem p'.pagemap va := by
      refine hs.others p'.pagemap va (hu.tops k' p' hp').1 ?_
      rintro ⟨hpath, htop | hup⟩
      · exact hhere ⟨hpath, htop⟩
      · exact hlow ((List.cons.inj hpath).1 ▸ hup)
    simp only [hsame]
    exact hu.own k' p' va hp' hlow

theorem UserInv.setKernel (hu : UserInv F u lev) {s : Vmm σ} {virtual v : Nat}
    (hs : Sets F u.vmm lev s lev' u.kernel virtual v) : UserInv F { u with vmm := s } lev' := by
  refine ⟨hu.toUserBase.keep hs.toKeeps, fun k p va hp hlow => ?_⟩
  have hsame : translation s.mem p.pagemap va = translation u.vmm.mem p.pagemap va := by
    refine hs.others p.pagemap va (hu.tops k p hp).1 ?_
    rintro ⟨hpath, htop | hup⟩
    · exact (hu.tops k p hp).2 htop
    · exact hlow ((List.cons.inj hpath).1 ▸ hup)
  simp only [hsame]
  exact hu.own k p va hp hlow

theorem entry_of_frame {m m' : Mem} {b : Nat} (h : ∀ x, x / frameSize = b → m' x = m x) (i : Slot) :
    entry m' (frameSize * b) i = entry m (frameSize * b) i := by
  have hi := i.isLt
  refine read64_congr fun x hlo hhi => h x ?_
  rw [frameSize] at hlo hhi ⊢
  omega

/-- Stores into frames that were handed out do not reach a table. -/
theorem UserBase.store (hu : UserBase F u lev) {m : Mem}
    (hm : ∀ x, (∀ o, ¬ u.Granted o (x / frameSize)) → m x = u.vmm.mem x) :
    Grows F u.vmm lev { u.vmm with mem := m } lev := by
  refine hu.tables.outside _ (fun x i hx => ?_) fun _ h => h
  obtain ⟨b, rfl, -, -⟩ := hu.tables.frame x hx
  refine entry_of_frame (fun y hy => hm y fun o hgrant => hx ?_) i
  exact hu.noTable o b (hy ▸ hgrant)

/-- A failed request only empties entries. -/
theorem UserInv.failed_calloc (hu : UserInv F u lev) {n : Nat} (hn : n < 2 ^ 52)
    (hnull : (pmmCalloc F u.vmm n).1 = 0) : UserInv F { u with vmm := (pmmCalloc F u.vmm n).2 } lev := by
  obtain ⟨ht, -, hclear⟩ := Sys.failed_calloc hu.tables hn hnull
  refine ⟨⟨ht, hu.kernel, hu.tops, hu.distinct, ?_, hu.apart, hu.noTable, hu.below⟩, ?_⟩
  · exact fun o f hf => F.keeps _ _ _ (hu.taken o f hf)
  · intro k p va hp hlow
    have hleaf : translation (pmmCalloc F u.vmm n).2.mem p.pagemap va = translation u.vmm.mem p.pagemap va ∨
        translation (pmmCalloc F u.vmm n).2.mem p.pagemap va = 0 := by
      refine lookup_cleared hu.tables.levelled (fun x i hx => ?_) (fun x i hx => hclear x i (by omega))
        (hu.tops k p hp).1
      exact (hclear x i (by omega)).imp child_congr child_none
    rcases hleaf with hsame | hzero
    · simp only [hsame]
      exact hu.own k p va hp hlow
    · exact .inl hzero

/-- The loop of `vmm_map_pages` over frames of the process. -/
theorem UserInv.mapPages (hu : UserInv F u lev) {s : Vmm σ} {b virtual n : Nat}
    (hp : u.procs[k]? = some p)
    (hframes : ∀ i, i < n → b + i < 2 ^ 40 ∧ u.Granted (some k) (b + i))
    (h : vmmMapPages F u.vmm p.pagemap (frameSize * b) virtual 7 n = some s) :
    ∃ lev', UserInv F { u with vmm := s } lev' := by
  refine vmmMapPages_rule (P := fun _ s₁ => ∃ lev', UserInv F { u with vmm := s₁ } lev')
    ⟨lev, hu⟩ ?_ h
  rintro i s₁ s₂ hi ⟨lev₁, hu₁⟩ hmap
  obtain ⟨hlt, hgrant⟩ := hframes i hi
  have hphys : (frameSize * b + i * frameSize) % 2 ^ 64 = frameSize * (b + i) := by
    rw [frameSize]
    omega
  rw [hphys] at hmap
  obtain ⟨lev₂, hs, -⟩ := vmmMapPage_spec hu₁.tables (hu₁.tops k p hp).1 (by rw [frameSize]; omega)
    (by decide) hmap
  exact ⟨lev₂, hu₁.set hp hs (.inr ⟨b + i, hlt, hgrant, rfl⟩)⟩

/-- Frames are requested for a process and mapped; pages past them are mapped
to frames that it has. -/
theorem UserInv.callocMap (hu : UserInv F u lev) {s : Vmm σ} {virtual n pages : Nat}
    (hp : u.procs[k]? = some p) (hne : (pmmCalloc F u.vmm n).1 ≠ 0) (hpos : pages ≠ 0 → 0 < n)
    (hmore : ∀ i, n ≤ i → i < pages → u.Granted (some k) ((F.malloc u.vmm.src n).1 / frameSize + i))
    (h : vmmMapPages F (pmmCalloc F u.vmm n).2 p.pagemap (pmmCalloc F u.vmm n).1 virtual 7 pages = some s) :
    ∃ lev', UserInv F (u.grant s ⟨some k, (F.malloc u.vmm.src n).1 / frameSize, n⟩) lev' := by
  have hg := hu.tables.calloc hne
  have hnew := malloc_new (F := F) (t := u.vmm.src) (n := n) hne
  have hu₁ : UserInv F (u.grant (pmmCalloc F u.vmm n).2 ⟨some k, (F.malloc u.vmm.src n).1 / frameSize, n⟩) lev :=
    hu.grant hg hnew
  by_cases hpages : pages = 0
  · subst hpages
    cases h
    exact ⟨lev, hu₁⟩
  · obtain ⟨b, hptr, -, -⟩ := F.fresh u.vmm.src n (hpos hpages) hne
    have hbase : (F.malloc u.vmm.src n).1 / frameSize = b := by
      rw [hptr, Nat.mul_div_cancel_left b (by decide)]
    have hphys : (pmmCalloc F u.vmm n).1 = frameSize * b := hptr
    rw [hphys] at h
    refine hu₁.mapPages hp (fun i hi => ?_) h
    by_cases hin : i < n
    · have hfi := hnew (b + i) (by omega) (by omega)
      exact ⟨hfi.1, UserRun.granted_grant.mpr (.inl ⟨rfl, by simp only [hbase]; omega, by simp only [hbase]; omega⟩)⟩
    · have hgrant := hmore i (by omega) hi
      rw [hbase] at hgrant
      exact ⟨hu.below k _ hgrant, UserRun.granted_grant.mpr (.inr hgrant)⟩

/-- Fields of processes other than the pagemap do not matter. -/
theorem UserInv.setProc (hu : UserInv F u lev) (hp : u.procs[k]? = some p) {p' : Process}
    (hsame : p'.pagemap = p.pagemap) : UserInv F { u with procs := u.procs.set k p' } lev := by
  have hget : ∀ {j : Nat} {q : Process}, (u.procs.set k p')[j]? = some q →
      ∃ q₀, u.procs[j]? = some q₀ ∧ q.pagemap = q₀.pagemap := by
    intro j q hq
    by_cases hkj : k = j
    · subst hkj
      obtain ⟨hlt, -⟩ := List.getElem?_eq_some_iff.mp hp
      rw [List.getElem?_set_self hlt] at hq
      cases hq
      exact ⟨p, hp, hsame⟩
    · rw [List.getElem?_set_ne hkj] at hq
      exact ⟨q, hq, rfl⟩
  refine ⟨⟨hu.tables, hu.kernel, ?_, ?_, hu.taken, hu.apart, hu.noTable, hu.below⟩, ?_⟩
  · intro j q hq
    obtain ⟨q₀, hq₀, heq⟩ := hget hq
    rw [heq]
    exact hu.tops j q₀ hq₀
  · intro j j' q q' hq hq' hqq
    obtain ⟨q₀, hq₀, heq⟩ := hget hq
    obtain ⟨q₁, hq₁, heq'⟩ := hget hq'
    exact hu.distinct j j' q₀ q₁ hq₀ hq₁ (by rw [← heq, ← heq', hqq])
  · intro j q va hq hlow
    obtain ⟨q₀, hq₀, heq⟩ := hget hq
    rw [heq]
    exact hu.own j q₀ va hq₀ hlow

/-! ### New processes -/

theorem getElem?_snoc {α : Type} {l : List α} {x y : α} {j : Nat} (h : (l ++ [x])[j]? = some y) :
    l[j]? = some y ∨ j = l.length ∧ y = x := by
  rcases Nat.lt_trichotomy j l.length with hlt | heq | hgt
  · rw [List.getElem?_append_left hlt] at h
    exact .inl h
  · subst heq
    rw [List.getElem?_concat_length] at h
    exact .inr ⟨rfl, (Option.some.inj h).symm⟩
  · rw [List.getElem?_eq_none (by simp; omega)] at h
    cases h

theorem UserInv.newProcess (hu : UserInv F u lev) {r : Nat × Vmm σ}
    (h : vmmNewPagemap F u.vmm u.kernel = some r) :
    ∃ lev', UserInv F { u with vmm := r.2, procs := u.procs ++ [freshProcess r.1] } lev' := by
  obtain ⟨lev', hs, -⟩ := vmmNewPagemap_spec hu.tables hu.kernel h
  have hold := hu.grow hs.toGrows
  have hne : ∀ {x}, lev x = 4 → x ≠ r.1 := by
    rintro x hx rfl
    rw [hs.new] at hx
    cases hx
  refine ⟨lev', ⟨hold.tables, hold.kernel, ?_, ?_, hold.taken, hold.apart, hold.noTable, hold.below⟩, ?_⟩
  · intro j q hq
    rcases getElem?_snoc hq with hq | ⟨-, rfl⟩
    · exact hold.tops j q hq
    · exact ⟨hs.root, (hne hu.kernel).symm⟩
  · intro j j' q q' hq hq' heq
    rcases getElem?_snoc hq with hq | ⟨rfl, rfl⟩
    · rcases getElem?_snoc hq' with hq' | ⟨rfl, rfl⟩
      · exact hold.distinct j j' q q' hq hq' heq
      · exact absurd heq (hne (hu.tops j q hq).1)
    · rcases getElem?_snoc hq' with hq' | ⟨rfl, rfl⟩
      · exact absurd heq.symm (hne (hu.tops j' q' hq').1)
      · rfl
  · intro j q va hq hlow
    rcases getElem?_snoc hq with hq | ⟨-, rfl⟩
    · exact hold.own j q va hq hlow
    · exact .inl (translation_absent ((hs.slots _).trans (if_neg hlow)))

/-! ### Stacks -/

/-- One page more than there are frames. -/
theorem stackPages : alignUpFrame stackSize / frameSize + 1 = stackFrames + 1 := by decide

/-- What `sched_user_thread` has done when it returns. -/
theorem schedUserThread_some {s s' : Vmm σ} {start arg : Nat} {p' : Process} {th : UserThread}
    {argv envp : List (List Byte)} {aux : Auxval}
    (h : schedUserThread F s start arg p argv envp aux = some (th, p', s')) :
    (pmmCalloc F s stackFrames).1 ≠ 0 ∧ p'.pagemap = p.pagemap ∧
      ∃ s₁, vmmMapPages F (pmmCalloc F s stackFrames).2 p.pagemap (pmmCalloc F s stackFrames).1
        (sub64 p.threadStackTop stackSize) 7 (stackFrames + 1) = some s₁ ∧
      (s' = s₁ ∨ p.threads = 0 ∧ ∃ st : Stack, s' = { s₁ with mem := st.mem } ∧
        st = Stack.fill s₁.mem (((pmmCalloc F s stackFrames).1 + stackSize) % 2 ^ 64) p.threadStackTop
          argv envp aux) := by
  obtain ⟨r, halloc, h⟩ := Option.bind_eq_some_iff.mp h
  obtain ⟨rfl, hne⟩ := pmmAlloc_some (n := stackFrames) (by decide) halloc
  obtain ⟨s₁, hmap, h⟩ := Option.bind_eq_some_iff.mp h
  have hflags : ptePresent ||| pteWritable ||| pteUser = 7 := by decide
  rw [stackPages, hflags] at hmap
  refine ⟨hne, ?_⟩
  split at h
  case isTrue hfirst =>
      simp only [Option.pure_def, Option.some.injEq, Prod.mk.injEq] at h
      obtain ⟨-, rfl, rfl⟩ := h
      exact ⟨rfl, s₁, hmap, .inr ⟨hfirst, _, rfl, rfl⟩⟩
  case isFalse =>
      simp only [Option.pure_def, Option.some.injEq, Prod.mk.injEq] at h
      obtain ⟨-, rfl, rfl⟩ := h
      exact ⟨rfl, s₁, hmap, .inl rfl⟩

/-- What is written to the frames of a stack leaves the tables alone. -/
theorem stack_entry {s : Vmm σ} (ht : Tables F s lev) {b n : Nat} {st : Stack}
    (hlev : ∀ f, b ≤ f → f < b + stackFrames → lev (frameSize * f) = 0)
    (hst : (Stack.mk s.mem (frameSize * b + stackSize)).Within st n) (hn : n ≤ stackSize) (x : Nat) (i : Slot)
    (hx : lev x ≠ 0) : entry st.mem x i = entry s.mem x i := by
  have hstack : stackFrames = 16 := by decide
  have hused := hst.used
  rw [hstack] at hlev
  rw [stackSize] at hn
  obtain ⟨c, rfl, -, -⟩ := ht.frame x hx
  have hout : c < b ∨ b + 16 ≤ c := by
    by_contra hin
    exact hx (hlev c (by omega) (by omega))
  refine entry_of_frame (fun y hy => hst.outside y ?_) i
  simp only at hused ⊢
  rw [frameSize, stackSize] at hused ⊢
  rw [frameSize] at hy
  omega

theorem stack_grows {s : Vmm σ} (ht : Tables F s lev) {b n : Nat} {st : Stack}
    (hlev : ∀ f, b ≤ f → f < b + stackFrames → lev (frameSize * f) = 0)
    (hst : (Stack.mk s.mem (frameSize * b + stackSize)).Within st n) (hn : n ≤ stackSize) :
    Grows F s lev { s with mem := st.mem } lev :=
  ht.outside _ (stack_entry ht hlev hst hn) fun _ h => h

/-- The strings and vectors of a first thread, if they fit. -/
theorem fill_within_stack {m : Mem} {b rsp : Nat} {argv envp : List (List Byte)} {aux : Auxval} {st : Stack}
    (hb : b + stackFrames ≤ 2 ^ 40) (hfit : fillSize argv envp ≤ stackSize)
    (hst : st = Stack.fill m ((frameSize * b + stackSize) % 2 ^ 64) rsp argv envp aux) :
    (Stack.mk m (frameSize * b + stackSize)).Within st (fillSize argv envp) := by
  have htop : (frameSize * b + stackSize) % 2 ^ 64 = frameSize * b + stackSize := by
    rw [frameSize, stackSize]
    omega
  rw [hst, htop]
  refine Stack.fill_within ?_ ?_ ?_
  · rw [frameSize, stackSize]
    omega
  · rw [frameSize, stackSize]
    omega
  · omega

theorem UserInv.userThread (hu : UserInv F u lev) (hp : u.procs[k]? = some p) {s' : Vmm σ}
    {start arg : Nat} {p' : Process} {th : UserThread} {argv envp : List (List Byte)} {aux : Auxval}
    (h : schedUserThread F u.vmm start arg p argv envp aux = some (th, p', s'))
    (hnext : u.Granted (some k) ((F.malloc u.vmm.src stackFrames).1 / frameSize + stackFrames))
    (hfit : p.threads = 0 → fillSize argv envp ≤ stackSize) :
    ∃ lev', UserInv F { u.grant s' ⟨some k, (F.malloc u.vmm.src stackFrames).1 / frameSize, stackFrames⟩ with
      procs := u.procs.set k p' } lev' := by
  obtain ⟨hne, hpm, s₁, hmap, hs'⟩ := schedUserThread_some h
  obtain ⟨lev₁, hu₁⟩ := hu.callocMap hp hne (fun _ => by decide) (fun i hlo hhi => by
    obtain rfl : i = stackFrames := by omega
    exact hnext) hmap
  rcases hs' with rfl | ⟨hfirst, st, rfl, hst⟩
  · exact ⟨lev₁, hu₁.setProc hp hpm⟩
  · obtain ⟨b, hptr, hb, -⟩ := F.fresh u.vmm.src stackFrames (by decide) hne
    have hbase : (F.malloc u.vmm.src stackFrames).1 / frameSize = b := by
      rw [hptr, Nat.mul_div_cancel_left b (by decide)]
    have hphys : (pmmCalloc F u.vmm stackFrames).1 = frameSize * b := hptr
    have hlev : ∀ f, b ≤ f → f < b + stackFrames → lev₁ (frameSize * f) = 0 := by
      intro f hlo hhi
      refine hu₁.noTable (some k) f (UserRun.granted_grant.mpr (.inl ⟨rfl, ?_, ?_⟩))
      · simp only [hbase]
        exact hlo
      · simp only [hbase]
        exact hhi
    rw [hphys] at hst
    have hwithin := fill_within_stack hb (hfit hfirst) hst
    exact ⟨lev₁, (hu₁.grow (stack_grows hu₁.tables hlev hwithin (hfit hfirst))).setProc hp hpm⟩

/-! ### Segments -/

theorem UserInv.segment (hu : UserInv F u lev) (hp : u.procs[k]? = some p) {s' : Vmm σ} {f : File}
    {ph : Phdr} {frames : Option (Nat × Nat)}
    (hfit : ph.unaligned + f.readCount ph.filesz ph.offset ≤ ph.pages * frameSize)
    (h : loadSegment F p.pagemap f u.vmm ph = some (frames, s')) :
    ∃ lev', UserInv F { u with vmm := s', grants := loadedGrants k frames.toList ++ u.grants } lev' := by
  have hpages : ph.pages < 2 ^ 52 := by
    simp only [Phdr.pages, alignUpFrame, frameSize]
    omega
  rcases loadSegment_some h with ⟨hnull, rfl, rfl⟩ | ⟨hne, rfl, s₁, hmap, rfl, hcount⟩
  · exact ⟨lev, hu.failed_calloc hpages hnull⟩
  · have hpos : 0 < ph.pages := by
      by_contra hz
      rw [Nat.eq_zero_of_not_pos hz] at hfit
      omega
    obtain ⟨lev₁, hu₁⟩ := hu.callocMap hp hne (fun _ => hpos) (fun i hlo hhi => by omega) hmap
    obtain ⟨b, hptr, -, -⟩ := F.fresh u.vmm.src ph.pages hpos hne
    have hbase : (F.malloc u.vmm.src ph.pages).1 / frameSize = b := by
      rw [hptr, Nat.mul_div_cancel_left b (by decide)]
    have hphys : (pmmCalloc F u.vmm ph.pages).1 = frameSize * b := hptr
    have hlen : (f.read ph.filesz ph.offset).length = f.readCount ph.filesz ph.offset := by
      rw [File.read, List.length_map, List.length_range]
    refine ⟨lev₁, hu₁.grow (hu₁.store fun x hx => storeBytes_outside ?_)⟩
    by_contra hin
    refine hx (some k) (UserRun.granted_grant.mpr (.inl ⟨rfl, ?_, ?_⟩))
    · simp only [hbase]
      rw [hphys] at hin
      rw [frameSize] at hin ⊢
      omega
    · simp only [hbase]
      rw [hphys, hlen] at hin
      rw [frameSize] at hin hfit ⊢
      omega

/-- The loop over the program headers. -/
theorem UserInv.headers {f : File} {stack : Nat → Mem} {wantsPath : Bool} {h : Ehdr}
    (hfit : CopiesFit f stack h) (hp : u.procs[k]? = some p) {left i : Nat} (hleft : i + left = h.phnum)
    {s s' : Vmm σ} {out out' : ElfOut} {ok : Bool}
    (hu : UserInv F { u with vmm := s, grants := loadedGrants k out.loaded ++ u.grants } lev)
    (hrun : loadHeaders F p.pagemap f stack wantsPath h left i s out = some (ok, out', s')) :
    ∃ lev', UserInv F { u with vmm := s', grants := loadedGrants k out'.loaded ++ u.grants } lev' := by
  induction left generalizing i s out lev with
  | zero =>
      cases hrun
      exact ⟨lev, hu⟩
  | succ left ih =>
      simp only [loadHeaders] at hrun
      split at hrun
      case isTrue =>
          cases hrun
          exact ⟨lev, hu⟩
      case isFalse =>
          split at hrun
          case isTrue hload =>
              obtain ⟨⟨frames, s₁⟩, hseg, hrun⟩ := Option.bind_eq_some_iff.mp hrun
              obtain ⟨lev₁, hu₁⟩ := hu.segment hp ((hfit i (by omega)).1 hload) hseg
              cases frames with
              | none =>
                  cases hrun
                  exact ⟨lev₁, hu₁⟩
              | some r => exact @ih lev₁ (i+1) (by omega) s₁ { out with loaded := r :: out.loaded } hu₁ hrun
          case isFalse =>
              split at hrun
              case isTrue =>
                  obtain ⟨path, -, hrun⟩ := Option.bind_eq_some_iff.mp hrun
                  refine @ih lev (i+1) (by omega) s _ ?_ hrun
                  split
                  · exact hu
                  · exact hu
              case isFalse =>
                  split at hrun
                  · refine @ih lev (i+1) (by omega) s _ ?_ hrun
                    exact hu
                  · exact @ih lev (i+1) (by omega) s out hu hrun

theorem UserInv.elfLoad (hu : UserInv F u lev) (hp : u.procs[k]? = some p) {f : File} {header : Mem}
    {stack : Nat → Mem} {wantsPath : Bool} {aux : Auxval} {s' : Vmm σ} {out : ElfOut} {ok : Bool}
    (hfit : CopiesFit f stack (Ehdr.ofMem (f.readStruct header ehdrSize 0)))
    (h : elfLoad F p.pagemap f header stack wantsPath u.vmm aux = some (ok, out, s')) :
    ∃ lev', UserInv F { u with vmm := s', grants := loadedGrants k out.loaded ++ u.grants } lev' := by
  simp only [Proc.elfLoad] at h
  split at h
  case isTrue =>
      cases h
      exact ⟨lev, hu⟩
  case isFalse =>
      split at h
      case isTrue =>
          cases h
          exact ⟨lev, hu⟩
      case isFalse =>
          obtain ⟨⟨ok₁, out₁, s₁⟩, hrun, h⟩ := Option.bind_eq_some_iff.mp h
          obtain ⟨lev₁, hu₁⟩ := UserInv.headers hfit hp (Nat.zero_add _) hu hrun
          split at h
          · simp only [Option.pure_def, Option.some.injEq, Prod.mk.injEq] at h
            obtain ⟨-, rfl, rfl⟩ := h
            exact ⟨lev₁, hu₁⟩
          · simp only [Option.pure_def, Option.some.injEq, Prod.mk.injEq] at h
            obtain ⟨-, rfl, rfl⟩ := h
            exact ⟨lev₁, hu₁⟩

/-! ### Anonymous mappings -/

theorem mmapFlags_user {prot : BitVec 32} (h : prot.toNat < 8) : mmapFlags prot = 7 := by
  have hall : ∀ n < 8, mmapFlags (BitVec.ofNat 32 n) = 7 := by decide
  have hprot := hall prot.toNat h
  rwa [BitVec.ofNat_toNat, BitVec.setWidth_eq] at hprot

theorem UserInv.mmap (hu : UserInv F u lev) (hp : u.procs[k]? = some p) {call : MmapCall}
    {r : MmapResult σ} (hanon : call.flags &&& mapAnon ≠ 0) (hfixed : call.flags &&& mapFixed = 0)
    (hprot : call.prot.toNat < 8) (h : call.exec F u.vmm p = some r) (hok : r.ret ≠ mapFailed) :
    ∃ lev', UserInv F { u.grant r.vmm ⟨some k, (F.malloc u.vmm.src call.pages).1 / frameSize, call.pages⟩ with
      procs := u.procs.set k r.proc } lev' := by
  rw [MmapCall.exec_anywhere u.vmm p hanon (not_not_intro hfixed)] at h
  rcases mmapAt_cases h with ⟨-, rfl⟩ | ⟨hne, s', hmap, rfl⟩
  · exact absurd rfl hok
  · rw [mmapFlags_user hprot] at hmap
    obtain ⟨lev₁, hu₁⟩ := hu.callocMap hp hne Nat.pos_of_ne_zero (fun i hlo hhi => by omega) hmap
    exact ⟨lev₁, hu₁.setProc hp rfl⟩

/-! ### Runs -/

theorem UserInv.init {s : Vmm σ} {r : Nat × Vmm σ} {heap : List Grant} (h : newTop F s = some r)
    (hheap : ∀ g ∈ heap, g.owner = none ∧ ∀ f, g.base ≤ f → f < g.base + g.count → F.Taken s.src f) :
    ∃ lev, UserInv F ⟨r.2, r.1, [], heap⟩ lev := by
  obtain ⟨lev, hs, -⟩ := newTop_spec .none h
  have htaken : ∀ o f, UserRun.Granted ⟨r.2, r.1, [], heap⟩ o f → o = none ∧ F.Taken s.src f := by
    rintro o f ⟨g, hg, rfl, hlo, hhi⟩
    exact ⟨(hheap g hg).1, (hheap g hg).2 f hlo hhi⟩
  refine ⟨lev, ⟨hs.tables, hs.root, nofun, nofun, ?_, ?_, ?_, ?_⟩, nofun⟩
  · exact fun o f hf => hs.taken f (htaken o f hf).2
  · intro o o' f hf hf'
    rw [(htaken o f hf).1, (htaken o' f hf').1]
  · exact fun o f hf => hs.no_table (htaken o f hf).2 rfl
  · intro k f hf
    cases (htaken _ f hf).1

theorem UserInv.step (hu : UserInv F u lev) {c : UserCall} (h : c.exec F u = some u') (hv : c.Valid F u)
    (hs : c.Safe F u) : ∃ lev', UserInv F u' lev' := by
  cases c with
  | newProcess =>
      obtain ⟨r, hnew, h⟩ := Option.bind_eq_some_iff.mp h
      cases h
      exact hu.newProcess hnew
  | kernelMap physical virtual flags =>
      obtain ⟨s, hmap, h⟩ := Option.bind_eq_some_iff.mp h
      cases h
      obtain ⟨lev', hset, -⟩ := vmmMapPage_spec hu.tables hu.kernel hv.1 hv.2 hmap
      exact ⟨lev', hu.setKernel hset⟩
  | elfLoad k f before stack wantsPath aux =>
      obtain ⟨p, hp, h⟩ := Option.bind_eq_some_iff.mp h
      obtain ⟨⟨ok, out, s⟩, hload, h⟩ := Option.bind_eq_some_iff.mp h
      cases h
      exact hu.elfLoad hp hs hload
  | userThread k start arg argv envp aux =>
      obtain ⟨p, hp, h⟩ := Option.bind_eq_some_iff.mp h
      obtain ⟨⟨th, p', s⟩, hthread, h⟩ := Option.bind_eq_some_iff.mp h
      cases h
      exact hu.userThread hp hthread (hs p hp).1 (hs p hp).2
  | mmap k call =>
      obtain ⟨p, hp, h⟩ := Option.bind_eq_some_iff.mp h
      obtain ⟨r, hcall, h⟩ := Option.bind_eq_some_iff.mp h
      obtain ⟨hanon, hfixed, -, hprot, hret⟩ := hv
      have hok := hret p r hp hcall
      simp only [if_neg hok] at h
      cases h
      exact hu.mmap hp hanon hfixed hprot hcall hok
  | heapTake frames =>
      cases h
      have hmem : Grows F u.vmm lev { u.vmm with src := (F.malloc u.vmm.src frames).2 } lev :=
        hu.tables.outside _ (fun _ _ _ => rfl) fun f => F.keeps u.vmm.src frames f
      split
      case isTrue => exact ⟨lev, hu.grow hmem⟩
      case isFalse hne => exact ⟨lev, hu.grant hmem (malloc_new hne)⟩
  | store mem =>
      cases h
      exact ⟨lev, hu.grow (hu.store hv)⟩

theorem UserReaches.inv (hu : UserReaches F (fun u c => c.Safe F u) u) : ∃ lev, UserInv F u lev := by
  induction hu with
  | init h hheap => exact UserInv.init h hheap
  | step _ h hv hs ih =>
      obtain ⟨lev, hinv⟩ := ih
      exact hinv.step h hv hs

theorem UserReaches.mono {C C' : UserRun σ → UserCall → Prop} (hle : ∀ u c, C u c → C' u c)
    (hu : UserReaches F C u) : UserReaches F C' u := by
  induction hu with
  | init h hheap => exact .init h hheap
  | step _ h hv hc ih => exact ih.step h hv (hle _ _ hc)

theorem schedUserThread_granted {R : Nat → σ → Prop} (hR : Grants F R) {s : Vmm σ} {n : Nat}
    (hne : (pmmCalloc F s stackFrames).1 ≠ 0)
    (hready : R (n + 3 * (stackFrames + 1)) (pmmCalloc F s stackFrames).2.src) (start arg : Nat)
    (p : Process) (argv envp : List (List Byte)) (aux : Auxval) :
    ∃ th p' s', schedUserThread F s start arg p argv envp aux = some (th, p', s') ∧ R n s'.src := by
  have hframes : (stackSize + (frameSize - 1)) % 2 ^ 64 / frameSize = stackFrames := by decide
  have halloc : pmmAlloc F s stackSize = some (pmmCalloc F s stackFrames) := by
    simp only [pmmAlloc, hframes, if_neg hne]
  have hmap : ∃ s₁, vmmMapPages F (pmmCalloc F s stackFrames).2 p.pagemap (pmmCalloc F s stackFrames).1
      (sub64 p.threadStackTop stackSize) (ptePresent ||| pteWritable ||| pteUser) (stackFrames + 1) =
        some s₁ ∧ R n s₁.src := vmmMapPages_granted hR hready
  obtain ⟨s₁, hs₁, hsrc⟩ := hmap
  rw [schedUserThread, halloc, Option.bind_eq_bind, Option.bind_some]
  simp only [stackPages]
  rw [hs₁, Option.bind_eq_bind, Option.bind_some]
  by_cases hfirst : p.threads = 0
  · rw [if_pos hfirst]
    exact ⟨_, _, _, rfl, hsrc⟩
  · rw [if_neg hfirst]
    exact ⟨_, _, _, rfl, hsrc⟩

/-- The pages of a new stack are its sixteen frames and the one behind them. -/
theorem stack_page {s s' : Vmm σ} (ht : Tables F s lev) (htop : lev p.pagemap = 4) {start arg b i va : Nat}
    {p' : Process} {th : UserThread} {argv envp : List (List Byte)} {aux : Auxval}
    (h : schedUserThread F s start arg p argv envp aux = some (th, p', s'))
    (hfit : p.threads = 0 → fillSize argv envp ≤ stackSize)
    (hptr : (pmmCalloc F s stackFrames).1 = frameSize * b) (hi : i < stackFrames + 1)
    (hlow : sub64 p.threadStackTop stackSize / frameSize + (stackFrames + 1) ≤ 2 ^ 35) (hva : va < 2 ^ 47)
    (hpage : va / frameSize = sub64 p.threadStackTop stackSize / frameSize + i) :
    translation s'.mem p.pagemap va = frameSize * (b + i) ||| 7 := by
  obtain ⟨hne, -, s₁, hmap, hs'⟩ := schedUserThread_some h
  have hbase : (F.malloc s.src stackFrames).1 / frameSize = b := by
    rw [show (F.malloc s.src stackFrames).1 = frameSize * b from hptr,
      Nat.mul_div_cancel_left b (by decide)]
  have hb : b + stackFrames ≤ 2 ^ 40 := by
    obtain ⟨b', hptr', hb', -⟩ := F.fresh s.src stackFrames (by decide) hne
    rwa [← hbase, hptr', Nat.mul_div_cancel_left b' (by decide)]
  rw [hptr] at hmap hs'
  obtain ⟨lev₁, hk, -, hleaf, -⟩ := vmmMapPages_spec (ht.calloc hne).tables htop (by omega) hlow hmap
  have hentry := hleaf i hi va hva hpage
  rcases hs' with rfl | ⟨hfirst, st, rfl, hst⟩
  · exact hentry
  · have hlev : ∀ f, b ≤ f → f < b + stackFrames → lev₁ (frameSize * f) = 0 := by
      intro f hlo hhi
      obtain ⟨-, hfree, htaken⟩ := malloc_new (show (F.malloc s.src stackFrames).1 ≠ 0 from hne) f
        (by omega) (by omega)
      exact hk.no_table htaken (ht.level_fresh hfree)
    have hgrows := stack_grows hk.tables hlev (fill_within_stack hb (hfit hfirst) hst) (hfit hfirst)
    rw [← hentry]
    exact hgrows.same p.pagemap (path va) ((hk.level p.pagemap (by omega)).trans htop)

end Runs

/-! ### A new process -/

/-- The machine with one process and no memory given to it yet. -/
theorem fresh_process : ∃ s kernel top, s.src = fourTaken ∧
    UserReaches pmmSource (fun u c => c.Safe pmmSource u) ⟨s, kernel, [freshProcess top], []⟩ := by
  obtain ⟨r, hr, hsrc, hready⟩ := newTop_returns (n := 18) openVmm_ready
  obtain ⟨q, hq, hsrc', -⟩ := newTop_returns (n := 16) hready
  have hnew : vmmNewPagemap pmmSource r.2 r.1 =
      some (q.1, { q.2 with mem := copySlots q.2.mem q.1 r.1 256 }) := by
    simp only [vmmNewPagemap, hq, Option.bind_eq_bind, Option.bind_some, Option.pure_def]
  have hexec : UserCall.newProcess.exec pmmSource ⟨r.2, r.1, [], []⟩ = some
      ⟨{ q.2 with mem := copySlots q.2.mem q.1 r.1 256 }, r.1, [freshProcess q.1], []⟩ := by
    simp only [UserCall.exec, hnew, Option.bind_eq_bind, Option.bind_some, Option.pure_def, List.nil_append]
  have hinit : UserReaches pmmSource (fun u c => c.Safe pmmSource u) ⟨r.2, r.1, [], []⟩ :=
    .init hr fun _ h => absurd h List.not_mem_nil
  refine ⟨_, r.1, q.1, ?_, hinit.step hexec trivial trivial⟩
  simp only [hsrc', hsrc]
  rfl

/-- In every run whose calls are all safe, every user page of a process is a
frame handed out for it, and no frame is a page of two processes. -/
theorem user_pages_owned {σ : Type} {F : FrameSource σ} {u : UserRun σ}
    (hu : UserReaches F (fun u c => c.Safe F u) u) : u.Owned := by
  obtain ⟨lev, hinv⟩ := hu.inv
  exact hinv.owned

/-- Two pages of anonymous memory: the frames 5 and 6. -/
theorem anonymous_pages_owned : ∃ u, UserReaches pmmSource (fun u c => c.Safe pmmSource u) u ∧
    u.Maps 0 5 ∧ u.grants = [⟨some 0, 5, 2⟩] ∧ u.Owned := by
  obtain ⟨s, kernel, top, hsrc, hu⟩ := fresh_process
  let c : MmapCall := ⟨0, 0x1800, 3, 0x20⟩
  let p' : Process := ⟨top, 0, 0x70000000000, (0x80000000000 + 2 * frameSize) % 2 ^ 64⟩
  have hpages : c.pages = 2 := by decide
  have hbase : (pmmSource.malloc s.src 2).1 = frameSize * 5 := by
    rw [hsrc]
    decide
  obtain ⟨hne, s', hmap, hat⟩ := @two_pages ⟨s, kernel, [], []⟩ hsrc p' 0x80000000000 c.prot
  have hcall : c.exec pmmSource s (freshProcess top) = some ⟨0x80000000000, none, "", p', s'⟩ := by
    rw [MmapCall.exec_anywhere s (freshProcess top) (by decide) (by decide), hpages]
    exact hat
  have hret : ¬ 0x80000000000 = mapFailed := by decide
  have hexec : (UserCall.mmap 0 c).exec pmmSource ⟨s, kernel, [freshProcess top], []⟩ =
      some ⟨s', kernel, [p'], [⟨some 0, 5, 2⟩]⟩ := by
    simp only [UserCall.exec, List.getElem?_cons_zero, hcall, hpages, hbase, Option.bind_eq_bind,
      Option.bind_some, Option.pure_def, if_neg hret, List.set_cons_zero,
      Nat.mul_div_cancel_left 5 (show 0 < frameSize by decide)]
  have hvalid : (UserCall.mmap 0 c).Valid pmmSource ⟨s, kernel, [freshProcess top], []⟩ := by
    refine ⟨by decide, by decide, by decide, by decide, fun p r hp hr => ?_⟩
    cases hp
    rw [hcall] at hr
    cases hr
    exact hret
  have hreach := hu.step hexec hvalid trivial
  refine ⟨_, hreach, ?_, rfl, user_pages_owned hreach⟩
  obtain ⟨lev, hinv⟩ := hu.inv
  have hphys : (pmmCalloc pmmSource s 2).1 = frameSize * 5 := hbase
  rw [hphys, mmapFlags_user (by decide)] at hmap
  obtain ⟨_, -, -, hleaf, -⟩ := vmmMapPages_spec (hinv.tables.calloc hne).tables
    (hinv.tops 0 _ rfl).1 (by decide) (by decide) hmap
  have hentry : translation s'.mem top 0x80000000000 = frameSize * 5 ||| 7 :=
    hleaf 0 (by decide) 0x80000000000 (by decide) (by decide)
  exact maps_of_leaf rfl (by decide) (by decide) hentry

theorem fourTaken_stack : (pmmSource.malloc fourTaken stackFrames).1 = frameSize * 5 ∧
    pmmSource.Ready (pmmSource.malloc fourTaken stackFrames).2 (0 + 3 * (stackFrames + 1)) ∧
    (pmmSource.malloc (pmmSource.malloc fourTaken stackFrames).2 1).1 = frameSize * 21 :=
  ⟨by decide +kernel, pmmSource_ready (show (List.range' 21 51).Nodup by decide +kernel) (by decide)
    (by decide +kernel), by decide +kernel⟩

/-- A thread for a new process: the page at the top of its stack is frame 21,
which was not handed out for it and is the next one that `pmm_malloc` gives. -/
theorem stack_top_page_not_owned : ∃ u, UserReaches pmmSource (fun _ _ => True) u ∧ u.Maps 0 21 ∧
    u.grants = [⟨some 0, 5, 16⟩] ∧ ¬ u.Owned ∧
    (pmmSource.malloc (pmmSource.malloc fourTaken 16).2 1).1 = frameSize * 21 := by
  obtain ⟨s, kernel, top, hsrc, hu⟩ := fresh_process
  obtain ⟨hbase, hready, hnext⟩ := fourTaken_stack
  rw [← hsrc] at hbase hready
  have hptr : (pmmCalloc pmmSource s stackFrames).1 = frameSize * 5 := hbase
  have hne : (pmmCalloc pmmSource s stackFrames).1 ≠ 0 := hptr.trans_ne (by decide)
  obtain ⟨th, p', s', hthread, -⟩ :=
    schedUserThread_granted grants_ready hne hready 0 0 (freshProcess top) [] [] ⟨0, 0, 0, 0⟩
  have hexec : (UserCall.userThread 0 0 0 [] [] ⟨0, 0, 0, 0⟩).exec pmmSource ⟨s, kernel, [freshProcess top], []⟩ =
      some ⟨s', kernel, [p'], [⟨some 0, 5, stackFrames⟩]⟩ := by
    simp only [UserCall.exec, List.getElem?_cons_zero, hthread, hbase, Option.bind_eq_bind,
      Option.bind_some, Option.pure_def, List.set_cons_zero,
      Nat.mul_div_cancel_left 5 (show 0 < frameSize by decide)]
  have hmaps : UserRun.Maps ⟨s', kernel, [p'], [⟨some 0, 5, stackFrames⟩]⟩ 0 21 := by
    obtain ⟨lev, hinv⟩ := hu.inv
    obtain ⟨-, hpm, -⟩ := schedUserThread_some hthread
    have hlow : sub64 0x70000000000 stackSize / frameSize + (stackFrames + 1) ≤ 2 ^ 35 := by decide
    have hpage : 0x70000000000 / frameSize = sub64 0x70000000000 stackSize / frameSize + stackFrames := by decide
    have hentry := stack_page hinv.tables (hinv.tops 0 _ rfl).1 hthread (fun _ => by decide) hptr (by decide)
      hlow (by decide) hpage
    rw [← hpm] at hentry
    exact maps_of_leaf rfl (by decide) (by decide) hentry
  refine ⟨_, (hu.mono fun _ _ _ => trivial).step hexec trivial trivial, hmaps, rfl, fun howned => ?_, hnext⟩
  obtain ⟨g, hg, -, -, hhi⟩ := howned.1 0 21 hmaps
  rw [List.mem_singleton.mp hg] at hhi
  exact absurd hhi (by decide)

end Flan.Proc
