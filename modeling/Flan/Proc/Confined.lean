import Flan.Memory.VmmWrites
import Flan.Proc.Image

/-! Where `elf_load` writes, for files with any contents. -/
namespace Flan.Proc
open Flan.Lib Flan.Memory Flan.Fs

/-! ### The writes -/

/-- A write to physical memory, or a copy of so many bytes to a buffer of its own:
a header on the stack, or the block for the interpreter's path. -/
inductive ElfWrite (σ : Type) where
  | physical (w : Write σ)
  | buffer (size copied : Nat)

/-- The header that the `i`th turn of the loop reads. -/
def headerAt (f : File) (stack : Nat → Mem) (h : Ehdr) (i : Nat) : Phdr :=
  Phdr.ofMem (f.readStruct (stack i) phdrSize ((h.phoff + i * h.phentsize) % 2 ^ 64))

/-- How much of it `vfs_read` copies. -/
def headerCount (f : File) (h : Ehdr) (i : Nat) : Nat :=
  f.readCount phdrSize ((h.phoff + i * h.phentsize) % 2 ^ 64)

section Writes
variable {σ : Type} (F : FrameSource σ) (pagemap : Nat) (f : File)

/-- The copy of a segment's bytes, made before the `assert` on its count. -/
def copyWrite (s : Vmm σ) (phys : Nat) (ph : Phdr) : Write σ :=
  ⟨s.src, s.mem, ⟨phys + ph.unaligned, f.readCount ph.filesz ph.offset⟩,
    storeBytes s.mem (phys + ph.unaligned) (f.read ph.filesz ph.offset)⟩

def segmentWrites (s : Vmm σ) (ph : Phdr) : List (Write σ) :=
  let r := pmmCalloc F s ph.pages
  callocWrites F s ph.pages ++
    if r.1 = 0 then []
    else
      mapPagesWrites F r.2 pagemap r.1 ph.vaddr (ptePresent ||| pteWritable ||| pteUser) ph.pages ++
        (vmmMapPages F r.2 pagemap r.1 ph.vaddr (ptePresent ||| pteWritable ||| pteUser) ph.pages).elim []
          fun s => [copyWrite f s r.1 ph]

/-- The writes of the loop over the program headers, up to where it ends or stops. -/
def headersWrites (stack : Nat → Mem) (h : Ehdr) : (left : Nat) → (i : Nat) → Vmm σ → List (ElfWrite σ)
  | 0, _, _ => []
  | left+1, i, s =>
      .buffer phdrSize (headerCount f h i) ::
        if readResult (headerCount f h i) ≤ 0 then []
        else
          let ph := headerAt f stack h i
          if ph.type = ptLoad then
            (segmentWrites F pagemap f s ph).map .physical ++
              match loadSegment F pagemap f s ph with
              | some (some _, s) => headersWrites stack h left (i+1) s
              | _ => []
          else if ph.type = ptInterp then
            .buffer ((ph.filesz + 1) % 2 ^ 64) (f.readCount ph.filesz ph.offset) ::
              if (readInterp f ph).isSome then headersWrites stack h left (i+1) s else []
          else headersWrites stack h left (i+1) s

def elfWrites (header : Mem) (stack : Nat → Mem) (s : Vmm σ) : List (ElfWrite σ) :=
  .buffer ehdrSize (f.readCount ehdrSize 0) ::
    if readResult (f.readCount ehdrSize 0) ≤ 0 then []
    else
      let h := Ehdr.ofMem (f.readStruct header ehdrSize 0)
      if checkHeaders h = false then [] else headersWrites F pagemap f stack h h.phnum 0 s

/-! ### Confinement -/

/-- A physical write is where it may be; a copy fits its buffer. -/
def ElfWrite.Confined (s : Vmm σ) : ElfWrite σ → Prop
  | .physical w => WriteOk F s pagemap w
  | .buffer size copied => copied ≤ size

/-- There are frames for the segment and for the tables, its pages are in the
lower half, and the file's bytes fit its frames. -/
structure SegmentOk (s : Vmm σ) (ph : Phdr) : Prop where
  frames : ph.pages = 0 ∨ (pmmCalloc F s ph.pages).1 ≠ 0
  tables : (pmmCalloc F s ph.pages).1 ≠ 0 → (vmmMapPages F (pmmCalloc F s ph.pages).2 pagemap
    (pmmCalloc F s ph.pages).1 ph.vaddr (ptePresent ||| pteWritable ||| pteUser) ph.pages).isSome
  lower : ∀ i, i < ph.pages → ¬ Upper (slotAt ((ph.vaddr + i * frameSize) % 2 ^ 64) 39)
  fits : f.readCount ph.filesz ph.offset = 0 ∨
    ph.unaligned + f.readCount ph.filesz ph.offset ≤ ph.pages * frameSize

/-- A segment is loaded as it should; an interpreter's path fits its block. -/
structure HeaderOk (s : Vmm σ) (ph : Phdr) : Prop where
  load : ph.type = ptLoad → SegmentOk F pagemap f s ph
  interp : ph.type = ptInterp → f.readCount ph.filesz ph.offset ≤ (ph.filesz + 1) % 2 ^ 64

/-- The turns of the loop that are made: the machine at the start of each. -/
inductive Turn (stack : Nat → Mem) (h : Ehdr) (s : Vmm σ) : Nat → Vmm σ → Prop
  | start : Turn stack h s 0 s
  | load {i : Nat} {s₁ s₂ : Vmm σ} {r : Nat × Nat} : Turn stack h s i s₁ →
      (headerAt f stack h i).type = ptLoad →
      loadSegment F pagemap f s₁ (headerAt f stack h i) = some (some r, s₂) → Turn stack h s (i+1) s₂
  | skip {i : Nat} {s₁ : Vmm σ} : Turn stack h s i s₁ → (headerAt f stack h i).type ≠ ptLoad →
      Turn stack h s (i+1) s₁

/-- Every header that the loop comes to is in order. -/
def HeadersOk (stack : Nat → Mem) (h : Ehdr) (s : Vmm σ) : Prop :=
  ∀ i s₁, i < h.phnum → Turn F pagemap f stack h s i s₁ → 0 < readResult (headerCount f h i) →
    HeaderOk F pagemap f s₁ (headerAt f stack h i)

end Writes

section Proofs
variable {σ : Type} {F : FrameSource σ} {s₀ s s' : Vmm σ} {lev lev' : Nat → Nat} {pagemap : Nat} {f : File}
  {ph : Phdr} {stack : Nat → Mem} {h : Ehdr}

theorem length_read (f : File) (count offset : Nat) :
    (f.read count offset).length = f.readCount count offset := by
  rw [File.read, List.length_map, List.length_range]

/-! ### The log is that of the loader -/

def ElfWrite.toWrite : ElfWrite σ → Option (Write σ)
  | .physical w => some w
  | .buffer _ _ => none

theorem toWrite_physical (ws : List (Write σ)) : (ws.map ElfWrite.physical).filterMap ElfWrite.toWrite = ws := by
  rw [List.filterMap_map]
  exact List.filterMap_some

theorem toWrite_buffer (size copied : Nat) (ws : List (ElfWrite σ)) :
    (.buffer size copied :: ws).filterMap ElfWrite.toWrite = ws.filterMap ElfWrite.toWrite :=
  List.filterMap_cons_none rfl

theorem copyWrite_chain (s : Vmm σ) (phys : Nat) :
    Chain s.mem [copyWrite f s phys ph] (storeBytes s.mem (phys + ph.unaligned) (f.read ph.filesz ph.offset)) := by
  refine Chain.single rfl rfl fun x hx => storeBytes_outside ?_
  simp only [copyWrite, Span.Has, Span.hi] at hx
  rw [length_read]
  omega

theorem segmentWrites_chain {frames : Option (Nat × Nat)} (hseg : loadSegment F pagemap f s ph = some (frames, s')) :
    Chain s.mem (segmentWrites F pagemap f s ph) s'.mem := by
  rw [segmentWrites]
  rcases loadSegment_some hseg with ⟨hnull, -, rfl⟩ | ⟨hne, -, s₁, hmap, rfl, -⟩
  · simp only [if_pos hnull, List.append_nil]
    exact callocWrites_chain s ph.pages
  · simp only [if_neg hne, hmap, Option.elim_some]
    exact (callocWrites_chain s ph.pages).append ((mapPagesWrites_chain hmap).append (copyWrite_chain s₁ _))

/-- A turn of the loop. -/
theorem loadHeaders_succ (wantsPath : Bool) (left i : Nat) (s : Vmm σ) (out : ElfOut) :
    loadHeaders F pagemap f stack wantsPath h (left+1) i s out =
      if readResult (headerCount f h i) ≤ 0 then some (false, out, s)
      else if (headerAt f stack h i).type = ptLoad then
        (loadSegment F pagemap f s (headerAt f stack h i)).bind fun (frames, s) =>
          match frames with
          | none => some (false, out, s)
          | some r => loadHeaders F pagemap f stack wantsPath h left (i+1) s { out with loaded := r :: out.loaded }
      else if (headerAt f stack h i).type = ptInterp then
        (readInterp f (headerAt f stack h i)).bind fun path =>
          loadHeaders F pagemap f stack wantsPath h left (i+1) s
            (if wantsPath then { out with ldPath := some path } else out)
      else if (headerAt f stack h i).type = ptPhdr then
        loadHeaders F pagemap f stack wantsPath h left (i+1) s
          { out with aux := { out.aux with atPhdr := (headerAt f stack h i).vaddr } }
      else loadHeaders F pagemap f stack wantsPath h left (i+1) s out := by
  simp only [loadHeaders, headerCount, headerAt]
  rfl

theorem headersWrites_chain {wantsPath ok : Bool} {left i : Nat} {out out' : ElfOut}
    (hrun : loadHeaders F pagemap f stack wantsPath h left i s out = some (ok, out', s')) :
    Chain s.mem ((headersWrites F pagemap f stack h left i s).filterMap ElfWrite.toWrite) s'.mem := by
  induction left generalizing i s out with
  | zero =>
      obtain ⟨-, -, rfl⟩ : ok = true ∧ out' = out ∧ s' = s := by simpa [loadHeaders, eq_comm] using hrun
      exact .nil
  | succ left ih =>
      rw [loadHeaders_succ] at hrun
      rw [headersWrites, toWrite_buffer]
      generalize headerAt f stack h i = ph, headerCount f h i = count at hrun ⊢
      by_cases hread : readResult count ≤ 0
      · rw [if_pos hread] at hrun ⊢
        obtain ⟨-, -, rfl⟩ : ok = false ∧ out' = out ∧ s' = s := by simpa [eq_comm] using hrun
        exact .nil
      rw [if_neg hread] at hrun ⊢
      by_cases hload : ph.type = ptLoad
      · rw [if_pos hload] at hrun ⊢
        obtain ⟨⟨frames, s₁⟩, hseg, hrun⟩ := Option.bind_eq_some_iff.mp hrun
        have hchain := segmentWrites_chain hseg
        rw [List.filterMap_append, toWrite_physical, hseg]
        cases frames with
        | none =>
            obtain ⟨-, -, rfl⟩ : ok = false ∧ out' = out ∧ s' = s₁ := by simpa [eq_comm] using hrun
            rw [List.filterMap_nil, List.append_nil]
            exact hchain
        | some r => exact hchain.append (ih hrun)
      rw [if_neg hload] at hrun ⊢
      by_cases hinterp : ph.type = ptInterp
      · rw [if_pos hinterp] at hrun ⊢
        obtain ⟨path, hpath, hrun⟩ := Option.bind_eq_some_iff.mp hrun
        rw [toWrite_buffer, hpath, Option.isSome_some, if_pos rfl]
        exact ih hrun
      rw [if_neg hinterp] at hrun ⊢
      by_cases hphdr : ph.type = ptPhdr
      · rw [if_pos hphdr] at hrun
        exact ih hrun
      · rw [if_neg hphdr] at hrun
        exact ih hrun

theorem elfWrites_chain {header : Mem} {wantsPath ok : Bool} {aux : Auxval} {out : ElfOut}
    (hrun : elfLoad F pagemap f header stack wantsPath s aux = some (ok, out, s')) :
    Chain s.mem ((elfWrites F pagemap f header stack s).filterMap ElfWrite.toWrite) s'.mem := by
  rw [elfLoad] at hrun
  rw [elfWrites, toWrite_buffer]
  generalize Ehdr.ofMem (f.readStruct header ehdrSize 0) = h, f.readCount ehdrSize 0 = count at hrun ⊢
  by_cases hread : readResult count ≤ 0
  · rw [if_pos hread] at hrun ⊢
    obtain ⟨-, -, rfl⟩ : ok = false ∧ _ ∧ s' = s := by simpa [eq_comm] using hrun
    exact .nil
  rw [if_neg hread] at hrun ⊢
  by_cases hvalid : checkHeaders h = false
  · simp only [if_pos hvalid] at hrun ⊢
    obtain ⟨-, -, rfl⟩ : ok = false ∧ _ ∧ s' = s := by simpa [eq_comm] using hrun
    exact .nil
  simp only [if_neg hvalid] at hrun ⊢
  obtain ⟨⟨done, out₁, s₁⟩, hloop, hrun⟩ := Option.bind_eq_some_iff.mp hrun
  obtain rfl : s' = s₁ := by
    cases done with
    | true => exact (congrArg (·.2.2) (Option.some.inj hrun)).symm
    | false => exact (congrArg (·.2.2) (Option.some.inj hrun)).symm
  exact headersWrites_chain hloop

/-! ### Segments -/

/-- A copy into frames that were free in `s₀`, have been handed out since and are
no tables. -/
theorem copy_confined {b n a : Nat} {bs : List Byte} (hs : Since F s₀ pagemap s lev)
    (hnew : ∀ k, b ≤ k → k < b + n → ¬ F.Taken s₀.src k ∧ F.Taken s.src k ∧ lev (frameSize * k) = 0)
    (hlo : frameSize * b ≤ a) (hhi : a + bs.length ≤ frameSize * b + n * frameSize) :
    Since F s₀ pagemap { s with mem := storeBytes s.mem a bs } lev ∧
      WriteOk F s₀ pagemap ⟨s.src, s.mem, ⟨a, bs.length⟩, storeBytes s.mem a bs⟩ := by
  have hentry : ∀ x i, lev x ≠ 0 → entry (storeBytes s.mem a bs) x i = entry s.mem x i :=
    store_entry hs.tables (fun k hk hk' => (hnew k hk hk').2.2) hlo hhi
  have hgrows := hs.tables.outside { s with mem := storeBytes s.mem a bs } hentry fun _ h => h
  have hsince := hs.keeps hgrows.toKeeps (hs.tables.upper_of_same hs.level hentry)
  refine ⟨hsince, fun x hx => .inl ?_, fun va hva => hsince.upper.translation hva⟩
  simp only [Span.Has, Span.hi] at hx
  have hframe := hnew (x / frameSize) (by rw [frameSize] at *; omega) (by rw [frameSize] at *; omega)
  exact ⟨hframe.1, hframe.2.1⟩

theorem copy_nothing (hs : Since F s₀ pagemap s lev) (a : Nat) :
    WriteOk F s₀ pagemap ⟨s.src, s.mem, ⟨a, 0⟩, s.mem⟩ := by
  refine ⟨fun x hx => ?_, fun va hva => hs.upper.translation hva⟩
  simp only [Span.Has, Span.hi] at hx
  omega

theorem copyWrite_confined {s₁ : Vmm σ} (hs : Since F s₀ pagemap s lev) (hne : (pmmCalloc F s ph.pages).1 ≠ 0)
    (hfits : f.readCount ph.filesz ph.offset = 0 ∨
      ph.unaligned + f.readCount ph.filesz ph.offset ≤ ph.pages * frameSize)
    (hk : Keeps F (pmmCalloc F s ph.pages).2 lev s₁ lev') (hs₁ : Since F s₀ pagemap s₁ lev') :
    Since F s₀ pagemap
        ⟨storeBytes s₁.mem ((pmmCalloc F s ph.pages).1 + ph.unaligned) (f.read ph.filesz ph.offset), s₁.src⟩ lev' ∧
      WriteOk F s₀ pagemap (copyWrite f s₁ (pmmCalloc F s ph.pages).1 ph) := by
  rw [← length_read] at hfits
  rw [copyWrite, ← length_read]
  rcases Nat.eq_zero_or_pos (f.read ph.filesz ph.offset).length with hzero | hsome
  · rw [List.eq_nil_of_length_eq_zero hzero]
    exact ⟨hs₁, copy_nothing hs₁ _⟩
  · have hfits := hfits.resolve_left (by omega)
    have hpos : 0 < ph.pages := Nat.pos_of_ne_zero fun h => by rw [h] at hfits; omega
    obtain ⟨b, heq, -, hnew⟩ := pmmCalloc_some hpos hne
    have hptr : (pmmCalloc F s ph.pages).1 = frameSize * b := by rw [heq]
    rw [hptr]
    refine copy_confined (b := b) (n := ph.pages) hs₁ (fun k hlo hhi => ?_) (by omega) (by omega)
    obtain ⟨hfree, htaken⟩ := hnew k hlo hhi
    exact ⟨fun h => hfree (hs.taken k h), hk.taken k htaken, hk.no_table htaken (hs.tables.level_fresh hfree)⟩

/-- What loading a segment writes, and the machine after it. -/
theorem segment_confined (hs : Since F s₀ pagemap s lev) (hok : SegmentOk F pagemap f s ph) :
    (∀ w ∈ segmentWrites F pagemap f s ph, WriteOk F s₀ pagemap w) ∧
      ∀ r s', loadSegment F pagemap f s ph = some (some r, s') → ∃ lev', Since F s₀ pagemap s' lev' := by
  rw [segmentWrites]
  simp only [List.forall_mem_append]
  by_cases hne : (pmmCalloc F s ph.pages).1 = 0
  · rw [if_pos hne]
    refine ⟨⟨hs.callocWrites (.inl (hok.frames.resolve_right (· hne))), nofun⟩, fun r s' hseg => ?_⟩
    rcases loadSegment_some hseg with ⟨-, h, -⟩ | ⟨hne', -⟩
    · cases h
    · exact absurd hne hne'
  · obtain ⟨s₁, hmap⟩ := Option.isSome_iff_exists.mp (hok.tables hne)
    obtain ⟨⟨lev₁, hk, hs₁⟩, hws⟩ := (hs.calloc hne).mapPages (by decide) hok.lower hmap
    obtain ⟨hs₂, hw⟩ := copyWrite_confined hs hne hok.fits hk hs₁
    simp only [if_neg hne, hmap, Option.elim_some, List.forall_mem_append, List.forall_mem_singleton]
    refine ⟨⟨hs.callocWrites (.inr hne), hws, hw⟩, fun r s' hseg => ⟨lev₁, ?_⟩⟩
    rcases loadSegment_some hseg with ⟨hne', -⟩ | ⟨-, -, s₂, hmap', rfl, -⟩
    · exact absurd hne' hne
    · obtain rfl := Option.some.inj (hmap.symm.trans hmap')
      exact hs₂

/-! ### The loop -/

theorem headers_confined (hok : HeadersOk F pagemap f stack h s₀) {left i : Nat} (hleft : i + left = h.phnum)
    (hturn : Turn F pagemap f stack h s₀ i s) (hs : Since F s₀ pagemap s lev) :
    ∀ w ∈ headersWrites F pagemap f stack h left i s, w.Confined F pagemap s₀ := by
  induction left generalizing i s lev with
  | zero => exact nofun
  | succ left ih =>
      have hheader := hok i s (by omega) hturn
      have hcount : headerCount f h i ≤ phdrSize := File.readCount_le ..
      have hload : ∀ r s₁, (headerAt f stack h i).type = ptLoad →
          loadSegment F pagemap f s (headerAt f stack h i) = some (some r, s₁) →
          Turn F pagemap f stack h s₀ (i+1) s₁ := fun _ _ => hturn.load
      have hskip := Turn.skip hturn
      rw [headersWrites, List.forall_mem_cons]
      refine ⟨hcount, ?_⟩
      generalize headerAt f stack h i = ph, headerCount f h i = count at hheader hload hskip ⊢
      by_cases hread : readResult count ≤ 0
      · rw [if_pos hread]
        exact nofun
      have hheader := hheader (Int.not_le.mp hread)
      rw [if_neg hread]
      by_cases htype : ph.type = ptLoad
      · simp only [if_pos htype, List.forall_mem_append, List.forall_mem_map]
        obtain ⟨hws, hnext⟩ := segment_confined hs (hheader.load htype)
        refine ⟨hws, ?_⟩
        split
        case h_1 r s₁ hseg =>
          obtain ⟨lev₁, hs₁⟩ := hnext r s₁ hseg
          exact ih (by omega) (hload r s₁ htype hseg) hs₁
        case h_2 => exact nofun
      have hrest := ih (by omega) (hskip htype) hs
      simp only [if_neg htype]
      split
      case isTrue hinterp =>
        rw [List.forall_mem_cons]
        refine ⟨hheader.interp hinterp, ?_⟩
        split
        case isTrue => exact hrest
        case isFalse => exact nofun
      case isFalse => exact hrest

/-- The headers that the loop reads are those of the file. -/
theorem HeadersInside.headerAt_eq (hf : HeadersInside f) {i : Nat} (hi : i < phnumOf f) (stack : Nat → Mem) :
    headerAt f stack (ehdrOf f) i = phdrAt f i := by
  rw [headerAt, hf.phdr_offset hi, hf.phdr_eq hi]

theorem HeadersInside.headerCount_pos (hf : HeadersInside f) {i : Nat} (hi : i < phnumOf f) :
    0 < readResult (headerCount f (ehdrOf f) i) := by
  rw [headerCount, hf.phdr_offset hi]
  exact not_le.mp (hf.phdr_read hi)

/-- An interpreter's path in the first header is copied. -/
theorem Loadable.interp_copied (hf : Loadable f) (hnum : 0 < phnumOf f) (htype : (phdrAt f 0).type = ptInterp)
    (F : FrameSource σ) (pagemap : Nat) (header : Mem) (stack : Nat → Mem) (s : Vmm σ) :
    .buffer (((phdrAt f 0).filesz + 1) % 2 ^ 64) (f.readCount (phdrAt f 0).filesz (phdrAt f 0).offset) ∈
      elfWrites F pagemap f header stack s := by
  have hcount : ¬ readResult (headerCount f (ehdrOf f) 0) ≤ 0 := not_le.mpr (hf.headerCount_pos hnum)
  have hload : ¬ (phdrAt f 0).type = ptLoad := by
    rw [htype]
    decide
  obtain ⟨left, hleft⟩ := Nat.exists_eq_succ_of_ne_zero hnum.ne'
  have hleft : (ehdrOf f).phnum = left + 1 := hleft
  rw [elfWrites, hf.ehdr_eq, if_neg hf.header_read]
  simp only [if_neg hf.header_valid, hleft, headersWrites, if_neg hcount, hf.headerAt_eq hnum, if_neg hload, if_pos htype]
  exact List.mem_cons_of_mem _ (List.mem_cons_of_mem _ List.mem_cons_self)

end Proofs

/-- The headers of the small file are in order where there are frames. -/
theorem smallElf_headersOk {σ : Type} {F : FrameSource σ} {s : Vmm σ} (hready : F.Ready s.src 4) (pagemap : Nat)
    (stack : Nat → Mem) : HeadersOk F pagemap (smallElf 3) stack (ehdrOf (smallElf 3)) s := by
  have hthree : 3 = 0 ∨ 3 = 3 ∨ 3 = 2 ^ 64 - 1 := .inr (.inl rfl)
  have hf := smallElf_loadable hthree
  have hnum := smallElf_phnum hthree
  have hfirst : headerAt (smallElf 3) stack (ehdrOf (smallElf 3)) 0 = interpPhdr 3 :=
    (hf.headerAt_eq (by rw [hnum]; decide) stack).trans (smallElf_first hthree)
  have hsecond : headerAt (smallElf 3) stack (ehdrOf (smallElf 3)) 1 = loadPhdr :=
    (hf.headerAt_eq (by rw [hnum]; decide) stack).trans (smallElf_second hthree)
  intro i s₁ hi hturn _
  have hi : i < phnumOf (smallElf 3) := hi
  rw [hnum] at hi
  obtain rfl | rfl : i = 0 ∨ i = 1 := by omega
  · rw [hfirst]
    refine ⟨fun h => (nomatch h), fun _ => ?_⟩
    rw [smallElf_path]
    decide
  · have hs₁ : s₁ = s := by
      cases hturn with
      | load _ htype _ =>
          rw [hfirst] at htype
          cases htype
      | skip hstart _ =>
          cases hstart
          rfl
    rw [hsecond, hs₁]
    refine ⟨fun _ => ?_, fun h => (nomatch h)⟩
    have hpages : loadPhdr.pages = 1 := by decide
    have hcount : (smallElf 3).readCount loadPhdr.filesz loadPhdr.offset = 4 :=
      readCount_inside hf.size (by decide)
    have hmap : F.Ready (pmmCalloc F s 1).2.src (0 + 3 * 1) := hready.2
    refine ⟨.inr ?_, fun _ => ?_, ?_, .inr ?_⟩
    · rw [hpages]
      exact hready.1
    · rw [hpages]
      obtain ⟨s₂, hs₂, -⟩ := vmmMapPages_returns hmap
      rw [hs₂]
      rfl
    · rw [hpages]
      intro j hj
      obtain rfl : j = 0 := by omega
      decide
    · rw [hpages, hcount]
      decide

/-- Where the headers that are read are in order, every write of `elf_load` goes to
frames of this call, tables of the pagemap or buffers of its own, also when it does
not return, and no translation of the upper half changes. -/
theorem elf_load_confined {σ : Type} {F : FrameSource σ} {s : Vmm σ} {lev : Nat → Nat} {pagemap : Nat} {f : File}
    {stack : Nat → Mem} {header : Mem} (ht : Tables F s lev) (htop : lev pagemap = 4)
    (hok : HeadersOk F pagemap f stack (Ehdr.ofMem (f.readStruct header ehdrSize 0)) s) :
    (∀ w ∈ elfWrites F pagemap f header stack s, w.Confined F pagemap s) ∧
      ∀ wantsPath aux ok out s', elfLoad F pagemap f header stack wantsPath s aux = some (ok, out, s') →
        Chain s.mem ((elfWrites F pagemap f header stack s).filterMap ElfWrite.toWrite) s'.mem ∧
          ∀ va, Upper (slotAt va 39) → translation s'.mem pagemap va = translation s.mem pagemap va := by
  have hconfined : ∀ w ∈ elfWrites F pagemap f header stack s, w.Confined F pagemap s := by
    have hcount : f.readCount ehdrSize 0 ≤ ehdrSize := File.readCount_le ..
    rw [elfWrites, List.forall_mem_cons]
    refine ⟨hcount, ?_⟩
    generalize Ehdr.ofMem (f.readStruct header ehdrSize 0) = h, f.readCount ehdrSize 0 = count at hok ⊢
    split
    case isTrue => exact nofun
    case isFalse =>
      simp only
      split
      case isTrue => exact nofun
      case isFalse => exact headers_confined hok (Nat.zero_add _) .start (.refl ht htop)
  refine ⟨hconfined, fun wantsPath aux ok out s' hrun => ?_⟩
  have hchain := elfWrites_chain hrun
  refine ⟨hchain, fun va hva => ?_⟩
  refine hchain.last (P := fun m => translation m pagemap va = translation s.mem pagemap va) rfl fun w hw => ?_
  obtain ⟨e, he, hew⟩ := List.mem_filterMap.mp hw
  have hwrite := hconfined e he
  cases e with
  | physical w' =>
      obtain rfl := Option.some.inj hew
      exact hwrite.upper va hva
  | buffer => cases hew

theorem small_elf_confined : ∃ s pagemap lev, Tables pmmSource s lev ∧ lev pagemap = 4 ∧
    (∀ w ∈ elfWrites pmmSource pagemap (smallElf 3) (fun _ => 0) (fun _ _ => 0) s,
      w.Confined pmmSource pagemap s) ∧
    .buffer 4 3 ∈ elfWrites pmmSource pagemap (smallElf 3) (fun _ => 0) (fun _ _ => 0) s := by
  obtain ⟨s, pagemap, ⟨lev, ht, htop, -⟩, hready⟩ := fresh_tables
  have hthree : 3 = 0 ∨ 3 = 3 ∨ 3 = 2 ^ 64 - 1 := .inr (.inl rfl)
  have hf := smallElf_loadable hthree
  have hok := smallElf_headersOk hready pagemap (fun _ _ => 0)
  rw [← hf.ehdr_eq fun _ => 0] at hok
  refine ⟨s, pagemap, lev, ht, htop, (elf_load_confined ht htop hok).1, ?_⟩
  have hfirst := smallElf_first hthree
  have hcount : (smallElf 3).readCount 3 176 = 3 := readCount_inside hf.size (by decide)
  have hcopied := hf.interp_copied (by rw [smallElf_phnum hthree]; decide) (by rw [hfirst]; rfl) pmmSource
    pagemap (fun _ => 0) (fun _ _ => 0) s
  rw [hfirst, interpPhdr, hcount] at hcopied
  exact hcopied

/-- A path that is said to have 2^64 - 1 bytes: the block for it has none, and what
the file has from there on is copied over the heap behind it. -/
theorem huge_interp_not_confined : ∃ s pagemap, OpenTables pmmSource s pagemap ∧
    ∃ w ∈ elfWrites pmmSource pagemap (smallElf (2 ^ 64 - 1)) (fun _ => 0) (fun _ _ => 0) s,
      ¬ w.Confined pmmSource pagemap s := by
  obtain ⟨s, pagemap, htables, -⟩ := fresh_tables
  have hhuge : 2 ^ 64 - 1 = 0 ∨ 2 ^ 64 - 1 = 3 ∨ 2 ^ 64 - 1 = 2 ^ 64 - 1 := .inr (.inr rfl)
  have hfirst := smallElf_first hhuge
  have hcopied := (smallElf_loadable hhuge).interp_copied (by rw [smallElf_phnum hhuge]; decide)
    (by rw [hfirst]; rfl) pmmSource pagemap (fun _ => 0) (fun _ _ => 0) s
  rw [hfirst] at hcopied
  refine ⟨s, pagemap, htables, _, hcopied, ?_⟩
  rw [ElfWrite.Confined]
  decide +kernel

end Flan.Proc
