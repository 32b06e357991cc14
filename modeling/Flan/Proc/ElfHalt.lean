import Flan.Proc.Confined

/-! The assertions that `elf_load` can run into: those on the counts it has read, and the one
of `memcpy` on the address that `tmpfs_read` copies from. -/
namespace Flan.Proc
open Flan.Lib Flan.Memory Flan.Fs

/-- `node->data + offset` is `NULL`. -/
def NullSource (data offset : Nat) : Prop := (data + offset) % 2 ^ 64 = 0

instance (data offset : Nat) : Decidable (NullSource data offset) := Nat.decEq _ _

section Source
variable {σ : Type} (F : FrameSource σ) (pagemap : Nat) (f : File) (data : Nat)

/-- The loop of `elf_load` for a file with its buffer at `data`. -/
def loadHeadersAt (stack : Nat → Mem) (wantsPath : Bool) (h : Ehdr) :
    (left : Nat) → (i : Nat) → Vmm σ → ElfOut → Option (Bool × ElfOut × Vmm σ)
  | 0, _, s, out => some (true, out, s)
  | left+1, i, s, out =>
      if NullSource data ((h.phoff + i * h.phentsize) % 2 ^ 64) then none
      else if readResult (headerCount f h i) ≤ 0 then some (false, out, s)
      else
        let ph := headerAt f stack h i
        if ph.type = ptLoad then do
          let (frames, s) ← loadSegment F pagemap f s ph
          match frames with
          | none => return (false, out, s)
          | some r =>
              if NullSource data ph.offset then none
              else loadHeadersAt stack wantsPath h left (i+1) s { out with loaded := r :: out.loaded }
        else if ph.type = ptInterp then
          if NullSource data ph.offset then none
          else do
            let path ← readInterp f ph
            let out := if wantsPath then { out with ldPath := some path } else out
            loadHeadersAt stack wantsPath h left (i+1) s out
        else if ph.type = ptPhdr then
          loadHeadersAt stack wantsPath h left (i+1) s { out with aux := { out.aux with atPhdr := ph.vaddr } }
        else loadHeadersAt stack wantsPath h left (i+1) s out

/-- An ELF file with its headers and segments inside it; a segment may have no bytes there. -/
structure WellFormedElf : Prop extends HeadersInside f where
  segments : ∀ i, i < phnumOf f → (phdrAt f i).type = ptLoad → (phdrAt f i).filesz ≤ (phdrAt f i).memsz ∧
    (phdrAt f i).offset + (phdrAt f i).filesz ≤ f.size

end Source

section Proofs
variable {σ : Type} {F : FrameSource σ} {pagemap : Nat} {f : File} {data : Nat} {stack : Nat → Mem} {h : Ehdr}
  {wantsPath : Bool}

/-! ### The loop -/

/-- A turn of the loop. -/
theorem loadHeadersAt_succ (left i : Nat) (s : Vmm σ) (out : ElfOut) :
    loadHeadersAt F pagemap f data stack wantsPath h (left+1) i s out =
      if NullSource data ((h.phoff + i * h.phentsize) % 2 ^ 64) then none
      else if readResult (headerCount f h i) ≤ 0 then some (false, out, s)
      else if (headerAt f stack h i).type = ptLoad then
        (loadSegment F pagemap f s (headerAt f stack h i)).bind fun (frames, s) =>
          match frames with
          | none => some (false, out, s)
          | some r =>
              if NullSource data (headerAt f stack h i).offset then none
              else loadHeadersAt F pagemap f data stack wantsPath h left (i+1) s { out with loaded := r :: out.loaded }
      else if (headerAt f stack h i).type = ptInterp then
        if NullSource data (headerAt f stack h i).offset then none
        else (readInterp f (headerAt f stack h i)).bind fun path =>
          loadHeadersAt F pagemap f data stack wantsPath h left (i+1) s
            (if wantsPath then { out with ldPath := some path } else out)
      else if (headerAt f stack h i).type = ptPhdr then
        loadHeadersAt F pagemap f data stack wantsPath h left (i+1) s
          { out with aux := { out.aux with atPhdr := (headerAt f stack h i).vaddr } }
      else loadHeadersAt F pagemap f data stack wantsPath h left (i+1) s out := by
  rw [loadHeadersAt]
  rfl

/-- What returns here returns in `Proc.Elf`, with the same. -/
theorem loadHeaders_of_at {left i : Nat} {s : Vmm σ} {out : ElfOut} {r : Bool × ElfOut × Vmm σ}
    (hrun : loadHeadersAt F pagemap f data stack wantsPath h left i s out = some r) :
    loadHeaders F pagemap f stack wantsPath h left i s out = some r := by
  induction left generalizing i s out with
  | zero => exact hrun
  | succ left ih =>
      rw [loadHeadersAt_succ] at hrun
      rw [loadHeaders_succ]
      generalize headerAt f stack h i = ph, headerCount f h i = count at hrun ⊢
      split at hrun
      · exact nomatch hrun
      split at hrun
      case isTrue hread => rwa [if_pos hread]
      case isFalse hread =>
      rw [if_neg hread]
      split at hrun
      case isTrue hload =>
        rw [if_pos hload]
        obtain ⟨⟨frames, s₂⟩, hseg, hrun⟩ := Option.bind_eq_some_iff.mp hrun
        rw [hseg, Option.bind_some]
        cases frames with
        | none => exact hrun
        | some frames =>
            dsimp only at hrun ⊢
            split at hrun
            · exact nomatch hrun
            · exact ih hrun
      case isFalse hload =>
      rw [if_neg hload]
      split at hrun
      case isTrue hinterp =>
        rw [if_pos hinterp]
        split at hrun
        · exact nomatch hrun
        · obtain ⟨path, hpath, hrun⟩ := Option.bind_eq_some_iff.mp hrun
          rw [hpath, Option.bind_some]
          exact ih hrun
      case isFalse hinterp =>
      rw [if_neg hinterp]
      split at hrun
      case isTrue hphdr =>
        rw [if_pos hphdr]
        exact ih hrun
      case isFalse hphdr =>
        rw [if_neg hphdr]
        exact ih hrun

end Proofs

theorem Loadable.wellFormed {f : File} (hf : Loadable f) : WellFormedElf f :=
  ⟨hf.toHeadersInside, fun i hi htype => ⟨(hf.fits i hi htype).le, (hf.fits i hi htype).inFile⟩⟩

end Flan.Proc
