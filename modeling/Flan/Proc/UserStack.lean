import Flan.Proc.Image
import Flan.Proc.UserMemory

/-! The stacks of the threads of one process: what a first thread finds on its
stack, and where the stacks of the next ones lie. -/
namespace Flan.Proc
open Flan.Lib Flan.Memory Flan.Sys

/-! ### Reading the stack as the program does -/

/-- The words up to a null word, and the address behind it. -/
def readPointers (m : Mem) : (fuel : Nat) → Nat → Option (List Nat × Nat)
  | 0, _ => none
  | fuel+1, a =>
      if read64 m a = 0 then some ([], a + 8)
      else (readPointers m fuel (a + 8)).map fun r => (read64 m a :: r.1, r.2)

/-- The pairs up to `AT_NULL`. -/
def readAuxv (m : Mem) : (fuel : Nat) → Nat → Option (List (Nat × Nat))
  | 0, _ => none
  | fuel+1, a =>
      if read64 m a = 0 then some []
      else (readAuxv m fuel (a + 16)).map ((read64 m a, read64 m (a + 8)) :: ·)

structure StartInfo where
  argc : Nat
  argv : List (List Byte)
  envp : List (List Byte)
  auxv : List (Nat × Nat)

/-- The layout of the System V ABI: the count of arguments, their addresses, those
of the environment, and the auxiliary vector. -/
def decodeStack (m : Mem) (rsp : Nat) : Option StartInfo := do
  let (argv, p) ← readPointers m stackSize (rsp + 8)
  let (envp, p) ← readPointers m stackSize p
  let auxv ← readAuxv m stackSize p
  return ⟨read64 m rsp, argv.map (cString m stackSize), envp.map (cString m stackSize), auxv⟩

/-- Memory by the addresses of a pagemap. -/
def userMem (m : Mem) (pagemap : Nat) : Mem := fun va => m (physical m pagemap va)

/-! ### Words in memory -/

/-- The words lie one behind the other from the address on. -/
def WordsAt (m : Mem) : Nat → List Nat → Prop
  | _, [] => True
  | a, w :: ws => read64 m a = w ∧ WordsAt m (a + 8) ws

section Words
variable {m m' : Mem} {a a' : Nat} {ws ws' ps : List Nat}

theorem readLE_shift {n : Nat} (h : ∀ x < n, m' (a' + x) = m (a + x)) : readLE m' a' n = readLE m a n := by
  induction n generalizing a a' with
  | zero => rfl
  | succ n ih =>
      have hhead := h 0 n.succ_pos
      have htail : ∀ x < n, m' (a' + 1 + x) = m (a + 1 + x) := by
        intro x hx
        rw [Nat.add_assoc, Nat.add_assoc, Nat.add_comm 1]
        exact h (x + 1) (Nat.succ_lt_succ hx)
      rw [readLE, readLE, ih htail]
      exact congrArg (fun b : Byte => b.toNat + _) hhead

theorem WordsAt.shift (h : WordsAt m a ws) (hm : ∀ x < 8 * ws.length, m' (a' + x) = m (a + x)) :
    WordsAt m' a' ws := by
  induction ws generalizing a a' with
  | nil => trivial
  | cons w ws ih =>
      rw [List.length_cons] at hm
      constructor
      · rw [← h.1]
        exact readLE_shift fun x hx => hm x (by omega)
      · apply ih h.2
        intro x hx
        rw [Nat.add_assoc, Nat.add_assoc]
        exact hm (8 + x) (by omega)

theorem WordsAt.congr (h : WordsAt m a ws) (hm : ∀ x, a ≤ x → m' x = m x) : WordsAt m' a ws :=
  h.shift fun _ _ => hm _ (Nat.le_add_right _ _)

theorem wordsAt_append : WordsAt m a (ws ++ ws') ↔ WordsAt m a ws ∧ WordsAt m (a + 8 * ws.length) ws' := by
  induction ws generalizing a with
  | nil => exact ⟨fun h => ⟨trivial, h⟩, fun h => h.2⟩
  | cons w ws ih =>
      have hnext : a + 8 + 8 * ws.length = a + 8 * (w :: ws).length := by
        rw [List.length_cons]
        omega
      rw [List.cons_append, WordsAt, WordsAt, ih, hnext, and_assoc]

theorem readPointers_eq {fuel : Nat} (h : WordsAt m a (ps ++ 0 :: ws)) (hne : ∀ p ∈ ps, p ≠ 0)
    (hf : ps.length < fuel) : readPointers m fuel a = some (ps, a + 8 * ps.length + 8) := by
  induction ps generalizing a fuel with
  | nil =>
      cases fuel with
      | zero => exact absurd hf (Nat.not_lt_zero _)
      | succ fuel => exact if_pos h.1
  | cons p ps ih =>
      cases fuel with
      | zero => exact absurd hf (Nat.not_lt_zero _)
      | succ fuel =>
          have hp : read64 m a ≠ 0 := h.1.trans_ne (hne p List.mem_cons_self)
          rw [readPointers, if_neg hp, ih h.2 (fun q hq => hne q (List.mem_cons_of_mem p hq))
            (Nat.lt_of_succ_lt_succ hf), Option.map_some, h.1, List.length_cons]
          refine congrArg some (Prod.ext rfl ?_)
          show a + 8 + 8 * ps.length + 8 = a + 8 * (ps.length + 1) + 8
          omega

/-- The words of pairs. -/
def auxWords (aux : List (Nat × Nat)) : List Nat := aux.flatMap fun kv => [kv.1, kv.2]

theorem readAuxv_eq {fuel : Nat} {aux : List (Nat × Nat)} (h : WordsAt m a (auxWords aux ++ 0 :: ws))
    (hne : ∀ kv ∈ aux, kv.1 ≠ 0) (hf : aux.length < fuel) : readAuxv m fuel a = some aux := by
  induction aux generalizing a fuel with
  | nil =>
      cases fuel with
      | zero => exact absurd hf (Nat.not_lt_zero _)
      | succ fuel => exact if_pos h.1
  | cons kv aux ih =>
      cases fuel with
      | zero => exact absurd hf (Nat.not_lt_zero _)
      | succ fuel =>
          have hk : read64 m a ≠ 0 := h.1.trans_ne (hne kv List.mem_cons_self)
          rw [readAuxv, if_neg hk, ih h.2.2 (fun q hq => hne q (List.mem_cons_of_mem kv hq))
            (Nat.lt_of_succ_lt_succ hf), Option.map_some, h.1, h.2.1]

end Words

/-! ### Strings below a top -/

/-- The addresses of strings laid down from `n` bytes below the top. -/
def pointers (top : Nat) : Nat → List (List Byte) → List Nat
  | _, [] => []
  | n, str :: strs => (top - (n + (str.length + 1))) :: pointers top (n + (str.length + 1)) strs

/-- The strings and their terminators are at these addresses. -/
def StringsAt (m : Mem) (top : Nat) : Nat → List (List Byte) → Prop
  | _, [] => True
  | n, str :: strs =>
      (bytesAt m (top - (n + (str.length + 1))) str.length = str ∧
        m (top - (n + (str.length + 1)) + str.length) = 0) ∧
      StringsAt m top (n + (str.length + 1)) strs

section Strings
variable {m m' : Mem} {top top' n : Nat} {strs : List (List Byte)} {str : List Byte}

theorem stringsSize_cons (str : List Byte) (strs : List (List Byte)) :
    stringsSize (str :: strs) = str.length + 1 + stringsSize strs := rfl

@[simp] theorem pointers_length (top n : Nat) (strs : List (List Byte)) :
    (pointers top n strs).length = strs.length := by
  induction strs generalizing n with
  | nil => rfl
  | cons str strs ih => exact congrArg Nat.succ (ih _)

theorem StringsAt.shift (h : StringsAt m top n strs) (ht : n + stringsSize strs ≤ top)
    (ht' : n + stringsSize strs ≤ top')
    (hm : ∀ y, n < y → y ≤ n + stringsSize strs → m' (top' - y) = m (top - y)) :
    StringsAt m' top' n strs := by
  induction strs generalizing n with
  | nil => trivial
  | cons str strs ih =>
      rw [stringsSize_cons] at ht ht' hm
      refine ⟨⟨?_, ?_⟩, ih h.2 (by omega) (by omega) fun y hlo hhi => hm y (by omega) (by omega)⟩
      · rw [← h.1.1]
        have hlen : (bytesAt m (top - (n + (str.length + 1))) str.length).length = str.length := by
          rw [h.1.1]
        rw [hlen]
        refine List.map_congr_left fun i hi => ?_
        have hi := List.mem_range.mp hi
        have hy := hm (n + (str.length + 1) - i) (by omega) (by omega)
        rwa [show top' - (n + (str.length + 1) - i) = top' - (n + (str.length + 1)) + i by omega,
          show top - (n + (str.length + 1) - i) = top - (n + (str.length + 1)) + i by omega] at hy
      · rw [← h.1.2]
        have hy := hm (n + 1) (by omega) (by omega)
        rwa [show top' - (n + 1) = top' - (n + (str.length + 1)) + str.length by omega,
          show top - (n + 1) = top - (n + (str.length + 1)) + str.length by omega] at hy

theorem StringsAt.cStrings {fuel : Nat} (h : StringsAt m top n strs) (hz : ∀ str ∈ strs, 0 ∉ str)
    (hf : stringsSize strs ≤ fuel) : (pointers top n strs).map (cString m fuel) = strs := by
  induction strs generalizing n with
  | nil => rfl
  | cons str strs ih =>
      rw [stringsSize_cons] at hf
      rw [pointers, List.map_cons, cString_eq h.1.1 h.1.2 (hz str List.mem_cons_self) (by omega),
        ih h.2 (fun s hs => hz s (List.mem_cons_of_mem str hs)) (by omega)]

theorem pointers_ne_zero (h : n + stringsSize strs < top) : ∀ p ∈ pointers top n strs, p ≠ 0 := by
  induction strs generalizing n with
  | nil => exact fun p hp => nomatch hp
  | cons str strs ih =>
      rw [stringsSize_cons] at h
      intro p hp
      rcases List.mem_cons.mp hp with rfl | hp
      · omega
      · exact ih (by omega) p hp

/-- The loops that copy the strings onto cleared memory. -/
theorem pushStrings_at {st : Stack} (hsp : st.sp + n = top) (hlt : top < 2 ^ 64)
    (hn : n + stringsSize strs ≤ top)
    (hzero : ∀ x, top - (n + stringsSize strs) ≤ x → x < st.sp → st.mem x = 0) :
    StringsAt (strs.foldl Stack.pushString st).mem top n strs := by
  induction strs generalizing st n with
  | nil => trivial
  | cons str strs ih =>
      rw [stringsSize_cons] at hn hzero
      have hone : st.Within (st.pushString str) (0 + (str.length + 1)) :=
        (Stack.Within.refl st).pushString (by omega) (by omega)
      have hused := hone.used
      have hrest : (st.pushString str).Within (strs.foldl Stack.pushString (st.pushString str))
          (0 + stringsSize strs) :=
        (Stack.Within.refl _).pushStrings (by omega) strs (by omega)
      have hsp' : (st.pushString str).sp = top - (n + (str.length + 1)) := by omega
      rw [List.foldl_cons]
      refine ⟨⟨?_, ?_⟩, ih (by omega) (by omega) ?_⟩
      · rw [bytesAt_congr fun x hx _ => hrest.outside x (by omega)]
        have hmem : (st.pushString str).mem = storeBytes st.mem (st.pushString str).sp str := rfl
        rw [hmem, hsp']
        exact bytesAt_storeBytes ..
      · rw [hrest.outside _ (by omega)]
        have hmem : (st.pushString str).mem = storeBytes st.mem (st.pushString str).sp str := rfl
        rw [hmem, hsp', storeBytes_outside (by omega)]
        exact hzero _ (by omega) (by omega)
      · intro x hlo hhi
        rw [hone.outside x (by omega)]
        exact hzero x (by omega) (by omega)

end Strings

/-! ### The vectors -/

/-- `st'` has used `n` bytes below `st`, and its pointer is at the words. -/
structure Stack.Holds (st₀ st : Stack) (n : Nat) (ws : List Nat) : Prop extends st₀.Within st n where
  words : WordsAt st.mem st.sp ws

section Vectors
variable {st₀ st : Stack} {n : Nat} {ws : List Nat}

theorem Stack.Holds.push {v : Nat} (h : st₀.Holds st n ws) (hlt : st₀.sp < 2 ^ 64) (hn : n + 8 ≤ st₀.sp)
    (hv : v < 2 ^ 64) : st₀.Holds (st.push v) (n + 8) (v :: ws) := by
  have hused := h.used
  have hsp : sub64 st.sp 8 = st.sp - 8 := sub64_of_le (by omega) (by omega)
  refine ⟨h.toWithin.push hlt hn v, ?_, ?_⟩
  · simp only [Stack.push]
    exact read64_write64_same hv
  · have hnext : (st.push v).sp + 8 = st.sp := by
      simp only [Stack.push, hsp]
      omega
    rw [hnext]
    refine h.words.congr fun x hx => ?_
    simp only [Stack.push, hsp]
    exact write64_outside (by omega)

theorem Stack.Holds.pushPair {key value : Nat} (h : st₀.Holds st n ws) (hlt : st₀.sp < 2 ^ 64)
    (hn : n + 16 ≤ st₀.sp) (hk : key < 2 ^ 64) (hv : value < 2 ^ 64) :
    st₀.Holds (st.pushPair key value) (n + 16) (key :: value :: ws) := by
  have hused := h.used
  have hsp : sub64 st.sp 16 = st.sp - 16 := sub64_of_le (by omega) (by omega)
  refine ⟨h.toWithin.pushPair hlt hn key value, ?_, ?_, ?_⟩
  · simp only [Stack.pushPair]
    rw [read64_write64_apart (.inl (le_refl _)), read64_write64_same hk]
  · simp only [Stack.pushPair]
    exact read64_write64_same hv
  · have hnext : (st.pushPair key value).sp + 8 + 8 = st.sp := by
      simp only [Stack.pushPair, hsp]
      omega
    rw [hnext]
    refine h.words.congr fun x hx => ?_
    simp only [Stack.pushPair, hsp]
    rw [write64_outside (by omega), write64_outside (by omega)]

theorem storePointers_words {m : Mem} {a top : Nat} {strs : List (List Byte)} (htop : top < 2 ^ 64)
    (hn : n + stringsSize strs ≤ top) (h : WordsAt m (a + 8 * strs.length) ws) :
    WordsAt (storePointers m a (top - n) strs).1 a (pointers top n strs ++ ws) ∧
      (storePointers m a (top - n) strs).2 = top - (n + stringsSize strs) := by
  induction strs generalizing m a n with
  | nil => exact ⟨h, rfl⟩
  | cons str strs ih =>
      rw [stringsSize_cons] at hn
      rw [List.length_cons] at h
      have hold : sub64 (top - n) (str.length + 1) = top - (n + (str.length + 1)) := by
        rw [sub64_of_le (by omega) (by omega)]
        omega
      have hrest : WordsAt (write64 m a (top - (n + (str.length + 1)))) (a + 8 + 8 * strs.length) ws := by
        rw [show a + 8 * (strs.length + 1) = a + 8 + 8 * strs.length by omega] at h
        exact h.congr fun x hx => write64_outside (by omega)
      obtain ⟨hwords, hlast⟩ := ih (n := n + (str.length + 1)) (by omega) hrest
      rw [storePointers, hold]
      refine ⟨⟨?_, hwords⟩, ?_⟩
      · have hout : read64 (storePointers (write64 m a (top - (n + (str.length + 1)))) (a + 8)
            (top - (n + (str.length + 1))) strs).1 a = _ :=
          read64_congr fun x _ hx => storePointers_outside (.inl (by omega))
        exact hout.trans (read64_write64_same (by omega))
      · rw [hlast, stringsSize_cons, Nat.add_assoc]

theorem Stack.Holds.pushPointers {top k : Nat} {strs : List (List Byte)} (h : st₀.Holds st n ws)
    (hlt : st₀.sp < 2 ^ 64) (hn : n + (8 + 8 * strs.length) ≤ st₀.sp) (htop : top < 2 ^ 64)
    (hk : k + stringsSize strs ≤ top) :
    st₀.Holds (st.pushPointers (top - k) strs).1 (n + (8 + 8 * strs.length))
        (pointers top k strs ++ 0 :: ws) ∧
      (st.pushPointers (top - k) strs).2 = top - (k + stringsSize strs) := by
  have hnull := h.push hlt (by omega) (Nat.two_pow_pos 64)
  have hused := hnull.used
  have hsp : sub64 (st.push 0).sp (8 * strs.length) = (st.push 0).sp - 8 * strs.length :=
    sub64_of_le (by omega) (by omega)
  have hbelow : WordsAt (st.push 0).mem ((st.push 0).sp - 8 * strs.length + 8 * strs.length) (0 :: ws) := by
    rw [Nat.sub_add_cancel (by omega)]
    exact hnull.words
  obtain ⟨hwords, hlast⟩ := storePointers_words htop hk hbelow
  refine ⟨⟨h.toWithin.pushPointers hlt _ strs hn, ?_⟩, ?_⟩
  · simp only [Stack.pushPointers, hsp]
    exact hwords
  · simp only [Stack.pushPointers, hsp]
    exact hlast

end Vectors

/-! ### The whole stack -/

structure Auxval.Words (aux : Auxval) : Prop where
  entry : aux.atEntry < 2 ^ 64
  phdr : aux.atPhdr < 2 ^ 64
  phent : aux.atPhent < 2 ^ 64
  phnum : aux.atPhnum < 2 ^ 64

def auxPairs (aux : Auxval) : List (Nat × Nat) :=
  [(atPhnum, aux.atPhnum), (atPhent, aux.atPhent), (atPhdr, aux.atPhdr), (atEntry, aux.atEntry)]

theorem auxPairs_keys (aux : Auxval) : ∀ kv ∈ auxPairs aux, kv.1 ≠ 0 := by
  simp [auxPairs, atPhnum, atPhent, atPhdr, atEntry]

/-- The words of the stack, from its pointer up. -/
def startWords (rsp : Nat) (argv envp : List (List Byte)) (aux : Auxval) : List Nat :=
  argv.length :: (pointers rsp (stringsSize envp) argv ++ 0 :: (pointers rsp 0 envp ++ 0 ::
    (auxWords (auxPairs aux) ++ 0 :: [0])))

def vectorsSize (argv envp : List (List Byte)) : Nat :=
  8 + 8 + 16 + 16 + 16 + 16 + (8 + 8 * envp.length) + (8 + 8 * argv.length) + 8

theorem Stack.fillVectors_holds {st : Stack} {rsp : Nat} {argv envp : List (List Byte)} {aux : Auxval}
    (hlt : st.sp < 2 ^ 64) (hfit : vectorsSize argv envp ≤ st.sp) (haux : aux.Words) (hrsp : rsp < 2 ^ 64)
    (hstrs : stringsSize envp + stringsSize argv ≤ rsp) :
    st.Holds (st.fillVectors rsp argv envp aux) (vectorsSize argv envp) (startWords rsp argv envp aux) := by
  have hstart : st.Holds st 0 [] := ⟨.refl st, trivial⟩
  unfold vectorsSize at hfit ⊢
  have hzero := Nat.two_pow_pos 64
  have hnull := (hstart.push hlt (by omega) hzero).push hlt (by omega) hzero
  have hentry := hnull.pushPair hlt (by omega) (show atEntry < 2 ^ 64 by decide) haux.entry
  have hphdr := hentry.pushPair hlt (by omega) (show atPhdr < 2 ^ 64 by decide) haux.phdr
  have hphent := hphdr.pushPair hlt (by omega) (show atPhent < 2 ^ 64 by decide) haux.phent
  have hphnum := hphent.pushPair hlt (by omega) (show atPhnum < 2 ^ 64 by decide) haux.phnum
  have hle : 0 + stringsSize envp ≤ rsp := by omega
  obtain ⟨henvp, hlast⟩ := hphnum.pushPointers hlt (by omega) hrsp hle
  obtain ⟨hargv, -⟩ := henvp.pushPointers hlt (by omega) hrsp hstrs
  rw [Nat.zero_add] at hlast
  have hcount : argv.length < 2 ^ 64 := by omega
  have hfill := hargv.push hlt (by omega) hcount
  rw [← hlast] at hfill
  exact hfill

theorem startWords_length (rsp : Nat) (argv envp : List (List Byte)) (aux : Auxval) :
    8 * (startWords rsp argv envp aux).length = vectorsSize argv envp := by
  have haux : (auxWords (auxPairs aux)).length = 8 := rfl
  simp only [startWords, vectorsSize, List.length_cons, List.length_append, pointers_length, haux,
    List.length_nil]
  omega

/-- What a first thread's stack holds, from the strings at its top down. -/
structure Stack.Filled (st : Stack) (top rsp : Nat) (argv envp : List (List Byte)) (aux : Auxval) : Prop where
  used : st.sp + fillSize argv envp = top
  words : WordsAt st.mem st.sp (startWords rsp argv envp aux)
  environment : StringsAt st.mem top 0 envp
  arguments : StringsAt st.mem top (stringsSize envp) argv

theorem fillSize_eq (argv envp : List (List Byte)) :
    fillSize argv envp = (stringsSize envp + stringsSize argv + 15) / 16 * 16 +
      (if (argv.length + envp.length + 1) &&& 1 ≠ 0 then 8 else 0) + vectorsSize argv envp := by
  simp only [fillSize, vectorsSize, Nat.add_assoc]

/-- The padding makes up for an odd number of words. -/
theorem fillSize_aligned (argv envp : List (List Byte)) : fillSize argv envp % 16 = 0 := by
  rw [fillSize_eq, vectorsSize, Nat.and_one_is_mod]
  split
  · omega
  · omega

theorem Stack.fill_filled {m : Mem} {top rsp : Nat} {argv envp : List (List Byte)} {aux : Auxval}
    (hlt : top < 2 ^ 64) (h16 : top % 16 = 0) (hfit : fillSize argv envp ≤ top) (haux : aux.Words)
    (hrsp : rsp < 2 ^ 64) (hstrs : stringsSize envp + stringsSize argv ≤ rsp)
    (hzero : ∀ x, top - fillSize argv envp ≤ x → x < top → m x = 0) :
    (Stack.fill m top rsp argv envp aux).Filled top rsp argv envp aux := by
  have hsize := fillSize_eq argv envp
  rw [Stack.fill]
  obtain ⟨st₁, hst₁⟩ : ∃ st, st = envp.foldl Stack.pushString ⟨m, top⟩ := ⟨_, rfl⟩
  obtain ⟨st₂, hst₂⟩ : ∃ st, st = argv.foldl Stack.pushString st₁ := ⟨_, rfl⟩
  rw [← hst₁, ← hst₂]
  have henv : (Stack.mk m top).Within st₁ (0 + stringsSize envp) := by
    rw [hst₁]
    exact (Stack.Within.refl ⟨m, top⟩).pushStrings hlt envp (by simp only; omega)
  have hused₁ : st₁.sp + stringsSize envp = top := by
    have := henv.used
    rwa [Nat.zero_add] at this
  have harg : st₁.Within st₂ (0 + stringsSize argv) := by
    rw [hst₂]
    exact (Stack.Within.refl st₁).pushStrings (by omega) argv (by omega)
  have hboth : (Stack.mk m top).Within st₂ (0 + stringsSize envp + stringsSize argv) := by
    rw [hst₂]
    exact henv.pushStrings hlt argv (by simp only; omega)
  have hused₂ := harg.used
  rw [Nat.zero_add] at hboth
  have halign := hboth.align (a := argv.length) (e := envp.length) hlt h16 (by simp only [vectorsSize] at *; omega)
  have hused₃ := halign.used
  simp only at hused₃
  have hvec := @Stack.fillVectors_holds (st₂.align argv.length envp.length) rsp argv envp aux (by omega)
    (by omega) haux hrsp hstrs
  have hused := hvec.used
  have hsame : ∀ x, st₂.sp ≤ x →
      ((st₂.align argv.length envp.length).fillVectors rsp argv envp aux).mem x = st₂.mem x :=
    fun x hx => hvec.outside x (.inr (by omega))
  refine ⟨by omega, hvec.words, ?_, ?_⟩
  · have hs : StringsAt st₁.mem top 0 envp := by
      rw [hst₁]
      exact pushStrings_at rfl hlt (by omega) fun x hlo hhi => hzero x (by omega) hhi
    refine hs.shift (by omega) (by omega) fun y hlo hhi => ?_
    rw [hsame _ (by omega), harg.outside _ (.inr (by omega))]
  · have hs : StringsAt st₂.mem top (stringsSize envp) argv := by
      rw [hst₂]
      refine pushStrings_at hused₁ hlt (by omega) fun x hlo hhi => ?_
      rw [henv.outside x (.inl hhi)]
      exact hzero x (by omega) (by omega)
    exact hs.shift (by omega) (by omega) fun y hlo hhi => hsame _ (by omega)

theorem decodeStack_eq {m : Mem} {rsp top : Nat} {argv envp : List (List Byte)} {aux : Auxval}
    (hwords : WordsAt m rsp (startWords top argv envp aux)) (henv : StringsAt m top 0 envp)
    (harg : StringsAt m top (stringsSize envp) argv) (hstrs : stringsSize envp + stringsSize argv < top)
    (hfit : fillSize argv envp ≤ stackSize) (hargv : ∀ str ∈ argv, 0 ∉ str)
    (henvp : ∀ str ∈ envp, 0 ∉ str) :
    decodeStack m rsp = some ⟨argv.length, argv, envp, auxPairs aux⟩ := by
  have hsize : stringsSize envp + stringsSize argv ≤ stackSize ∧ argv.length < stackSize ∧
      envp.length < stackSize := by
    unfold fillSize at hfit
    omega
  obtain ⟨hargc, hwords⟩ := hwords
  have hp₁ := readPointers_eq hwords (pointers_ne_zero hstrs)
    (show (pointers top (stringsSize envp) argv).length < stackSize by simpa using hsize.2.1)
  have hwords₂ := (wordsAt_append.mp hwords).2.2
  have hp₂ := readPointers_eq hwords₂ (pointers_ne_zero (by omega))
    (show (pointers top 0 envp).length < stackSize by simpa using hsize.2.2)
  have hwords₃ := (wordsAt_append.mp hwords₂).2.2
  have haux : readAuxv m stackSize _ = some (auxPairs aux) :=
    readAuxv_eq hwords₃ (auxPairs_keys aux) (show 4 < stackSize by decide)
  simp only [decodeStack, hp₁, hp₂, haux, Option.bind_eq_bind, Option.bind_some, Option.pure_def, hargc,
    harg.cStrings hargv (show stringsSize argv ≤ stackSize by omega),
    henv.cStrings henvp (show stringsSize envp ≤ stackSize by omega)]

/-! ### The first thread -/

/-- Where the stack of a first thread ends. -/
def firstStackTop : Nat := 0x70000000000

section First
variable {σ : Type} {F : FrameSource σ} {s s₁ : Vmm σ} {p : Process} {argv envp : List (List Byte)}
  {aux : Auxval}

theorem schedUserThread_first (hfirst : p.threads = 0) (htop : p.threadStackTop = firstStackTop)
    (hne : (pmmCalloc F s stackFrames).1 ≠ 0)
    (hmap : vmmMapPages F (pmmCalloc F s stackFrames).2 p.pagemap (pmmCalloc F s stackFrames).1
      (firstStackTop - stackSize) 7 (stackFrames + 1) = some s₁) (start arg : Nat) {st : Stack}
    (hst : st = Stack.fill s₁.mem (((pmmCalloc F s stackFrames).1 + stackSize) % 2 ^ 64) firstStackTop
      argv envp aux) :
    ∃ th p', schedUserThread F s start arg p argv envp aux = some (th, p', { s₁ with mem := st.mem }) ∧
      th.rsp = sub64 firstStackTop (sub64 (((pmmCalloc F s stackFrames).1 + stackSize) % 2 ^ 64) st.sp) := by
  have hframes : (stackSize + (frameSize - 1)) % 2 ^ 64 / frameSize = stackFrames := by decide
  have halloc : pmmAlloc F s stackSize = some (pmmCalloc F s stackFrames) := by
    simp only [pmmAlloc, hframes, if_neg hne]
  have hflags : ptePresent ||| pteWritable ||| pteUser = 7 := by decide
  have hvirtual : sub64 firstStackTop stackSize = firstStackTop - stackSize := by decide
  rw [schedUserThread, halloc, Option.bind_eq_bind, Option.bind_some]
  simp only [stackPages, hflags, htop]
  rw [hvirtual, hmap, Option.bind_eq_bind, Option.bind_some, if_pos hfirst, ← hst]
  exact ⟨_, _, rfl, rfl⟩

/-- The bytes of the stack by its addresses. -/
theorem stack_physical {m : Mem} {pagemap b y : Nat} (hb : b + stackFrames ≤ 2 ^ 40)
    (hleaf : ∀ i, i < stackFrames + 1 → ∀ va, va < 2 ^ 47 →
      va / frameSize = (firstStackTop - stackSize) / frameSize + i →
      translation m pagemap va = frameSize * (b + i) ||| 7)
    (hpos : 0 < y) (hy : y ≤ stackSize) :
    (∃ v, translation m pagemap (firstStackTop - y) = v ||| 7) ∧
      physical m pagemap (firstStackTop - y) = frameSize * b + stackSize - y := by
  have hframes : stackFrames = 16 := by decide
  have hpage : (firstStackTop - y) / frameSize =
      (firstStackTop - stackSize) / frameSize + (stackSize - y) / frameSize := by
    rw [firstStackTop, frameSize, stackSize] at *
    omega
  have hi : (stackSize - y) / frameSize < 16 := by
    rw [frameSize, stackSize] at *
    omega
  have htr := hleaf _ (by omega) (firstStackTop - y) (by rw [firstStackTop]; omega) hpage
  refine ⟨⟨_, htr⟩, ?_⟩
  rw [physical, htr, mask_or (by omega) (by decide)]
  rw [firstStackTop, frameSize, stackSize] at *
  omega

/-- The stack fills blank frames. -/
theorem blank_filled {m : Mem} {b : Nat} (hb : b + stackFrames ≤ 2 ^ 40)
    (hzero : ∀ x, b ≤ x / frameSize → x / frameSize < b + stackFrames → m x = 0)
    (hfit : fillSize argv envp ≤ stackSize) (haux : aux.Words) :
    (Stack.fill m (frameSize * b + stackSize) firstStackTop argv envp aux).Filled (frameSize * b + stackSize)
      firstStackTop argv envp aux := by
  have hframes : stackFrames = 16 := by decide
  have hsize := fillSize_eq argv envp
  refine Stack.fill_filled ?_ ?_ (by omega) haux (by decide) ?_ ?_
  · rw [frameSize, stackSize]
    omega
  · rw [frameSize, stackSize]
    omega
  · rw [firstStackTop]
    rw [stackSize] at hfit
    omega
  · intro x hlo hhi
    apply hzero x
    · rw [frameSize] at hlo ⊢
      omega
    · rw [frameSize, stackSize] at hhi
      rw [frameSize, hframes]
      omega

/-- What is filled in at the physical addresses is found at those of the user. -/
theorem Stack.Filled.decode {st : Stack} {m : Mem} {top : Nat}
    (hfilled : st.Filled top firstStackTop argv envp aux) (htop : stackSize ≤ top)
    (hfit : fillSize argv envp ≤ stackSize) (hargv : ∀ str ∈ argv, 0 ∉ str) (henvp : ∀ str ∈ envp, 0 ∉ str)
    (hview : ∀ y, 0 < y → y ≤ stackSize → m (firstStackTop - y) = st.mem (top - y)) :
    decodeStack m (firstStackTop - fillSize argv envp) = some ⟨argv.length, argv, envp, auxPairs aux⟩ := by
  have hused := hfilled.used
  have hsize := fillSize_eq argv envp
  have hlow : stackSize < firstStackTop := by decide
  have hlen := startWords_length firstStackTop argv envp aux
  apply decodeStack_eq
  case hwords =>
    refine hfilled.words.shift fun x hx => ?_
    have hx := hview (fillSize argv envp - x) (by omega) (by omega)
    rwa [show firstStackTop - (fillSize argv envp - x) = firstStackTop - fillSize argv envp + x by omega,
      show top - (fillSize argv envp - x) = st.sp + x by omega] at hx
  case henv =>
    exact hfilled.environment.shift (by omega) (by omega) fun y hlo hhi => hview y (by omega) (by omega)
  case harg =>
    exact hfilled.arguments.shift (by omega) (by omega) fun y hlo hhi => hview y (by omega) (by omega)
  case hstrs => omega
  case hfit => exact hfit
  case hargv => exact hargv
  case henvp => exact henvp

/-- A first thread finds its arguments, its environment and the auxiliary vector
on its stack, at a pointer that is a multiple of 16. -/
theorem first_stack_round_trip (htables : OpenTables F s p.pagemap) (hfirst : p.threads = 0)
    (htop : p.threadStackTop = firstStackTop) (hargv : ∀ str ∈ argv, 0 ∉ str)
    (henvp : ∀ str ∈ envp, 0 ∉ str) (hfit : fillSize argv envp ≤ stackSize) (haux : aux.Words)
    (hne : (pmmCalloc F s stackFrames).1 ≠ 0)
    (hmap : (vmmMapPages F (pmmCalloc F s stackFrames).2 p.pagemap (pmmCalloc F s stackFrames).1
      (firstStackTop - stackSize) 7 (stackFrames + 1)).isSome) (start arg : Nat) :
    ∃ th p' s', schedUserThread F s start arg p argv envp aux = some (th, p', s') ∧
      decodeStack (userMem s'.mem p.pagemap) th.rsp = some ⟨argv.length, argv, envp, auxPairs aux⟩ ∧
      th.rsp % 16 = 0 ∧
      ∀ va, th.rsp ≤ va → va < firstStackTop → UserAccess s'.mem p.pagemap va := by
  obtain ⟨lev, ht, hroot, hu⟩ := htables
  obtain ⟨s₁, hmap⟩ := Option.isSome_iff_exists.mp hmap
  obtain ⟨lev₁, b, hptr, hblank, hloads, hleaf⟩ :=
    blank_mapped ht hroot (show 0 < stackFrames by decide) hne (le_refl _) (by decide) hmap
  have hb := hblank.below
  obtain ⟨st, hst⟩ : ∃ st, st = Stack.fill s₁.mem (((pmmCalloc F s stackFrames).1 + stackSize) % 2 ^ 64)
    firstStackTop argv envp aux := ⟨_, rfl⟩
  obtain ⟨th, p', hrun, hrsp⟩ := schedUserThread_first hfirst htop hne hmap start arg hst
  rw [hptr] at hst hrsp
  have hwithin := fill_within_stack hb hfit hst
  have hphys : (frameSize * b + stackSize) % 2 ^ 64 = frameSize * b + stackSize := by
    rw [frameSize, stackSize]
    have hframes : stackFrames = 16 := by decide
    omega
  rw [hphys] at hst hrsp
  have hfilled : st.Filled (frameSize * b + stackSize) firstStackTop argv envp aux := by
    rw [hst]
    exact blank_filled hb hblank.zero hfit haux
  have hused := hfilled.used
  have hentry := stack_entry hloads.keeps.tables hblank.level hwithin hfit
  have hgrows := stack_grows hloads.keeps.tables hblank.level hwithin hfit
  have hroot₁ : lev₁ p.pagemap = 4 := (hloads.keeps.level p.pagemap (by omega)).trans hroot
  have hu₁ : Flagged pteUser st.mem lev₁ := Flagged.congr (hloads.quiet.user hu) fun x i hx => hentry x i (by omega)
  have hleaf' : ∀ i, i < stackFrames + 1 → ∀ va, va < 2 ^ 47 →
      va / frameSize = (firstStackTop - stackSize) / frameSize + i →
      translation st.mem p.pagemap va = frameSize * (b + i) ||| 7 := by
    intro i hi va hva hpage
    rw [← hleaf i hi va hva hpage]
    exact hgrows.same p.pagemap (path va) hroot₁
  have hview : ∀ y, 0 < y → y ≤ stackSize →
      userMem st.mem p.pagemap (firstStackTop - y) = st.mem (frameSize * b + stackSize - y) :=
    fun y hpos hy => congrArg st.mem (stack_physical hb hleaf' hpos hy).2
  have hlow : stackSize < firstStackTop := by decide
  have hpointer : th.rsp = firstStackTop - fillSize argv envp := by
    have hlt : frameSize * b + stackSize < 2 ^ 64 := by
      rw [← hphys]
      exact Nat.mod_lt _ (Nat.two_pow_pos 64)
    rw [hrsp, sub64_of_le (by omega) hlt, sub64_of_le (by omega) (by decide)]
    omega
  refine ⟨th, p', _, hrun, ?_, ?_, ?_⟩
  · rw [hpointer]
    exact hfilled.decode (Nat.le_add_left _ _) hfit hargv henvp hview
  · have haligned := fillSize_aligned argv envp
    rw [hpointer, firstStackTop]
    rw [firstStackTop] at hlow
    omega
  · intro va hlo hhi
    rw [hpointer] at hlo
    obtain ⟨⟨v, hv⟩, -⟩ := stack_physical hb hleaf' (show 0 < firstStackTop - va by omega) (by omega)
    rw [show firstStackTop - (firstStackTop - va) = va by omega] at hv
    exact userAccess_of_leaf hgrows.tables hroot₁ hu₁ hv

end First

/-! ### A machine of 256 free frames -/

def wideVmm : Vmm { p : Pmm // p.limit ≤ 2 ^ 40 } := ⟨fun _ => 0, ⟨fun _ => 0, 256, by decide⟩, by decide⟩

/-- Frames are handed out from below, with `n` left. -/
def Plenty (n : Nat) (p : { p : Pmm // p.limit ≤ 2 ^ 40 }) : Prop :=
  ∃ k, 1 ≤ k ∧ p.val.FilledTo k ∧ k + n ≤ p.val.limit

theorem Plenty.malloc {n k : Nat} {p : { p : Pmm // p.limit ≤ 2 ^ 40 }} (hk : 0 < k) (h : Plenty (n + k) p) :
    (pmmSource.malloc p k).1 ≠ 0 ∧ Plenty n (pmmSource.malloc p k).2 := by
  obtain ⟨b, hb, hfilled, hfit⟩ := h
  obtain ⟨hptr, hfilled'⟩ := hfilled.malloc hb hk (by omega)
  refine ⟨hptr.trans_ne (Nat.mul_ne_zero (by decide) (by omega)), b + k, by omega, hfilled', ?_⟩
  show b + k + n ≤ (pmmMalloc p.val k).2.limit
  rw [pmmMalloc_limit]
  omega

theorem Plenty.mono {n k : Nat} {p : { p : Pmm // p.limit ≤ 2 ^ 40 }} (h : Plenty n p) (hk : k ≤ n) :
    Plenty k p := by
  obtain ⟨b, hb, hfilled, hfit⟩ := h
  exact ⟨b, hb, hfilled, by omega⟩

theorem plenty_grants : Grants pmmSource Plenty :=
  ⟨fun _ _ h => h.malloc (by decide), fun _ _ h => h.mono (Nat.le_succ _)⟩

theorem Plenty.ready {n : Nat} {p : { p : Pmm // p.limit ≤ 2 ^ 40 }} (h : Plenty n p) : pmmSource.Ready p n := by
  induction n generalizing p with
  | zero => trivial
  | succ n ih =>
      obtain ⟨hne, hrest⟩ := plenty_grants.take n p h
      exact ⟨hne, ih hrest⟩

theorem wide_pagemap : ∃ s pagemap, OpenTables pmmSource s pagemap ∧ Plenty 251 s.src := by
  have hplenty : Plenty 255 wideVmm.src := by
    refine ⟨1, le_refl 1, fun f hf _ => ?_, by decide⟩
    rw [decide_eq_false (by omega)]
    simp [wideVmm, Pmm.used, bitTest]
  have hready : pmmSource.Ready wideVmm.src 4 := (hplenty.mono (by decide)).ready
  obtain ⟨w, top, hw, htop, hsrc, -⟩ := new_pagemap hready
  refine ⟨w.vmm, top, openTables_of_reaches hw htop, ?_⟩
  rw [hsrc]
  have hthree := (hplenty.malloc (show 0 < 1 by decide)).2
  have htwo := (hthree.malloc (show 0 < 1 by decide)).2
  have hone := (htwo.malloc (show 0 < 1 by decide)).2
  exact (hone.malloc (show 0 < 1 by decide)).2

/-- A shell with one argument, and one variable in its environment. -/
theorem shell_stack_round_trip : ∃ s pagemap th p' s',
    schedUserThread pmmSource s 0x400000 0 (freshProcess pagemap) [[115, 104], [45, 99]] [[97, 61, 98]]
      ⟨0x400000, 0x400040, 56, 2⟩ = some (th, p', s') ∧
    decodeStack (userMem s'.mem pagemap) th.rsp = some ⟨2, [[115, 104], [45, 99]], [[97, 61, 98]],
      [(5, 2), (4, 56), (3, 0x400040), (9, 0x400000)]⟩ ∧ th.rsp % 16 = 0 := by
  obtain ⟨s, pagemap, htables, hplenty⟩ := wide_pagemap
  obtain ⟨hne, hrest⟩ := (hplenty.mono (show 51 + stackFrames ≤ 251 by decide)).malloc (by decide)
  obtain ⟨s₁, hmap, -⟩ : ∃ s₁, vmmMapPages pmmSource (pmmCalloc pmmSource s stackFrames).2 pagemap
      (pmmCalloc pmmSource s stackFrames).1 (firstStackTop - stackSize) 7 (stackFrames + 1) = some s₁ ∧
      Plenty 0 s₁.src := vmmMapPages_granted plenty_grants hrest
  obtain ⟨th, p', s', hrun, hdecode, haligned, -⟩ := @first_stack_round_trip _ pmmSource s
    (freshProcess pagemap) [[115, 104], [45, 99]] [[97, 61, 98]] ⟨0x400000, 0x400040, 56, 2⟩
    htables rfl rfl (by decide) (by decide) (by decide) ⟨by decide, by decide, by decide, by decide⟩ hne
    (Option.isSome_iff_exists.mpr ⟨s₁, hmap⟩) 0x400000 0
  exact ⟨s, pagemap, th, p', s', hrun, hdecode, haligned⟩

/-! ### The stacks of the next threads -/

/-- The addresses that `sched_user_thread` maps as a stack. -/
def stackSpan (p : Process) : Span :=
  ⟨sub64 p.threadStackTop stackSize, (alignUpFrame stackSize / frameSize + 1) * frameSize⟩

/-- The stacks of threads made one after the other for a process. Between two calls
anything may happen to memory, and to the process but for its `thread_stack_top`. -/
inductive Threads {σ : Type} (F : FrameSource σ) : Process → List Span → Prop
  | none (p : Process) : Threads F p []
  | call {s s' : Vmm σ} {start arg : Nat} {p p' q : Process} {argv envp : List (List Byte)} {aux : Auxval}
      {th : UserThread} {spans : List Span}
      (h : schedUserThread F s start arg p argv envp aux = some (th, p', s'))
      (hq : q.threadStackTop = p'.threadStackTop) (hrest : Threads F q spans) :
      Threads F p (stackSpan p :: spans)

section Next
variable {σ : Type} {F : FrameSource σ} {s s' : Vmm σ} {start arg : Nat} {p p' : Process}
  {argv envp : List (List Byte)} {aux : Auxval} {th : UserThread}

theorem schedUserThread_process (h : schedUserThread F s start arg p argv envp aux = some (th, p', s')) :
    p' = { p with
      threads := p.threads + 1
      threadStackTop := sub64 p.threadStackTop (stackSize - frameSize) } := by
  obtain ⟨r, -, h⟩ := Option.bind_eq_some_iff.mp h
  obtain ⟨s₁, -, h⟩ := Option.bind_eq_some_iff.mp h
  split at h
  all_goals
    simp only [Option.pure_def, Option.some.injEq, Prod.mk.injEq] at h
    exact h.2.1.symm

/-- The frames of a new stack, and the tables after the call. -/
theorem schedUserThread_tables {lev : Nat → Nat} (ht : Tables F s lev) (htop : lev p.pagemap = 4)
    (h : schedUserThread F s start arg p argv envp aux = some (th, p', s'))
    (hfit : p.threads = 0 → fillSize argv envp ≤ stackSize)
    (hlow : sub64 p.threadStackTop stackSize / frameSize + (stackFrames + 1) ≤ 2 ^ 35) :
    ∃ lev' b, Tables F s' lev' ∧ lev' p.pagemap = 4 ∧ (pmmCalloc F s stackFrames).1 = frameSize * b ∧
      b + stackFrames ≤ 2 ^ 40 ∧
      ∀ k, b ≤ k → k < b + stackFrames → ¬ F.Taken s.src k ∧ F.Taken s'.src k := by
  obtain ⟨hne, -, s₁, hmap, hs'⟩ := schedUserThread_some h
  obtain ⟨lev₁, b, hptr, hblank, hloads, -⟩ :=
    blank_mapped ht htop (show 0 < stackFrames by decide) hne (le_refl _) hlow hmap
  have htop₁ : lev₁ p.pagemap = 4 := (hloads.keeps.level p.pagemap (by omega)).trans htop
  rw [hptr] at hs'
  rcases hs' with rfl | ⟨hfirst, st, rfl, hst⟩
  · exact ⟨lev₁, b, hloads.keeps.tables, htop₁, hptr, hblank.below,
      fun k hlo hhi => ⟨hblank.fresh k hlo hhi, hblank.taken k hlo hhi⟩⟩
  · have hwithin := fill_within_stack hblank.below (hfit hfirst) hst
    have hgrows := stack_grows hloads.keeps.tables hblank.level hwithin (hfit hfirst)
    exact ⟨lev₁, b, hgrows.tables, htop₁, hptr, hblank.below,
      fun k hlo hhi => ⟨hblank.fresh k hlo hhi, hblank.taken k hlo hhi⟩⟩

/-- A stack has seventeen pages, and the next one ends fifteen pages lower. -/
theorem stacks_overlap (pagemap : Nat) {q : Process}
    (hq : q.threadStackTop = sub64 firstStackTop (stackSize - frameSize)) :
    ¬ (stackSpan (freshProcess pagemap)).Apart (stackSpan q) := by
  rw [stackSpan, stackSpan, hq]
  show ¬ Span.Apart ⟨sub64 firstStackTop stackSize, _⟩ _
  decide

/-- The stacks of a process are apart exactly if there is at most one. -/
theorem thread_stacks_apart_iff {pagemap : Nat} {spans : List Span} (h : Threads F (freshProcess pagemap) spans) :
    spans.Pairwise Span.Apart ↔ spans.length ≤ 1 := by
  cases h with
  | none => exact ⟨fun _ => Nat.zero_le 1, fun _ => .nil⟩
  | call hfirst hq hrest =>
      rw [schedUserThread_process hfirst] at hq
      cases hrest with
      | none => exact ⟨fun _ => le_refl 1, fun _ => List.pairwise_singleton _ _⟩
      | call hsecond hq' hrest' =>
          constructor
          · intro hapart
            exact absurd ((List.pairwise_cons.mp hapart).1 _ List.mem_cons_self) (stacks_overlap pagemap hq)
          · exact fun hlen => absurd hlen (by simp)

end Next

/-- One thread: its stack is alone. -/
theorem one_thread_stacks_apart : ∃ pagemap spans, Threads pmmSource (freshProcess pagemap) spans ∧
    spans.length = 1 ∧ spans.Pairwise Span.Apart := by
  obtain ⟨s, pagemap, htables, hplenty⟩ := wide_pagemap
  obtain ⟨hne, hrest⟩ := (hplenty.mono (show 51 + stackFrames ≤ 251 by decide)).malloc (by decide)
  obtain ⟨th, p', s', hthread, -⟩ := @schedUserThread_granted _ _ _ plenty_grants s 0 hne hrest 0 0
    (freshProcess pagemap) [] [] ⟨0, 0, 0, 0⟩
  have hone : Threads pmmSource (freshProcess pagemap) [stackSpan (freshProcess pagemap)] :=
    .call hthread rfl (.none p')
  exact ⟨pagemap, _, hone, rfl, (thread_stacks_apart_iff hone).mpr (le_refl 1)⟩

/-- The second call maps the first thread's lowest page anew. -/
theorem second_thread_remaps_stack : ∃ s₀ pagemap th₁ p₁ s₁ th₂ p₂ s₂,
    schedUserThread pmmSource s₀ 0 0 (freshProcess pagemap) [] [] ⟨0, 0, 0, 0⟩ = some (th₁, p₁, s₁) ∧
    schedUserThread pmmSource s₁ 0 0 p₁ [] [] ⟨0, 0, 0, 0⟩ = some (th₂, p₂, s₂) ∧
    ¬ [stackSpan (freshProcess pagemap), stackSpan p₁].Pairwise Span.Apart ∧
    translation s₂.mem pagemap (firstStackTop - stackSize) ≠
      translation s₁.mem pagemap (firstStackTop - stackSize) := by
  obtain ⟨s₀, pagemap, htables, hplenty⟩ := wide_pagemap
  have hgrant : ∀ {n s}, Plenty (n + 51 + 16) s.src → (pmmCalloc pmmSource s stackFrames).1 ≠ 0 ∧
      Plenty (n + 51) (pmmCalloc pmmSource s stackFrames).2.src := fun h => h.malloc (by decide)
  obtain ⟨hne₁, hrest₁⟩ := hgrant (hplenty.mono (show 67 + 51 + 16 ≤ 251 by decide))
  obtain ⟨th₁, p₁, s₁, hthread₁, hplenty₁⟩ := @schedUserThread_granted _ _ _ plenty_grants s₀ 67 hne₁ hrest₁
    0 0 (freshProcess pagemap) [] [] ⟨0, 0, 0, 0⟩
  obtain ⟨hne₂, hrest₂⟩ := hgrant hplenty₁
  obtain ⟨th₂, p₂, s₂, hthread₂, -⟩ := @schedUserThread_granted _ _ _ plenty_grants s₁ 0 hne₂ hrest₂
    0 0 p₁ [] [] ⟨0, 0, 0, 0⟩
  have hp₁ := schedUserThread_process hthread₁
  refine ⟨s₀, pagemap, th₁, p₁, s₁, th₂, p₂, s₂, hthread₁, hthread₂, ?_, ?_⟩
  · intro hapart
    exact stacks_overlap pagemap (by rw [hp₁]; rfl) ((List.pairwise_cons.mp hapart).1 _ List.mem_cons_self)
  · obtain ⟨lev, ht, htop, -⟩ := htables
    have hpm : p₁.pagemap = pagemap := by rw [hp₁]; rfl
    have htop' : p₁.threadStackTop = firstStackTop - 15 * frameSize := by
      rw [hp₁]
      show sub64 firstStackTop (stackSize - frameSize) = _
      decide
    have hlow₁ : sub64 firstStackTop stackSize / frameSize + (stackFrames + 1) ≤ 2 ^ 35 := by decide
    have hlow₂ : sub64 p₁.threadStackTop stackSize / frameSize + (stackFrames + 1) ≤ 2 ^ 35 := by
      rw [htop']
      decide
    obtain ⟨lev₁, b₁, ht₁, htop₁, hptr₁, hb₁, hnew₁⟩ :=
      schedUserThread_tables ht htop hthread₁ (fun _ => by decide) hlow₁
    have hpage₁ := stack_page ht htop hthread₁ (fun _ => by decide) hptr₁ (show 0 < stackFrames + 1 by decide)
      hlow₁ (show firstStackTop - stackSize < 2 ^ 47 by decide)
      (show (firstStackTop - stackSize) / frameSize = sub64 firstStackTop stackSize / frameSize + 0 by decide)
    have htop₁ : lev₁ p₁.pagemap = 4 := hpm ▸ htop₁
    obtain ⟨-, b₂, -, -, hptr₂, hb₂, hnew₂⟩ :=
      schedUserThread_tables ht₁ htop₁ hthread₂ (fun _ => by decide) hlow₂
    have hpage₂ := stack_page ht₁ htop₁ hthread₂ (fun _ => by decide) hptr₂
      (show 15 < stackFrames + 1 by decide) hlow₂ (show firstStackTop - stackSize < 2 ^ 47 by decide)
      (by rw [htop']; decide)
    have hstack : stackFrames = 16 := by decide
    intro heq
    rw [← hpm, hpage₂, hpm] at heq
    have hframe := (frameOf_leaf (by omega)).symm.trans ((congrArg frameOf (heq.trans hpage₁)).trans
      (frameOf_leaf (by omega)))
    exact (hnew₂ (b₂ + 15) (by omega) (by omega)).1 (hframe ▸ (hnew₁ (b₁ + 0) (by omega) (by omega)).2)

end Flan.Proc
