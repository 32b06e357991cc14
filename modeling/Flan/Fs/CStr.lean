import Flan.Fs.Spelling
import Flan.Lib.CString

/-! `strlen`, `strchr`, `strtok` and `basename` of `lib/str.c` on the bytes of memory. A
pointer is an address and zero is `NULL`; a loop yields `none` when the fuel runs out before
the string ends. -/
namespace Flan.Fs.CStr
open Flan.Lib

/-! ### The source -/

def strlenLoop (m : Mem) (f : Nat) : (fuel ct : Nat) → Option Nat
  | 0, _ => none
  | fuel+1, ct => if m (f + ct) = 0 then some ct else strlenLoop m f fuel (ct + 1)

def strlen (m : Mem) (fuel f : Nat) : Option Nat := strlenLoop m f fuel 0

def strchr (m : Mem) : (fuel str : Nat) → (c : Byte) → Option Nat
  | 0, _, _ => none
  | fuel+1, str, c =>
      if m str = c then some str
      else if m str = 0 then some 0
      else strchr m fuel (str + 1) c

/-- Memory and the static cursor `s`. -/
structure Scan where
  mem : Mem
  s : Nat

section Strtok
variable (fuel delim : Nat)

/-- The loop of `strtok`, with `fuel` for each `strchr`. -/
def strtokLoop : (left : Nat) → Scan → Option Scan
  | 0, _ => none
  | left+1, st =>
      if st.mem st.s = 0 then some { st with s := 0 }
      else
        (strchr st.mem fuel delim (st.mem st.s)).bind fun found =>
          if found ≠ 0 then some ⟨Function.update st.mem st.s 0, st.s + 1⟩
          else strtokLoop left { st with s := st.s + 1 }

def strtok (st : Scan) (str : Nat) : Option (Nat × Scan) :=
  let st := if str ≠ 0 then { st with s := str } else st
  if st.s = 0 then some (0, st)
  else (strtokLoop fuel delim fuel st).map fun st' => (st.s, st')

/-- A number of calls, the first one on `str` and the others on `NULL`: the pointers they
return and what they leave. -/
def strtokCalls : (calls : Nat) → Scan → (str : Nat) → Option (List Nat × Scan)
  | 0, st, _ => some ([], st)
  | calls+1, st, str =>
      (strtok fuel delim st str).bind fun (token, st) =>
        (strtokCalls calls st 0).map fun (tokens, st) => (token :: tokens, st)

end Strtok

/-- The first loop of `basename`, which overwrites the slashes at the end. -/
def stripLoop (s : Nat) : (i : Nat) → Mem → Nat × Mem
  | 0, m => (0, m)
  | i+1, m => if m (s + (i + 1)) = slash then stripLoop s i (Function.update m (s + (i + 1)) 0) else (i + 1, m)

/-- The second loop of `basename`. -/
def startLoop (m : Mem) (s : Nat) : (i : Nat) → Nat
  | 0 => 0
  | i+1 => if m (s + i) ≠ slash then startLoop m s i else i + 1

/-- `basename`, with the address of its own string ".". -/
def basename (dot fuel : Nat) (m : Mem) (s : Nat) : Option (Nat × Mem) :=
  if s = 0 ∨ m s = 0 then some (dot, m)
  else
    (strlen m fuel s).map fun len =>
      let (i, m) := stripLoop s (len - 1) m
      (s + startLoop m s i, m)

/-! ### strtok -/

/-- The segments of a string between the characters of `d`. -/
def tokens (d s : List Byte) : List (List Byte) := s.splitOnP (· ∈ d)

/-- A call returns a pointer to this string, or `NULL`. -/
def Returned (m : Mem) (ptr : Nat) : Option (List Byte) → Prop
  | some token => IsStr m ptr token
  | none => ptr = 0

/-- What calls on `NULL` still have to return. The delimiters lie apart from the text. -/
inductive Pending (fuel q : Nat) (d : List Byte) (st : Scan) : List (List Byte) → Prop
  | done (h : st.s = 0) : Pending fuel q d st []
  | more {text : List Byte} (ht : IsStr st.mem st.s text) (hd : IsStr st.mem q d)
      (hapart : q + d.length < st.s ∨ st.s + text.length < q) (hf : text.length < fuel) :
      Pending fuel q d st (tokens d text)

section Tokens
variable {m : Mem} {p q fuel left : Nat} {st : Scan} {c : Byte} {d s text tok rest : List Byte}
  {segs : List (List Byte)}

theorem strchr_eq (hd : IsStr m q d) (hc : c ≠ 0) (hf : d.length < fuel) :
    ∃ r, strchr m fuel q c = some r ∧ (r ≠ 0 ↔ c ∈ d) := by
  induction d generalizing q fuel with
  | nil =>
      obtain ⟨fuel, rfl⟩ := Nat.exists_eq_succ_of_ne_zero (Nat.ne_zero_of_lt hf)
      have hz : m q = 0 := hd.ends
      refine ⟨0, ?_, by simp⟩
      rw [strchr, hz, if_neg hc.symm, if_pos rfl]
  | cons x d ih =>
      obtain ⟨fuel, rfl⟩ := Nat.exists_eq_succ_of_ne_zero (Nat.ne_zero_of_lt hf)
      rw [strchr, hd.head]
      by_cases hx : x = c
      · exact ⟨q, if_pos hx, by simp [hd.addr, hx]⟩
      · obtain ⟨r, hr, hiff⟩ := ih hd.tail (Nat.lt_of_succ_lt_succ hf)
        refine ⟨r, ?_, ?_⟩
        · rw [if_neg hx, if_neg hd.head_ne, hr]
        · rw [hiff, List.mem_cons, or_iff_right (Ne.symm hx)]

/-- One turn of the loop, on a character of the text. -/
theorem strtokLoop_succ (ht : IsStr st.mem st.s (c :: rest)) (hd : IsStr st.mem q d) (hf : d.length < fuel) :
    strtokLoop fuel q (left + 1) st =
      if c ∈ d then some ⟨Function.update st.mem st.s 0, st.s + 1⟩
      else strtokLoop fuel q left { st with s := st.s + 1 } := by
  obtain ⟨r, hr, hiff⟩ := strchr_eq hd ht.head_ne hf
  rw [strtokLoop, ht.head, if_neg ht.head_ne, hr, Option.bind_some]
  simp only [hiff]

theorem strtokLoop_miss (ht : IsStr st.mem st.s text) (hd : IsStr st.mem q d) (hf : d.length < fuel)
    (hno : ∀ x ∈ text, x ∉ d) (hl : text.length < left) :
    strtokLoop fuel q left st = some { st with s := 0 } := by
  induction text generalizing st left with
  | nil =>
      obtain ⟨left, rfl⟩ := Nat.exists_eq_succ_of_ne_zero (Nat.ne_zero_of_lt hl)
      have hz : st.mem st.s = 0 := ht.ends
      rw [strtokLoop, if_pos hz]
  | cons x text ih =>
      obtain ⟨left, rfl⟩ := Nat.exists_eq_succ_of_ne_zero (Nat.ne_zero_of_lt hl)
      obtain ⟨hx, hrest⟩ := List.forall_mem_cons.mp hno
      rw [strtokLoop_succ ht hd hf, if_neg hx]
      exact ih ht.tail hd hrest (Nat.lt_of_succ_lt_succ hl)

theorem strtokLoop_hit (ht : IsStr st.mem st.s (tok ++ c :: rest)) (hd : IsStr st.mem q d) (hf : d.length < fuel)
    (hno : ∀ x ∈ tok, x ∉ d) (hc : c ∈ d) (hl : tok.length < left) :
    strtokLoop fuel q left st =
      some ⟨Function.update st.mem (st.s + tok.length) 0, st.s + tok.length + 1⟩ := by
  induction tok generalizing st left with
  | nil =>
      obtain ⟨left, rfl⟩ := Nat.exists_eq_succ_of_ne_zero (Nat.ne_zero_of_lt hl)
      rw [strtokLoop_succ ht hd hf, if_pos hc]
      rfl
  | cons x tok ih =>
      obtain ⟨left, rfl⟩ := Nat.exists_eq_succ_of_ne_zero (Nat.ne_zero_of_lt hl)
      obtain ⟨hx, hrest⟩ := List.forall_mem_cons.mp hno
      rw [List.cons_append] at ht
      have hplace : st.s + (x :: tok).length = st.s + 1 + tok.length := by
        rw [List.length_cons]
        omega
      rw [strtokLoop_succ ht hd hf, if_neg hx, hplace]
      exact @ih left { st with s := st.s + 1 } ht.tail hd hrest (Nat.lt_of_succ_lt_succ hl)

theorem strtok_start (fuel q : Nat) (m : Mem) (old : Nat) (hp : p ≠ 0) :
    strtok fuel q ⟨m, old⟩ p = strtok fuel q ⟨m, p⟩ 0 := by
  simp only [strtok, if_pos hp, ne_eq, not_true_eq_false, if_false]

theorem strtok_next (hs : st.s ≠ 0) {st' : Scan} (h : strtokLoop fuel q fuel st = some st') :
    strtok fuel q st 0 = some (st.s, st') := by
  simp only [strtok, ne_eq, not_true_eq_false, if_false, if_neg hs, h]
  rfl

theorem strtok_null (hs : st.s = 0) : strtok fuel q st 0 = some (0, st) := by
  simp only [strtok, ne_eq, not_true_eq_false, if_false, if_pos hs]

theorem strtokCalls_succ {str k token : Nat} {st₁ st' : Scan} {ptrs : List Nat}
    (hcall : strtok fuel q st str = some (token, st₁)) (hcalls : strtokCalls fuel q k st₁ 0 = some (ptrs, st')) :
    strtokCalls fuel q (k + 1) st str = some (token :: ptrs, st') := by
  rw [strtokCalls, hcall, Option.bind_some]
  simp only [hcalls, Option.map_some]

theorem length_tokens (d s : List Byte) : (tokens d s).length = s.countP (· ∈ d) + 1 := by
  induction s with
  | nil => rfl
  | cons c s ih =>
      rw [tokens, List.splitOnP_cons_eq_if_modifyHead, List.countP_cons]
      split
      · rw [List.length_cons, ← tokens, ih]
      · rw [List.length_modifyHead, ← tokens, ih]

/-- The text behind the cursor up to the first delimiter, if there is one. -/
theorem tokens_cases (d text : List Byte) :
    ((∀ x ∈ text, x ∉ d) ∧ tokens d text = [text]) ∨
    ∃ tok c rest, text = tok ++ c :: rest ∧ (∀ x ∈ tok, x ∉ d) ∧ c ∈ d ∧ tokens d text = tok :: tokens d rest := by
  cases hfind : text.find? (· ∈ d) with
  | none =>
      have hno : ∀ x ∈ text, x ∉ d := by simpa using List.find?_eq_none.mp hfind
      exact .inl ⟨hno, List.splitOnP_eq_singleton fun x hx => decide_eq_false (hno x hx)⟩
  | some c =>
      obtain ⟨hc, tok, rest, rfl, htok⟩ := List.find?_eq_some_iff_append.mp hfind
      have hno : ∀ x ∈ tok, x ∉ d := by simpa using htok
      refine .inr ⟨tok, c, rest, rfl, hno, of_decide_eq_true hc, ?_⟩
      exact List.splitOnP_append_cons_of_forall_mem (fun x hx => decide_eq_false (hno x hx)) c hc rest

/-- One call returns the next segment and touches nothing before it. -/
theorem Pending.next (h : Pending fuel q d st (tok :: segs)) (hf : d.length < fuel) :
    ∃ st', strtok fuel q st 0 = some (st.s, st') ∧ IsStr st'.mem st.s tok ∧ Pending fuel q d st' segs ∧
      (∀ x, x < st.s → st'.mem x = st.mem x) ∧ (st'.s = 0 ∨ st.s + tok.length < st'.s) := by
  generalize hall : tok :: segs = all at h
  cases h with
  | done => cases hall
  | @more text ht hd hapart hlen =>
      rcases tokens_cases d text with ⟨hno, hone⟩ | ⟨tok', c, rest, rfl, hno, hc, hsplit⟩
      · rw [hone] at hall
        obtain ⟨rfl, rfl⟩ := List.cons.inj hall
        refine ⟨{ st with s := 0 }, strtok_next ht.addr (strtokLoop_miss ht hd hf hno hlen), ht, .done rfl, ?_, .inl rfl⟩
        exact fun _ _ => rfl
      · rw [hsplit] at hall
        obtain ⟨rfl, rfl⟩ := List.cons.inj hall
        rw [List.length_append, List.length_cons] at hapart hlen
        obtain ⟨htok, hrest⟩ := ht.cut
        refine ⟨_, strtok_next ht.addr (strtokLoop_hit ht hd hf hno hc (by omega)), htok, .more hrest ?_ ?_ (by omega),
          ?_, ?_⟩
        · apply hd.congr
          intro x hx hx'
          exact Function.update_of_ne (by omega) _ _
        · dsimp only
          omega
        · intro x hx
          exact Function.update_of_ne (by omega) _ _
        · exact .inr (Nat.lt_succ_self _)

theorem Pending.stop (h : Pending fuel q d st []) : strtok fuel q st 0 = some (0, st) := by
  generalize hnil : ([] : List (List Byte)) = all at h
  cases h with
  | done hs => exact strtok_null hs
  | more => exact absurd hnil.symm (List.splitOnP_ne_nil _ _)

/-- Any number of calls on `NULL`: the segments come out in order, and then only `NULL`. -/
theorem Pending.calls (h : Pending fuel q d st segs) (hf : d.length < fuel) (k : Nat) :
    ∃ ptrs st', strtokCalls fuel q k st 0 = some (ptrs, st') ∧ ptrs.length = k ∧
      (∀ (i : Nat) ptr, ptrs[i]? = some ptr → Returned st'.mem ptr segs[i]?) ∧
      ∀ x, st.s = 0 ∨ x < st.s → st'.mem x = st.mem x := by
  induction k generalizing st segs with
  | zero => exact ⟨[], st, rfl, rfl, nofun, fun _ _ => rfl⟩
  | succ k ih =>
      cases segs with
      | nil =>
          obtain ⟨ptrs, st', hcalls, hlen, hret, hkeep⟩ := ih h
          refine ⟨0 :: ptrs, st', strtokCalls_succ h.stop hcalls, by rw [List.length_cons, hlen], ?_, hkeep⟩
          · intro i ptr hi
            cases i with
            | zero => exact (Option.some.inj hi).symm
            | succ i => exact hret i ptr hi
      | cons tok segs =>
          obtain ⟨st₁, hcall, htok, hpend, hbelow, hcur⟩ := h.next hf
          obtain ⟨ptrs, st', hcalls, hlen, hret, hkeep⟩ := ih hpend
          refine ⟨st.s :: ptrs, st', strtokCalls_succ hcall hcalls, by rw [List.length_cons, hlen], ?_, ?_⟩
          · intro i ptr hi
            cases i with
            | zero =>
                cases hi
                exact htok.congr fun x _ hx => hkeep x (hcur.imp_right (lt_of_le_of_lt hx))
            | succ i => exact hret i ptr hi
          · intro x hx
            have hlt : x < st.s := hx.resolve_left htok.addr
            rw [hkeep x (hcur.imp_right fun hgt => by omega), hbelow x hlt]

/-- `strtok(s, d)` and then `strtok(NULL, d)`, any number of times: the calls return the
segments of `s` between characters of `d`, one more than there are such characters, and from
then on `NULL`. -/
theorem strtok_splits (hs : IsStr m p s) (hd : IsStr m q d) (hapart : q + d.length < p ∨ p + s.length < q)
    (hfs : s.length < fuel) (hfd : d.length < fuel) (old k : Nat) :
    (tokens d s).length = s.countP (· ∈ d) + 1 ∧
    ∃ ptrs st', strtokCalls fuel q k ⟨m, old⟩ p = some (ptrs, st') ∧ ptrs.length = k ∧
      ∀ (i : Nat) ptr, ptrs[i]? = some ptr → Returned st'.mem ptr (tokens d s)[i]? := by
  refine ⟨length_tokens d s, ?_⟩
  have hpend : Pending fuel q d ⟨m, p⟩ (tokens d s) := .more hs hd hapart hfs
  obtain ⟨ptrs, st', hcalls, hlen, hret, -⟩ := hpend.calls hfd k
  cases k with
  | zero => exact ⟨[], _, rfl, rfl, nofun⟩
  | succ k =>
      refine ⟨ptrs, st', ?_, hlen, hret⟩
      rw [← hcalls, strtokCalls, strtokCalls, strtok_start fuel q m old hs.addr]

end Tokens

def abcMem : Mem := storeBytes (storeBytes (fun _ => 0) 64 (ofChars ['a', '/', ',', 'b'])) 32 (ofChars ['/', ','])

theorem strtok_empty_segment :
    (tokens (ofChars ['/', ',']) (ofChars ['a', '/', ',', 'b'])).length = 3 ∧
    ∃ ptrs st', strtokCalls 8 32 5 ⟨abcMem, 0⟩ 64 = some (ptrs, st') ∧ ptrs.length = 5 ∧
      ∀ (i : Nat) ptr, ptrs[i]? = some ptr →
        Returned st'.mem ptr (tokens (ofChars ['/', ',']) (ofChars ['a', '/', ',', 'b']))[i]? :=
  strtok_splits (s := ofChars ['a', '/', ',', 'b']) (d := ofChars ['/', ','])
    ⟨by decide, by decide, by decide⟩ ⟨by decide, by decide, by decide⟩ (.inl (by decide)) (by decide) (by decide) 0 5

/-! ### The buffers of path resolution -/

/-- The buffers of `Fs.Strtok` in memory, each with a zero behind it, and its cursor. -/
structure Lays (base : Nat → Nat) (l : Strtok) (st : Scan) : Prop where
  addr : ∀ b, base b ≠ 0
  bytes : ∀ b i, i ≤ (l.bufs b).length → st.mem (base b + i) = (l.bufs b).getD i 0
  apart : ∀ b b', b ≠ b' → base b + (l.bufs b).length < base b' ∨ base b' + (l.bufs b').length < base b
  cursor : st.s = l.s.elim 0 fun x => base x.1 + x.2
  inside : ∀ b p, l.s = some (b, p) → p ≤ (l.bufs b).length

section Lays
variable {base : Nat → Nat} {l : Strtok} {st : Scan} {b p q fuel : Nat} {text : List Byte}

theorem findDelim_cases (text : List Byte) :
    (findDelim text = none ∧ slash ∉ text.takeWhile (· ≠ 0)) ∨
    ∃ tok rest, findDelim text = some tok.length ∧ text.takeWhile (· ≠ 0) = tok ++ slash :: rest ∧ slash ∉ tok := by
  induction text with
  | nil => exact .inl ⟨rfl, List.not_mem_nil⟩
  | cons c text ih =>
      rw [findDelim]
      by_cases hz : c = 0
      · subst hz
        exact .inl ⟨rfl, List.not_mem_nil⟩
      · rw [if_neg hz, List.takeWhile_cons_of_pos (by simpa using hz)]
        by_cases hs : c = slash
        · subst hs
          exact .inr ⟨[], _, rfl, rfl, List.not_mem_nil⟩
        · rw [if_neg hs]
          rcases ih with ⟨hnone, hno⟩ | ⟨tok, rest, hsome, htext, hno⟩
          · exact .inl ⟨by rw [hnone]; rfl, List.not_mem_cons_of_ne_of_not_mem (Ne.symm hs) hno⟩
          · refine .inr ⟨c :: tok, rest, ?_, ?_, List.not_mem_cons_of_ne_of_not_mem (Ne.symm hs) hno⟩
            · rw [hsome]
              rfl
            · rw [htext, List.cons_append]

/-- A position of a buffer is the address of the string there. -/
theorem Lays.isStr (h : Lays base l st) (hp : p ≤ (l.bufs b).length) : IsStr st.mem (base b + p) (l.str (b, p)) := by
  have haddr := h.addr b
  apply isStr_takeWhile (by omega)
  intro i hi
  rw [List.length_drop] at hi
  dsimp only at hi
  rw [Nat.add_assoc, h.bytes b _ (by omega), List.getD_eq_getElem?_getD, List.getD_eq_getElem?_getD,
    List.getElem?_drop]

/-- The cursor moved, with the buffers as they are. -/
theorem Lays.move (h : Lays base l st) (c : Option (Nat × Nat)) (hc : ∀ b p, c = some (b, p) → p ≤ (l.bufs b).length) :
    Lays base { l with s := c } { st with s := c.elim 0 fun x => base x.1 + x.2 } :=
  ⟨h.addr, h.bytes, h.apart, rfl, hc⟩

theorem Lays.reset (h : Lays base l st) : Lays base { l with s := none } ⟨st.mem, 0⟩ := by
  refine h.move none ?_
  intro b p hc
  cases hc

theorem Lays.cut (h : Lays base l st) (hp : p < (l.bufs b).length) :
    Lays base ⟨Function.update l.bufs b ((l.bufs b).set p 0), some (b, p + 1)⟩
      ⟨Function.update st.mem (base b + p) 0, base b + p + 1⟩ := by
  have hlen : ∀ b', (Function.update l.bufs b ((l.bufs b).set p 0) b').length = (l.bufs b').length := by
    intro b'
    by_cases hb : b' = b
    · subst hb
      rw [Function.update_self, List.length_set]
    · rw [Function.update_of_ne hb]
  refine ⟨h.addr, ?_, ?_, rfl, ?_⟩
  · intro b' i hi
    dsimp only at hi ⊢
    rw [hlen] at hi
    by_cases hb : b' = b
    · subst hb
      rw [Function.update_self]
      by_cases hip : i = p
      · subst hip
        rw [Function.update_self, List.getD_eq_getElem _ _ (by rwa [List.length_set]), List.getElem_set_self]
      · rw [Function.update_of_ne (by omega), h.bytes b' i hi, List.getD_eq_getElem?_getD,
          List.getD_eq_getElem?_getD, List.getElem?_set_ne (Ne.symm hip)]
    · have hap := h.apart b' b hb
      rw [Function.update_of_ne (by omega), Function.update_of_ne hb, h.bytes b' i hi]
  · intro b₁ b₂ hne
    dsimp only
    rw [hlen, hlen]
    exact h.apart b₁ b₂ hne
  · rintro b' p' hs
    cases hs
    dsimp only
    rw [hlen]
    exact hp

/-- The loop from a position of a buffer on. -/
theorem Lays.loop (h : Lays base l st) (hd : IsStr st.mem q [slash])
    (hq : q + 1 < base b ∨ base b + (l.bufs b).length < q) (hlen : (l.bufs b).length < fuel) (hf : 1 < fuel)
    (hin : p ≤ (l.bufs b).length) {str : Option Nat} (hs : l.start str = some (b, p)) :
    (Fs.strtok l str).1 = some (b, p) ∧ ∃ st', strtokLoop fuel q fuel ⟨st.mem, base b + p⟩ = some st' ∧
      Lays base (Fs.strtok l str).2 st' ∧ IsStr st'.mem q [slash] := by
  have htext := h.isStr hin
  have hshort : (l.str (b, p)).length ≤ (l.bufs b).length - p := by
    rw [← List.length_drop]
    exact (List.takeWhile_sublist _).length_le
  rcases findDelim_cases ((l.bufs b).drop p) with ⟨hnone, hno⟩ | ⟨tok, rest, hsome, hsplit, hno⟩
  · simp only [Fs.strtok, hs, hnone, true_and]
    refine ⟨⟨st.mem, 0⟩, ?_, h.reset, hd⟩
    refine strtokLoop_miss htext hd hf ?_ (by omega)
    exact fun y hy hmem => hno (List.mem_singleton.mp hmem ▸ hy)
  · have hstr : l.str (b, p) = tok ++ slash :: rest := hsplit
    rw [hstr] at htext hshort
    rw [List.length_append, List.length_cons] at hshort
    simp only [Fs.strtok, hs, hsome, true_and]
    refine ⟨⟨Function.update st.mem (base b + (p + tok.length)) 0, base b + (p + tok.length) + 1⟩, ?_,
      h.cut (by omega), ?_⟩
    · rw [← Nat.add_assoc]
      refine strtokLoop_hit htext hd hf ?_ List.mem_cons_self (by omega)
      exact fun y hy hmem => hno (List.mem_singleton.mp hmem ▸ hy)
    · apply hd.congr
      intro x hx hx'
      rw [List.length_singleton] at hx'
      exact Function.update_of_ne (by omega) _ _

/-- `strtok` with the delimiter "/" does on memory what `Fs.strtok` does on buffers. -/
theorem strtok_refines (h : Lays base l st) (hd : IsStr st.mem q [slash])
    (hapart : ∀ b, q + 1 < base b ∨ base b + (l.bufs b).length < q) (hlen : ∀ b, (l.bufs b).length < fuel)
    (hf : 1 < fuel) (str : Option Nat) :
    ∃ st', strtok fuel q st (str.elim 0 base) =
        some ((Fs.strtok l str).1.elim 0 fun x => base x.1 + x.2, st') ∧
      Lays base (Fs.strtok l str).2 st' ∧ IsStr st'.mem q [slash] := by
  have hcall : strtok fuel q st (str.elim 0 base) =
      strtok fuel q ⟨st.mem, (l.start str).elim 0 fun x => base x.1 + x.2⟩ 0 := by
    cases str with
    | none =>
        rw [Strtok.start, ← h.cursor]
        rfl
    | some b => exact strtok_start fuel q st.mem st.s (h.addr b)
  rw [hcall]
  cases hs : l.start str with
  | none =>
      simp only [Fs.strtok, hs]
      exact ⟨⟨st.mem, 0⟩, strtok_null rfl, h.reset, hd⟩
  | some x =>
      obtain ⟨b, p⟩ := x
      have hin : p ≤ (l.bufs b).length := by
        cases str with
        | none => exact h.inside b p hs
        | some b' =>
            cases hs
            exact Nat.zero_le _
      obtain ⟨htoken, st', hloop, hlays, hd'⟩ := h.loop hd (hapart b) (hlen b) hf hin hs
      rw [htoken]
      exact ⟨st', strtok_next (h.isStr hin).addr hloop, hlays, hd'⟩

end Lays

/-! ### basename -/

/-- Position `j` is not the first, and there are only slashes from it on. -/
def Trailing (s : List Byte) (j : Nat) : Prop :=
  0 < j ∧ j < s.length ∧ ∀ k, j ≤ k → k < s.length → s.getD k 0 = slash

/-- The last component that is not empty, or "/" where there is none. -/
def lastComponent (s : List Byte) : List Byte :=
  if ∀ x ∈ s, x = slash then [slash] else (comps s).getLast?.getD []

/-- The memory that `basename` leaves around a string at `p`. -/
def cutEnd (m : Mem) (p : Nat) (s : List Byte) : Mem := fun x =>
  if p + stripEnd s (s.length - 1) < x ∧ x < p + s.length then 0 else m x

section Basename
variable {m : Mem} {p fuel i j ct : Nat} {s : List Byte}

theorem strlenLoop_eq (hs : IsStr m p s) (hct : ct ≤ s.length) (hf : s.length < ct + fuel) :
    strlenLoop m p fuel ct = some s.length := by
  induction fuel generalizing ct with
  | zero => omega
  | succ fuel ih =>
      rw [strlenLoop, hs.bytes ct hct]
      rcases Nat.eq_or_lt_of_le hct with rfl | hlt
      · rw [List.getD_eq_default _ _ (le_refl _), if_pos rfl]
      · have hne : s.getD ct 0 ≠ 0 := by
          rw [List.getD_eq_getElem _ _ hlt]
          exact fun h => hs.str (h ▸ List.getElem_mem hlt)
        rw [if_neg hne, ih hlt (by omega)]

/-- The first loop stops where it does on the list, and clears what it has passed. -/
theorem stripLoop_eq (hm : ∀ j, j ≤ i → m (p + j) = s.getD j 0) :
    stripLoop p i m = (stripEnd s i, fun x => if p + stripEnd s i < x ∧ x ≤ p + i then 0 else m x) := by
  induction i generalizing m with
  | zero =>
      refine Prod.ext rfl (funext fun x => ?_)
      exact (if_neg fun h => absurd h.1 (Nat.not_lt.mpr h.2)).symm
  | succ i ih =>
      rw [stripLoop, stripEnd, hm (i + 1) (le_refl _)]
      split
      · have hle := stripEnd_le s i
        rw [ih fun j hj => (Function.update_of_ne (by omega) _ _).trans (hm j (Nat.le_succ_of_le hj))]
        refine Prod.ext rfl (funext fun x => ?_)
        dsimp only
        rcases Nat.lt_trichotomy x (p + (i + 1)) with hx | rfl | hx
        · rw [Function.update_of_ne hx.ne]
          exact if_congr (by omega) rfl rfl
        · rw [Function.update_self, ite_self, if_pos ⟨by omega, le_refl _⟩]
        · rw [Function.update_of_ne hx.ne', if_neg (by omega), if_neg (by omega)]
      · refine Prod.ext rfl (funext fun x => ?_)
        exact (if_neg fun h => absurd h.1 (Nat.not_lt.mpr h.2)).symm

theorem startLoop_eq (hm : ∀ j, j < i → m (p + j) = s.getD j 0) : startLoop m p i = baseStart s i := by
  induction i with
  | zero => rfl
  | succ i ih =>
      rw [startLoop, baseStart, hm i (Nat.lt_succ_self i), ih fun j hj => hm j (Nat.lt_succ_of_lt hj)]

theorem cutEnd_before {x : Nat} (hx : x ≤ p + stripEnd s (s.length - 1)) : cutEnd m p s x = m x :=
  if_neg fun h => absurd hx (Nat.not_le.mpr h.1)

theorem basename_eq (hs : IsStr m p s) (hne : s ≠ []) (hf : s.length < fuel) (dot : Nat) :
    basename dot fuel m p = some (p + baseStart s (stripEnd s (s.length - 1)), cutEnd m p s) := by
  have hpos : 0 < s.length := List.length_pos_iff.mpr hne
  have hhead : m p ≠ 0 := by
    cases s with
    | nil => exact absurd rfl hne
    | cons c s =>
        rw [hs.head]
        exact hs.head_ne
  have hstrip := stripLoop_eq (i := s.length - 1) fun j hj => hs.bytes j (by omega)
  have hcut : (fun x => if p + stripEnd s (s.length - 1) < x ∧ x ≤ p + (s.length - 1) then 0 else m x) = cutEnd m p s := by
    funext x
    exact if_congr (by omega) rfl rfl
  have hlast := stripEnd_le s (s.length - 1)
  have hstart := @startLoop_eq (cutEnd m p s) p (stripEnd s (s.length - 1)) s fun j hj => by
    rw [cutEnd_before (by omega), hs.bytes j (by omega)]
  rw [basename, if_neg (not_or.mpr ⟨hs.addr, hhead⟩), strlen, strlenLoop_eq hs (Nat.zero_le _) (by omega),
    Option.map_some]
  simp only [hstrip, hcut, hstart]

/-- The bytes from the pointer that `basename` returns on. -/
theorem cutEnd_bytes (hm : ∀ i, i ≤ s.length → m (p + i) = s.getD i 0) (hne : s ≠ []) :
    ∀ k, k ≤ (Fs.basename s).length →
      cutEnd m p s (p + baseStart s (stripEnd s (s.length - 1)) + k) = (Fs.basename s).getD k 0 := by
  have hpos : 0 < s.length := List.length_pos_iff.mpr hne
  have hlast := stripEnd_le s (s.length - 1)
  have hstart := baseStart_le s (stripEnd s (s.length - 1))
  have hbefore : ∀ x, x ≤ p + stripEnd s (s.length - 1) → cutEnd m p s x = m x := fun _ => cutEnd_before
  have hcut : cutEnd m p s (p + stripEnd s (s.length - 1) + 1) = 0 := by
    rw [cutEnd]
    split
    · rfl
    · have hend : p + stripEnd s (s.length - 1) + 1 = p + s.length := by omega
      rw [hend, hm _ (le_refl _), List.getD_eq_default _ _ (le_refl _)]
  rw [Fs.basename, if_neg hne]
  dsimp only
  generalize stripEnd s (s.length - 1) = last at hlast hstart hbefore hcut ⊢
  generalize baseStart s last = start at hstart ⊢
  have hlen : ((s.take (last + 1)).drop start).length = last + 1 - start := by
    rw [List.length_drop, List.length_take]
    omega
  intro k hk
  rw [hlen] at hk
  rcases Nat.eq_or_lt_of_le hk with rfl | hlt
  · have hend : p + start + (last + 1 - start) = p + last + 1 := by omega
    rw [List.getD_eq_default _ _ hlen.le, hend, hcut]
  · rw [hbefore _ (by omega), Nat.add_assoc, hm _ (by omega), List.getD_eq_getElem _ _ (by omega),
      List.getD_eq_getElem _ _ (by omega), List.getElem_drop, List.getElem_take]

theorem zero_not_mem_basename (hz : 0 ∉ s) (hne : s ≠ []) : 0 ∉ Fs.basename s := by
  rw [Fs.basename, if_neg hne]
  exact fun h => hz (List.mem_of_mem_take (List.mem_of_mem_drop h))

theorem isStr_basename (hs : IsStr m p s) (hne : s ≠ []) :
    IsStr (cutEnd m p s) (p + baseStart s (stripEnd s (s.length - 1))) (Fs.basename s) := by
  have haddr := hs.addr
  exact ⟨by omega, cutEnd_bytes hs.bytes hne, zero_not_mem_basename hs.str hne⟩

theorem stripEnd_lt_iff (s : List Byte) (i : Nat) (hj : 0 < j) :
    stripEnd s i < j ↔ ∀ k, j ≤ k → k ≤ i → s.getD k 0 = slash := by
  induction i with
  | zero =>
      refine ⟨fun _ k hk hk' => ?_, fun _ => hj⟩
      omega
  | succ i ih =>
      rw [stripEnd]
      by_cases hslash : s.getD (i + 1) 0 = slash
      · rw [if_pos hslash, ih]
        refine ⟨fun h k hk hk' => ?_, fun h k hk hk' => h k hk (Nat.le_succ_of_le hk')⟩
        rcases Nat.eq_or_lt_of_le hk' with rfl | hlt
        · exact hslash
        · exact h k hk (Nat.le_of_lt_succ hlt)
      · rw [if_neg hslash]
        refine ⟨fun h k hk hk' => ?_, fun h => ?_⟩
        · omega
        · by_contra hle
          exact hslash (h _ (Nat.not_lt.mp hle) (le_refl _))

/-- The bytes that are cleared are the slashes at the end. -/
theorem trailing_iff (s : List Byte) (j : Nat) :
    Trailing s j ↔ stripEnd s (s.length - 1) < j ∧ j < s.length := by
  constructor
  · rintro ⟨hj, hlt, hall⟩
    refine ⟨(stripEnd_lt_iff s _ hj).mpr fun k hk hk' => hall k hk (by omega), hlt⟩
  · rintro ⟨hstrip, hlt⟩
    have hj : 0 < j := Nat.zero_lt_of_lt hstrip
    exact ⟨hj, hlt, fun k hk hk' => (stripEnd_lt_iff s _ hj).mp hstrip k hk (by omega)⟩

theorem basename_lastComponent (hne : s ≠ []) : Fs.basename s = lastComponent s := by
  rw [lastComponent]
  split
  · exact Fs.basename_slashes hne ‹_›
  · rename_i hno
    rcases List.eq_nil_or_concat' (comps s) with hnil | ⟨cs, c, hcs⟩
    · exfalso
      cases hseg : segments s with
      | none => exact hno (segments_eq_none hseg)
      | some cs => exact comps_ne_nil hseg hnil
    · rw [basename_comps hcs, hcs, List.getLast?_concat, Option.getD_some]

/-- `basename` of a string that is not empty points to its last component, and clears the
slashes at its end and nothing else. -/
theorem basename_points_to_last (hs : IsStr m p s) (hne : s ≠ []) (hf : s.length < fuel) (dot : Nat) :
    ∃ i m', basename dot fuel m p = some (p + i, m') ∧ i < s.length ∧ IsStr m' (p + i) (lastComponent s) ∧
      (∀ j, Trailing s j → m' (p + j) = 0) ∧ ∀ x, (∀ j, x = p + j → ¬ Trailing s j) → m' x = m x := by
  have hpos : 0 < s.length := List.length_pos_iff.mpr hne
  have hlast := stripEnd_le s (s.length - 1)
  have hstart := baseStart_le s (stripEnd s (s.length - 1))
  refine ⟨_, _, basename_eq hs hne hf dot, by omega, ?_, ?_, ?_⟩
  · rw [← basename_lastComponent hne]
    exact isStr_basename hs hne
  · intro j hj
    obtain ⟨hlo, hhi⟩ := (trailing_iff s j).mp hj
    exact if_pos ⟨by omega, by omega⟩
  · intro x hx
    refine if_neg fun ⟨hlo, hhi⟩ => ?_
    exact hx (x - p) (by omega) ((trailing_iff s _).mpr ⟨by omega, by omega⟩)

end Basename

def pathMem : Mem := storeBytes (fun _ => 0) 64 (ofChars ['/', 'a', '/', 'b', '/', '/'])

theorem basename_two_slashes : ∃ i m', basename 32 8 pathMem 64 = some (64 + i, m') ∧ i < 6 ∧
    IsStr m' (64 + i) (ofChars ['b']) ∧ (∀ j, Trailing (ofChars ['/', 'a', '/', 'b', '/', '/']) j → m' (64 + j) = 0) ∧
    ∀ x, (∀ j, x = 64 + j → ¬ Trailing (ofChars ['/', 'a', '/', 'b', '/', '/']) j) → m' x = pathMem x :=
  basename_points_to_last (s := ofChars ['/', 'a', '/', 'b', '/', '/']) ⟨by decide, by decide, by decide⟩ (by decide)
    (by decide) 32

end Flan.Fs.CStr
