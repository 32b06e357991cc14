import Mathlib.Data.Nat.Bitwise
import Mathlib.Logic.Function.Basic

/-! Byte-addressed memories with little-endian words of any width. A store
changes exactly the bytes it names, so two disjoint accesses never interfere. -/
namespace Flan.Lib

abbrev Byte := BitVec 8
abbrev Mem := Nat → Byte

/-- Subtraction of 64-bit words. -/
def sub64 (a b : Nat) : Nat := (a + 2 ^ 64 - b % 2 ^ 64) % 2 ^ 64

theorem sub64_of_le {a b : Nat} (h : b ≤ a) (ha : a < 2 ^ 64) : sub64 a b = a - b := by
  rw [sub64, Nat.mod_eq_of_lt (Nat.lt_of_le_of_lt h ha)]
  omega

/-- The little-endian value of the `n` bytes from `a`. -/
def readLE (m : Mem) (a : Nat) : Nat → Nat
  | 0 => 0
  | n+1 => (m a).toNat + 256 * readLE m (a+1) n

def writeLE (m : Mem) (a n v : Nat) : Mem :=
  fun x => if a ≤ x ∧ x < a + n then BitVec.ofNat 8 (v / 256 ^ (x - a)) else m x

theorem readLE_congr {m m' : Mem} {a n : Nat} (h : ∀ x, a ≤ x → x < a + n → m' x = m x) :
    readLE m' a n = readLE m a n := by
  induction n generalizing a with
  | zero => rfl
  | succ n ih =>
      have hhead := h a (le_refl a) (by omega)
      have htail := ih (a := a+1) (fun x hl hr => h x (by omega) (by omega))
      simp only [readLE, hhead, htail]

theorem readLE_zero (a n : Nat) : readLE (fun _ => 0) a n = 0 := by
  induction n generalizing a with
  | zero => rfl
  | succ n ih =>
      rw [readLE, ih]
      rfl

theorem readLE_lt (m : Mem) (a n : Nat) : readLE m a n < 256 ^ n := by
  induction n generalizing a with
  | zero => simp [readLE]
  | succ n ih =>
      have hb := (m a).isLt
      have ht := ih (a+1)
      simp only [readLE, pow_succ]
      omega

theorem writeLE_outside {m : Mem} {a n v x : Nat} (h : x < a ∨ a + n ≤ x) :
    writeLE m a n v x = m x := by
  rw [writeLE, if_neg (by omega)]

theorem readLE_writeLE_apart {m : Mem} {a n v b k : Nat} (h : b + k ≤ a ∨ a + n ≤ b) :
    readLE (writeLE m a n v) b k = readLE m b k :=
  readLE_congr (fun _ hl hr => writeLE_outside (by omega))

theorem readLE_writeLE_same (m : Mem) (a n v : Nat) :
    readLE (writeLE m a n v) a n = v % 256 ^ n := by
  induction n generalizing a v with
  | zero => simp [readLE, Nat.mod_one]
  | succ n ih =>
      -- The bytes above the first are those of a shorter store of `v / 256`.
      have hshift : readLE (writeLE m a (n+1) v) (a+1) n = readLE (writeLE m (a+1) n (v / 256)) (a+1) n := by
        apply readLE_congr
        intro x hl hr
        have hsub : x - a = (x - (a+1)) + 1 := by omega
        simp only [writeLE, if_pos (show a ≤ x ∧ x < a + (n+1) by omega),
          if_pos (show a+1 ≤ x ∧ x < a+1+n by omega), hsub, pow_succ, Nat.div_div_eq_div_mul,
          Nat.mul_comm]
      have hhead : (writeLE m a (n+1) v a).toNat = v % 256 := by
        simp [writeLE]
      simp only [readLE, hhead, hshift, ih]
      rw [pow_succ, Nat.mul_comm (256 ^ n) 256, Nat.mod_mul]

/-- Eight-byte words, the only width the kernel's pointers and sizes use. -/
def read64 (m : Mem) (a : Nat) : Nat := readLE m a 8

def write64 (m : Mem) (a v : Nat) : Mem := writeLE m a 8 v

theorem read64_lt (m : Mem) (a : Nat) : read64 m a < 2 ^ 64 := readLE_lt m a 8

theorem read64_congr {m m' : Mem} {a : Nat} (h : ∀ x, a ≤ x → x < a + 8 → m' x = m x) :
    read64 m' a = read64 m a := readLE_congr h

theorem write64_outside {m : Mem} {a v x : Nat} (h : x < a ∨ a + 8 ≤ x) :
    write64 m a v x = m x := writeLE_outside h

theorem read64_write64_same {m : Mem} {a v : Nat} (hv : v < 2 ^ 64) :
    read64 (write64 m a v) a = v :=
  (readLE_writeLE_same m a 8 v).trans (Nat.mod_eq_of_lt hv)

theorem read64_write64_apart {m : Mem} {a v b : Nat} (h : b + 8 ≤ a ∨ a + 8 ≤ b) :
    read64 (write64 m a v) b = read64 m b := readLE_writeLE_apart h

/-- The byte loop of `memset`. -/
def memset (m : Mem) (p : Nat) (v : Byte) : Nat → Mem
  | 0 => m
  | n+1 => Function.update (memset m p v n) (p+n) v

/-- The forward byte loop of `memcpy`; each byte is read from the memory the
earlier iterations left, so overlapping ranges behave as in the source. -/
def memcpy (m : Mem) (dest src : Nat) : Nat → Mem
  | 0 => m
  | n+1 => Function.update (memcpy m dest src n) (dest+n) (memcpy m dest src n (src+n))

/-- Stores the bytes of a list one after the other. -/
def storeBytes (m : Mem) (a : Nat) : List Byte → Mem
  | [] => m
  | b :: bs => storeBytes (Function.update m a b) (a+1) bs

theorem storeBytes_outside {m : Mem} {a x : Nat} {bs : List Byte} (h : x < a ∨ a + bs.length ≤ x) :
    storeBytes m a bs x = m x := by
  induction bs generalizing m a with
  | nil => rfl
  | cons b bs ih =>
      rw [List.length_cons] at h
      rw [storeBytes, ih (by omega), Function.update_of_ne (by omega)]

theorem storeBytes_apply (m : Mem) (a : Nat) (bs : List Byte) (x : Nat) :
    storeBytes m a bs x = (if a ≤ x then bs[x - a]? else none).getD (m x) := by
  induction bs generalizing m a with
  | nil => simp [storeBytes]
  | cons b bs ih =>
      rw [storeBytes, ih]
      rcases Nat.lt_trichotomy x a with h | rfl | h
      · rw [if_neg (by omega), if_neg (by omega), Function.update_of_ne (by omega)]
      · rw [if_neg (by omega), if_pos (le_refl x), Function.update_self]
        simp
      · have hsucc : x - a = (x - (a+1)) + 1 := by omega
        rw [if_pos (by omega), if_pos (by omega), Function.update_of_ne (by omega), hsucc,
          List.getElem?_cons_succ]

theorem memset_apply (m : Mem) (p : Nat) (v : Byte) (n x : Nat) :
    memset m p v n x = if p ≤ x ∧ x < p + n then v else m x := by
  induction n with
  | zero => simp only [memset]; rw [if_neg (by omega)]
  | succ n ih =>
      simp only [memset, Function.update_apply, ih]
      split_ifs <;> first | rfl | omega

theorem memset_outside {m : Mem} {p n x : Nat} {v : Byte} (h : x < p ∨ p + n ≤ x) :
    memset m p v n x = m x := by
  rw [memset_apply, if_neg (by omega)]

theorem memcpy_outside {m : Mem} {dest src n x : Nat} (h : x < dest ∨ dest + n ≤ x) :
    memcpy m dest src n x = m x := by
  induction n with
  | zero => rfl
  | succ n ih =>
      rw [memcpy, Function.update_of_ne (by omega), ih (by omega)]

/-- The copy is right for ranges that are apart, and copying downwards they may overlap. -/
theorem memcpy_inside {m : Mem} {dest src n x : Nat} (h : dest ≤ src ∨ src + n ≤ dest) (hl : dest ≤ x)
    (hr : x < dest + n) : memcpy m dest src n x = m (src + (x - dest)) := by
  induction n with
  | zero => omega
  | succ n ih =>
      rw [memcpy]
      rcases show x < dest + n ∨ x = dest + n by omega with hx | rfl
      · rw [Function.update_of_ne hx.ne, ih (by omega) hx]
      · rw [Function.update_self, memcpy_outside (by omega), Nat.add_sub_cancel_left]

/-- Copying upwards over the source itself repeats the bytes in front of the destination. -/
theorem memcpy_periodic {m : Mem} {src s n x : Nat} (hs : 0 < s) (hl : src ≤ x) (hr : x < src + s + n) :
    memcpy m (src + s) src n x = m (src + (x - src) % s) := by
  induction n generalizing x with
  | zero =>
      rw [memcpy, Nat.mod_eq_of_lt (by omega), Nat.add_sub_cancel' hl]
  | succ n ih =>
      rw [memcpy]
      rcases show x < src + s + n ∨ x = src + s + n by omega with hx | rfl
      · rw [Function.update_of_ne hx.ne, ih hl hx]
      · have hwrap : (src + s + n - src) % s = (src + n - src) % s := by
          rw [Nat.add_assoc, Nat.add_sub_cancel_left, Nat.add_sub_cancel_left, Nat.add_mod_left]
        rw [Function.update_self, hwrap]
        exact ih (Nat.le_add_right _ _) (by omega)

/-- A zeroed range reads as zero words. -/
theorem read64_memset_zero {m : Mem} {p n a : Nat} (hl : p ≤ a) (hr : a + 8 ≤ p + n) :
    read64 (memset m p 0 n) a = 0 := by
  have hz : read64 (memset m p 0 n) a = read64 (fun _ => 0) a :=
    read64_congr (fun x h1 h2 => by rw [memset_apply, if_pos (by omega)])
  rw [hz]
  exact readLE_zero a 8

theorem read64_memset_outside {m : Mem} {p n a : Nat} {v : Byte} (h : a + 8 ≤ p ∨ p + n ≤ a) :
    read64 (memset m p v n) a = read64 m a :=
  read64_congr (fun _ hl hr => memset_outside (by omega))

/-! ### Byte strings in memory -/

/-- The `n` bytes from an address on. -/
def bytesAt (m : Mem) (p n : Nat) : List Byte := (List.range n).map fun i => m (p + i)

/-- The string at an address, of at most `fuel` bytes. -/
def cString (m : Mem) : (fuel : Nat) → Nat → List Byte
  | 0, _ => []
  | fuel+1, p => if m p = 0 then [] else m p :: cString m fuel (p + 1)

section Strings
variable {m m' : Mem} {p n : Nat}

theorem bytesAt_congr (h : ∀ x, p ≤ x → x < p + n → m' x = m x) : bytesAt m' p n = bytesAt m p n :=
  List.map_congr_left fun _ hi =>
    h _ (Nat.le_add_right _ _) (Nat.add_lt_add_left (List.mem_range.mp hi) p)

theorem bytesAt_succ (m : Mem) (p n : Nat) : bytesAt m p (n + 1) = m p :: bytesAt m (p + 1) n := by
  rw [bytesAt, List.range_succ_eq_map, List.map_cons, List.map_map]
  refine congrArg (m p :: ·) (List.map_congr_left fun i _ => ?_)
  show m (p + (i + 1)) = m (p + 1 + i)
  rw [Nat.add_right_comm, Nat.add_assoc]

theorem bytesAt_add (m : Mem) (p n k : Nat) : bytesAt m p (n + k) = bytesAt m p n ++ bytesAt m (p + n) k := by
  rw [bytesAt, List.range_add, List.map_append, List.map_map]
  refine congrArg (bytesAt m p n ++ ·) (List.map_congr_left fun i _ => ?_)
  exact congrArg m (Nat.add_assoc p n i).symm

theorem bytesAt_take {n k : Nat} (m : Mem) (p : Nat) (h : k ≤ n) : (bytesAt m p n).take k = bytesAt m p k := by
  rw [bytesAt, ← List.map_take, List.take_range, min_eq_left h, bytesAt]

theorem bytesAt_getD {n i : Nat} (m : Mem) (p : Nat) (d : Byte) (h : i < n) : (bytesAt m p n).getD i d = m (p + i) := by
  rw [bytesAt, List.getD_eq_getElem?_getD, List.getElem?_map, List.getElem?_range h]
  rfl

theorem bytesAt_storeBytes (m : Mem) (a : Nat) (bs : List Byte) :
    bytesAt (storeBytes m a bs) a bs.length = bs := by
  apply List.ext_getElem?
  intro i
  by_cases h : i < bs.length
  · rw [bytesAt, List.getElem?_map, List.getElem?_range h, Option.map_some, storeBytes_apply,
      if_pos (Nat.le_add_right a i), Nat.add_sub_cancel_left, List.getElem?_eq_getElem h]
    rfl
  · rw [List.getElem?_eq_none (by simpa [bytesAt] using h), List.getElem?_eq_none (Nat.le_of_not_lt h)]

theorem cString_eq {fuel : Nat} {name : List Byte} (hname : bytesAt m p name.length = name)
    (hend : m (p + name.length) = 0) (hz : 0 ∉ name) (hf : name.length < fuel) :
    cString m fuel p = name := by
  obtain ⟨fuel, rfl⟩ := Nat.exists_eq_succ_of_ne_zero (Nat.ne_zero_of_lt hf)
  induction name generalizing p fuel with
  | nil => exact if_pos hend
  | cons c name ih =>
      rw [List.length_cons, bytesAt_succ] at hname
      rw [List.length_cons] at hend hf
      obtain ⟨hc, hrest⟩ := List.cons.inj hname
      have hcz : c ≠ 0 := fun h => hz (h ▸ List.mem_cons_self)
      obtain ⟨fuel, rfl⟩ := Nat.exists_eq_succ_of_ne_zero (Nat.ne_zero_of_lt (Nat.lt_of_succ_lt_succ hf))
      rw [cString, hc, if_neg hcz, ih hrest _ (fun h => hz (List.mem_cons_of_mem _ h)) fuel (by omega)]
      rw [← hend, Nat.add_right_comm, Nat.add_assoc]

end Strings
end Flan.Lib
