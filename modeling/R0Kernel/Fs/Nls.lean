import Mathlib

/-!
# UTF-8 output of 16-bit strings

The model of `utf8_wctomb` and `utf8_wcstombs`. The destination is the memory from the address `s`
on, which is not null: a byte that was stored at an offset, or nothing. An `int` is an integer, cut
to 32 bits where a difference of pointers becomes one.
-/

namespace R0Kernel

abbrev Byte := BitVec 8

abbrev Wchar := BitVec 16

/-- `uni2char` of the ASCII table. -/
def asciiBytes (w : Wchar) : List Byte := if w.toNat < 0x80 then [w.setWidth 8] else []

lemma length_asciiBytes (w : Wchar) : (asciiBytes w).length ≤ 6 := by
  unfold asciiBytes
  split <;> simp

namespace Nls

open List

/-- The bytes stored so far, by their offset. -/
abbrev Stored := Nat → Option Byte

structure Utf8Table where
  cmask : Nat
  cval : Nat
  shift : Nat
  lmask : Nat
  lval : Nat

def utf8Table : List Utf8Table :=
  [⟨0x80, 0x00, 0 * 6, 0x7F, 0⟩,
   ⟨0xE0, 0xC0, 1 * 6, 0x7FF, 0x80⟩,
   ⟨0xF0, 0xE0, 2 * 6, 0xFFFF, 0x800⟩,
   ⟨0xF8, 0xF0, 3 * 6, 0x1FFFFF, 0x10000⟩,
   ⟨0xFC, 0xF8, 4 * 6, 0x3FFFFFF, 0x200000⟩,
   ⟨0xFE, 0xFC, 5 * 6, 0x7FFFFFFF, 0x4000000⟩]

def put (mem : Stored) (s : Nat) (b : Nat) : Stored :=
  Function.update mem s (some (BitVec.ofNat 8 b))

/-- `while (c > 0)`, in rounds of 6 bits -/
def putTail (l : Nat) : Nat → Stored → Nat → Stored
  | 0, mem, _ => mem
  | k + 1, mem, s => putTail l k (put mem (s + 1) (0x80 ||| (l >>> (6 * k)) &&& 0x3F)) (s + 1)

def wctombLoop (mem : Stored) (s l : Nat) : List Utf8Table → Int → Int → Stored × Int
  | [], _, _ => (mem, -1)
  | t :: rest, maxlen, nc =>
    if t.cmask ≠ 0 ∧ maxlen ≠ 0 then
      if l ≤ t.lmask then
        (putTail l (t.shift / 6) (put mem s (t.cval ||| l >>> t.shift)) s, nc + 1)
      else wctombLoop mem s l rest (maxlen - 1) (nc + 1)
    else (mem, -1)

/-- `utf8_wctomb`: what is stored from `s` on, and the result -/
def utf8Wctomb (mem : Stored) (s : Nat) (wc : Wchar) (maxlen : Int) : Stored × Int :=
  wctombLoop mem s wc.toNat utf8Table maxlen 0

/-- The loop of `utf8_wcstombs`; the string is ended by a zero unit or by the end of the list. -/
def wcstombsLoop : List Wchar → Int → Stored → Nat → Stored × Nat
  | [], _, mem, op => (mem, op)
  | wc :: ip, maxlen, mem, op =>
    if wc ≠ 0 ∧ 0 < maxlen then
      if 0x7f < wc.toNat then
        let (mem', size) := utf8Wctomb mem op wc maxlen
        if size = -1 then wcstombsLoop ip (maxlen - 1) mem' op
        else wcstombsLoop ip (maxlen - size) mem' (op + size.toNat)
      else wcstombsLoop ip maxlen (put mem op wc.toNat) (op + 1)
    else (mem, op)

/-- `utf8_wcstombs`: what is stored and the result, the difference of two pointers as an `int` -/
def utf8Wcstombs (pwcs : List Wchar) (maxlen : Int) : Stored × Int :=
  let (mem, op) := wcstombsLoop pwcs maxlen (fun _ => none) 0
  (mem, (BitVec.ofNat 32 op).toInt)

/-! ### One character -/

/-- The bytes that a unit above `0x7f` takes. -/
def width (wc : Wchar) : Nat := if wc.toNat ≤ 0x7FF then 2 else 3

lemma width_bounds (wc : Wchar) : 1 < width wc ∧ width wc ≤ 3 := by
  unfold width
  split_ifs <;> decide

/-- What is stored is just what lies below `n`. -/
def FilledTo (mem : Stored) (n : Nat) : Prop := ∀ i, mem i ≠ none ↔ i < n

variable {mem : Stored} {s maxlen op : Nat} {wc : Wchar} (ip : List Wchar)

lemma FilledTo.put {n : Nat} (h : FilledTo mem n) (b : Nat) :
    FilledTo (put mem n b) (n + 1) := by
  intro i
  by_cases hi : i = n
  · simp [Nls.put, hi]
  · have hlt : i < n + 1 ↔ i < n := by omega
    simp [Nls.put, hi, hlt, h i]

lemma FilledTo.putTail (h : FilledTo mem (s + 1)) (l k : Nat) :
    FilledTo (putTail l k mem s) (s + (k + 1)) := by
  induction k generalizing mem s with
  | zero => exact h
  | succ k ih =>
    have hnext := ih (h.put (0x80 ||| (l >>> (6 * k)) &&& 0x3F))
    have hlen : s + 1 + (k + 1) = s + (k + 1 + 1) := by omega
    rw [hlen] at hnext
    exact hnext

/-- A unit above `0x7f` is stored whole if it fits the length, and else not at all. -/
lemma utf8Wctomb_spec (h : FilledTo mem s) (hwide : 0x7f < wc.toNat) (hpos : 0 < maxlen) :
    if width wc ≤ maxlen then
      ∃ mem', utf8Wctomb mem s wc maxlen = (mem', (width wc : Int)) ∧ FilledTo mem' (s + width wc)
    else utf8Wctomb mem s wc maxlen = (mem, -1) := by
  have hunit : wc.toNat ≤ 0xFFFF := Nat.le_of_lt_succ wc.isLt
  have hone : ¬ wc.toNat ≤ 0x7F := not_le.mpr hwide
  by_cases htwo : wc.toNat ≤ 0x7FF
  · by_cases hfit : 2 ≤ maxlen
    · have hleft : (maxlen : Int) - 1 ≠ 0 := by omega
      simp only [width, htwo, hfit, if_true]
      refine ⟨putTail wc.toNat 1 (put mem s (0xC0 ||| wc.toNat >>> 6)) s, ?_, (h.put _).putTail _ 1⟩
      simp [utf8Wctomb, utf8Table, wctombLoop, hone, htwo, hpos.ne', hleft]
    · have hleft : maxlen = 1 := by omega
      simp only [width, htwo, hfit, if_true, if_false]
      simp [utf8Wctomb, utf8Table, wctombLoop, hone, hleft]
  · by_cases hfit : 3 ≤ maxlen
    · have hleft : (maxlen : Int) - 1 ≠ 0 ∧ (maxlen : Int) - 1 - 1 ≠ 0 := by omega
      simp only [width, htwo, hfit, if_true, if_false]
      refine ⟨putTail wc.toNat 2 (put mem s (0xE0 ||| wc.toNat >>> 12)) s, ?_,
        (h.put _).putTail _ 2⟩
      simp [utf8Wctomb, utf8Table, wctombLoop, hone, htwo, hunit, hpos.ne', hleft]
    · simp only [width, htwo, hfit, if_false]
      obtain hleft | hleft : maxlen = 1 ∨ maxlen = 2 := by omega
      · simp [utf8Wctomb, utf8Table, wctombLoop, hone, hleft]
      · simp [utf8Wctomb, utf8Table, wctombLoop, hone, htwo, hleft]

/-! ### The whole string -/

/-- What `utf8_wcstombs` takes off `maxlen` for a unit: nothing for one up to `0x7f`. -/
def charge (maxlen : Nat) (wc : Wchar) : Nat :=
  if wc.toNat ≤ 0x7f then 0 else if width wc ≤ maxlen then width wc else 1

def stored (maxlen : Nat) (wc : Wchar) : Nat :=
  if wc.toNat ≤ 0x7f then 1 else if width wc ≤ maxlen then width wc else 0

def bytes : Nat → List Wchar → Nat
  | _, [] => 0
  | maxlen, wc :: ip =>
    if wc = 0 ∨ maxlen = 0 then 0
    else stored maxlen wc + bytes (maxlen - charge maxlen wc) ip

lemma wcstombsLoop_cons (h : FilledTo mem op) (hwc : wc ≠ 0) (hpos : 0 < maxlen) :
    ∃ mem', wcstombsLoop (wc :: ip) maxlen mem op =
        wcstombsLoop ip (maxlen - charge maxlen wc : Nat) mem' (op + stored maxlen wc) ∧
      FilledTo mem' (op + stored maxlen wc) := by
  rw [wcstombsLoop, if_pos ⟨hwc, Int.natCast_pos.mpr hpos⟩, charge, stored]
  by_cases hascii : wc.toNat ≤ 0x7f
  · -- the unit is stored, and `maxlen` stays as it is
    simp only [hascii, not_lt.mpr hascii, if_true, if_false]
    exact ⟨_, rfl, h.put wc.toNat⟩
  · have hwide := not_le.mp hascii
    have hspec := utf8Wctomb_spec h hwide hpos
    simp only [hascii, hwide, if_true, if_false]
    by_cases hfit : width wc ≤ maxlen
    · rw [if_pos hfit] at hspec
      obtain ⟨mem', hcall, hfilled⟩ := hspec
      have hsize : (width wc : Int) ≠ -1 := by omega
      simp only [hcall, hsize, hfit, if_true, if_false, Int.toNat_natCast, ← Nat.cast_sub hfit]
      exact ⟨mem', rfl, hfilled⟩
    · rw [if_neg hfit] at hspec
      have hleft : (maxlen : Int) - 1 = ((maxlen - 1 : Nat) : Int) := by omega
      simp only [hspec, hfit, if_true, if_false, hleft]
      exact ⟨mem, rfl, h⟩

lemma wcstombsLoop_spec (maxlen : Nat) (h : FilledTo mem op) :
    ∃ mem', wcstombsLoop ip maxlen mem op = (mem', op + bytes maxlen ip) ∧
      FilledTo mem' (op + bytes maxlen ip) := by
  induction ip generalizing maxlen mem op with
  | nil => exact ⟨mem, rfl, h⟩
  | cons wc ip ih =>
    by_cases hend : wc = 0 ∨ maxlen = 0
    · have hstop : ¬ (wc ≠ 0 ∧ (0 : Int) < maxlen) := fun hgo => hend.elim hgo.1 (by omega)
      rw [wcstombsLoop, bytes, if_neg hstop, if_pos hend]
      exact ⟨mem, rfl, h⟩
    · obtain ⟨hwc, hmax⟩ := not_or.mp hend
      obtain ⟨mem₁, hround, hfilled₁⟩ := wcstombsLoop_cons ip h hwc (Nat.pos_of_ne_zero hmax)
      obtain ⟨mem', hrun, hfilled⟩ := ih (maxlen - charge maxlen wc) hfilled₁
      rw [bytes, if_neg hend, ← add_assoc op]
      exact ⟨mem', hround.trans hrun, hfilled⟩

/-! ### Strings that fit -/

/-- The number of the units up to `0x7f`. -/
def ascii (text : List Wchar) : Nat := text.countP (·.toNat ≤ 0x7f)

/-- The bytes that the other units take. -/
def wide (text : List Wchar) : Nat :=
  (text.map fun wc => if wc.toNat ≤ 0x7f then 0 else width wc).sum

/-- What holds if the unit `n` of a text is the one with which the wide units reach `maxlen`. If it
fills the buffer, no unit up to `0x7f` comes before it. If it goes beyond, it is left out, and where
it leaves two bytes, the units up to `0x7f` right behind it are stored as well. -/
def Reached (a maxlen : Nat) (text : List Wchar) (n : Nat) : Prop :=
  wide (text.take n) < maxlen →
    (wide (text.take (n + 1)) = maxlen → a + ascii (text.take n) = 0) ∧
    (maxlen < wide (text.take (n + 1)) → a + ascii (text.take n) + wide (text.take n) +
      (if wide (text.take n) + 2 = maxlen then
        ((text.drop (n + 1)).takeWhile (·.toNat ≤ 0x7f)).length else 0) ≤ maxlen)

/-- What a text must be like to fit `maxlen` bytes behind `a` units up to `0x7f`, which are not
taken off `maxlen`. If the wide units alone do not reach `maxlen`, there must be room for all
units. -/
def Fits (a maxlen : Nat) (text : List Wchar) : Prop :=
  (wide text < maxlen → a + ascii text + wide text ≤ maxlen) ∧
    ∀ n < text.length, Reached a maxlen text n

instance decidableReached (a maxlen : Nat) (text : List Wchar) (n : Nat) :
    Decidable (Reached a maxlen text n) :=
  inferInstanceAs (Decidable (_ → _))

instance decidableFits (a maxlen : Nat) (text : List Wchar) : Decidable (Fits a maxlen text) :=
  inferInstanceAs (Decidable (_ ∧ _))

variable {a : Nat}

lemma ascii_cons : ascii (wc :: ip) = (if wc.toNat ≤ 0x7f then 1 else 0) + ascii ip := by
  simp [ascii, countP_cons, add_comm]

lemma wide_cons : wide (wc :: ip) = (if wc.toNat ≤ 0x7f then 0 else width wc) + wide ip :=
  sum_cons

lemma fits_cons : Fits a maxlen (wc :: ip) ↔
    (wide (wc :: ip) < maxlen → a + ascii (wc :: ip) + wide (wc :: ip) ≤ maxlen) ∧
      Reached a maxlen (wc :: ip) 0 ∧ ∀ n < ip.length, Reached a maxlen (wc :: ip) (n + 1) := by
  rw [Fits, length_cons, Nat.forall_lt_succ_left]

lemma fits_cons_ascii (hascii : wc.toNat ≤ 0x7f) :
    Fits a maxlen (wc :: ip) ↔ Fits (a + 1) maxlen ip := by
  rw [fits_cons, Fits]
  simp only [Reached, take_zero, take_succ_cons, drop_succ_cons,
    ascii_cons, wide_cons, if_pos hascii]
  refine and_congr (by omega) ((and_iff_right ?_).trans (forall₂_congr fun n _ => ?_))
  · simp [ascii, wide]
    omega
  · split_ifs <;> omega

lemma fits_cons_wide (hwide : 0x7f < wc.toNat) (hlt : width wc < maxlen) :
    Fits a maxlen (wc :: ip) ↔ Fits a (maxlen - width wc) ip := by
  rw [fits_cons, Fits]
  simp only [Reached, take_zero, take_succ_cons, drop_succ_cons,
    ascii_cons, wide_cons, if_neg hwide.not_ge]
  refine and_congr (by omega) ((and_iff_right ?_).trans (forall₂_congr fun n _ => ?_))
  · simp [ascii, wide]
    omega
  · split_ifs <;> omega

/-- A unit that reaches `maxlen` decides. -/
lemma fits_cons_last (hwide : 0x7f < wc.toNat) (hle : maxlen ≤ width wc) (hpos : 0 < maxlen) :
    Fits a maxlen (wc :: ip) ↔ (width wc = maxlen → a = 0) ∧ (maxlen < width wc → a +
      (if maxlen = 2 then (ip.takeWhile (·.toNat ≤ 0x7f)).length else 0) ≤ maxlen) := by
  rw [fits_cons]
  simp only [Reached, take_zero, take_succ_cons, drop_succ_cons,
    ascii_cons, wide_cons, if_neg hwide.not_ge]
  refine (and_iff_right (by omega)).trans ((and_iff_left (by omega)).trans ?_)
  simp [ascii, wide, hpos, eq_comm]

@[simp]
lemma bytes_zero : bytes 0 ip = 0 := by
  cases ip <;> simp [bytes]

lemma bytes_one (ip : List Wchar) :
    bytes 1 ip = ((ip.takeWhile (· ≠ 0)).takeWhile (·.toNat ≤ 0x7f)).length := by
  induction ip with
  | nil => rfl
  | cons wc ip ih =>
    by_cases hwc : wc = 0
    · simp [bytes, hwc]
    rw [bytes, if_neg (not_or.mpr ⟨hwc, Nat.one_ne_zero⟩),
      takeWhile_cons_of_pos (by simpa using hwc)]
    by_cases hascii : wc.toNat ≤ 0x7f
    · simp [stored, charge, hascii, ih, add_comm]
    · have hwidth : ¬ width wc ≤ 1 := not_le.mpr (width_bounds wc).1
      simp [stored, charge, hascii, hwidth]

lemma bytes_le_iff (hpos : 0 < maxlen) :
    a + bytes maxlen ip ≤ maxlen ↔ Fits a maxlen (ip.takeWhile (· ≠ 0)) := by
  induction ip generalizing a maxlen with
  | nil => simp [bytes, Fits, wide, ascii, hpos]
  | cons wc ip ih =>
    by_cases hwc : wc = 0
    · simp [bytes, Fits, wide, ascii, hpos, hwc]
    rw [bytes, if_neg (not_or.mpr ⟨hwc, hpos.ne'⟩), takeWhile_cons_of_pos (by simpa using hwc)]
    by_cases hascii : wc.toNat ≤ 0x7f
    · rw [fits_cons_ascii _ hascii, ← ih hpos, stored, charge, if_pos hascii, if_pos hascii,
        Nat.sub_zero]
      omega
    have hwide := not_le.mp hascii
    rw [stored, charge, if_neg hascii, if_neg hascii]
    by_cases hlt : width wc < maxlen
    · rw [fits_cons_wide _ hwide hlt, ← ih (Nat.sub_pos_of_lt hlt), if_pos hlt.le, if_pos hlt.le]
      omega
    · rw [fits_cons_last _ hwide (not_lt.mp hlt) hpos]
      by_cases hfit : width wc ≤ maxlen
      · obtain rfl : width wc = maxlen := by omega
        simp
      · have hthree := (width_bounds wc).2
        obtain rfl | rfl : maxlen = 1 ∨ maxlen = 2 := by omega
        all_goals simp [hfit, bytes_one]; omega

/-- `utf8_wcstombs` keeps to its buffer exactly if the text before the first zero unit fits. -/
theorem utf8_wcstombs_in_buffer (pwcs : List Wchar) {maxlen : Nat} (hint : maxlen < 2 ^ 31) :
    ((∀ i, (utf8Wcstombs pwcs maxlen).1 i ≠ none → i < maxlen) ∧
      ∃ n : Nat, (utf8Wcstombs pwcs maxlen).2 = n ∧ FilledTo (utf8Wcstombs pwcs maxlen).1 n) ↔
      Fits 0 maxlen (pwcs.takeWhile (· ≠ 0)) := by
  have hnone : FilledTo (fun _ => none) 0 := fun i => by simp
  obtain ⟨mem, hrun, hfilled⟩ := wcstombsLoop_spec pwcs maxlen hnone
  have hfits : bytes maxlen pwcs ≤ maxlen ↔ Fits 0 maxlen (pwcs.takeWhile (· ≠ 0)) := by
    obtain rfl | hpos := maxlen.eq_zero_or_pos
    · simp [Fits, Reached]
    · rw [← bytes_le_iff pwcs hpos, zero_add]
  rw [zero_add] at hrun hfilled
  rw [utf8Wcstombs, hrun, ← hfits]
  dsimp only
  generalize bytes maxlen pwcs = n at hfilled
  constructor
  · rintro ⟨hin, -⟩
    by_contra hlt
    exact lt_irrefl _ (hin maxlen ((hfilled maxlen).mpr (not_le.mp hlt)))
  · intro hle
    refine ⟨fun i hi => ((hfilled i).mp hi).trans_le hle, n, ?_, hfilled⟩
    rw [BitVec.toInt_eq_toNat_of_lt]
    · rw [BitVec.toNat_ofNat, Nat.mod_eq_of_lt (by omega)]
    · rw [BitVec.toNat_ofNat]
      omega

/-- A letter and the unit `0xe9` in three bytes. -/
theorem utf8_wcstombs_in_buffer_three :
    (∀ i, (utf8Wcstombs [0x61, 0xe9] 3).1 i ≠ none → i < 3) ∧
      ∃ n : Nat, (utf8Wcstombs [0x61, 0xe9] 3).2 = n ∧ FilledTo (utf8Wcstombs [0x61, 0xe9] 3).1 n :=
  (utf8_wcstombs_in_buffer [0x61, 0xe9] (by decide : 3 < 2 ^ 31)).mpr (by decide)

/-- Two letters are stored in a buffer of one byte. -/
theorem utf8_wcstombs_overruns :
    ((utf8Wcstombs [0x61, 0x62] 1).1 0, (utf8Wcstombs [0x61, 0x62] 1).1 1,
      (utf8Wcstombs [0x61, 0x62] 1).2) = (some 0x61, some 0x62, 2) := by
  decide

end Nls

end R0Kernel
