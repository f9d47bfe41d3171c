import R0Kernel.Fs.Fat.Dir

/-!
# The 8.3 alias of a long name

The model of `vfat_create_shortname`. `name_res` is the memory from its address on, so that a store
past its eleven bytes would be seen. The local `buf` is read back only up to its fourth byte; a
`sprintf` that stores more than its eight bytes is an outcome of its own, and nothing is said of
what follows.
-/

namespace R0Kernel.Vfat

open R0Kernel.Fat List Option BitVec

abbrev Mem := Nat → Byte

def storeList (mem : Mem) (dst : Nat) (bytes : List Byte) : Mem :=
  fun k => if dst ≤ k then (bytes[k - dst]?).getD (mem k) else mem k

def nameOf (mem : Mem) : List Byte := (List.range 11).map mem

/-! ### Characters -/

/-- The parts of a `struct nls_table` that are used. `uni2char` is empty where the table reports an
error; it never fills more than `NLS_MAX_CHARSET_SIZE` bytes. The tables take one zero byte or two
for a missing entry, so a zero in front is that of a pair. -/
structure Nls where
  uni2char : Wchar → List Byte
  charset2upper : Byte → Byte
  length_uni2char : ∀ w, (uni2char w).length ≤ 6
  length_of_zero : ∀ w, w ≠ 0 → (uni2char w).head? = some 0 → (uni2char w).length = 2

def Nls.toupper (nls : Nls) (c : Byte) : Byte :=
  let nc := nls.charset2upper c
  if nc ≠ 0 then nc else c

/-- The bytes with `_U` or `_L` in `_ctype`. -/
def isalpha (c : Byte) : Bool :=
  let n := c.toNat
  (65 ≤ n && n ≤ 90) || (97 ≤ n && n ≤ 122) || (192 ≤ n && n ≠ 215 && n ≠ 247)

def vfatReplaceChar (w : Wchar) : Bool :=
  w = 0x5B || w = 0x5D || w = 0x3B || w = 0x2C || w = 0x2B || w = 0x3D

def vfatSkipChar (w : Wchar) : Bool := w = 0x2E || w = 0x20

structure ShortnameInfo where
  lower : Bool
  upper : Bool
  valid : Bool

def ShortnameInfo.init : ShortnameInfo := ⟨true, true, true⟩

def toShortnameChar (nls : Nls) (src : Wchar) (info : ShortnameInfo) : List Byte × ShortnameInfo :=
  if vfatSkipChar src then ([], { info with valid := false })
  else if vfatReplaceChar src then ([0x5F], { info with valid := false })
  else
    match nls.uni2char src with
    | [] => ([0x5F], { info with valid := false })
    | [prev] =>
      let info := if 0x7F ≤ prev.toNat then { info with lower := false, upper := false } else info
      let c := nls.toupper prev
      let info :=
        if isalpha c then
          if c = prev then { info with lower := false } else { info with upper := false }
        else info
      ([c], info)
    | chars => (chars, { info with lower := false, upper := false })

/-! ### Base and extension -/

/-- The last dot among the first `n` units. -/
def lastDot (uname : List Wchar) : Nat → Option Nat
  | 0 => none
  | k + 1 => if uname[k]? = some 0x2E then some k else lastDot uname k

/-- `sz` and `ext_start`: a dot at the end starts no extension, nor does one with only dots and
blanks before it. -/
def splitExt (uname : List Wchar) : Nat × Option Nat :=
  match lastDot uname uname.length with
  | none => (uname.length, none)
  | some dot =>
    if dot + 1 = uname.length then (uname.length, none)
    else if (uname.take dot).all vfatSkipChar then (uname.length, none)
    else (dot, some (dot + 1))

structure BaseScan where
  base : List Byte
  numtailBaselen : Nat
  numtail2Baselen : Nat
  info : ShortnameInfo
  isShortname : Bool

/-- The loop that fills `base`. The two `numtail` lengths are where a tail can be cut in without
splitting a character. -/
def scanBase (nls : Nls) : List Wchar → BaseScan → BaseScan
  | [], st => st
  | w :: rest, st =>
    let (chars, info) := toShortnameChar nls w st.info
    let len := st.base.length
    let chl := chars.length
    if chl = 0 then scanBase nls rest { st with info := info }
    else
      let st : BaseScan :=
        { base := (st.base ++ chars).take 8
          numtailBaselen := if len < 6 ∧ 6 < len + chl then len else st.numtailBaselen
          numtail2Baselen := if len < 2 ∧ 2 < len + chl then len else st.numtail2Baselen
          info := info
          isShortname := st.isShortname }
      if 8 ≤ st.base.length then
        if 8 < len + chl ∨ rest ≠ [] then { st with isShortname := false } else st
      else scanBase nls rest st

structure ExtScan where
  ext : List Byte
  info : ShortnameInfo
  isShortname : Bool

def scanExt (nls : Nls) : List Wchar → ExtScan → ExtScan
  | [], st => st
  | w :: rest, st =>
    if ¬st.ext.length < 3 then st
    else
      let (chars, info) := toShortnameChar nls w st.info
      let chl := chars.length
      if chl = 0 then scanExt nls rest { st with info := info }
      else if 3 < st.ext.length + chl then { st with info := info, isShortname := false }
      else
        let st := { st with ext := st.ext ++ chars, info := info }
        if 3 ≤ st.ext.length then
          if rest ≠ [] then { st with isShortname := false } else st
        else scanExt nls rest st

/-! ### The alias -/

/-- The mount options that are read. `parse_options` always sets one of the two `VFAT_SFN_CREATE`
flags, so the `BUG()` for neither is not reached. -/
structure Options where
  createWin95 : Bool
  createWinnt : Bool
  numtail : Bool
  create : createWin95 || createWinnt

def EINVAL : Int := 22

def EEXIST : Int := 17

def CASE_LOWER_BASE : Byte := 8

def CASE_LOWER_EXT : Byte := 16

/-- What a run comes to: it goes on, it has stored more than it may into `buf`, or it has
returned. -/
inductive Outcome where
  | running
  | overrun (stored : Nat)
  | ret (code : Int) (nameRes : Mem) (lcase : Byte)

/-- `vfat_find_form`: whether a short entry has the name. -/
def vfatFindForm (dir : Dir) (name : List Byte) : Bool := (fatScan dir name).isSome

/-- The state once plain names have been ruled out. -/
structure Tails where
  nameRes : Mem
  baselen : Nat
  numtail2Baselen : Nat

/-- Both scans; the extension takes over `is_shortname` from the base. -/
def scanName (nls : Nls) (uname : List Wchar) : BaseScan × ExtScan :=
  let (sz, extStart) := splitExt uname
  let b := scanBase nls (uname.take sz) ⟨[], 6, 2, .init, true⟩
  match extStart with
  | some start => (b, scanExt nls (uname.drop start) ⟨[], .init, b.isShortname⟩)
  | none => (b, ⟨[], .init, b.isShortname⟩)

def plainName (nameRes : Mem) (b : BaseScan) (e : ExtScan) : Mem :=
  let base := if b.base.head? = some DELETED_FLAG then 0x05 :: b.base.tail else b.base
  storeList (storeList (storeList nameRes 0 (List.replicate 11 0x20)) 0 base) 8 e.ext

/-- The part of `vfat_create_shortname` up to the numeric tails, which may return already. -/
def beforeTails (nls : Nls) (opts : Options) (findForm : List Byte → Bool) (uname : List Wchar)
    (nameRes : Mem) (lcase : Byte) : Outcome ⊕ Tails :=
  let (b, e) := scanName nls uname
  if b.base = [] then .inl (.ret (-EINVAL) nameRes lcase)
  else
    let name := plainName nameRes b e
    if e.isShortname && b.info.valid && e.info.valid then
      if findForm (nameOf name) then .inl (.ret (-EEXIST) name 0)
      else if opts.createWin95 then .inl (.ret (if b.info.upper && e.info.upper then 1
        else 0) name 0)
      else if (b.info.upper || b.info.lower) && (e.info.upper || e.info.lower) then
        let lcaseBase := if !b.info.upper && b.info.lower then CASE_LOWER_BASE else 0
        let lcaseExt := if !e.info.upper && e.info.lower then CASE_LOWER_EXT else 0
        .inl (.ret 1 name (lcaseBase ||| lcaseExt))
      else .inl (.ret 0 name 0)
    else if !opts.numtail && !findForm (nameOf name) then .inl (.ret 0 name 0)
    else if 6 < b.base.length then
      .inr ⟨storeList name 7 [0x20], b.numtailBaselen, b.numtail2Baselen⟩
    else .inr ⟨name, b.base.length, b.numtail2Baselen⟩

def tailName (st : Tails) (d : Nat) : Mem :=
  storeList (storeList st.nameRes st.baselen [0x7E]) (st.baselen + 1) [BitVec.ofNat 8 (d + 0x30)]

/-- The loop over `~1` to `~9`: the first free name, if there is one. -/
def tryTails (findForm : List Byte → Bool) (st : Tails) : (rounds i : Nat) → Option Mem
  | 0, _ => none
  | rounds + 1, i =>
    if findForm (nameOf (tailName st i)) then tryTails findForm st rounds (i + 1)
    else some (tailName st i)

def hexDigit (d : Nat) : Byte := BitVec.ofNat 8 (if d < 10 then 0x30 + d else 0x41 + (d - 10))

def hexWidth (n : Nat) : Nat :=
  if n < 16 ^ 4 then 4 else if n < 16 ^ 5 then 5 else if n < 16 ^ 6 then 6
  else if n < 16 ^ 7 then 7 else 8

/-- The digits of the last `k` places, highest first. -/
def hexDigits (n : Nat) : Nat → List Byte
  | 0 => []
  | k + 1 => hexDigit (n / 16 ^ k % 16) :: hexDigits n k

/-- `sprintf(buf, "%04X", i)`: the bytes it stores, with the zero at the end. -/
def sprintf04X (i : BitVec 32) : List Byte := hexDigits i.toNat (hexWidth i.toNat) ++ [0]

/-- The state in front of the last loop. -/
structure Aliases where
  nameRes : Mem
  baselen : Nat

def hexName (st : Aliases) (i : BitVec 32) : Mem :=
  storeList st.nameRes st.baselen ((sprintf04X i).take 4)

/-- `while (1)` -/
def tryAliases (findForm : List Byte → Bool) : (fuel : Nat) → Aliases → BitVec 32 → Outcome
  | 0, _, _ => .running
  | fuel + 1, st, i =>
    if 8 < (sprintf04X i).length then .overrun (sprintf04X i).length
    else if findForm (nameOf (hexName st i)) then
      tryAliases findForm fuel { st with nameRes := hexName st i } (i - 11)
    else .ret 0 (hexName st i) 0

/-- The stores between the two kinds of tails; the name still ends in `~9`. -/
def toAliases (st : Tails) (jiffies : BitVec 32) : Aliases :=
  let sz := ((jiffies >>> 16) &&& 0x7).toNat
  let name := tailName st 9
  let baselen := if 2 < st.baselen then st.numtail2Baselen else st.baselen
  let name := if 2 < st.baselen then storeList name 7 [0x20] else name
  ⟨storeList (storeList name (baselen + 4) [0x7E]) (baselen + 5) [BitVec.ofNat 8 (0x31 + sz)],
    baselen⟩

/-- `i = jiffies & 0xffff` -/
def firstNumber (jiffies : BitVec 32) : BitVec 32 := jiffies &&& 0xffff

/-- `vfat_create_shortname`, with the directory as the test it makes. -/
def createShortname (findForm : List Byte → Bool) (nls : Nls) (opts : Options) (uname : List Wchar)
    (jiffies : BitVec 32) (nameRes : Mem) (lcase : Byte) (fuel : Nat) : Outcome :=
  match beforeTails nls opts findForm uname nameRes lcase with
  | .inl outcome => outcome
  | .inr st =>
    match tryTails findForm st 9 1 with
    | some name => .ret 0 name 0
    | none => tryAliases findForm fuel (toAliases st jiffies) (firstNumber jiffies)

def vfatCreateShortname (dir : Dir) (nls : Nls) (opts : Options) (uname : List Wchar)
    (jiffies : BitVec 32) (nameRes : Mem) (lcase : Byte) (fuel : Nat) : Outcome :=
  createShortname (vfatFindForm dir) nls opts uname jiffies nameRes lcase fuel

/-! ### Stores -/

variable {mem : Mem} {dst : Nat} {bytes : List Byte}
  {k : Nat} {uname : List Wchar} {nameRes : Mem} {b : BaseScan} {e : ExtScan} (nls : Nls)

lemma storeList_of_lt (h : k < dst) :
    storeList mem dst bytes k = mem k := by
  simp [storeList, not_le.mpr h]

lemma storeList_of_ge (h : dst + bytes.length ≤ k) :
    storeList mem dst bytes k = mem k := by
  have hnone : bytes[k - dst]? = none := getElem?_eq_none (by omega)
  simp [storeList, hnone]

/-- A store of the same length hides the one before. -/
lemma storeList_storeList (mem : Mem) (dst : Nat) {a b : List Byte} (h : a.length = b.length) :
    storeList (storeList mem dst a) dst b = storeList mem dst b := by
  ext1 k
  by_cases hlow : k < dst
  · simp only [storeList_of_lt hlow]
  · by_cases hhigh : dst + b.length ≤ k
    · rw [storeList_of_ge hhigh, storeList_of_ge (by omega), storeList_of_ge hhigh]
    · have hle : dst ≤ k := by omega
      have hin : k - dst < b.length := by omega
      simp [storeList, hle, hin]

/-- Nothing behind the name has changed. -/
def Keeps (before after : Mem) : Prop := ∀ k, 11 ≤ k → after k = before k

lemma Keeps.refl (mem : Mem) : Keeps mem mem := fun _ _ => rfl

lemma Keeps.store {before after : Mem} (h : Keeps before after) (hbound : dst + bytes.length ≤ 11) :
    Keeps before (storeList after dst bytes) := by
  intro k hk
  rw [storeList_of_ge (by omega), h k hk]

/-- A byte that does not mark an entry as free. -/
def Live (b : Byte) : Prop := b ≠ 0 ∧ b ≠ DELETED_FLAG

instance : DecidablePred Live := fun _ => inferInstanceAs (Decidable (_ ∧ _))

/-- What the stores of the tails keep: they stay inside the name and not below a place of it, and
store live bytes. -/
def Kept (low : Nat) (P : Mem → Prop) : Prop :=
  ∀ mem dst bytes, low ≤ dst → dst + bytes.length ≤ 11 → (∀ b ∈ bytes, Live b) → P mem →
    P (storeList mem dst bytes)

lemma kept_keeps (nameRes : Mem) : Kept 0 (Keeps nameRes) := fun _ _ _ _ hbound _ h =>
    h.store hbound

/-- The first byte of a name does not mark a deleted entry, and is zero in one case only. -/
def First (zero : Prop) (mem : Mem) : Prop := mem 0 ≠ DELETED_FLAG ∧ (mem 0 = 0 ↔ zero)

lemma kept_first {zero : Prop} {low : Nat} (hlow : zero → 1 ≤ low) : Kept low (First zero) := by
  intro mem dst bytes hdst _ hbytes h
  by_cases hpos : 0 < dst
  · rwa [First, storeList_of_lt hpos]
  have hnot : ¬zero := fun hzero => hpos ((hlow hzero).trans hdst)
  obtain rfl : dst = 0 := by omega
  cases hget : bytes[0]? with
  | none => simpa [First, storeList, hget] using h
  | some b =>
    have hlive := hbytes b (mem_of_getElem? hget)
    simpa [First, storeList, hget, hnot] using ⟨hlive.2, hlive.1⟩

lemma Kept.byte {P : Mem → Prop} {low : Nat} (hP : Kept low P) {b : Byte} (hlow : low ≤ dst)
    (hdst : dst < 11) (hb : Live b) (h : P mem) : P (storeList mem dst [b]) :=
  hP mem dst [b] hlow (by simpa using hdst) (by simpa using hb) h

/-! ### The scans -/

lemma toShortnameChar_spec {w : Wchar} (hw : w ≠ 0) (hskip : vfatSkipChar w = false)
    (info : ShortnameInfo) : ∃ b rest, (toShortnameChar nls w info).1 = b :: rest ∧
      (b = 0 ↔ vfatReplaceChar w = false ∧ (nls.uni2char w).head? = some 0) ∧
      (b = 0 → rest.length = 1) := by
  have htable := nls.length_of_zero w hw
  simp only [toShortnameChar, hskip, Bool.false_eq_true, if_false]
  cases vfatReplaceChar w with
  | true => exact ⟨0x5F, [], rfl, by simp, by simp⟩
  | false =>
    simp only [Bool.false_eq_true, if_false]
    cases hchars : nls.uni2char w with
    | nil => exact ⟨0x5F, [], rfl, by simp, by simp⟩
    | cons b rest =>
      rw [hchars] at htable
      cases rest with
      | nil =>
        have hne : b ≠ 0 := fun hb => by simp [hb] at htable
        have hupper : nls.toupper b ≠ 0 := by
          simp only [Nls.toupper]
          split <;> assumption
        exact ⟨nls.toupper b, [], rfl, iff_of_false hupper (by simpa using hne), (absurd · hupper)⟩
      | cons b' rest => exact ⟨b, b' :: rest, rfl, by simp, fun hb => by simpa [hb] using htable⟩

/-- What a scan of the base of a name can reach. -/
structure BaseScan.Bounded (st : BaseScan) : Prop where
  base : st.base.length ≤ 8
  numtail : st.numtailBaselen ≤ 6
  numtail2 : st.numtail2Baselen ≤ 2

lemma scanBase_bounded {units : List Wchar} {st : BaseScan} (h : st.Bounded) :
    (scanBase nls units st).Bounded := by
  induction units generalizing st with
  | nil => exact h
  | cons w rest ih =>
    simp only [scanBase]
    obtain ⟨chars, info⟩ := toShortnameChar nls w st.info
    split
    · exact ih ⟨h.base, h.numtail, h.numtail2⟩
    · have htail := h.numtail
      have htail2 := h.numtail2
      split
      · split <;> exact ⟨length_take_le _ _, by grind, by grind⟩
      · exact ih ⟨length_take_le _ _, by grind, by grind⟩

/-- The first unit that is not skipped is one whose code starts with a zero byte. -/
def LeadsZero (nls : Nls) (uname : List Wchar) : Prop :=
  ∃ w, uname.find? (fun w => !vfatSkipChar w) = some w ∧ vfatReplaceChar w = false ∧
    (nls.uni2char w).head? = some 0

/-- What is known of the first byte of the base, and that no tail goes over it if it is zero. -/
structure BaseScan.Starts (zero : Prop) (st : BaseScan) : Prop where
  first : ∀ b, st.base.head? = some b → (b = 0 ↔ zero)
  apart : zero → 1 ≤ st.numtailBaselen ∧ 1 ≤ st.numtail2Baselen

lemma BaseScan.Starts.append {zero : Prop} {st : BaseScan} (h : st.Starts zero) {b : Byte}
    {chars : List Byte} (hb : st.base = [] → (b = 0 ↔ zero) ∧ (b = 0 → chars.length = 1))
    (info : ShortnameInfo) (short : Bool) :
    Starts zero ⟨(st.base ++ b :: chars).take 8,
      if st.base.length < 6 ∧ 6 < st.base.length + (chars.length + 1) then st.base.length
        else st.numtailBaselen,
      if st.base.length < 2 ∧ 2 < st.base.length + (chars.length + 1) then st.base.length
        else st.numtail2Baselen, info, short⟩ := by
  cases hbase : st.base with
  | nil =>
    obtain ⟨hzero, hlen⟩ := hb hbase
    exact ⟨by simpa using hzero, fun hz => by simpa [hlen (hzero.mpr hz)] using h.apart hz⟩
  | cons first rest =>
    refine ⟨fun x hx => h.first x (by simpa [hbase] using hx), fun hz => ?_⟩
    have := h.apart hz
    constructor <;> dsimp only [length_cons] <;> split_ifs <;> omega

/-- The first unit that is stored decides; the units before it are skipped, and those behind it
leave the first byte alone. -/
lemma scanBase_starts {zero : Prop} {units : List Wchar} {st : BaseScan} (h : st.Starts zero)
    (hunits : st.base = [] → 0 ∉ units ∧ (LeadsZero nls units ↔ zero)) :
    (scanBase nls units st).Starts zero := by
  induction units generalizing st with
  | nil => exact h
  | cons w rest ih =>
    cases hchars : toShortnameChar nls w st.info with | mk chars info =>
    have hunit : st.base = [] → vfatSkipChar w = false → ∃ b bytes, chars = b :: bytes ∧
        (b = 0 ↔ zero) ∧ (b = 0 → bytes.length = 1) := by
      intro hempty hskip
      obtain ⟨hmem, hzero⟩ := hunits hempty
      obtain ⟨b, bytes, heq, hb, hlen⟩ := toShortnameChar_spec nls (by grind) hskip st.info
      refine ⟨b, bytes, by rw [← heq, hchars], ?_, hlen⟩
      rw [hb, ← hzero]
      simp [LeadsZero, hskip]
    simp only [scanBase, hchars]
    cases chars with
    | nil =>
      refine ih ⟨h.first, h.apart⟩ fun hempty => ?_
      cases hskip : vfatSkipChar w with
      | true =>
        obtain ⟨hmem, hzero⟩ := hunits hempty
        exact ⟨by grind, by simpa [LeadsZero, hskip] using hzero⟩
      | false => simpa using hunit hempty hskip
    | cons b bytes =>
      have hb : st.base = [] → (b = 0 ↔ zero) ∧ (b = 0 → bytes.length = 1) := by
        intro hempty
        cases hskip : vfatSkipChar w with
        | true => simp [toShortnameChar, hskip] at hchars
        | false =>
          obtain ⟨b', bytes', heq, hspec⟩ := hunit hempty hskip
          obtain ⟨rfl, rfl⟩ := cons.inj heq
          exact hspec
      have hstep := h.append hb info
      simp only [length_cons, Nat.add_eq_zero_iff, one_ne_zero, and_false, if_false]
      split
      · split
        · exact hstep false
        · exact hstep st.isShortname
      · exact ih (hstep st.isShortname) (by simp)

lemma scanExt_length (units : List Wchar) {st : ExtScan} (h : st.ext.length ≤ 3) :
    (scanExt nls units st).ext.length ≤ 3 := by
  induction units generalizing st with
  | nil => exact h
  | cons w rest ih =>
    simp only [scanExt]
    obtain ⟨chars, info⟩ := toShortnameChar nls w st.info
    split
    · exact h
    · split
      · exact ih h
      · split
        · exact h
        · next hfits =>
          dsimp only at hfits
          have hnext : (st.ext ++ chars).length ≤ 3 := by
            rw [length_append]
            omega
          split
          · split <;> exact hnext
          · exact ih hnext

lemma scanName_bounded (uname : List Wchar) :
    (scanName nls uname).1.Bounded ∧ (scanName nls uname).2.ext.length ≤ 3 := by
  simp only [scanName]
  obtain ⟨sz, extStart⟩ := splitExt uname
  have hbase : (scanBase nls (uname.take sz) ⟨[], 6, 2, .init, true⟩).Bounded :=
    scanBase_bounded nls ⟨by simp, by simp, by simp⟩
  cases extStart with
  | none => exact ⟨hbase, by simp⟩
  | some start => exact ⟨hbase, scanExt_length nls _ (by simp)⟩

lemma splitExt_find? (uname : List Wchar) :
    (uname.take (splitExt uname).1).find? (fun w => !vfatSkipChar w) =
      uname.find? fun w => !vfatSkipChar w := by
  unfold splitExt
  split
  · rw [take_length]
  next dot _ =>
  split_ifs with hend hall
  · rw [take_length]
  · rw [take_length]
  · obtain ⟨w, hw, hskip⟩ : ∃ w ∈ uname.take dot, vfatSkipChar w = false := by simpa using hall
    obtain ⟨first, hfirst⟩ := isSome_iff_exists.mp
      (find?_isSome.mpr ⟨w, hw, by simp [hskip]⟩ :
        ((uname.take dot).find? fun w => !vfatSkipChar w).isSome)
    conv_rhs => rw [← take_append_drop dot uname, find?_append, hfirst]
    exact hfirst

lemma scanName_starts (huname : 0 ∉ uname) :
    (scanName nls uname).1.Starts (LeadsZero nls uname) := by
  have hbase : (scanBase nls (uname.take (splitExt uname).1) ⟨[], 6, 2, .init, true⟩).Starts
      (LeadsZero nls uname) :=
    scanBase_starts nls ⟨by simp, by simp⟩ fun _ =>
      ⟨fun h => huname (mem_of_mem_take h), by rw [LeadsZero, LeadsZero, splitExt_find?]⟩
  simp only [scanName]
  split <;> exact hbase

lemma plainName_keeps (hb : b.Bounded) (he : e.ext.length ≤ 3) :
    Keeps nameRes (plainName nameRes b e) := by
  have hlen := hb.base
  have hbase :
      (if b.base.head? = some DELETED_FLAG then 0x05 :: b.base.tail else b.base).length ≤ 8 := by
    grind
  exact (((Keeps.refl nameRes).store (by simp)).store (by omega)).store (by omega)

lemma plainName_first {zero : Prop} (hb : b.Starts zero) (hne : b.base ≠ []) :
    First zero (plainName nameRes b e) := by
  obtain ⟨first, rest, hcons⟩ := exists_cons_of_ne_nil hne
  have hfirst := hb.first first (by simp [hcons])
  by_cases hdel : first = DELETED_FLAG
  · simpa [First, plainName, storeList, hcons, hdel, DELETED_FLAG] using hfirst
  · simpa [First, plainName, storeList, hcons, hdel] using hfirst

/-! ### What is kept -/

section Inv

variable {findForm : List Byte → Bool} {P : Mem → Prop} {nls : Nls} {opts : Options}
  {uname : List Wchar} {jiffies : BitVec 32} {nameRes res : Mem} {lcase lc : Byte} {fuel : Nat}
  {code : Int} {st : Aliases} {low : Nat} (n : Nat) (i : BitVec 32)

/-- What the first part of the function comes to: it returns, with a free name if it succeeds, or it
goes on with lengths that leave room for the tails. -/
def PrologueOk (findForm : List Byte → Bool) (low : Nat) (P : Mem → Prop) : Outcome ⊕ Tails → Prop
  | .inl outcome => ∃ code res lc, outcome = .ret code res lc ∧
      (0 ≤ code → findForm (nameOf res) = false ∧ P res)
  | .inr st => (low ≤ st.baselen ∧ st.baselen ≤ 6) ∧
      (low ≤ st.numtail2Baselen ∧ st.numtail2Baselen ≤ 2) ∧ P st.nameRes

/-- What is asked of a name without a tail, and of the places for one. -/
def PlainOk (low : Nat) (P : Mem → Prop) (nameRes : Mem) (b : BaseScan) (e : ExtScan) : Prop :=
  b.base ≠ [] → P (plainName nameRes b e) ∧ low ≤ b.base.length ∧ low ≤ b.numtailBaselen ∧
    low ≤ b.numtail2Baselen

lemma beforeTails_ok (hP : Kept low P)
    (hplain : PlainOk low P nameRes (scanName nls uname).1 (scanName nls uname).2) :
    PrologueOk findForm low P (beforeTails nls opts findForm uname nameRes lcase) := by
  obtain ⟨hb, -⟩ := scanName_bounded nls uname
  simp only [beforeTails]
  generalize scanName nls uname = scan at hb hplain ⊢
  obtain ⟨b, e⟩ := scan
  dsimp only at hb hplain ⊢
  by_cases hne : b.base = []
  · rw [if_pos hne]
    exact ⟨_, _, _, rfl, by simp [EINVAL]⟩
  rw [if_neg hne]
  obtain ⟨hname, hlow, hlow1, hlow2⟩ := hplain hne
  by_cases hshort : (e.isShortname && b.info.valid && e.info.valid) = true
  · rw [if_pos hshort]
    cases hfree : findForm (nameOf (plainName nameRes b e)) with
    | true => exact ⟨_, _, _, rfl, by simp [EEXIST]⟩
    | false =>
      split_ifs <;> exact ⟨_, _, _, rfl, fun _ => ⟨hfree, hname⟩⟩
  · split_ifs with hfree hlong
    · simp only [Bool.and_eq_true, Bool.not_eq_true'] at hfree
      exact ⟨_, _, _, rfl, fun _ => ⟨hfree.2, hname⟩⟩
    · exact ⟨⟨hlow1, hb.numtail⟩, ⟨hlow2, hb.numtail2⟩,
        hP.byte (hlow1.trans (hb.numtail.trans (by decide))) (by decide) (by decide) hname⟩
    · exact ⟨⟨hlow, not_lt.mp hlong⟩, ⟨hlow2, hb.numtail2⟩, hname⟩

lemma tailName_kept (hP : Kept low P) {st : Tails} (hlen : low ≤ st.baselen ∧ st.baselen ≤ 6)
    (h : P st.nameRes) {d : Nat} (hd : d < 10) : P (tailName st d) := by
  have hdigit : ∀ d < 10, Live (BitVec.ofNat 8 (d + 0x30)) := by decide
  exact hP.byte (by omega) (by omega) (hdigit d hd) (hP.byte hlen.1 (by omega) (by decide) h)

lemma tryTails_spec (findForm : List Byte → Bool) (st : Tails) (rounds i : Nat) :
    (∀ name ∈ tryTails findForm st rounds i, findForm (nameOf name) = false ∧
        ∃ d, i ≤ d ∧ d < i + rounds ∧ name = tailName st d) ∧
      (tryTails findForm st rounds i = none →
        ∀ d, i ≤ d → d < i + rounds → findForm (nameOf (tailName st d)) = true) := by
  induction rounds generalizing i with
  | zero => exact ⟨by simp [tryTails], fun _ d hlow hhigh => by omega⟩
  | succ rounds ih =>
    obtain ⟨hsome, hnone⟩ := ih (i + 1)
    simp only [tryTails]
    split
    · next htaken =>
      refine ⟨fun name hname => ?_, fun h d hlow hhigh => ?_⟩
      · obtain ⟨hfree, d, hlow, hhigh, hd⟩ := hsome name hname
        exact ⟨hfree, d, by omega, by omega, hd⟩
      · by_cases hd : d = i
        · rw [hd, htaken]
        · exact hnone h d (by omega) (by omega)
    · next hfree =>
      refine ⟨fun name hname => ?_, nofun⟩
      obtain rfl := some.inj hname
      exact ⟨Bool.eq_false_iff.mpr hfree, i, le_rfl, by omega, rfl⟩

lemma toAliases_kept (hP : Kept low P) {st : Tails} (jiffies : BitVec 32)
    (hlen : low ≤ st.baselen ∧ st.baselen ≤ 6)
    (hlen2 : low ≤ st.numtail2Baselen ∧ st.numtail2Baselen ≤ 2) (h : P st.nameRes) :
    (low ≤ (toAliases st jiffies).baselen ∧ (toAliases st jiffies).baselen ≤ 2) ∧
      P (toAliases st jiffies).nameRes := by
  have hsz : ∀ sz : Nat, sz < 8 → Live (BitVec.ofNat 8 (0x31 + sz)) := by decide
  have hlt : ((jiffies >>> 16) &&& 0x7).toNat < 8 := by
    exact lt_of_le_of_lt Nat.and_le_right (by decide)
  have htail := tailName_kept hP hlen h (show 9 < 10 by decide)
  have hend {name : Mem} {k : Nat} (hk : low ≤ k ∧ k ≤ 2) (hname : P name) :
      P (storeList (storeList name (k + 4) [0x7E]) (k + 5)
        [BitVec.ofNat 8 (0x31 + ((jiffies >>> 16) &&& 0x7).toNat)]) :=
    hP.byte (by omega) (by omega) (hsz _ hlt) (hP.byte (by omega) (by omega) (by decide) hname)
  simp only [toAliases]
  split_ifs with hlong
  · exact ⟨hlen2, hend hlen2 (hP.byte (by omega) (by decide) (by decide) htail)⟩
  · have hshort : low ≤ st.baselen ∧ st.baselen ≤ 2 := ⟨hlen.1, not_lt.mp hlong⟩
    exact ⟨hshort, hend hshort htail⟩

@[simp]
lemma length_hexDigits (k : Nat) : (hexDigits n k).length = k := by
  induction k with
  | zero => rfl
  | succ k ih => simp [hexDigits, ih]

lemma length_sprintf04X : (sprintf04X i).length = hexWidth i.toNat + 1 := by
  simp [sprintf04X]

lemma four_le_hexWidth : 4 ≤ hexWidth n := by
  simp only [hexWidth]
  split_ifs <;> omega

lemma length_take_sprintf04X : ((sprintf04X i).take 4).length = 4 := by
  have := four_le_hexWidth i.toNat
  rw [length_take, length_sprintf04X]
  omega

/-- Each round overwrites the number of the round before. -/
lemma hexName_hexName (st : Aliases) (i j : BitVec 32) :
    hexName { st with nameRes := hexName st i } j = hexName st j := by
  exact storeList_storeList _ _ (by simp only [length_take_sprintf04X])

lemma hexDigits_live (k : Nat) : ∀ b ∈ hexDigits n k, Live b := by
  have hdigit : ∀ d < 16, Live (hexDigit d) := by decide
  induction k with
  | zero => simp [hexDigits]
  | succ k ih =>
    intro b hb
    rcases mem_cons.mp hb with rfl | hb
    · exact hdigit _ (Nat.mod_lt _ (by decide))
    · exact ih b hb

lemma hexName_kept (hP : Kept low P) (hlen : low ≤ st.baselen ∧ st.baselen ≤ 2) (h : P st.nameRes)
    (i : BitVec 32) : P (hexName st i) := by
  refine hP _ _ _ hlen.1 (by rw [length_take_sprintf04X]; omega) (fun b hb => ?_) h
  have hwidth := four_le_hexWidth i.toNat
  rw [sprintf04X, take_append_of_le_length (by simpa using hwidth)] at hb
  exact hexDigits_live _ _ b (mem_of_mem_take hb)

lemma tryAliases_fresh (hP : Kept low P) (hlen : low ≤ st.baselen ∧ st.baselen ≤ 2)
    (hst : P st.nameRes) {i : BitVec 32} (h : tryAliases findForm fuel st i = .ret code res lc) :
    findForm (nameOf res) = false ∧ P res := by
  induction fuel generalizing st i with
  | zero => simp [tryAliases] at h
  | succ fuel ih =>
    have hname := hexName_kept hP hlen hst i
    simp only [tryAliases] at h
    split_ifs at h with hover htaken
    · exact ih (by exact hlen) (by exact hname) h
    · obtain ⟨-, rfl, -⟩ := Outcome.ret.inj h
      exact ⟨Bool.eq_false_iff.mpr htaken, hname⟩

lemma createShortname_fresh (hP : Kept low P)
    (hplain : PlainOk low P nameRes (scanName nls uname).1 (scanName nls uname).2)
    (h : createShortname findForm nls opts uname jiffies nameRes lcase fuel = .ret code res lc)
    (hcode : 0 ≤ code) : findForm (nameOf res) = false ∧ P res := by
  have hok : PrologueOk findForm low P (beforeTails nls opts findForm uname nameRes lcase) :=
    beforeTails_ok hP hplain
  simp only [createShortname] at h
  cases hst : beforeTails nls opts findForm uname nameRes lcase with
  | inl outcome =>
    rw [hst] at hok h
    obtain ⟨code', res', lc', rfl, hfresh⟩ := hok
    obtain ⟨rfl, rfl, rfl⟩ := Outcome.ret.inj h
    exact hfresh hcode
  | inr st =>
    rw [hst] at hok h
    obtain ⟨hlen, hlen2, hname⟩ := hok
    dsimp only at h
    cases htry : tryTails findForm st 9 1 with
    | some name =>
      rw [htry] at h
      obtain ⟨-, rfl, -⟩ := Outcome.ret.inj h
      obtain ⟨hfree, d, -, hd, rfl⟩ := (tryTails_spec findForm st 9 1).1 _ htry
      exact ⟨hfree, tailName_kept hP hlen hname hd⟩
    | none =>
      rw [htry] at h
      obtain ⟨hlenA, hnameA⟩ := toAliases_kept hP jiffies hlen hlen2 hname
      exact tryAliases_fresh hP hlenA hnameA h

/-- The first byte of an alias marks no deleted entry, and is zero for just the names that lead with
a zero byte. -/
lemma vfatCreateShortname_first {dir : Dir} (hunits : 0 ∉ uname)
    (h : vfatCreateShortname dir nls opts uname jiffies nameRes lcase fuel = .ret code res lc)
    (hcode : 0 ≤ code) : First (LeadsZero nls uname) res := by
  have hstarts := scanName_starts nls hunits
  by_cases hzero : LeadsZero nls uname
  · refine (createShortname_fresh (kept_first fun _ => le_rfl) (fun hne => ?_) h hcode).2
    exact ⟨plainName_first hstarts hne, length_pos_iff.mpr hne, hstarts.apart hzero⟩
  · have hkept : Kept 0 (First (LeadsZero nls uname)) := kept_first (absurd · hzero)
    refine (createShortname_fresh hkept (fun hne => ?_) h hcode).2
    exact ⟨plainName_first hstarts hne, by simp⟩

end Inv

/-! ### The last loop -/

section Loop

variable {findForm : List Byte → Bool} {n : Nat}

/-- One round with a number that has four digits. -/
lemma tryAliases_succ (findForm : List Byte → Bool) (fuel : Nat) (st : Aliases)
    (hn : n < 16 ^ 4) :
    tryAliases findForm (fuel + 1) st (BitVec.ofNat 32 n) =
      if findForm (nameOf (hexName st (BitVec.ofNat 32 n))) then
        tryAliases findForm fuel { st with nameRes := hexName st (BitVec.ofNat 32 n) }
          (BitVec.ofNat 32 n - 11)
      else .ret 0 (hexName st (BitVec.ofNat 32 n)) 0 := by
  have hsmall : (BitVec.ofNat 32 n).toNat = n := by
    rw [toNat_ofNat]
    omega
  have hlen : ¬8 < (sprintf04X (BitVec.ofNat 32 n)).length := by
    rw [length_sprintf04X, hsmall, hexWidth, if_pos hn]
    decide
  rw [tryAliases, if_neg hlen]

/-- A round with a negative number stores nine bytes. -/
lemma tryAliases_negative (fuel : Nat) (st : Aliases) (hn : n < 11) :
    tryAliases findForm (fuel + 1) st (BitVec.ofNat 32 n - 11) = .overrun 9 := by
  have hlarge : 16 ^ 7 ≤ (BitVec.ofNat 32 n - 11).toNat := by
    have heleven : (11 : BitVec 32).toNat = 11 := rfl
    rw [toNat_sub, toNat_ofNat]
    omega
  have hlen : (sprintf04X (BitVec.ofNat 32 n - 11)).length = 9 := by
    rw [length_sprintf04X, hexWidth]
    split_ifs <;> omega
  rw [tryAliases, hlen, if_pos (by decide)]

lemma ofNat_sub_eleven (hn : 11 ≤ n) :
    BitVec.ofNat 32 n - 11 = BitVec.ofNat 32 (n - 11) := by
  apply eq_of_toNat_eq
  have heleven : (11 : BitVec 32).toNat = 11 := rfl
  rw [toNat_sub, toNat_ofNat, toNat_ofNat]
  omega

/-- The names the last loop can form before its number turns negative. -/
def HexFree (findForm : List Byte → Bool) (st : Aliases) (n : Nat) : Prop :=
  ∃ k, 11 * k ≤ n ∧ findForm (nameOf (hexName st (BitVec.ofNat 32 (n - 11 * k)))) = false

lemma hexFree_iff (st : Aliases) (n : Nat) :
    HexFree findForm st n ↔ findForm (nameOf (hexName st (BitVec.ofNat 32 n))) = false ∨
      11 ≤ n ∧ HexFree findForm { st with nameRes := hexName st (BitVec.ofNat 32 n) } (n - 11) := by
  have hnum (k : Nat) : n - 11 - 11 * k = n - 11 * (k + 1) := by omega
  simp only [HexFree, hexName_hexName, hnum]
  constructor
  · rintro ⟨_ | k, hk, hfree⟩
    · exact .inl hfree
    · exact .inr ⟨by omega, k, by omega, hfree⟩
  · rintro (hfree | ⟨hn, k, hk, hfree⟩)
    · exact ⟨0, by omega, hfree⟩
    · exact ⟨k + 1, by omega, hfree⟩

/-- With a free name the loop returns, and stays inside `buf`; without one it stores nine bytes. -/
lemma tryAliases_run (findForm : List Byte → Bool) (st : Aliases) (hn : n < 16 ^ 4) :
    (HexFree findForm st n →
        (∃ fuel res, tryAliases findForm fuel st (BitVec.ofNat 32 n) = .ret 0 res 0) ∧
          ∀ fuel stored, tryAliases findForm fuel st (BitVec.ofNat 32 n) ≠ .overrun stored) ∧
      (¬HexFree findForm st n →
        ∃ fuel, tryAliases findForm fuel st (BitVec.ofNat 32 n) = .overrun 9) := by
  induction n using Nat.strong_induction_on generalizing st with
  | _ n ih =>
    rw [hexFree_iff]
    have hround fuel := tryAliases_succ findForm fuel st hn
    cases htaken : findForm (nameOf (hexName st (BitVec.ofNat 32 n))) with
    | false =>
      simp only [htaken, Bool.false_eq_true, if_false] at hround
      refine ⟨fun _ => ⟨⟨1, _, hround 0⟩, fun fuel stored => ?_⟩, by simp⟩
      cases fuel with
      | zero => simp [tryAliases]
      | succ fuel => simp [hround]
    | true =>
      simp only [htaken, if_true] at hround
      by_cases hle : 11 ≤ n
      · obtain ⟨hfree, hnone⟩ := ih (n - 11) (by omega)
          { st with nameRes := hexName st (BitVec.ofNat 32 n) } (by omega)
        rw [ofNat_sub_eleven hle] at hround
        simp only [Bool.true_eq_false, false_or, hle, true_and]
        refine ⟨fun h => ?_, fun h => ?_⟩
        · obtain ⟨⟨fuel, res, hret⟩, hbuf⟩ := hfree h
          refine ⟨⟨fuel + 1, res, (hround fuel).trans hret⟩, fun fuel stored => ?_⟩
          cases fuel with
          | zero => simp [tryAliases]
          | succ fuel => exact (hround fuel).trans_ne (hbuf fuel stored)
        · obtain ⟨fuel, hover⟩ := hnone h
          exact ⟨fuel + 1, (hround fuel).trans hover⟩
      · simp only [Bool.true_eq_false, false_or, hle, false_and, IsEmpty.forall_iff,
          not_false_eq_true, forall_const, true_and]
        exact ⟨2, (hround 1).trans (tryAliases_negative 0 _ (by omega))⟩

end Loop

/-! ### Safety -/

section Safety

variable (dir : Dir) (nls : Nls) (opts : Options) (uname : List Wchar) (jiffies : BitVec 32)
variable (nameRes : Mem) (lcase : Byte)

/-- The aliases with a numeric tail that the function can form for a name. -/
def NumericTail (name : List Byte) : Prop :=
  ∃ st, beforeTails nls opts (vfatFindForm dir) uname nameRes lcase = .inr st ∧
    ((∃ d, 1 ≤ d ∧ d ≤ 9 ∧ name = nameOf (tailName st d)) ∨
      ∃ n < 16 ^ 4, name = nameOf (hexName (toAliases st jiffies) (BitVec.ofNat 32 n)))

/-- Alias generation is safe: it returns if an alias is left, it stays inside `buf`, and a name it
returns is eleven bytes that no entry has. -/
structure AliasSafe : Prop where
  terminates : (∃ name, NumericTail dir nls opts uname jiffies nameRes lcase name ∧
      vfatFindForm dir name = false) →
    ∃ fuel code res lc,
      vfatCreateShortname dir nls opts uname jiffies nameRes lcase fuel = .ret code res lc
  in_buf : ∀ fuel stored,
    vfatCreateShortname dir nls opts uname jiffies nameRes lcase fuel = .overrun stored → stored ≤ 8
  fresh : ∀ fuel code res lc,
    vfatCreateShortname dir nls opts uname jiffies nameRes lcase fuel = .ret code res lc →
      0 ≤ code → (∀ e ∈ dir.entries, e.isShort → e.name ≠ nameOf res) ∧ Keeps nameRes res

/-- The names the function gets to try: if it needs a tail, one of `~1` to `~9` is free, or a name
with one of the numbers from `jiffies & 0xffff` down in steps of eleven that are not negative. -/
def TailsSuffice : Prop :=
  ∀ st, beforeTails nls opts (vfatFindForm dir) uname nameRes lcase = .inr st →
    (∃ d, 1 ≤ d ∧ d ≤ 9 ∧ vfatFindForm dir (nameOf (tailName st d)) = false) ∨
      HexFree (vfatFindForm dir) (toAliases st jiffies) (firstNumber jiffies).toNat

end Safety

lemma name_ne_of_vfatFindForm {dir : Dir} {name : List Byte} (h : vfatFindForm dir name = false) :
    ∀ e ∈ dir.entries, e.isShort → e.name ≠ name := by
  intro e he hshort heq
  rw [vfatFindForm, fatScan_eq, isSome_eq_false_iff, isNone_iff_eq_none,
    find?_eq_none] at h
  exact h e he (by simp [hshort, heq])

lemma firstNumber_eq (jiffies : BitVec 32) :
    (firstNumber jiffies).toNat < 16 ^ 4 ∧
      BitVec.ofNat 32 (firstNumber jiffies).toNat = firstNumber jiffies := by
  refine ⟨?_, by simp⟩
  rw [firstNumber, toNat_and]
  exact lt_of_le_of_lt Nat.and_le_right (by decide)

/-- Alias generation is safe for just the directories and times that leave a free name in reach:
then every part of it holds, and otherwise nine bytes are stored into `buf`. -/
theorem vfat_create_shortname_safe (dir : Dir) (nls : Nls) (opts : Options) (uname : List Wchar)
    (jiffies : BitVec 32) (nameRes : Mem) (lcase : Byte) :
    AliasSafe dir nls opts uname jiffies nameRes lcase ↔
      TailsSuffice dir nls opts uname jiffies nameRes lcase := by
  obtain ⟨hsmall, hnumber⟩ := firstNumber_eq jiffies
  have hfresh : ∀ fuel code res lc,
      vfatCreateShortname dir nls opts uname jiffies nameRes lcase fuel = .ret code res lc →
        0 ≤ code → (∀ e ∈ dir.entries, e.isShort → e.name ≠ nameOf res) ∧ Keeps nameRes res := by
    intro fuel code res lc h hcode
    obtain ⟨hb, he⟩ := scanName_bounded nls uname
    obtain ⟨hfree, hkeep⟩ := createShortname_fresh (kept_keeps nameRes)
      (fun _ => ⟨plainName_keeps hb he, by simp⟩) h hcode
    exact ⟨name_ne_of_vfatFindForm hfree, hkeep⟩
  -- a run that returns before the last loop is safe
  have hearly (code : Int) (res : Mem) (lc : Byte) (hrun : ∀ fuel,
      vfatCreateShortname dir nls opts uname jiffies nameRes lcase fuel = .ret code res lc) :
      AliasSafe dir nls opts uname jiffies nameRes lcase :=
    ⟨fun _ => ⟨0, code, res, lc, hrun 0⟩, by simp [hrun], hfresh⟩
  have hok : PrologueOk (vfatFindForm dir) 0 (fun _ => True)
      (beforeTails nls opts (vfatFindForm dir) uname nameRes lcase) :=
    beforeTails_ok (fun _ _ _ _ _ _ _ => trivial) fun _ => ⟨trivial, by simp⟩
  cases hst : beforeTails nls opts (vfatFindForm dir) uname nameRes lcase with
  | inl outcome =>
    rw [hst] at hok
    obtain ⟨code, res, lc, rfl, -⟩ := hok
    refine iff_of_true (hearly code res lc fun fuel => ?_) fun st h => ?_
    · rw [vfatCreateShortname, createShortname, hst]
    · simp [hst] at h
  | inr st =>
    obtain ⟨hsome, hnone⟩ := tryTails_spec (vfatFindForm dir) st 9 1
    cases htry : tryTails (vfatFindForm dir) st 9 1 with
    | some name =>
      obtain ⟨hfree, d, hlow, hhigh, rfl⟩ := hsome name htry
      refine iff_of_true (hearly 0 (tailName st d) 0 fun fuel => ?_) fun st' h => ?_
      · rw [vfatCreateShortname, createShortname, hst]
        simp only [htry]
      · obtain rfl := Sum.inr.inj (hst.symm.trans h)
        exact .inl ⟨d, hlow, by omega, hfree⟩
    | none =>
      have hrun (fuel : Nat) : vfatCreateShortname dir nls opts uname jiffies nameRes lcase fuel =
          tryAliases (vfatFindForm dir) fuel (toAliases st jiffies)
            (BitVec.ofNat 32 (firstNumber jiffies).toNat) := by
        rw [vfatCreateShortname, createShortname, hst, hnumber]
        simp only [htry]
      obtain ⟨hfree, hover⟩ := tryAliases_run (vfatFindForm dir) (toAliases st jiffies) hsmall
      constructor
      · intro hsafe st' h
        obtain rfl := Sum.inr.inj (hst.symm.trans h)
        refine .inr (by_contra fun hhex => ?_)
        obtain ⟨fuel, hover⟩ := hover hhex
        have := hsafe.in_buf fuel 9 ((hrun fuel).trans hover)
        omega
      · intro hsuffice
        have hhex : HexFree (vfatFindForm dir) (toAliases st jiffies)
            (firstNumber jiffies).toNat := by
          rcases hsuffice st hst with ⟨d, hlow, hhigh, hfree⟩ | hhex
          · simp [hnone htry d hlow (by omega)] at hfree
          · exact hhex
        obtain ⟨⟨fuel, res, hret⟩, hbuf⟩ := hfree hhex
        refine ⟨fun _ => ⟨fuel, 0, res, 0, (hrun fuel).trans hret⟩, fun fuel stored h => ?_, hfresh⟩
        exact absurd ((hrun fuel).symm.trans h) (hbuf fuel stored)

def shortEntry (name : List Byte) : RawEntry :=
  ⟨fun i => if i.val < 11 then name.getD i 0 else if i.val = 11 then ATTR_ARCH else 0⟩

/-- A directory of one block with `A_~1` to `A_~9` and `A_0000~1`. -/
def crowdedDir : Dir where
  perBlock := 16
  perBlock_pos := by decide
  blocks := [some fun i =>
    if i.val < 9 then shortEntry ([0x41, 0x5F, 0x7E, BitVec.ofNat 8 (0x31 + i)] ++
      List.replicate 7 0x20)
    else if i.val = 9 then
      shortEntry [0x41, 0x5F, 0x30, 0x30, 0x30, 0x30, 0x7E, 0x31, 0x20, 0x20, 0x20]
    else ⟨fun _ => 0⟩]

/-- ASCII, with no upper case table. -/
def asciiNls : Nls where
  uni2char := asciiBytes
  charset2upper := fun _ => 0
  length_uni2char := length_asciiBytes
  length_of_zero := by
    intro w hw hzero
    rw [asciiBytes] at hzero
    split at hzero
    · next hsmall =>
      have hnat : w.toNat % 2 ^ 8 = 0 := congrArg BitVec.toNat (some.inj hzero)
      rw [Nat.mod_eq_of_lt (by omega)] at hnat
      exact absurd (eq_of_toNat_eq hnat) hw
    · simp at hzero

def vfatDefaults : Options := ⟨true, false, true, rfl⟩

/-- With these ten entries, the name `A+` and `jiffies` at zero the number becomes -11, and
`FFFFFFF5` with its zero is stored into the eight bytes of `buf`, though `A_0001~1` is free. -/
theorem vfat_create_shortname_overruns :
    (∃ st, beforeTails asciiNls vfatDefaults (vfatFindForm crowdedDir) [0x41, 0x2B] (fun _ => 0) 0 =
        .inr st ∧
      vfatFindForm crowdedDir (nameOf (hexName (toAliases st 0) 1)) = false) ∧
    vfatCreateShortname crowdedDir asciiNls vfatDefaults [0x41, 0x2B] 0 (fun _ => 0) 0 2 =
      .overrun 9 := by
  have hform : vfatFindForm crowdedDir = fun name =>
      (crowdedDir.entries.find? fun e => e.isShort && strncmpEq e.name name).isSome := by
    ext1 name
    rw [vfatFindForm, fatScan_eq]
  rw [vfatCreateShortname, hform]
  exact ⟨⟨_, rfl, by decide +kernel⟩, rfl⟩

end R0Kernel.Vfat
