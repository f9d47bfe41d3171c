import R0Kernel.Fs.Nls

/-!
# Buffers for converted names

`uni16_to_x8` is not told the size of the buffer it fills. It tests after each character whether it
has come past 256 bytes, which suits some of the buffers it gets. A conversion is the list of its
stores, each a byte and an offset into the buffer.
-/

namespace R0Kernel.Fat.NameBuffer

open List

/-- The parts of a `struct nls_table` that are used. `uni2char` is empty where the table does not
return a positive length, and `char2uni` is `none` for an error. -/
structure NlsTable where
  uni2char : Wchar → List Byte
  char2uni : List Byte → Option (Wchar × Nat)
  charset2lower : Byte → Byte
  length_uni2char : ∀ w, (uni2char w).length ≤ 6
  char2uni_pos : ∀ s w n, char2uni s = some (w, n) → 0 < n

/-! ### Conversion -/

def hexDigit (ec : Wchar) (k : Nat) : Byte :=
  let nc := (ec >>> (4 * (4 - k))).setWidth 8 &&& 0xF
  if nc.toNat > 9 then nc + (0x61 - 10) else nc + 0x30

def convertChar (nls : NlsTable) (uniXlate : Bool) (ec : Wchar) : List Byte :=
  match nls.uni2char ec with
  | [] => if uniXlate then 0x3A :: [1, 2, 3, 4].map (hexDigit ec) else [0x3F]
  | bytes => bytes

/-- `uni16_to_x8` from the offset `op` on. The last store is the end of the string, at the offset
that is returned. -/
def uni16ToX8 (nls : NlsTable) (uniXlate : Bool) : List Wchar → (op : Nat) → List (Byte × Nat)
  | [], op => [(0, op)]
  | ec :: ip, op =>
    if ec = 0 then [(0, op)]
    else
      let bytes := convertChar nls uniXlate ec
      bytes.zipIdx op ++
        if op + bytes.length > 256 then [(0, 256)]
        else uni16ToX8 nls uniXlate ip (op + bytes.length)

/-! ### Short names -/

def fatShort2uni (t : NlsTable) (c : List Byte) : Wchar × Nat := (t.char2uni c).getD (0x3F, 1)

def fatShort2lowerUni (t : NlsTable) (c : List Byte) : Wchar × Nat :=
  match t.char2uni c with
  | none => (0x3F, 1)
  | some (wc, charlen) =>
    if charlen ≤ 1 then
      let nc := t.charset2lower (c.headD 0)
      fatShort2uni t [if nc = 0 then c.headD 0 else nc]
    else (wc, charlen)

/-- The bits of `options.shortname` that are about display. -/
structure ShortnameOpt where
  displayLower : Bool
  displayWin95 : Bool
  displayWinnt : Bool

def fatShortname2uni (nls : NlsTable) (buf : List Byte) (opt : ShortnameOpt) (lower : Bool) :
    Wchar × Nat :=
  if opt.displayLower then fatShort2lowerUni nls buf
  else if opt.displayWin95 then fatShort2uni nls buf
  else if opt.displayWinnt then
    if lower then fatShort2lowerUni nls buf else fatShort2uni nls buf
  else fatShort2uni nls buf

/-- The loop over the bytes of the base or the extension: `bufuname` up to `j`, and `last_u`. Every
round takes a byte at least. -/
def shortPart (nls : NlsTable) (opt : ShortnameOpt) (lower : Bool) :
    (rounds : Nat) → (work : List Byte) → (uname : List Wchar) → (lastU : Nat) → List Wchar × Nat
  | rounds + 1, c :: work, uname, lastU =>
    if c = 0 then (uname, lastU)
    else
      let (u, chl) := fatShortname2uni nls (c :: work) opt lower
      let uname := uname ++ [u]
      shortPart nls opt lower rounds ((c :: work).drop chl) uname
        (if chl ≤ 1 ∧ c = 0x20 then lastU else uname.length)
  | _, _, uname, lastU => (uname, lastU)

/-- The string that `fat_search_long` and `__fat_readdir` put together from the eleven bytes of an
entry. The empty one is not converted. -/
def shortUname (nls : NlsTable) (opt : ShortnameOpt) (lowerBase lowerExt : Bool)
    (name : List Byte) : List Wchar :=
  let work := if name.headD 0 = 0x05 then 0xE5 :: name.tail else name
  let base := shortPart nls opt lowerBase 8 (work.take 8) [] 0
  let dot := (fatShort2uni nls [0x2E]).1
  let ext := shortPart nls opt lowerExt 3 (work.drop 8) (base.1.take base.2 ++ [dot]) base.2
  ext.1.take ext.2

/-! ### Buffers -/

/-- Every byte of the conversion is stored in a buffer of this size. -/
def Inside (nls : NlsTable) (uniXlate : Bool) (size : Nat) (uni : List Wchar) : Prop :=
  ∀ s ∈ uni16ToX8 nls uniXlate uni 0, s.2 < size

def searchBufSize : Nat := 260

def shortBufSize : Nat := 56

/-- The page behind the 261 characters of the long name. -/
def longBufSize : Nat := 4096 - 261 * 2

/-- The conversions of an entry's short name and of its long name. -/
structure NamesInside (nls : NlsTable) (uniXlate : Bool) (short long : List Wchar) : Prop where
  searchShort : Inside nls uniXlate searchBufSize short
  searchLong : Inside nls uniXlate searchBufSize long
  readdirShort : Inside nls uniXlate shortBufSize short
  readdirLong : Inside nls uniXlate longBufSize long

section Conversion

variable {nls : NlsTable} {uniXlate : Bool} {op size : Nat} {uni : List Wchar}

/-- The bytes that characters take. -/
def width (nls : NlsTable) (uniXlate : Bool) (uni : List Wchar) : Nat :=
  (uni.map fun ec => (convertChar nls uniXlate ec).length).sum

@[simp] lemma width_nil : width nls uniXlate [] = 0 := rfl

@[simp] lemma width_cons (ec : Wchar) (uni : List Wchar) :
    width nls uniXlate (ec :: uni) =
      (convertChar nls uniXlate ec).length + width nls uniXlate uni := by
  simp [width]

lemma length_convertChar (nls : NlsTable) (uniXlate : Bool) (ec : Wchar) :
    0 < (convertChar nls uniXlate ec).length ∧ (convertChar nls uniXlate ec).length ≤ 6 := by
  have hle := nls.length_uni2char ec
  unfold convertChar
  split
  next => cases uniXlate <;> simp
  next bytes hne => exact ⟨length_pos_iff.mpr hne, hle⟩

def cString (uni : List Wchar) : List Wchar := uni.takeWhile (· ≠ 0)

lemma forall_zipIdx {bytes : List Byte} (hpos : 0 < bytes.length) :
    (∀ s ∈ bytes.zipIdx op, s.2 < size) ↔ op + bytes.length ≤ size := by
  constructor
  · intro h
    have hlast := h (bytes[bytes.length - 1], op + (bytes.length - 1))
      (mk_add_mem_zipIdx_iff_getElem?.mpr (getElem?_eq_getElem _))
    omega
  · intro h s hs
    have hlt := snd_lt_add_of_mem_zipIdx hs
    omega

lemma uni16ToX8_nul (h : cString uni = []) :
    uni16ToX8 nls uniXlate uni op = [(0, op)] := by
  cases uni with
  | nil => rfl
  | cons ec ip =>
    have hec : ec = 0 := by
      by_contra hne
      rw [cString, takeWhile_cons_of_pos (by simpa using hne)] at h
      cases h
    rw [uni16ToX8, if_pos hec]

lemma uni16ToX8_cons (nls : NlsTable) (uniXlate : Bool) (op : Nat) {rest : List Wchar}
    {ec : Wchar} (h : cString uni = ec :: rest) :
    ∃ ip, cString ip = rest ∧ uni16ToX8 nls uniXlate uni op =
      (convertChar nls uniXlate ec).zipIdx op ++
        if op + (convertChar nls uniXlate ec).length > 256 then [(0, 256)]
        else uni16ToX8 nls uniXlate ip (op + (convertChar nls uniXlate ec).length) := by
  cases uni with
  | nil => cases h
  | cons ec' ip =>
    by_cases hec : ec' = 0
    · simp [cString, hec] at h
    · rw [cString, takeWhile_cons_of_pos (by simpa using hec)] at h
      obtain ⟨rfl, hrest⟩ := List.cons.inj h
      exact ⟨ip, hrest, by rw [uni16ToX8, if_neg hec]⟩

/-- In a buffer of more than 256 bytes each character has to end that begins in the first 256. -/
lemma forall_uni16ToX8_large {s : List Wchar} (hs : cString uni = s) (hsize : 256 < size)
    (hop : op ≤ 256) :
    (∀ st ∈ uni16ToX8 nls uniXlate uni op, st.2 < size) ↔
      ∀ k, op + width nls uniXlate (s.take k) ≤ 256 →
        op + width nls uniXlate (s.take (k + 1)) ≤ size := by
  induction s generalizing uni op with
  | nil =>
    rw [uni16ToX8_nul hs]
    simp only [mem_singleton, forall_eq, take_nil, width_nil]
    exact ⟨fun _ _ _ => by omega, fun _ => by omega⟩
  | cons ec rest ih =>
    have hlen := length_convertChar nls uniXlate ec
    obtain ⟨ip, hip, heq⟩ := uni16ToX8_cons nls uniXlate op hs
    rw [heq, forall_mem_append, forall_zipIdx hlen.1]
    have htail : (∀ st ∈ (if op + (convertChar nls uniXlate ec).length > 256 then [(0, 256)]
          else uni16ToX8 nls uniXlate ip (op + (convertChar nls uniXlate ec).length)),
            st.2 < size) ↔
        ∀ k, op + (convertChar nls uniXlate ec).length + width nls uniXlate (rest.take k) ≤ 256 →
          op + (convertChar nls uniXlate ec).length + width nls uniXlate (rest.take (k + 1)) ≤
            size := by
      split
      next hcut =>
        -- nothing begins any more
        simp only [mem_singleton, forall_eq, hsize, true_iff]
        omega
      next hon => exact ih hip (by omega)
    rw [htail]
    constructor
    · rintro ⟨hhead, hrest⟩ k hk
      cases k with
      | zero => simpa using hhead
      | succ k =>
        simp only [take_succ_cons, width_cons, ← add_assoc] at hk ⊢
        exact hrest k hk
    · intro h
      refine ⟨by simpa [hop] using h 0, fun k hk => ?_⟩
      have hnext := h (k + 1)
      simp only [take_succ_cons, width_cons, ← add_assoc] at hnext
      exact hnext hk

/-- In a smaller buffer the whole string has to end. -/
lemma forall_uni16ToX8_small {s : List Wchar} (hs : cString uni = s) (hsize : size ≤ 256) :
    (∀ st ∈ uni16ToX8 nls uniXlate uni op, st.2 < size) ↔
      op + width nls uniXlate s < size := by
  induction s generalizing uni op with
  | nil =>
    rw [uni16ToX8_nul hs]
    simp
  | cons ec rest ih =>
    have hlen := length_convertChar nls uniXlate ec
    obtain ⟨ip, hip, heq⟩ := uni16ToX8_cons nls uniXlate op hs
    rw [heq, forall_mem_append, forall_zipIdx hlen.1, width_cons]
    split
    next hcut =>
      omega
    next =>
      rw [ih hip]
      omega

lemma inside_long (uni : List Wchar) : Inside nls uniXlate longBufSize uni := by
  refine (forall_uni16ToX8_large rfl (by decide) (Nat.zero_le _)).mpr fun k hk => ?_
  have hsix : ∀ s : List Wchar, ∀ k, width nls uniXlate (s.take (k + 1)) ≤
      width nls uniXlate (s.take k) + 6 := by
    intro s k
    induction s generalizing k with
    | nil => simp
    | cons ec rest ih =>
      have hlen := length_convertChar nls uniXlate ec
      cases k with
      | zero => simpa using hlen.2
      | succ k =>
        have hrest := ih k
        simp only [take_succ_cons, width_cons] at hrest ⊢
        omega
  have hnext := hsix (cString uni) k
  simp only [longBufSize]
  omega

end Conversion

/-- The conversions of an entry stay in their buffers if and only if its short name takes less than
56 bytes and no character of its long name begins in the first 256 bytes and ends past 260. -/
theorem names_inside_iff (disk nls : NlsTable) (uniXlate : Bool) (opt : ShortnameOpt)
    (lowerBase lowerExt : Bool) (name : List Byte) (long : List Wchar) :
    NamesInside nls uniXlate (shortUname disk opt lowerBase lowerExt name) long ↔
      width nls uniXlate (cString (shortUname disk opt lowerBase lowerExt name)) < shortBufSize ∧
      ∀ k, width nls uniXlate ((cString long).take k) ≤ 256 →
        width nls uniXlate ((cString long).take (k + 1)) ≤ searchBufSize := by
  generalize shortUname disk opt lowerBase lowerExt name = short
  have hshort : Inside nls uniXlate shortBufSize short ↔
      width nls uniXlate (cString short) < shortBufSize := by
    rw [Inside, forall_uni16ToX8_small rfl (by decide), zero_add]
  have hsearch : Inside nls uniXlate searchBufSize long ↔
      ∀ k, width nls uniXlate ((cString long).take k) ≤ 256 →
        width nls uniXlate ((cString long).take (k + 1)) ≤ searchBufSize := by
    simp only [Inside, forall_uni16ToX8_large rfl (show 256 < searchBufSize by decide)
      (Nat.zero_le _), zero_add]
  constructor
  · exact fun h => ⟨hshort.mp h.readdirShort, hsearch.mp h.searchLong⟩
  · rintro ⟨hs, hl⟩
    have hreaddir := hshort.mpr hs
    have hsmaller : shortBufSize < searchBufSize := by decide
    exact ⟨fun st hst => lt_trans (hreaddir st hst) hsmaller, hsearch.mpr hl, hreaddir,
      inside_long long⟩

/-! ### Names that leave their buffers -/

/-- ASCII on both sides, and a code page whose upper half has characters that ASCII lacks. -/
def asciiTable : NlsTable where
  uni2char := asciiBytes
  char2uni := fun s => s.head?.map fun c => (c.setWidth 16, 1)
  charset2lower := fun c => c
  length_uni2char := length_asciiBytes
  char2uni_pos := by
    intro s w n h
    cases s with
    | nil => cases h
    | cons c s =>
      simp only [head?_cons, Option.map_some, Option.some.injEq, Prod.mk.injEq] at h
      omega

/-- With `uni_xlate`, a short name of eleven escaped characters ends one byte past the buffer of
`__fat_readdir`, and an escape after 256 bytes of a long name one byte past that of
`fat_search_long`. -/
theorem names_outside :
    (0, 56) ∈ uni16ToX8 asciiTable true
      (shortUname asciiTable ⟨false, false, false⟩ false false (List.replicate 11 0xE4)) 0 ∧
    (0x34, 260) ∈ uni16ToX8 asciiTable true (List.replicate 51 0xE4 ++ [0x61, 0xE4]) 0 := by
  decide +kernel

end R0Kernel.Fat.NameBuffer
