import R0Kernel.Foundation.Outcome
import Mathlib.Algebra.Order.Ring.Int
import Mathlib.Tactic.Common

/-!
# The rtime compression of JFFS2

A compressed block is a list of pairs, a byte and the length of a run that follows it. The run is
copied from behind the last place where a pair began with the same byte, a place that compressor and
decompressor keep in tables of their own. Each access of the decompressor to one of its two buffers
is checked in the model, and one outside is a fault.
-/

namespace R0Kernel.Jffs2

open Outcome Function List

abbrev Byte := BitVec 8

def short (n : Int) : Int := n.bmod 65536

lemma short_of_le {n : Nat} (h : n ≤ 32767) : short n = n := by
  rw [short, Int.bmod_eq_of_le] <;> omega

/-! ### Compression -/

/-- The length of the run at `pos` that repeats what stands at `backpos`, at most `left` bytes. -/
def matchRun (data : Int → Byte) (sourcelen : Nat) :
    (left : Nat) → (backpos : Int) → (pos : Nat) → Nat
  | 0, _, _ => 0
  | left + 1, backpos, pos =>
    if backpos < pos ∧ pos < sourcelen ∧ data pos = data backpos then
      matchRun data sourcelen left (backpos + 1) (pos + 1) + 1
    else 0

/-- The loop of `jffs2_rtime_compress`: the final `pos`, and what is stored from `outpos` on. Each
round takes a byte of the input, so `sourcelen` rounds are enough. -/
def rtimeCompressLoop (data : Int → Byte) (sourcelen dstlen : Nat) :
    (fuel : Nat) → (positions : Byte → Int) → (pos outpos : Nat) → Nat × List Byte
  | 0, _, pos, _ => (pos, [])
  | fuel + 1, positions, pos, outpos =>
    if pos < sourcelen ∧ outpos ≤ (dstlen + 2 ^ 32 - 2) % 2 ^ 32 then
      let value := data pos
      let runlen := matchRun data sourcelen 255 (positions value) (pos + 1)
      let rest := rtimeCompressLoop data sourcelen dstlen fuel
        (update positions value (short (pos + 1 : Nat))) (pos + 1 + runlen) (outpos + 2)
      (rest.1, value :: BitVec.ofNat 8 runlen :: rest.2)
    else (pos, [])

/-- `jffs2_rtime_compress`, with the `sourcelen` and the bytes that it returns. -/
def rtimeCompress (data : Int → Byte) (sourcelen dstlen : Nat) : Option (Nat × List Byte) :=
  let (pos, out) := rtimeCompressLoop data sourcelen dstlen sourcelen (fun _ => 0) 0 0
  if out.length ≥ pos then none else some (pos, out)

/-! ### Decompression -/

/-- An access outside `data_in` or `cpage_out`. -/
inductive Fault where
  | readIn (i : Nat)
  | readOut (i : Int)
  | write (i : Nat)
  | fuel

def readIn (data : List Byte) (i : Nat) : Except Fault Byte :=
  data[i]?.elim (.error (.readIn i)) .ok

/-- The copy loop for a run that may overlap its source. -/
def copyLoop (destlen : Nat) :
    (count : Nat) → (out : Nat → Byte) → (outpos : Nat) → (backoffs : Int) →
      Except Fault (Nat → Byte)
  | 0, out, _, _ => .ok out
  | count + 1, out, outpos, backoffs =>
    if backoffs < 0 ∨ destlen ≤ backoffs then .error (.readOut backoffs)
    else if destlen ≤ outpos then .error (.write outpos)
    else copyLoop destlen count (update out outpos (out backoffs.toNat)) (outpos + 1)
      (backoffs + 1)

def memcpy (destlen count : Nat) (out : Nat → Byte) (outpos : Nat) (backoffs : Int) :
    Except Fault (Nat → Byte) :=
  if backoffs < 0 ∨ destlen < backoffs + count then .error (.readOut backoffs)
  else if destlen < outpos + count then .error (.write destlen)
  else .ok fun i =>
    if outpos ≤ i ∧ i < outpos + count then out (backoffs.toNat + (i - outpos)) else out i

def copyRun (destlen count : Nat) (out : Nat → Byte) (outpos : Nat) (backoffs : Int) :
    Except Fault (Nat → Byte) :=
  if count = 0 then .ok out
  else if backoffs + count ≥ outpos then copyLoop destlen count out outpos backoffs
  else memcpy destlen count out outpos backoffs

def rtimeDecompressLoop (data : List Byte) (destlen : Nat) :
    (fuel : Nat) → (positions : Byte → Int) → (out : Nat → Byte) → (outpos pos : Nat) →
      Except Fault (Nat → Byte)
  | 0, _, _, _, _ => .error .fuel
  | fuel + 1, positions, out, outpos, pos =>
    if outpos < destlen then do
      let value ← readIn data pos
      -- the loop has just tested that the first byte fits
      let out := update out outpos value
      let count ← readIn data (pos + 1)
      let out ← copyRun destlen count.toNat out (outpos + 1) (positions value)
      rtimeDecompressLoop data destlen fuel
        (update positions value (short (outpos + 1 : Nat))) out
        (outpos + 1 + count.toNat) (pos + 2)
    else .ok out

/-- `jffs2_rtime_decompress` of `data`, into `page`. -/
def rtimeDecompress (data : List Byte) (destlen : Nat) (page : Nat → Byte) :
    Except Fault (Nat → Byte) :=
  rtimeDecompressLoop data destlen (destlen + 1) (fun _ => 0) page 0 0

/-! ### What a copy leaves -/

/-- The run repeats its source, even where the two overlap, and nothing else has changed. -/
structure Copied (out : Nat → Byte) (outpos count backoffs : Nat) (out' : Nat → Byte) : Prop where
  frame : ∀ i, i < outpos ∨ outpos + count ≤ i → out' i = out i
  run : ∀ k < count, out' (outpos + k) = out' (backoffs + k)

section Copy

variable {destlen count outpos : Nat} {out out' : Nat → Byte} {backoffs : Nat}

lemma copyLoop_spec (out : Nat → Byte) (hback : backoffs < outpos)
    (hfits : outpos + count ≤ destlen) :
    ∃ out', copyLoop destlen count out outpos backoffs = .ok out' ∧
      Copied out outpos count backoffs out' := by
  induction count generalizing out outpos backoffs with
  | zero => exact ⟨out, rfl, fun i _ => rfl, fun k hk => absurd hk (Nat.not_lt_zero k)⟩
  | succ count ih =>
    obtain ⟨out', hloop, hcopied⟩ := ih (update out outpos (out backoffs))
      (show backoffs + 1 < outpos + 1 by omega) (by omega)
    refine ⟨out', ?_, fun i hi => ?_, fun k hk => ?_⟩
    · rw [copyLoop, if_neg (by omega), if_neg (by omega), ← hloop]
      rfl
    · rw [hcopied.frame i (by omega), update_of_ne (by omega)]
    · rcases k with _ | k
      · rw [hcopied.frame _ (by omega), hcopied.frame _ (by omega), Nat.add_zero,
          update_self, Nat.add_zero, update_of_ne (by omega)]
      · have hrun := hcopied.run k (by omega)
        rwa [Nat.add_right_comm, Nat.add_right_comm backoffs] at hrun

lemma copyRun_spec (out : Nat → Byte) (hback : backoffs < outpos)
    (hfits : outpos + count ≤ destlen) :
    ∃ out', copyRun destlen count out outpos backoffs = .ok out' ∧
      Copied out outpos count backoffs out' := by
  rw [copyRun]
  split_ifs with hzero hoverlap
  · subst hzero
    exact ⟨out, rfl, fun i _ => rfl, fun k hk => absurd hk (Nat.not_lt_zero k)⟩
  · exact copyLoop_spec out hback hfits
  · rw [memcpy, if_neg (by omega), if_neg (by omega)]
    refine ⟨_, rfl, fun i hi => if_neg (by omega), fun k hk => ?_⟩
    rw [if_pos (by omega), if_neg (by omega), Int.toNat_natCast, Nat.add_sub_cancel_left]

lemma copyLoop_fits {backoffs : Int} (h : copyLoop destlen count out outpos backoffs = .ok out')
    (houtpos : outpos ≤ destlen) : outpos + count ≤ destlen := by
  induction count generalizing out outpos backoffs with
  | zero => exact houtpos
  | succ count ih =>
    obtain ⟨-, h⟩ := ite_error_eq_ok.mp h
    obtain ⟨hwrite, h⟩ := ite_error_eq_ok.mp h
    have hrest := ih h (by omega)
    omega

lemma copyRun_fits {backoffs : Int} (h : copyRun destlen count out outpos backoffs = .ok out')
    (houtpos : outpos ≤ destlen) : outpos + count ≤ destlen := by
  rw [copyRun] at h
  split_ifs at h with hzero
  · omega
  · exact copyLoop_fits h houtpos
  · obtain ⟨-, h⟩ := ite_error_eq_ok.mp h
    exact not_lt.mp (ite_error_eq_ok.mp h).1

end Copy

/-! ### A round of the decompressor -/

/-- The places in the table are among the bytes already there. -/
def Behind (positions : Byte → Int) (outpos : Nat) : Prop :=
  ∀ value, ∃ b : Nat, positions value = b ∧ b ≤ outpos

lemma Behind.update {positions : Byte → Int} {outpos : Nat} (h : Behind positions outpos)
    (hpos : outpos + 1 ≤ 32767) (value : Byte) (count : Nat) :
    Behind (update positions value (short (outpos + 1 : Nat))) (outpos + 1 + count) := by
  intro value'
  by_cases heq : value' = value
  · subst heq
    exact ⟨outpos + 1, by rw [update_self, short_of_le hpos], by omega⟩
  · obtain ⟨b, hb, hle⟩ := h value'
    exact ⟨b, by rw [update_of_ne heq, hb], by omega⟩

section Round

variable {data rest : List Byte} {destlen outpos pos : Nat} {positions : Byte → Int}
  {value count : Byte}

lemma readIn_eq_ok : readIn data pos = .ok value ↔ data[pos]? = some value := by
  rw [readIn]
  cases data[pos]? <;> simp

/-- A round whose pair is there and whose run fits. -/
lemma rtimeDecompressLoop_pair (fuel : Nat) (out : Nat → Byte)
    (hbehind : Behind positions outpos) (hdata : data.drop pos = value :: count :: rest)
    (hfits : outpos + 1 + count.toNat ≤ destlen) :
    ∃ b out', positions value = (b : Nat) ∧ b ≤ outpos ∧
      Copied (update out outpos value) (outpos + 1) count.toNat b out' ∧
      rtimeDecompressLoop data destlen (fuel + 1) positions out outpos pos =
        rtimeDecompressLoop data destlen fuel
          (update positions value (short (outpos + 1 : Nat))) out'
          (outpos + 1 + count.toNat) (pos + 2) := by
  obtain ⟨b, hb, hle⟩ := hbehind value
  obtain ⟨out', hcopy, hcopied⟩ := copyRun_spec (update out outpos value)
    (Nat.lt_succ_of_le hle) hfits
  have hget (j : Nat) : data[pos + j]? = (value :: count :: rest)[j]? := by
    rw [← hdata, getElem?_drop]
  have hvalue : readIn data pos = .ok value := readIn_eq_ok.mpr (hget 0)
  have hcount : readIn data (pos + 1) = .ok count := readIn_eq_ok.mpr (hget 1)
  refine ⟨b, out', hb, hle, hcopied, ?_⟩
  rw [rtimeDecompressLoop, if_pos (by omega), hvalue]
  dsimp only [bind, Except.bind]
  rw [hcount, hb]
  dsimp only
  rw [hcopy]

lemma drop_pair (hdata : data.drop pos = value :: count :: rest) :
    data.drop (pos + 2) = rest := by
  rw [← drop_drop, hdata]
  rfl

end Round

/-! ### Corrupt blocks -/

/-- The pairs of a block, up to one within it, stand for just so many bytes. -/
def Fills : List Byte → Nat → Prop
  | _, 0 => True
  | _ :: count :: rest, left + 1 => count.toNat ≤ left ∧ Fills rest (left - count.toNat)
  | _, _ + 1 => False

section Corrupt

variable {data : List Byte} {destlen fuel outpos pos : Nat} {positions : Byte → Int}
  {out out' : Nat → Byte}

lemma fills_of_ok (h : rtimeDecompressLoop data destlen fuel positions out outpos pos = .ok out')
    (hle : outpos ≤ destlen) : Fills (data.drop pos) (destlen - outpos) := by
  induction fuel generalizing positions out outpos pos with
  | zero => exact nomatch h
  | succ fuel ih =>
    rw [rtimeDecompressLoop] at h
    split_ifs at h with hlt
    · obtain ⟨value, hvalue, h⟩ := bind_eq_ok h
      obtain ⟨count, hcount, h⟩ := bind_eq_ok h
      obtain ⟨out₁, hcopy, h⟩ := bind_eq_ok h
      have hfits := copyRun_fits hcopy hlt
      obtain ⟨hpos, hget⟩ := List.getElem?_eq_some_iff.mp (readIn_eq_ok.mp hvalue)
      obtain ⟨hpos', hget'⟩ := List.getElem?_eq_some_iff.mp (readIn_eq_ok.mp hcount)
      rw [drop_eq_getElem_cons hpos, drop_eq_getElem_cons hpos', hget',
        show destlen - outpos = destlen - outpos - 1 + 1 by omega]
      refine ⟨by omega, ?_⟩
      rw [show destlen - outpos - 1 - count.toNat = destlen - (outpos + 1 + count.toNat) by omega]
      exact ih h hfits
    · rw [show destlen - outpos = 0 by omega, Fills]
      trivial

lemma ok_of_fills (hdest : destlen ≤ 32767) (hbehind : Behind positions outpos)
    (h : Fills (data.drop pos) (destlen - outpos)) (hle : outpos ≤ destlen)
    (hfuel : destlen < outpos + fuel) :
    ∃ out', rtimeDecompressLoop data destlen fuel positions out outpos pos = .ok out' := by
  induction fuel generalizing positions out outpos pos with
  | zero => omega
  | succ fuel ih =>
    rcases hle.lt_or_eq with hlt | rfl
    swap
    · rw [rtimeDecompressLoop, if_neg (lt_irrefl _)]
      exact ⟨out, rfl⟩
    rw [show destlen - outpos = destlen - outpos - 1 + 1 by omega] at h
    rcases hdata : data.drop pos with _ | ⟨value, _ | ⟨count, rest⟩⟩ <;> rw [hdata] at h
    · exact h.elim
    · exact h.elim
    obtain ⟨hcount, h⟩ := h
    obtain ⟨b, out₁, -, -, -, hround⟩ := rtimeDecompressLoop_pair fuel out hbehind hdata
      (by omega : outpos + 1 + count.toNat ≤ destlen)
    rw [hround]
    refine ih (hbehind.update (by omega) value _) ?_ (by omega) (by omega)
    rw [drop_pair hdata, Nat.sub_add_eq]
    exact h

/-- Decompression keeps to its buffers exactly if the pairs stand for `destlen` bytes. -/
theorem rtime_decompress_safe_iff (data : List Byte) (destlen : Nat) (hdest : destlen ≤ 32767)
    (page : Nat → Byte) :
    (∃ out, rtimeDecompress data destlen page = .ok out) ↔ Fills data destlen := by
  constructor
  · rintro ⟨out, h⟩
    exact fills_of_ok h (Nat.zero_le _)
  · intro h
    exact ok_of_fills hdest (fun _ => ⟨0, rfl, le_rfl⟩) h (Nat.zero_le _) (by omega)

theorem rtime_decompress_safe_iff_run :
    3 ≤ 32767 ∧ ∃ out, rtimeDecompress [7, 2] 3 (fun _ => 0) = .ok out :=
  ⟨by decide, (rtime_decompress_safe_iff [7, 2] 3 (by decide) fun _ => 0).mpr
    ⟨by decide, trivial⟩⟩

/-- A run of 255 bytes into a page of two, and a block that ends before the page is full. -/
theorem rtime_decompress_overruns :
    rtimeDecompress [7, 255] 2 (fun _ => 0) = .error (.write 2) ∧
      rtimeDecompress [7, 0] 2 (fun _ => 0) = .error (.readIn 2) :=
  ⟨rfl, rfl⟩

end Corrupt

/-! ### Round trip -/

section RoundTrip

variable {data : Int → Byte} {sourcelen dstlen : Nat} {pos : Nat} {out : Nat → Byte}

lemma matchRun_spec (data : Int → Byte) (left : Nat) (backpos : Int) (hpos : pos ≤ sourcelen) :
    let run := matchRun data sourcelen left backpos pos
    run ≤ left ∧ pos + run ≤ sourcelen ∧ ∀ k < run, data (pos + k : Nat) = data (backpos + k) := by
  induction left generalizing backpos pos with
  | zero => exact ⟨le_rfl, hpos, fun k hk => absurd hk (Nat.not_lt_zero k)⟩
  | succ left ih =>
    rw [matchRun]
    split_ifs with hmatch
    · obtain ⟨-, hlt, heq⟩ := hmatch
      obtain ⟨hrun, hend, hdata⟩ := ih (backpos + 1) (show pos + 1 ≤ sourcelen from hlt)
      refine ⟨by omega, by omega, fun k hk => ?_⟩
      rcases k with _ | k
      · simpa using heq
      · have hk' := hdata k (by omega)
        rwa [Nat.add_right_comm, add_right_comm backpos, add_assoc backpos]
          at hk'
    · exact ⟨Nat.zero_le _, hpos, fun k hk => absurd hk (Nat.not_lt_zero k)⟩

lemma rtimeCompressLoop_bounds (data : Int → Byte) (hdst : 2 ≤ dstlen) (hdst' : dstlen < 2 ^ 32)
    (fuel : Nat) (positions : Byte → Int) {outpos : Nat} (hpos : pos ≤ sourcelen)
    (houtpos : outpos ≤ dstlen) :
    let r := rtimeCompressLoop data sourcelen dstlen fuel positions pos outpos
    pos ≤ r.1 ∧ r.1 ≤ sourcelen ∧ outpos + r.2.length ≤ dstlen := by
  induction fuel generalizing positions pos outpos with
  | zero => exact ⟨le_rfl, hpos, houtpos⟩
  | succ fuel ih =>
    rw [rtimeCompressLoop]
    split_ifs with hround
    · obtain ⟨hlt, hroom⟩ := hround
      obtain ⟨-, hend, -⟩ := matchRun_spec data 255 (positions (data pos))
        (show pos + 1 ≤ sourcelen from hlt)
      obtain ⟨hle, hle', hlength⟩ := ih (update positions (data pos) (short (pos + 1 : Nat)))
        hend (show outpos + 2 ≤ dstlen by omega)
      dsimp only
      rw [length_cons, length_cons]
      exact ⟨by omega, hle', by omega⟩
    · exact ⟨le_rfl, hpos, houtpos⟩

/-- What has been copied are the bytes that the compressor compared. -/
lemma Copied.agrees {out' : Nat → Byte} {count b : Nat}
    (h : Copied (update out pos (data pos)) (pos + 1) count b out') (hb : b ≤ pos)
    (hout : ∀ i < pos, out i = data i)
    (hrun : ∀ k < count, data (pos + 1 + k : Nat) = data (b + k : Int)) :
    ∀ i < pos + 1 + count, out' i = data i := by
  intro i
  induction i using Nat.strong_induction_on with
  | _ i ih =>
    intro hi
    rcases Nat.lt_trichotomy i pos with hlt | rfl | hgt
    · rw [h.frame i (by omega), update_of_ne hlt.ne, hout i hlt]
    · rw [h.frame i (by omega), update_self]
    · obtain ⟨k, rfl⟩ := Nat.exists_eq_add_of_le hgt
      rw [h.run k (by omega), ih (b + k) (by omega) (by omega), hrun k (by omega)]
      rfl

/-- The two tables stay the same, and what has been consumed is what has been produced. -/
lemma rtimeDecompressLoop_compressed (hdst : 2 ≤ dstlen) (hdst' : dstlen < 2 ^ 32)
    (hsource : sourcelen ≤ 32767) {code rest : List Byte} {s fuel dfuel outpos dpos : Nat}
    {positions : Byte → Int} (hbehind : Behind positions pos) (hpos : pos ≤ sourcelen)
    (houtpos : outpos ≤ dstlen)
    (hcompress : rtimeCompressLoop data sourcelen dstlen fuel positions pos outpos = (s, rest))
    (hcode : code.drop dpos = rest) (hout : ∀ i < pos, out i = data i) (hfuel : s < pos + dfuel) :
    ∃ out', rtimeDecompressLoop code s dfuel positions out pos dpos = .ok out' ∧
      (∀ i < s, out' i = data i) ∧ ∀ i, s ≤ i → out' i = out i := by
  obtain ⟨hle, -⟩ := hcompress ▸
    rtimeCompressLoop_bounds data hdst hdst' fuel positions hpos houtpos
  induction fuel generalizing positions out pos outpos dpos dfuel rest with
  | zero =>
    obtain ⟨rfl, -⟩ := Prod.mk.inj hcompress
    obtain _ | dfuel := dfuel
    · omega
    rw [rtimeDecompressLoop, if_neg (lt_irrefl _)]
    exact ⟨out, rfl, hout, fun i _ => rfl⟩
  | succ fuel ih =>
    obtain _ | dfuel := dfuel
    · omega
    rw [rtimeCompressLoop] at hcompress
    split_ifs at hcompress with hround
    · obtain ⟨hlt, hroom⟩ := hround
      have houtpos' : outpos + 2 ≤ dstlen := by omega
      obtain ⟨hrun, hend, hdata⟩ := matchRun_spec data 255 (positions (data pos))
        (show pos + 1 ≤ sourcelen from hlt)
      dsimp only at hcompress
      generalize matchRun data sourcelen 255 (positions (data pos)) (pos + 1) = run at *
      generalize hnext : rtimeCompressLoop data sourcelen dstlen fuel _ _ _ = next at hcompress
      obtain ⟨s', rest'⟩ := next
      obtain ⟨rfl, rfl⟩ := Prod.mk.inj hcompress
      obtain ⟨hle', -⟩ := hnext ▸ rtimeCompressLoop_bounds data hdst hdst' fuel _ hend
        houtpos'
      have hcount : (BitVec.ofNat 8 run).toNat = run := Nat.mod_eq_of_lt (by omega)
      obtain ⟨b, out₁, hb, hbpos, hcopied, hloop⟩ := rtimeDecompressLoop_pair dfuel out hbehind
        hcode (by omega : pos + 1 + (BitVec.ofNat 8 run).toNat ≤ s')
      rw [hcount] at hcopied hloop
      rw [hb] at hdata
      obtain ⟨out', hout', hsame, hframe⟩ := ih (hbehind.update (by omega) _ run) hend houtpos'
        hnext (drop_pair hcode) (hcopied.agrees hbpos hout hdata)
        (show s' < pos + 1 + run + dfuel by omega) hle'
      refine ⟨out', hloop.trans hout', hsame, fun i hi => ?_⟩
      rw [hframe i hi, hcopied.frame i (by omega), update_of_ne (by omega)]
    · obtain ⟨rfl, -⟩ := Prod.mk.inj hcompress
      rw [rtimeDecompressLoop, if_neg (lt_irrefl _)]
      exact ⟨out, rfl, hout, fun i _ => rfl⟩

/-- A block that has been compressed is shorter than what it stands for, and decompression restores
that within the bounds of both buffers. -/
theorem rtime_round_trip (data : Int → Byte) (sourcelen dstlen : Nat) (hsource : sourcelen ≤ 32767)
    (hdst : 2 ≤ dstlen) (hdst' : dstlen < 2 ^ 32) (s : Nat) (code : List Byte)
    (h : rtimeCompress data sourcelen dstlen = some (s, code)) (page : Nat → Byte) :
    s ≤ sourcelen ∧ code.length ≤ dstlen ∧ code.length < s ∧
      ∃ out, rtimeDecompress code s page = .ok out ∧
        (∀ i < s, out i = data i) ∧ ∀ i, s ≤ i → out i = page i := by
  rw [rtimeCompress] at h
  obtain ⟨-, hle, hlength⟩ := rtimeCompressLoop_bounds data hdst hdst' sourcelen
    (fun _ => 0) (Nat.zero_le _) (Nat.zero_le _)
  generalize hloop : rtimeCompressLoop data sourcelen dstlen sourcelen (fun _ => 0) 0 0 = r at *
  obtain ⟨hshort, hr⟩ := Option.ite_none_left_eq_some.mp h
  obtain ⟨rfl, rfl⟩ := Prod.mk.inj (Option.some.inj hr)
  exact ⟨hle, by omega, not_le.mp hshort, rtimeDecompressLoop_compressed hdst hdst' hsource
    (fun _ => ⟨0, rfl, le_rfl⟩) (Nat.zero_le _) (Nat.zero_le _) hloop rfl
    (fun i hi => absurd hi (Nat.not_lt_zero i)) (by omega)⟩

theorem rtime_round_trip_zeros :
    rtimeCompress (fun _ => 0) 8 8 = some (8, [0, 7]) ∧
      ∃ out, rtimeDecompress [0, 7] 8 (fun _ => 1) = .ok out ∧ ∀ i < 8, out i = 0 := by
  have hcompress : rtimeCompress (fun _ => 0) 8 8 = some (8, [0, 7]) := by decide
  obtain ⟨-, -, -, out, hout, hsame, -⟩ :=
    rtime_round_trip (fun _ => 0) 8 8 (by decide) (by decide) (by decide) 8 [0, 7] hcompress
      fun _ => 1
  exact ⟨hcompress, out, hout, hsame⟩

end RoundTrip

end R0Kernel.Jffs2
