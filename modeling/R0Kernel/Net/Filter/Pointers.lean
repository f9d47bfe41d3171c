import R0Kernel.Net.Filter.Model

/-!
# Where packet loads point

`load_pointer` with its pointers as addresses of 32 bits. A load at an offset from zero on is
compared with the end of the linear part as a whole. One at an offset that names a header is
compared by its first byte only, so that its last bytes may lie behind the tail.
-/

namespace R0Kernel.Net.Filter

open UInt32

/-- The pointers of an `sk_buff`, each between `head` and the tail, and the number of bytes in its
pages. -/
structure Pointers where
  head : UInt32
  data : UInt32
  tail : UInt32
  networkHeader : UInt32
  macHeader : UInt32
  dataLen : Nat
  head_pos : 0 < head
  data_between : head ≤ data ∧ data ≤ tail
  network_between : head ≤ networkHeader ∧ networkHeader ≤ tail
  mac_between : head ≤ macHeader ∧ macHeader ≤ tail
  len_lt : tail.toNat - data.toNat + dataLen < 2 ^ 31

/-- What a load returns that is not NULL: an address, or the buffer of the caller. -/
inductive Place where
  | address (a : UInt32)
  | buffer
deriving DecidableEq

namespace Pointers

variable (skb : Pointers)

def headlen : Nat := skb.tail.toNat - skb.data.toNat

/-- `skb_header_pointer`, for an `offset` that is not negative. -/
def headerPointer (offset size : Nat) : Option Place :=
  if offset + size ≤ skb.headlen then some (.address (skb.data + UInt32.ofNat offset))
  else if skb.headlen + skb.dataLen < offset + size then none
  else some .buffer

/-- `ptr` of `__load_pointer`. -/
def target (k : Int32) : UInt32 :=
  if skfNetOff ≤ k.toInt then ofInt (skb.networkHeader.toNat + k.toInt - skfNetOff)
  else if skfLlOff ≤ k.toInt then ofInt (skb.macHeader.toNat + k.toInt - skfLlOff)
  else 0

/-- `__load_pointer` -/
def loadPointer' (k : Int32) : Option Place :=
  if skb.head ≤ skb.target k ∧ skb.target k < skb.tail then some (.address (skb.target k)) else none

def loadPointer (k : Int32) (size : Nat) : Option Place :=
  if 0 ≤ k.toInt then skb.headerPointer k.toInt.toNat size
  else if skfAdOff ≤ k.toInt then none
  else skb.loadPointer' k

/-- All `size` bytes at the place are in the buffer of the caller, or between `head` and the
tail. -/
def Inside (size : Nat) : Place → Prop
  | .address a => skb.head ≤ a ∧ a.toNat + size ≤ skb.tail.toNat
  | .buffer => True

/-- The first byte of the load at `k` lies in front of the tail, and the last one does not. -/
def Straddles (k : Int32) (size : Nat) : Prop :=
  k.toInt < skfAdOff ∧ skb.head ≤ skb.target k ∧ skb.target k < skb.tail ∧
    skb.tail.toNat < (skb.target k).toNat + size

instance (k : Int32) (size : Nat) : Decidable (skb.Straddles k size) :=
  inferInstanceAs (Decidable (_ ∧ _))

variable {skb}

/-- An offset into the linear part does not leave the address space. -/
lemma toNat_data_add {offset : Nat} (h : offset ≤ skb.headlen) :
    (skb.data + UInt32.ofNat offset).toNat = skb.data.toNat + offset := by
  have hdata := le_iff_toNat_le.mp skb.data_between.2
  have hsize := skb.tail.toNat_lt
  simp only [headlen] at h
  have hoffset : (UInt32.ofNat offset).toNat = offset :=
    toNat_ofNat_of_lt' (by simp only [size]; omega)
  rw [UInt32.toNat_add, hoffset, Nat.mod_eq_of_lt (by omega)]

lemma headerPointer_inside {offset size : Nat} {place : Place}
    (h : skb.headerPointer offset size = some place) : skb.Inside size place := by
  simp only [headerPointer] at h
  split_ifs at h with hlinear
  · obtain rfl := Option.some.inj h
    obtain ⟨hhead, htail⟩ := skb.data_between
    have hsum := skb.toNat_data_add (Nat.le_of_add_right_le hlinear)
    rw [le_iff_toNat_le] at hhead htail
    simp only [headlen] at hlinear
    refine ⟨?_, ?_⟩
    · rw [le_iff_toNat_le]
      omega
    · omega
  · obtain rfl := Option.some.inj h
    trivial

/-- A load stays inside if and only if it does not straddle the tail. -/
theorem load_pointer_inside_iff (skb : Pointers) (k : Int32) (size : Size) :
    (∀ place, skb.loadPointer k size.bytes = some place → skb.Inside size.bytes place) ↔
      ¬skb.Straddles k size.bytes := by
  constructor
  · rintro hinside ⟨hk, hhead, htail, hlong⟩
    have hload : skb.loadPointer k size.bytes = some (.address (skb.target k)) := by
      have hneg : ¬0 ≤ k.toInt := by
        simp only [skfAdOff] at hk
        omega
      rw [loadPointer, if_neg hneg, if_neg (Int.not_le.mpr hk), loadPointer', if_pos ⟨hhead, htail⟩]
    have hend := (hinside _ hload).2
    omega
  · intro hstraddles place hload
    simp only [loadPointer, loadPointer'] at hload
    split_ifs at hload with hpos had hcheck
    · exact headerPointer_inside hload
    · obtain rfl := Option.some.inj hload
      refine ⟨hcheck.1, ?_⟩
      by_contra hlong
      exact hstraddles ⟨Int.not_le.mp had, hcheck.1, hcheck.2, not_le.mp hlong⟩

/-- A packet of 64 bytes at the start of the kernel's memory. -/
def small : Pointers where
  head := 0xc0000000
  data := 0xc0000000
  tail := 0xc0000040
  networkHeader := 0xc000000e
  macHeader := 0xc0000000
  dataLen := 0
  head_pos := by decide
  data_between := by decide
  network_between := by decide
  mac_between := by decide
  len_lt := by decide

/-- A word at the last byte of the linear part. -/
theorem load_pointer_behind_tail :
    small.loadPointer (Int32.ofInt (skfLlOff + 63)) (Size.bytes .w) = some (.address 0xc000003f) ∧
    ¬small.Inside (Size.bytes .w) (.address 0xc000003f) := by
  refine ⟨by decide +kernel, fun h => ?_⟩
  exact absurd h.2 (by decide)

end Pointers

end R0Kernel.Net.Filter
