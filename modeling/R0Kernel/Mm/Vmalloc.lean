import R0Kernel.Foundation.Extents
import R0Kernel.Foundation.Masks

/-!
# Areas of `vmalloc`

`__get_vm_area_node` and `__remove_vm_area` of `mm/vmalloc.c`. The walk over `vmlist` compares with
the end of the window only behind an area that lies wholly ahead of the candidate. What it finds
lies in the window exactly if some place in the window is free.
-/

namespace R0Kernel.Vmalloc

open Extents Masks List UInt32

/-- `struct vm_struct`; `vmlist` is the list of these in the order of the links. -/
structure VmStruct where
  addr : UInt32
  size : UInt32
  flags : UInt32
  deriving DecidableEq

def pageShift : Nat := 12

def pageSize : UInt32 := 0x1000

def vmIoremap : UInt32 := 1

def ioremapMaxOrder : Nat := 24

def align (x a : UInt32) : UInt32 := (x + (a - 1)) &&& ~~~(a - 1)

def pageAlign (addr : UInt32) : UInt32 := (addr + pageSize - 1) &&& ~~~(pageSize - 1)

/-- The place of the last bit that is set, from one on. -/
def fls (x : UInt32) : Nat := if x = 0 then 0 else x.toNat.log2 + 1

/-- The order that `__get_vm_area_node` aligns an area for I/O to. -/
def ioremapOrder (size : UInt32) : Nat :=
  if ioremapMaxOrder < fls size then ioremapMaxOrder
  else if fls size < pageShift then pageShift
  else fls size

def alignOf (size flags : UInt32) : UInt32 :=
  if flags &&& vmIoremap ≠ 0 then 1 <<< ofNat (ioremapOrder size) else 1

/-- The walk of `__get_vm_area_node`, with what it has left behind. The result is the address, and
the lists in front of and behind the new area; there is none at `out`. -/
def findPlace (align_ size end_ : UInt32) :
    UInt32 → List VmStruct → List VmStruct → Option (UInt32 × List VmStruct × List VmStruct)
  | addr, before, [] => some (addr, before, [])
  | addr, before, tmp :: rest =>
    if tmp.addr < addr then
      let addr := if addr ≤ tmp.addr + tmp.size then align (tmp.size + tmp.addr) align_ else addr
      findPlace align_ size end_ addr (before ++ [tmp]) rest
    else if size + addr < addr then none
    else if size + addr ≤ tmp.addr then some (addr, before, tmp :: rest)
    else
      let addr := align (tmp.size + tmp.addr) align_
      if end_ - size < addr then none
      else findPlace align_ size end_ addr (before ++ [tmp]) rest

/-- `__get_vm_area_node`, with what `kmalloc_node` does. -/
def getVmAreaNode (size flags start end_ : UInt32) (granted : Bool) (vmlist : List VmStruct) :
    Option (VmStruct × List VmStruct) :=
  let addr := align start (alignOf size flags)
  if pageAlign size = 0 then none
  else if !granted then none
  else
    match findPlace (alignOf size flags) (pageAlign size + pageSize) end_ addr [] vmlist with
    | none => none
    | some (addr, before, rest) =>
      let area := ⟨addr, pageAlign size + pageSize, flags⟩
      some (area, before ++ area :: rest)

def removeVmArea (addr : UInt32) : List VmStruct → Option (VmStruct × List VmStruct)
  | [] => none
  | tmp :: rest =>
    if tmp.addr = addr then some ({ tmp with size := tmp.size - pageSize }, rest)
    else (removeVmArea addr rest).map fun found => (found.1, tmp :: found.2)

/-! ### Rounding up -/

section Rounding

variable {x y : UInt32} {k : Nat}

/-- `ALIGN` goes to the next multiple, if an aligned address is left. -/
lemma align_spec {a g : UInt32} (ha : a.toNat = 2 ^ k) (hk : k < 32) (hg : a.toNat ∣ g.toNat)
    (hx : x.toNat ≤ g.toNat) :
    x.toNat ≤ (align x a).toNat ∧ (align x a).toNat ≤ g.toNat ∧ a.toNat ∣ (align x a).toNat := by
  have hpos : 0 < 2 ^ k := Nat.two_pow_pos k
  have htop := g.toNat_lt
  rw [ha] at hg
  obtain ⟨m, hm⟩ := hg
  -- the last multiple of `a` leaves room for the addition
  have hroom : g.toNat + 2 ^ k ≤ 2 ^ 32 := by
    have hsplit : (2 : Nat) ^ 32 = 2 ^ k * 2 ^ (32 - k) := by
      rw [← pow_add, Nat.add_sub_cancel' hk.le]
    rw [hm, hsplit] at htop ⊢
    exact Nat.mul_le_mul_left _ (Nat.lt_of_mul_lt_mul_left htop)
  have hval : (align x a).toNat = (x.toNat + (2 ^ k - 1)) / 2 ^ k * 2 ^ k := by
    rw [align, toNat_and_not ha hk.le, UInt32.toNat_add, toNat_sub_one ha,
      Nat.mod_eq_of_lt (by omega)]
  have hdiv : (x.toNat + (2 ^ k - 1)) / 2 ^ k ≤ m := by
    rw [Nat.div_le_iff_le_mul hpos]
    rw [hm, mul_comm] at hx
    omega
  have hmod := Nat.div_add_mod' (x.toNat + (2 ^ k - 1)) (2 ^ k)
  refine ⟨?_, ?_, ?_⟩
  · omega
  · rw [hval, hm, mul_comm (2 ^ k) m]
    exact Nat.mul_le_mul_right _ hdiv
  · rw [hval, ha]
    exact Nat.dvd_mul_left ..

lemma ioremapOrder_le (size : UInt32) : ioremapOrder size ≤ 24 := by
  rw [ioremapOrder]
  split_ifs with hmax hmin
  · decide
  · decide
  · exact Nat.le_of_not_lt hmax

lemma exists_alignOf (size flags : UInt32) : ∃ k < 32, (alignOf size flags).toNat = 2 ^ k := by
  rw [alignOf]
  split_ifs
  · have hle := ioremapOrder_le size
    exact ⟨ioremapOrder size, by omega, toNat_one_shiftLeft (by omega)⟩
  · exact ⟨0, by decide, rfl⟩

end Rounding

/-! ### The list of areas -/

namespace VmStruct

def first (area : VmStruct) : Nat := area.addr.toNat

/-- Where the range of an area ends, its guard page included. -/
def last (area : VmStruct) : Nat := area.addr.toNat + area.size.toNat

end VmStruct

/-- The areas are sorted by address, disjoint, and end by the end of the address space. -/
structure Sorted (vmlist : List VmStruct) : Prop where
  ordered : Ordered VmStruct.first VmStruct.last vmlist
  last_le : ∀ area ∈ vmlist, area.last ≤ 2 ^ 32

/-- The pages of a request and the guard page, in numbers that do not wrap. -/
def guarded (size : UInt32) : Nat := (pageAlign size).toNat + pageSize.toNat

/-- A place for an area of the size: in the window, aligned, and free. -/
structure Fits (vmlist : List VmStruct) (align_ size start end_ : Nat) (a : Nat) : Prop where
  start_le : start ≤ a
  le_end : a + size ≤ end_
  aligned : align_ ∣ a
  free : Free VmStruct.first VmStruct.last vmlist a (a + size)

/-! ### The walk -/

section Walk

variable {align_ size end_ addr g : UInt32} {k : Nat} {before rest : List VmStruct}

/-- What the walk has when it stops at a place. -/
structure Found (align_ size addr g : UInt32) (before rest : List VmStruct) (found : UInt32)
    (before' rest' : List VmStruct) : Prop where
  split : before' ++ rest' = before ++ rest
  addr_le : addr.toNat ≤ found.toNat
  le_goal : found.toNat ≤ g.toNat
  aligned : align_.toNat ∣ found.toNat
  last_le : ∀ area ∈ before', area.last ≤ found.toNat
  le_first : ∀ area ∈ rest', found.toNat + size.toNat ≤ area.first

/-- As long as some place `g` is free and in the window, the walk finds a place, and finds none
behind `g`. -/
lemma findPlace_spec (ha : align_.toNat = 2 ^ k) (hk : k < 32)
    (hordered : Ordered VmStruct.first VmStruct.last rest)
    (hg : align_.toNat ∣ g.toNat) (hend : g.toNat + size.toNat ≤ end_.toNat)
    (hfree : Free VmStruct.first VmStruct.last rest g.toNat (g.toNat + size.toNat))
    (haddr : align_.toNat ∣ addr.toNat) (hle : addr.toNat ≤ g.toNat)
    (hbefore : ∀ area ∈ before, area.last ≤ addr.toNat) :
    ∃ found before' rest',
      findPlace align_ size end_ addr before rest = some (found, before', rest') ∧
        Found align_ size addr g before rest found before' rest' := by
  induction rest generalizing addr before with
  | nil =>
    exact ⟨addr, before, [], rfl, rfl, le_rfl, hle, haddr, hbefore, by simp⟩
  | cons tmp rest ih =>
    have htop := end_.toNat_lt
    have hnowrap : (size + addr).toNat = addr.toNat + size.toNat := by
      rw [UInt32.toNat_add, add_comm]
      exact Nat.mod_eq_of_lt (by omega)
    have hstop (hroom : addr.toNat + size.toNat ≤ tmp.first) :
        Found align_ size addr g before (tmp :: rest) addr before (tmp :: rest) :=
      ⟨rfl, le_rfl, hle, haddr, hbefore, fun _ harea => hroom.trans (hordered.le_lo harea)⟩
    -- a place behind `tmp` is found by the rest of the walk
    have hpast : ∀ addr', align_.toNat ∣ addr'.toNat → addr'.toNat ≤ g.toNat → addr.toNat ≤
        addr'.toNat → tmp.last ≤ addr'.toNat → ∃ found before' rest',
          findPlace align_ size end_ addr' (before ++ [tmp]) rest = some (found, before', rest') ∧
            Found align_ size addr g before (tmp :: rest) found before' rest' := by
      intro addr' haddr' hle' hmono hlast
      obtain ⟨found, before', rest', hfind, hfound⟩ := ih hordered.of_cons
        (fun area harea => hfree area (mem_cons_of_mem _ harea)) haddr' hle'
        (forall_mem_append.mpr ⟨fun area harea => (hbefore area harea).trans hmono,
          forall_mem_singleton.mpr hlast⟩)
      refine ⟨found, before', rest', hfind, ?_, hmono.trans hfound.addr_le, hfound.le_goal,
        hfound.aligned, hfound.last_le, hfound.le_first⟩
      rw [hfound.split, append_assoc, singleton_append]
    simp only [findPlace, lt_iff_toNat_lt, UInt32.le_iff_toNat_le, hnowrap, add_comm tmp.addr]
    have hbegin : tmp.addr.toNat = tmp.first := rfl
    rcases hfree tmp mem_cons_self with hlast | hroom
    · -- `tmp` ends by `g`, so its end does not wrap
      have hsum : (tmp.size + tmp.addr).toNat = tmp.last := by
        rw [UInt32.toNat_add, add_comm]
        exact Nat.mod_eq_of_lt (by rw [VmStruct.last] at hlast; omega)
      have hnonempty := hordered.nonempty tmp mem_cons_self
      obtain ⟨hend', hgoal', hdvd⟩ := align_spec ha hk hg (hsum.trans_le hlast)
      have hsub := UInt32.toNat_sub_of_le end_ size (UInt32.le_iff_toNat_le.mpr (by omega))
      split_ifs
      · exact hpast _ hdvd hgoal' (by omega) (by omega)
      · exact hpast _ haddr hle le_rfl (by omega)
      · omega
      · exact ⟨_, _, _, rfl, hstop ‹_›⟩
      · omega
      · exact hpast _ hdvd hgoal' (by omega) (by omega)
    · -- `tmp` begins behind `g`, where the candidate fits too
      rw [if_neg (by omega), if_neg (by omega), if_pos (by omega)]
      exact ⟨_, _, _, rfl, hstop (by omega)⟩

end Walk

/-! ### Removing an area -/

lemma removeVmArea_append {before rest : List VmStruct} {area : VmStruct}
    (h : ∀ other ∈ before, other.addr ≠ area.addr) :
    removeVmArea area.addr (before ++ area :: rest) =
      some ({ area with size := area.size - pageSize }, before ++ rest) := by
  induction before with
  | nil => simp [removeVmArea]
  | cons other before ih =>
    have hother := h other mem_cons_self
    rw [cons_append, removeVmArea, if_neg hother,
      ih fun b hb => h b (mem_cons_of_mem _ hb)]
    rfl

/-! ### The window -/

section Window

variable {vmlist vmlist' : List VmStruct} {size flags start end_ : UInt32} {granted : Bool}
  {area : VmStruct}

/-- What is expected of an area and of the list with it. -/
structure Answered (vmlist : List VmStruct) (size flags start end_ : UInt32) (area : VmStruct)
    (vmlist' : List VmStruct) : Prop where
  size_eq : area.size.toNat = guarded size
  fits : Fits vmlist (alignOf size flags).toNat (guarded size) start.toNat end_.toNat area.first
  sorted : Sorted vmlist'
  removed : removeVmArea area.addr vmlist' =
    some ({ area with size := area.size - pageSize }, vmlist)

lemma guarded_toNat {a : Nat} (h : a + guarded size ≤ end_.toNat) :
    (pageAlign size + pageSize).toNat = guarded size := by
  have htop := end_.toNat_lt
  rw [UInt32.toNat_add]
  exact Nat.mod_eq_of_lt (by rw [guarded] at h; omega)

lemma getVmAreaNode_eq_some
    (hget : getVmAreaNode size flags start end_ granted vmlist = some (area, vmlist')) :
    ∃ addr before rest,
      findPlace (alignOf size flags) (pageAlign size + pageSize) end_
          (align start (alignOf size flags)) [] vmlist = some (addr, before, rest) ∧
        area = ⟨addr, pageAlign size + pageSize, flags⟩ ∧ vmlist' = before ++ area :: rest := by
  simp only [getVmAreaNode] at hget
  split_ifs at hget
  split at hget
  · cases hget
  · rename_i addr before rest hfind
    cases hget
    exact ⟨addr, before, rest, hfind, rfl, rfl⟩

/-- If there is a place in the window, the area is at one. -/
lemma answered_of_fits (hsorted : Sorted vmlist) {a : Nat}
    (hfits : Fits vmlist (alignOf size flags).toNat (guarded size) start.toNat end_.toNat a)
    (hget : getVmAreaNode size flags start end_ granted vmlist = some (area, vmlist')) :
    Answered vmlist size flags start end_ area vmlist' := by
  obtain ⟨k, hk, ha⟩ := exists_alignOf size flags
  have hsize := guarded_toNat hfits.le_end
  have htop := end_.toNat_lt
  have hle := hfits.le_end
  have hpage : 0 < guarded size := Nat.add_pos_right _ (by decide)
  obtain ⟨g, rfl⟩ : ∃ g : UInt32, g.toNat = a :=
    ⟨ofNat a, toNat_ofNat_of_lt' (show a < 2 ^ 32 by omega)⟩
  obtain ⟨hstart, hgoal, haligned⟩ := align_spec ha hk hfits.aligned hfits.start_le
  have hfree := hfits.free
  rw [← hsize] at hfree hle
  obtain ⟨addr, before, rest, hfind, rfl, rfl⟩ := getVmAreaNode_eq_some hget
  have hnone : ∀ area ∈ ([] : List VmStruct),
      area.last ≤ (align start (alignOf size flags)).toNat := by simp
  obtain ⟨found, before', rest', hfind', hfound⟩ :=
    findPlace_spec ha hk hsorted.ordered hfits.aligned hle hfree haligned hgoal hnone
  rw [hfind] at hfind'
  cases hfind'
  obtain ⟨hsplit, haddr, hbelow, hdvd, hlast, hfirst⟩ := hfound
  subst hsplit
  have hordered := hsorted.ordered
  rw [hsize] at hfirst hle
  refine ⟨hsize, ⟨hstart.trans haddr, ?_, hdvd, ?_⟩, ⟨?_, ?_⟩, ?_⟩
  · exact (Nat.add_le_add_right hbelow _).trans hle
  · exact forall_mem_append.mpr ⟨fun other hother => .inl (hlast other hother),
      fun other hother => .inr (hfirst other hother)⟩
  · refine hordered.insert ?_ hlast ?_
    · simp only [VmStruct.first, VmStruct.last, hsize]
      omega
    · simpa only [VmStruct.last, hsize] using hfirst
  · obtain ⟨hfront, hback⟩ := forall_mem_append.mp hsorted.last_le
    refine forall_mem_append.mpr ⟨hfront, forall_mem_cons.mpr ⟨?_, hback⟩⟩
    simp only [VmStruct.last, hsize]
    omega
  · -- what is in front of the area begins before it
    refine removeVmArea_append fun other hother heq => ?_
    have hbegin := hordered.nonempty other (mem_append_left _ hother)
    have hend := hlast other hother
    rw [VmStruct.first, heq] at hbegin
    exact absurd hend (Nat.not_le_of_lt hbegin)

/-- An area that is returned is in the window, aligned and disjoint from the others, leaves the list
sorted and can be taken out again, exactly if the window has a free place for it. -/
theorem get_vm_area_node_iff (vmlist : List VmStruct) (size flags start end_ : UInt32)
    (granted : Bool) (hsorted : Sorted vmlist)
    (hget : getVmAreaNode size flags start end_ granted vmlist = some (area, vmlist')) :
    Answered vmlist size flags start end_ area vmlist' ↔
      ∃ a, Fits vmlist (alignOf size flags).toNat (guarded size) start.toNat end_.toNat a :=
  ⟨fun h => ⟨area.first, h.fits⟩, fun ⟨_, hfits⟩ => answered_of_fits hsorted hfits hget⟩

/-- Two areas with one gap between them, and a window that reaches over both. -/
theorem get_vm_area_node_iff_gap :
    Answered [⟨0xd0800000, 0x3000, 2⟩, ⟨0xd0810000, 0x3000, 2⟩] 0x2000 1 0xd0800000 0xe0000000
      ⟨0xd0804000, 0x3000, 1⟩
      [⟨0xd0800000, 0x3000, 2⟩, ⟨0xd0804000, 0x3000, 1⟩, ⟨0xd0810000, 0x3000, 2⟩] := by
  refine (get_vm_area_node_iff [⟨0xd0800000, 0x3000, 2⟩, ⟨0xd0810000, 0x3000, 2⟩]
    0x2000 1 0xd0800000
    0xe0000000 true ⟨⟨?_, ?_⟩, ?_⟩ ?_).mpr ⟨0xd0804000, ?_, ?_, ?_, ?_⟩
  · decide +kernel
  · decide +kernel
  · decide +kernel
  · decide +kernel
  · decide +kernel
  · decide +kernel
  · decide +kernel
  · unfold Free
    decide +kernel

/-- With no area yet, the end of the window is never looked at. -/
theorem get_vm_area_node_beyond_end :
    Sorted [] ∧ ∃ area vmlist',
      getVmAreaNode 0x1000 2 0x1000 0x2000 true [] = some (area, vmlist') ∧
        (0x2000 : UInt32).toNat < area.last ∧
        ¬Answered [] 0x1000 2 0x1000 0x2000 area vmlist' := by
  refine ⟨⟨.nil, by simp⟩, ⟨0x1000, 0x2000, 2⟩, [⟨0x1000, 0x2000, 2⟩], by decide +kernel,
    by decide +kernel, fun h => ?_⟩
  have hle := h.fits.le_end
  revert hle
  decide +kernel

end Window

end R0Kernel.Vmalloc
