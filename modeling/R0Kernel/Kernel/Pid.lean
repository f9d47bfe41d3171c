import R0Kernel.Foundation.BitRun
import Mathlib.Logic.Relation
import Mathlib.Logic.Function.Basic

/-!
# Process ids

`alloc_pidmap` and `free_pidmap` of `kernel/pid.c`: a circular search over the bitmap pages of a
namespace, from the pid after the last one, that does not come back to the pids below
`RESERVED_PIDS`. A page is allocated when the search first comes to it. The pass over the starting
page at the end of the search goes on only below the last pid, so the last pid itself is tried only
at the edge of a page.
-/

namespace R0Kernel.Pid

open BitRun Function

def RESERVED_PIDS : Nat := 300

/-- The page size and `pid_max`. -/
structure Config where
  pageShift : Nat
  pidMax : Nat
  page_le : 12 ≤ pageShift
  reserved_lt : RESERVED_PIDS < pidMax

def Config.bitsPerPage (c : Config) : Nat := 2 ^ c.pageShift * 8

/-- `struct pidmap`; a page that is not there yet is `none`. -/
structure Pidmap where
  nrFree : Nat
  page : Option Bits

structure PidNamespace where
  pidmap : Nat → Pidmap
  lastPid : Nat

variable (c : Config)

/-- A new namespace: the pid zero is taken. -/
def createPidNamespace : PidNamespace where
  pidmap map :=
    if map = 0 then ⟨c.bitsPerPage - 1, some (update (fun _ => false) 0 true)⟩
    else ⟨c.bitsPerPage, none⟩
  lastPid := 0

/-! ### `free_pidmap` and `alloc_pidmap` -/

/-- The offset of a pid in its page, `pid & BITS_PER_PAGE_MASK`. -/
def offsetOf (pid : Nat) : Nat := pid &&& (c.bitsPerPage - 1)

def mkPid (map off : Nat) : Nat := map * c.bitsPerPage + off

def findNextOffset (page : Bits) (off : Nat) : Nat :=
  (firstZero page off c.bitsPerPage).getD c.bitsPerPage

def PidNamespace.setMap (ns : PidNamespace) (map : Nat) (m : Pidmap) : PidNamespace :=
  { ns with pidmap := update ns.pidmap map m }

def freePidmap (ns : PidNamespace) (pid : Nat) : PidNamespace :=
  let m := ns.pidmap (pid / c.bitsPerPage)
  ns.setMap (pid / c.bitsPerPage)
    ⟨m.nrFree + 1, m.page.map fun page => update page (offsetOf c pid) false⟩

/-- Whether the search of a page may go on to a pid; the last pass stops before the last pid, unless
that was the end of a page. -/
def goesOn (last maxScan i pid : Nat) : Prop :=
  i ≠ maxScan ∨ pid < last ∨ offsetOf c (last + 1) = 0

instance (last maxScan i pid : Nat) : Decidable (goesOn c last maxScan i pid) :=
  inferInstanceAs (Decidable (_ ∨ _))

/-- The `do` loop on one page, to a clear bit. -/
def scanPage (page : Bits) (map last maxScan i : Nat) : (fuel offset pid : Nat) → Option (Nat × Nat)
  | 0, _, _ => none
  | fuel + 1, offset, pid =>
    if page offset = false then some (offset, pid)
    else
      let offset := findNextOffset c page offset
      let pid := mkPid c map offset
      if offset < c.bitsPerPage ∧ pid < c.pidMax ∧ goesOn c last maxScan i pid then
        scanPage page map last maxScan i fuel offset pid
      else none

def allocLoop (last maxScan : Nat) : (passes i map offset pid : Nat) → PidNamespace →
    Option Nat × PidNamespace
  | 0, _, _, _, _, ns => (none, ns)
  | passes + 1, i, map, offset, pid, ns =>
    let m := ns.pidmap map
    let page := m.page.getD fun _ => false
    match if m.nrFree ≠ 0 then
        scanPage c page map last maxScan i (c.bitsPerPage + 1) offset pid
      else none with
    | some (offset, pid) =>
      (some pid, { ns.setMap map ⟨m.nrFree - 1, some (update page offset true)⟩ with
        lastPid := pid })
    | none =>
      let ns := ns.setMap map { m with page := some page }
      if map < (c.pidMax - 1) / c.bitsPerPage then
        allocLoop last maxScan passes (i + 1) (map + 1) 0 (mkPid c (map + 1) 0) ns
      else if last = RESERVED_PIDS then (none, ns)
      else allocLoop last maxScan passes (i + 1) 0 RESERVED_PIDS (mkPid c 0 RESERVED_PIDS) ns

def firstPid (last : Nat) : Nat := if c.pidMax ≤ last + 1 then RESERVED_PIDS else last + 1

def maxScan (last : Nat) : Nat :=
  (c.pidMax + c.bitsPerPage - 1) / c.bitsPerPage -
    if offsetOf c (firstPid c last) = 0 then 1 else 0

/-- `alloc_pidmap`; `-1` is `none`. -/
def allocPidmap (ns : PidNamespace) : Option Nat × PidNamespace :=
  let pid := firstPid c ns.lastPid
  allocLoop c ns.lastPid (maxScan c ns.lastPid) (maxScan c ns.lastPid + 1) 0 (pid / c.bitsPerPage)
    (offsetOf c pid) pid ns

/-! ### Pids and pages -/

/-- The bits of a page; one that is not there yet is clear. -/
def PidNamespace.bits (ns : PidNamespace) (map : Nat) : Bits :=
  (ns.pidmap map).page.getD fun _ => false

def allocated (ns : PidNamespace) (pid : Nat) : Bool :=
  ns.bits (pid / c.bitsPerPage) (pid % c.bitsPerPage)

def Counted (ns : PidNamespace) : Prop :=
  ∀ map, (ns.pidmap map).nrFree = zeros (ns.bits map) c.bitsPerPage

/-- A pid has been taken, and nothing else has changed. -/
structure Takes (ns : PidNamespace) (pid : Nat) (ns' : PidNamespace) : Prop where
  lt : pid < c.pidMax
  free : allocated c ns pid = false
  set : ∀ q, allocated c ns' q = (allocated c ns q || q == pid)
  last : ns'.lastPid = pid
  counted : Counted c ns'

/-- Nothing has changed but that pages may have been allocated. -/
structure Keeps (ns ns' : PidNamespace) : Prop where
  set : ∀ q, allocated c ns' q = allocated c ns q
  last : ns'.lastPid = ns.lastPid
  counted : Counted c ns'

variable {c} {ns ns' : PidNamespace} {page : Bits}
  {last max i map offset pid passes q : Nat} {m : Pidmap} {ns'' : PidNamespace} {taken : Nat → Bool}

lemma Config.bitsPerPage_eq (c : Config) : c.bitsPerPage = 2 ^ (c.pageShift + 3) := by
  rw [pow_add]
  rfl

lemma Config.bitsPerPage_ge (c : Config) : 32768 ≤ c.bitsPerPage := by
  have hshift : 15 ≤ c.pageShift + 3 := Nat.add_le_add_right c.page_le 3
  rw [c.bitsPerPage_eq]
  exact Nat.pow_le_pow_right (n := 2) (by decide) hshift

lemma Config.bitsPerPage_pos (c : Config) : 0 < c.bitsPerPage :=
  Nat.lt_of_lt_of_le (by decide) c.bitsPerPage_ge

lemma offsetOf_eq (pid : Nat) : offsetOf c pid = pid % c.bitsPerPage := by
  rw [offsetOf, c.bitsPerPage_eq, Nat.and_two_pow_sub_one_eq_mod]

lemma mkPid_div (hoffset : offset < c.bitsPerPage) : mkPid c map offset / c.bitsPerPage = map := by
  rw [mkPid, Nat.mul_comm, Nat.mul_add_div (by omega), Nat.div_eq_of_lt hoffset, Nat.add_zero]

lemma mkPid_mod (hoffset : offset < c.bitsPerPage) :
    mkPid c map offset % c.bitsPerPage = offset := by
  rw [mkPid, Nat.mul_comm, Nat.mul_add_mod, Nat.mod_eq_of_lt hoffset]

lemma mkPid_div_mod (pid : Nat) : mkPid c (pid / c.bitsPerPage) (pid % c.bitsPerPage) = pid := by
  rw [mkPid, Nat.mul_comm]
  exact Nat.div_add_mod pid c.bitsPerPage

lemma bits_setMap (map' : Nat) : (ns.setMap map m).bits map' =
    if map' = map then m.page.getD fun _ => false else ns.bits map' := by
  simp only [PidNamespace.bits, PidNamespace.setMap, update_apply]
  split <;> rfl

lemma Counted.setMap (h : Counted c ns)
    (hm : m.nrFree = zeros (m.page.getD fun _ => false) c.bitsPerPage) :
    Counted c (ns.setMap map m) := by
  intro map'
  rw [bits_setMap]
  simp only [PidNamespace.setMap, update_apply]
  split
  · exact hm
  · exact h map'

lemma Counted.keeps_page (h : Counted c ns) (map : Nat) :
    Keeps c ns (ns.setMap map { ns.pidmap map with page := some (ns.bits map) }) := by
  refine ⟨fun q => ?_, rfl, h.setMap (h map)⟩
  rw [allocated, bits_setMap]
  split
  · next heq => rw [← heq]; rfl
  · rfl

lemma allocated_update (ns : PidNamespace) (pid nrFree : Nat) (bit : Bool) (q : Nat) :
    allocated c (ns.setMap (pid / c.bitsPerPage) ⟨nrFree, some
      (update (ns.bits (pid / c.bitsPerPage)) (pid % c.bitsPerPage) bit)⟩) q =
        if q = pid then bit else allocated c ns q := by
  rw [allocated, allocated, bits_setMap]
  by_cases hpid : q = pid
  · rw [if_pos hpid, hpid, if_pos rfl, Option.getD_some, update_self]
  rw [if_neg hpid]
  by_cases hmap : q / c.bitsPerPage = pid / c.bitsPerPage
  · have hq : q % c.bitsPerPage ≠ pid % c.bitsPerPage := by
      intro hq
      apply hpid
      rw [← mkPid_div_mod (c := c) q, hmap, hq, mkPid_div_mod]
    rw [if_pos hmap, Option.getD_some, update_of_ne hq, hmap]
  · rw [if_neg hmap]

lemma Counted.takes (h : Counted c ns) (hoffset : offset < c.bitsPerPage)
    (hlt : mkPid c map offset < c.pidMax) (hfree : ns.bits map offset = false) :
    Takes c ns (mkPid c map offset)
      { ns.setMap map ⟨(ns.pidmap map).nrFree - 1, some (update (ns.bits map) offset true)⟩
        with lastPid := mkPid c map offset } := by
  have hcount := zeros_update_true hoffset hfree
  refine ⟨hlt, by rw [allocated, mkPid_div hoffset, mkPid_mod hoffset, hfree], fun q => ?_, rfl,
    h.setMap ?_⟩
  · have hset :=
      allocated_update (c := c) ns (mkPid c map offset) ((ns.pidmap map).nrFree - 1) true q
    rw [mkPid_div hoffset, mkPid_mod hoffset] at hset
    refine hset.trans ?_
    split <;> simp_all
  · have hnr := h map
    simp only [Option.getD_some]
    omega

lemma Counted.free (h : Counted c ns) (hset : allocated c ns pid = true) :
    Counted c (freePidmap c ns pid) ∧
      ∀ q, allocated c (freePidmap c ns pid) q = (allocated c ns q && q != pid) := by
  -- a page with a set bit is there
  obtain ⟨page, hpage⟩ : ∃ page, (ns.pidmap (pid / c.bitsPerPage)).page = some page := by
    cases hpage : (ns.pidmap (pid / c.bitsPerPage)).page with
    | none => simp [allocated, PidNamespace.bits, hpage] at hset
    | some page => exact ⟨page, rfl⟩
  have hbits : page = ns.bits (pid / c.bitsPerPage) := by rw [PidNamespace.bits, hpage]; rfl
  simp only [freePidmap, hpage, Option.map_some, offsetOf_eq, hbits]
  constructor
  · apply h.setMap
    rw [Option.getD_some, zeros_update_false (Nat.mod_lt _ c.bitsPerPage_pos) hset, h]
  · intro q
    rw [allocated_update]
    split <;> simp_all

/-! ### One page -/

/-- What a pass over a page tries. -/
def Tries (c : Config) (last max i map offset q : Nat) : Prop :=
  q / c.bitsPerPage = map ∧ offset ≤ q % c.bitsPerPage ∧ q < c.pidMax ∧
    (q % c.bitsPerPage = offset ∨ goesOn c last max i q)

lemma goesOn_of_le (h : goesOn c last max i q) (hle : pid ≤ q) : goesOn c last max i pid := by
  rcases h with hpass | hlt | hedge
  · exact .inl hpass
  · exact .inr (.inl (hle.trans_lt hlt))
  · exact .inr (.inr hedge)

lemma scanPage_spec (fuel : Nat) (hoffset : offset < c.bitsPerPage)
    (hpid : mkPid c map offset < c.pidMax) :
    let r := scanPage c page map last max i (fuel + 2) offset (mkPid c map offset)
    (∃ o, r = some (o, mkPid c map o) ∧ o < c.bitsPerPage ∧ page o = false ∧
        Tries c last max i map offset (mkPid c map o)) ∨
      r = none ∧ ∀ q, Tries c last max i map offset q → page (q % c.bitsPerPage) = true := by
  rw [scanPage]
  by_cases hfree : page offset = false
  · rw [if_pos hfree]
    refine .inl ⟨offset, rfl, hoffset, hfree, mkPid_div hoffset, ?_, hpid, .inl (mkPid_mod hoffset)⟩
    rw [mkPid_mod hoffset]
  rw [if_neg hfree]
  by_cases hfound : findNextOffset c page offset < c.bitsPerPage ∧
      mkPid c map (findNextOffset c page offset) < c.pidMax ∧
      goesOn c last max i (mkPid c map (findNextOffset c page offset))
  · rw [if_pos hfound]
    obtain ⟨hlt, hmax, hgoes⟩ := hfound
    cases hfirst : firstZero page offset c.bitsPerPage with
    | none => simp [findNextOffset, hfirst] at hlt
    | some o =>
      have hnext : findNextOffset c page offset = o := by rw [findNextOffset, hfirst]; rfl
      rw [hnext] at hlt hmax hgoes ⊢
      obtain ⟨hle, -, hclear⟩ := firstZero_some hfirst
      rw [scanPage, if_pos hclear]
      refine .inl ⟨o, rfl, hlt, hclear, mkPid_div hlt, ?_, hmax, .inr hgoes⟩
      rwa [mkPid_mod hlt]
  · rw [if_neg hfound]
    refine .inr ⟨rfl, fun q ⟨hmap, hle, hmax, hor⟩ => ?_⟩
    rcases hor with heq | hgoes
    · rw [heq]
      simpa using hfree
    -- a clear bit that may be tried would have been found, or one before it
    by_contra hclear
    have hlt : q % c.bitsPerPage < c.bitsPerPage := Nat.mod_lt _ (by omega)
    obtain ⟨o, ho, hfirst⟩ := firstZero_le hle hlt (by simpa using hclear)
    have hq : mkPid c map o ≤ q := by
      rw [← mkPid_div_mod (c := c) q, hmap, mkPid, mkPid]
      omega
    refine hfound ?_
    rw [findNextOffset, hfirst, Option.getD_some]
    exact ⟨by omega, by omega, goesOn_of_le hgoes hq⟩

/-! ### The passes -/

/-- What the passes that are left try. -/
def Covers (c : Config) (last max : Nat) : (passes i map offset q : Nat) → Prop
  | 0, _, _, _, _ => False
  | passes + 1, i, map, offset, q =>
    Tries c last max i map offset q ∨
      if map < (c.pidMax - 1) / c.bitsPerPage then
        Covers c last max passes (i + 1) (map + 1) 0 q
      else last ≠ RESERVED_PIDS ∧ Covers c last max passes (i + 1) 0 RESERVED_PIDS q

lemma Keeps.trans (h : Keeps c ns ns') (h' : Keeps c ns' ns'') :
    Keeps c ns ns'' :=
  ⟨fun q => (h'.set q).trans (h.set q), h'.last.trans h.last, h'.counted⟩

lemma Keeps.takes (h : Keeps c ns ns') (h' : Takes c ns' pid ns'') :
    Takes c ns pid ns'' := by
  refine ⟨h'.lt, (h.set pid).symm.trans h'.free, fun q => ?_, h'.last, h'.counted⟩
  rw [h'.set, h.set]

/-- The outcome of the search by what it tries: a free pid is taken, or none of those is free. -/
def Searched (c : Config) (P : Nat → Prop) (ns : PidNamespace)
    (result : Option Nat × PidNamespace) : Prop :=
  match result.1 with
  | some pid => P pid ∧ Takes c ns pid result.2
  | none => (∀ q, P q → allocated c ns q = true) ∧ Keeps c ns result.2

/-- A pass that finds nothing, and what comes behind it. -/
lemma Searched.after {P Q : Nat → Prop} {result : Option Nat × PidNamespace}
    (hpass : ∀ q, P q → allocated c ns q = true) (hkeeps : Keeps c ns ns')
    (h : Searched c Q ns' result) : Searched c (fun q => P q ∨ Q q) ns result := by
  obtain ⟨found, ns''⟩ := result
  cases found with
  | some pid => exact ⟨.inr h.1, hkeeps.takes h.2⟩
  | none =>
    refine ⟨fun q hq => ?_, hkeeps.trans h.2⟩
    rcases hq with hq | hq
    · exact hpass q hq
    · exact (hkeeps.set q).symm.trans (h.1 q hq)

lemma pass_spec (last max i : Nat) (hcounted : Counted c ns) (hoffset : offset < c.bitsPerPage)
    (hpid : mkPid c map offset < c.pidMax) :
    let r := if (ns.pidmap map).nrFree ≠ 0 then scanPage c (ns.bits map) map last max i
      (c.bitsPerPage + 1) offset (mkPid c map offset) else none
    (∃ o, r = some (o, mkPid c map o) ∧ o < c.bitsPerPage ∧ ns.bits map o = false ∧
        Tries c last max i map offset (mkPid c map o)) ∨
      r = none ∧ ∀ q, Tries c last max i map offset q → allocated c ns q = true := by
  have hallocated : (∀ q, Tries c last max i map offset q →
      ns.bits map (q % c.bitsPerPage) = true) →
      ∀ q, Tries c last max i map offset q → allocated c ns q = true := by
    intro h q hq
    rw [allocated, hq.1]
    exact h q hq
  by_cases hfree : (ns.pidmap map).nrFree ≠ 0
  · have hfuel : c.bitsPerPage + 1 = c.bitsPerPage - 1 + 2 := by omega
    simp only [if_pos hfree, hfuel]
    exact (scanPage_spec _ hoffset hpid).imp_right fun h => ⟨h.1, hallocated h.2⟩
  · rw [if_neg hfree]
    have hzeros := hcounted map
    rw [not_not.mp hfree] at hzeros
    refine .inr ⟨rfl, hallocated fun q hq => ?_⟩
    exact zeros_eq_zero_iff.mp hzeros.symm _ (Nat.mod_lt _ (by omega))

lemma allocLoop_searched (last max passes i : Nat) (hcounted : Counted c ns)
    (hoffset : offset < c.bitsPerPage) (hpid : mkPid c map offset < c.pidMax) :
    Searched c (Covers c last max passes i map offset) ns
      (allocLoop c last max passes i map offset (mkPid c map offset) ns) := by
  induction passes generalizing i map offset ns with
  | zero => exact ⟨fun q h => h.elim, fun q => rfl, rfl, hcounted⟩
  | succ passes ih =>
    rw [allocLoop]
    obtain ⟨o, hsome, ho, hfree, htries⟩ | ⟨hnone, hpass⟩ :=
      pass_spec last max i hcounted hoffset hpid
    · have hlt : mkPid c map o < c.pidMax := htries.2.2.1
      simp only [PidNamespace.bits] at hsome
      simp only [hsome]
      exact ⟨.inl htries, hcounted.takes ho hlt hfree⟩
    · have hkeeps := hcounted.keeps_page map
      simp only [PidNamespace.bits] at hnone hkeeps
      simp only [hnone]
      by_cases hmap : map < (c.pidMax - 1) / c.bitsPerPage
      · have hnext : mkPid c (map + 1) 0 < c.pidMax := by
          have := (Nat.le_div_iff_mul_le (by omega)).mp (show map + 1 ≤ _ from hmap)
          rw [mkPid]
          omega
        have hrest := ih (i + 1) hkeeps.counted (by omega) hnext
        have hcovers := hrest.after hpass hkeeps
        simpa only [Searched, Covers, if_pos hmap] using hcovers
      · have hwrap : mkPid c 0 RESERVED_PIDS < c.pidMax := by
          have := c.reserved_lt
          rw [mkPid]
          omega
        simp only [if_neg hmap]
        by_cases hlast : last = RESERVED_PIDS
        · rw [if_pos hlast]
          refine ⟨fun q hq => ?_, hkeeps⟩
          rcases hq with hq | hq
          · exact hpass q hq
          · rw [if_neg hmap] at hq
            exact absurd hlast hq.1
        · have hreserved : RESERVED_PIDS < c.bitsPerPage :=
            Nat.lt_of_lt_of_le (by decide) c.bitsPerPage_ge
          have hrest := ih (i + 1) hkeeps.counted hreserved hwrap
          have hcovers := hrest.after hpass hkeeps
          rw [if_neg hlast]
          simpa only [Searched, Covers, if_neg hmap, hlast, ne_eq, not_false_eq_true, true_and]
            using hcovers

/-! ### What the search tries -/

def Config.top (c : Config) : Nat := (c.pidMax - 1) / c.bitsPerPage

/-- Passes up to the last page, and those that go on from the first one. -/
lemma covers_run (hmap : map ≤ c.top) :
    Covers c last max passes i map offset q ↔
      (∃ k < min passes (c.top + 1 - map),
        Tries c last max (i + k) (map + k) (if k = 0 then offset else 0) q) ∨
      last ≠ RESERVED_PIDS ∧
        Covers c last max (passes - (c.top + 1 - map))
          (i + (c.top + 1 - map)) 0 RESERVED_PIDS q := by
  induction passes generalizing i map offset with
  | zero => simp [Covers]
  | succ passes ih =>
    rw [Covers]
    by_cases hlt : map < c.top
    · have hrounds : min (passes + 1) (c.top + 1 - map) =
          min passes (c.top + 1 - (map + 1)) + 1 := by omega
      have hpasses : passes + 1 - (c.top + 1 - map) = passes - (c.top + 1 - (map + 1)) := by omega
      have hi : i + (c.top + 1 - map) = i + 1 + (c.top + 1 - (map + 1)) := by omega
      rw [if_pos (by exact hlt), ih (by omega), hrounds, hpasses, hi,
        Nat.exists_lt_succ_left, or_assoc]
      simp only [ite_self, Nat.add_eq_zero_iff, one_ne_zero, and_false, if_false, if_true,
        Nat.add_assoc, Nat.add_comm 1, Nat.add_zero]
    · obtain rfl : map = c.top := by omega
      rw [if_neg (by exact hlt)]
      simp

lemma firstPid_lt (c : Config) (last : Nat) : firstPid c last < c.pidMax := by
  have hreserved := c.reserved_lt
  rw [firstPid]
  split <;> omega

lemma maxScan_eq (last : Nat) :
    maxScan c last = c.top + 1 - if firstPid c last % c.bitsPerPage = 0 then 1 else 0 := by
  have hreserved := c.reserved_lt
  have hpos := c.bitsPerPage_pos
  have hround : c.pidMax + c.bitsPerPage - 1 = c.pidMax - 1 + c.bitsPerPage := by omega
  rw [maxScan, hround, Nat.add_div_right _ hpos, offsetOf_eq, Config.top]

def Tried (c : Config) (last q : Nat) : Prop :=
  Covers c last (maxScan c last) (maxScan c last + 1) 0 (firstPid c last / c.bitsPerPage)
    (offsetOf c (firstPid c last)) q

/-- The whole search: up to the last page, then from the first one. -/
lemma tried_iff : Tried c last q ↔
      (∃ k < c.top - firstPid c last / c.bitsPerPage + 1,
        Tries c last (maxScan c last) k (firstPid c last / c.bitsPerPage + k)
          (if k = 0 then firstPid c last % c.bitsPerPage else 0) q) ∨
      last ≠ RESERVED_PIDS ∧ ∃ k < maxScan c last + firstPid c last / c.bitsPerPage - c.top,
        Tries c last (maxScan c last) (c.top - firstPid c last / c.bitsPerPage + 1 + k) k
          (if k = 0 then RESERVED_PIDS else 0) q := by
  have hfirst := firstPid_lt c last
  have hmap : firstPid c last / c.bitsPerPage ≤ c.top := Nat.div_le_div_right (by omega)
  have hmax : c.top ≤ maxScan c last ∧ maxScan c last ≤ c.top + 1 := by
    rw [maxScan_eq]
    split <;> omega
  rw [Tried]
  generalize firstPid c last / c.bitsPerPage = first at hmap ⊢
  rw [covers_run hmap, covers_run (Nat.zero_le _), offsetOf_eq]
  have hahead : min (maxScan c last + 1) (c.top + 1 - first) = c.top - first + 1 := by omega
  have hrest : min (maxScan c last + 1 - (c.top + 1 - first)) (c.top + 1 - 0) =
      maxScan c last + first - c.top := by omega
  have hnone : maxScan c last + 1 - (c.top + 1 - first) - (c.top + 1 - 0) = 0 := by omega
  rw [hahead, hrest, hnone, Nat.succ_sub hmap]
  simp only [Covers, and_false, or_false, Nat.zero_add]

/-- The pid that the search leaves out: the last one, unless it is at the edge of a page or just
below `pid_max`. -/
def Skipped (c : Config) (last q : Nat) : Prop :=
  q = last ∧ last + 1 < c.pidMax ∧ last % c.bitsPerPage ≠ 0 ∧ (last + 1) % c.bitsPerPage ≠ 0

lemma mod_of_div_eq_zero {a b : Nat} (h : a / b = 0) : a % b = a := by
  rw [Nat.mod_eq_sub_mul_div, h, Nat.mul_zero, Nat.sub_zero]

lemma not_tried_of_skipped (h : Skipped c last q) : ¬Tried c last q := by
  obtain ⟨rfl, hlt, hmod, hnext⟩ := h
  have hfirst : firstPid c q = q + 1 := if_neg (by omega)
  have hdiv : (q + 1) / c.bitsPerPage = q / c.bitsPerPage := by
    rw [Nat.succ_div, if_neg fun hdvd => hnext (Nat.mod_eq_zero_of_dvd hdvd), Nat.add_zero]
  have hmod' : (q + 1) % c.bitsPerPage = q % c.bitsPerPage + 1 := by
    have h₁ := Nat.div_add_mod q c.bitsPerPage
    have h₂ := Nat.div_add_mod (q + 1) c.bitsPerPage
    rw [hdiv] at h₂
    omega
  have hscan : maxScan c q = c.top + 1 := by rw [maxScan_eq, hfirst, if_neg hnext]; rfl
  have htop : q / c.bitsPerPage ≤ c.top := Nat.div_le_div_right (by omega)
  rw [tried_iff, hfirst]
  rintro (⟨k, -, hmap, hle, -, -⟩ | ⟨hreserved, k, -, rfl, -, -, hor⟩)
  · obtain rfl : k = 0 := by
      omega
    rw [if_pos rfl] at hle
    omega
  · rcases hor with hoffset | hpass | hlt' | hedge
    · split at hoffset
      · next hzero => exact hreserved ((mod_of_div_eq_zero hzero).symm.trans hoffset)
      · exact hmod hoffset
    · omega
    · exact absurd hlt' (lt_irrefl _)
    · rw [offsetOf_eq] at hedge
      exact hnext hedge

/-- The pids of a page from the offset on at which the page is searched after another one. -/
lemma offset_le_mod (hq : RESERVED_PIDS ≤ q) :
    (if q / c.bitsPerPage = 0 then RESERVED_PIDS else 0) ≤ q % c.bitsPerPage := by
  split
  · next hzero => rwa [mod_of_div_eq_zero hzero]
  · exact Nat.zero_le _

lemma mod_le_mod_of_div_eq {a b n : Nat} (hdiv : a / n = b / n) (hle : a ≤ b) : a % n ≤ b % n := by
  have h₁ := Nat.div_add_mod a n
  have h₂ := Nat.div_add_mod b n
  rw [hdiv] at h₁
  omega

lemma tried_of_not_skipped (hlast : last < c.pidMax) (hq : RESERVED_PIDS ≤ q)
    (hmax : q < c.pidMax) (h : ¬Skipped c last q) : Tried c last q := by
  have hbits := c.bitsPerPage_ge
  have htop : q / c.bitsPerPage ≤ c.top := Nat.div_le_div_right (by omega)
  rw [tried_iff]
  by_cases hwrap : c.pidMax ≤ last + 1
  · -- the search starts at the first pid that is not reserved
    have hfirst : firstPid c last = RESERVED_PIDS := if_pos hwrap
    have hdiv : RESERVED_PIDS / c.bitsPerPage = 0 :=
      Nat.div_eq_of_lt (Nat.lt_of_lt_of_le (by decide) hbits)
    have hmod : RESERVED_PIDS % c.bitsPerPage = RESERVED_PIDS := mod_of_div_eq_zero hdiv
    have hscan : maxScan c last = c.top + 1 := by rw [maxScan_eq, hfirst, hmod]; rfl
    rw [hfirst, hdiv, hmod, hscan]
    refine .inl ⟨q / c.bitsPerPage, Nat.lt_succ_of_le htop, (Nat.zero_add _).symm, offset_le_mod hq,
      hmax, .inr (.inl ?_)⟩
    exact Nat.ne_of_lt (Nat.lt_succ_of_le htop)
  have hfirst : firstPid c last = last + 1 := if_neg hwrap
  have hscan := maxScan_eq (c := c) last
  rw [hfirst] at hscan ⊢
  -- a search that starts at the start of a page may always go on
  have hgoes : ∀ i, i ≤ c.top → goesOn c last (maxScan c last) i q := by
    intro i hi
    by_cases hedge : (last + 1) % c.bitsPerPage = 0
    · exact .inr (.inr (by rw [offsetOf_eq, hedge]))
    · rw [if_neg hedge] at hscan
      exact .inl (by omega)
  have hoffset := offset_le_mod (c := c) hq
  have hstart := Nat.div_le_div_right (c := c.bitsPerPage) (Nat.le_sub_one_of_lt (not_le.mp hwrap))
  generalize hn : q / c.bitsPerPage = n at htop hoffset
  generalize hm : (last + 1) / c.bitsPerPage = m at hstart ⊢
  change m ≤ c.top at hstart
  by_cases hahead : last + 1 ≤ q
  · have hle : m ≤ n := hm ▸ hn ▸ Nat.div_le_div_right hahead
    refine .inl ⟨n - m, by omega, by omega, ?_, hmax, .inr (hgoes _ (by omega))⟩
    split
    · exact mod_le_mod_of_div_eq (by omega) hahead
    · exact Nat.zero_le _
  · have hle : n ≤ m := hm ▸ hn ▸ Nat.div_le_div_right (by omega)
    have hreserved : last ≠ RESERVED_PIDS := by
      rintro rfl
      obtain rfl : q = RESERVED_PIDS := by omega
      have hsmall : ∀ a < 32768, a % c.bitsPerPage = a := fun a ha =>
        Nat.mod_eq_of_lt (Nat.lt_of_lt_of_le ha hbits)
      refine h ⟨rfl, by omega, ?_, ?_⟩
      · rw [hsmall _ (by decide)]
        decide
      · rw [hsmall _ (by decide)]
        decide
    have hedge : (last + 1) % c.bitsPerPage = 0 → n < m := by
      intro hzero
      have hmul := Nat.div_add_mod (last + 1) c.bitsPerPage
      rw [hm, Nat.mul_comm] at hmul
      rw [← hn]
      exact (Nat.div_lt_iff_lt_mul (by omega)).mpr (by omega)
    refine .inr ⟨hreserved, n, ?_, hn, hoffset, hmax, ?_⟩
    · split at hscan
      · next hzero =>
        omega
      · omega
    · rcases Nat.lt_or_eq_of_le hle with hlt | rfl
      · exact .inr (hgoes _ (by omega))
      have hinside : (last + 1) % c.bitsPerPage ≠ 0 := fun hzero => lt_irrefl _ (hedge hzero)
      rcases Nat.lt_or_eq_of_le (show q ≤ last by omega) with hlt | rfl
      · exact .inr (.inr (.inl hlt))
      -- the last pid itself is only tried as the first one of its page
      have hzero : q % c.bitsPerPage = 0 := by
        by_contra hmod
        exact h ⟨rfl, by omega, hmod, hinside⟩
      left
      rw [hzero, if_neg]
      rintro rfl
      have hsame := mod_of_div_eq_zero hn
      omega

/-! ### The namespace -/

lemma allocPidmap_searched (hcounted : Counted c ns) :
    Searched c (Tried c ns.lastPid) ns (allocPidmap c ns) := by
  have hfirst := firstPid_lt c ns.lastPid
  have hpid : mkPid c (firstPid c ns.lastPid / c.bitsPerPage) (offsetOf c (firstPid c ns.lastPid)) =
      firstPid c ns.lastPid := by rw [offsetOf_eq, mkPid_div_mod]
  have hoffset : offsetOf c (firstPid c ns.lastPid) < c.bitsPerPage := by
    rw [offsetOf_eq]
    exact Nat.mod_lt _ c.bitsPerPage_pos
  have hsearched :=
    allocLoop_searched ns.lastPid (maxScan c ns.lastPid) (maxScan c ns.lastPid + 1) 0
    hcounted hoffset (by rwa [hpid])
  rw [hpid] at hsearched
  exact hsearched

/-- The first pid that is tried is the one that is taken if it is free. -/
lemma allocPidmap_first (hcounted : Counted c ns)
    (hfree : allocated c ns (firstPid c ns.lastPid) = false) :
    (allocPidmap c ns).1 = some (firstPid c ns.lastPid) := by
  have hzeros : (ns.pidmap (firstPid c ns.lastPid / c.bitsPerPage)).nrFree ≠ 0 := by
    rw [hcounted, Nat.ne_zero_iff_zero_lt, zeros_pos_iff]
    exact ⟨_, Nat.mod_lt _ c.bitsPerPage_pos, hfree⟩
  rw [allocated, PidNamespace.bits, ← offsetOf_eq] at hfree
  simp only [allocPidmap, allocLoop, if_pos hzeros, scanPage, if_pos hfree]

lemma tried_ge (hlast : RESERVED_PIDS ≤ last) (h : Tried c last q) : RESERVED_PIDS ≤ q := by
  have hbits : RESERVED_PIDS ≤ c.bitsPerPage := le_trans (by decide) c.bitsPerPage_ge
  -- a pid of another page than the first one is large enough
  have hpage : q / c.bitsPerPage ≠ 0 → RESERVED_PIDS ≤ q := by
    intro hne
    have := Nat.div_pos_iff.mp (Nat.pos_of_ne_zero hne)
    omega
  have hfirst : RESERVED_PIDS ≤ firstPid c last := by
    rw [firstPid]
    split <;> omega
  rw [tried_iff] at h
  rcases h with ⟨k, -, hmap, hle, -⟩ | ⟨-, k, -, rfl, hle, -⟩
  · by_cases hzero : q / c.bitsPerPage = 0
    · have hk : k = 0 ∧ firstPid c last / c.bitsPerPage = 0 := by
        generalize firstPid c last / c.bitsPerPage = m at hmap
        omega
      rw [if_pos hk.1, mod_of_div_eq_zero hk.2] at hle
      exact hfirst.trans (hle.trans (Nat.mod_le _ _))
    · exact hpage hzero
  · by_cases hzero : q / c.bitsPerPage = 0
    · rw [if_pos hzero] at hle
      exact hle.trans (Nat.mod_le _ _)
    · exact hpage hzero

/-- The only free pid above the reserved ones is the last one, and the search leaves it out. -/
structure OnlyLast (c : Config) (ns : PidNamespace) : Prop where
  reserved : RESERVED_PIDS ≤ ns.lastPid
  skipped : Skipped c ns.lastPid ns.lastPid
  free : allocated c ns ns.lastPid = false
  others : ∀ q, RESERVED_PIDS ≤ q → q < c.pidMax → q ≠ ns.lastPid → allocated c ns q = true

lemma OnlyLast.none (hcounted : Counted c ns) (h : OnlyLast c ns) :
    (allocPidmap c ns).1 = none := by
  have hsearched := allocPidmap_searched hcounted
  cases hfound : (allocPidmap c ns).1 with
  | none => rfl
  | some pid =>
    rw [Searched, hfound] at hsearched
    obtain ⟨htried, htakes⟩ := hsearched
    by_cases hlast : pid = ns.lastPid
    · rw [hlast] at htried
      exact absurd htried (not_tried_of_skipped h.skipped)
    · have hset := h.others pid (tried_ge h.reserved htried) htakes.lt hlast
      rw [htakes.free] at hset
      exact nomatch hset

/-- What `alloc_pidmap` is for: it fails only when all pids above the reserved ones are taken, takes
a free pid otherwise, and keeps the counts. -/
def AllocCorrect (c : Config) (ns : PidNamespace) : Prop :=
  match allocPidmap c ns with
  | (none, ns') => (∀ q, RESERVED_PIDS ≤ q → q < c.pidMax → allocated c ns q = true) ∧ Counted c ns'
  | (some pid, ns') => Takes c ns pid ns'

lemma allocCorrect_iff (hcounted : Counted c ns) (hlast : ns.lastPid < c.pidMax) :
    AllocCorrect c ns ↔ ¬OnlyLast c ns := by
  have hsearched := allocPidmap_searched hcounted
  rw [AllocCorrect]
  cases hresult : allocPidmap c ns with
  | mk found ns' =>
    rw [hresult] at hsearched
    cases found with
    | some pid =>
      refine ⟨fun _ honly => ?_, fun _ => hsearched.2⟩
      have hnone := honly.none hcounted
      rw [hresult] at hnone
      exact nomatch hnone
    | none =>
      obtain ⟨htried, hkeeps⟩ := hsearched
      constructor
      · rintro ⟨hall, -⟩ honly
        have hset := hall _ honly.reserved hlast
        rw [honly.free] at hset
        exact nomatch hset
      · refine fun honly => ⟨fun q hq hmax => ?_, hkeeps.counted⟩
        by_contra hfree
        have hfree : allocated c ns q = false := by simpa using hfree
        have hrest : ∀ q, RESERVED_PIDS ≤ q → q < c.pidMax → q ≠ ns.lastPid →
            allocated c ns q = true := fun q hq hmax hne =>
          htried q (tried_of_not_skipped hlast hq hmax fun hskip => hne hskip.1)
        have hskip : Skipped c ns.lastPid q := by
          by_contra hskip
          have hset := htried q (tried_of_not_skipped hlast hq hmax hskip)
          rw [hfree] at hset
          exact nomatch hset
        obtain rfl := hskip.1
        exact honly ⟨hq, hskip, hfree, hrest⟩

/-- The calls: `free_pidmap` is called for pids that were handed out, and never for pid zero. -/
inductive Step (c : Config) : PidNamespace → PidNamespace → Prop
  | alloc (ns : PidNamespace) : Step c ns (allocPidmap c ns).2
  | free (ns : PidNamespace) (pid : Nat) (hpid : pid ≠ 0) (h : allocated c ns pid = true) :
      Step c ns (freePidmap c ns pid)

def Reachable (c : Config) : PidNamespace → Prop :=
  Relation.ReflTransGen (Step c) (createPidNamespace c)

lemma allocated_create (q : Nat) : allocated c (createPidNamespace c) q = decide (q = 0) := by
  rw [allocated, PidNamespace.bits, createPidNamespace]
  dsimp only
  by_cases hmap : q / c.bitsPerPage = 0
  · rw [if_pos hmap, mod_of_div_eq_zero hmap, Option.getD_some, update_apply]
    simp
  · rw [if_neg hmap]
    have hq : q ≠ 0 := by
      rintro rfl
      exact hmap (Nat.zero_div _)
    simp [hq]

lemma counted_create (c : Config) : Counted c (createPidNamespace c) := by
  intro map
  have hbits := c.bitsPerPage_ge
  have hclear : zeros (fun _ => false) c.bitsPerPage = c.bitsPerPage := by simp [zeros]
  rw [PidNamespace.bits, createPidNamespace]
  dsimp only
  split
  · have hcount := zeros_update_true (b := fun _ => false) (i := 0)
      (by omega : 0 < c.bitsPerPage) rfl
    change c.bitsPerPage - 1 = zeros (update (fun _ => false) 0 true) c.bitsPerPage
    omega
  · rw [Option.getD_none, hclear]

lemma Reachable.inv (h : Reachable c ns) : Counted c ns ∧ ns.lastPid < c.pidMax := by
  induction h with
  | refl => exact ⟨counted_create c, Nat.lt_of_le_of_lt (Nat.zero_le _) c.reserved_lt⟩
  | @tail ns ns' _ hstep ih =>
    obtain ⟨hcounted, hlast⟩ := ih
    cases hstep with
    | alloc =>
      have hsearched := allocPidmap_searched hcounted
      cases hfound : (allocPidmap c ns).1 with
      | none =>
        rw [Searched, hfound] at hsearched
        exact ⟨hsearched.2.counted, hsearched.2.last ▸ hlast⟩
      | some pid =>
        rw [Searched, hfound] at hsearched
        exact ⟨hsearched.2.counted, hsearched.2.last ▸ hsearched.2.lt⟩
    | free pid _ hset => exact ⟨(hcounted.free hset).1, hlast⟩

/-- A state in which a set of pids is taken, by calls that led to it. -/
structure Reaches (c : Config) (last : Nat) (taken : Nat → Bool) (ns : PidNamespace) : Prop where
  reachable : Reachable c ns
  last : ns.lastPid = last
  taken : ∀ q, allocated c ns q = taken q

lemma Reaches.alloc (h : Reaches c last taken ns) (hfree : taken (firstPid c last) = false) :
    ∃ ns', Reaches c (firstPid c last) (fun q => taken q || q == firstPid c last) ns' := by
  have hfirst : (allocPidmap c ns).1 = some (firstPid c last) := by
    rw [← h.last]
    apply allocPidmap_first h.reachable.inv.1
    rw [h.taken, h.last, hfree]
  have hsearched := allocPidmap_searched h.reachable.inv.1
  rw [Searched, hfirst] at hsearched
  refine ⟨_, h.reachable.tail (.alloc ns), hsearched.2.last, fun q => ?_⟩
  rw [hsearched.2.set, h.taken]

lemma Reaches.free (h : Reaches c last taken ns) (pid : Nat) (hpid : pid ≠ 0)
    (hset : taken pid = true) : ∃ ns', Reaches c last (fun q => taken q && q != pid) ns' := by
  have hset : allocated c ns pid = true := by rw [h.taken, hset]
  refine ⟨_, h.reachable.tail (.free ns pid hpid hset), h.last, fun q => ?_⟩
  rw [(h.reachable.inv.1.free hset).2, h.taken]

/-- The pids are handed out in order at first. -/
lemma reaches_upto (c : Config) (n : Nat) (hn : n < c.pidMax) :
    ∃ ns, Reaches c n (fun q => decide (q ≤ n)) ns := by
  induction n with
  | zero => exact ⟨_, .refl, rfl, fun q => by simp [allocated_create]⟩
  | succ n ih =>
    obtain ⟨ns, h⟩ := ih (by omega)
    have hfirst : firstPid c n = n + 1 := if_neg (by omega)
    obtain ⟨ns', h'⟩ := h.alloc (by simp [hfirst])
    rw [hfirst] at h'
    refine ⟨ns', h'.reachable, h'.last, fun q => ?_⟩
    rw [h'.taken, Bool.eq_iff_iff]
    simp
    omega

/-- In every state, `alloc_pidmap` does what it is for unless only the last pid is free. -/
theorem alloc_pidmap_correct_iff (c : Config) (ns : PidNamespace) (h : Reachable c ns) :
    AllocCorrect c ns ↔ ¬OnlyLast c ns :=
  allocCorrect_iff h.inv.1 h.inv.2

/-- Pages of 4096 bytes and the default `pid_max`. -/
def defaultConfig : Config := ⟨12, 0x8000, by decide, by decide⟩

/-- The pids up to 301 have been taken and 300 has been freed. -/
theorem alloc_pidmap_correct_iff_freed :
    ∃ ns, Reachable defaultConfig ns ∧ ns.lastPid = 301 ∧ allocated defaultConfig ns 300 = false ∧
      AllocCorrect defaultConfig ns := by
  obtain ⟨ns, h⟩ := reaches_upto defaultConfig 301 (by decide)
  obtain ⟨ns, h⟩ := h.free 300 (by decide) (by decide)
  refine ⟨ns, h.reachable, h.last, by rw [h.taken]; decide,
    (alloc_pidmap_correct_iff _ _ h.reachable).mpr fun honly => ?_⟩
  have hfree := honly.free
  rw [h.last, h.taken] at hfree
  exact absurd hfree (by decide)

/-! ### A free pid that is not found -/

/-- With `pid_max` at 302 all pids are taken, 300 is freed, taken again and freed again: it is the
last pid and is not found. -/
theorem alloc_pidmap_misses :
    ∃ (c : Config) (ns : PidNamespace), c.pidMax = 302 ∧ Reachable c ns ∧
      allocated c ns 300 = false ∧ (allocPidmap c ns).1 = none := by
  let c : Config := ⟨12, 302, by decide, by decide⟩
  obtain ⟨ns, h⟩ := reaches_upto c 301 (by decide)
  obtain ⟨ns, h⟩ := h.free 300 (by decide) (by decide)
  obtain ⟨ns, h⟩ := h.alloc (by decide)
  obtain ⟨ns, h⟩ := h.free 300 (by decide) (by decide)
  have hlast : ns.lastPid = 300 := h.last
  have hfree : allocated c ns 300 = false := by
    rw [h.taken]
    decide
  refine ⟨c, ns, rfl, h.reachable, hfree, OnlyLast.none h.reachable.inv.1 ⟨?_, ?_, ?_, ?_⟩⟩
  · rw [hlast]
    decide
  · rw [hlast]
    exact ⟨rfl, by decide, by decide, by decide⟩
  · rw [hlast, hfree]
  · intro q hq hmax hne
    rw [hlast] at hne
    have hmax : q < 302 := hmax
    rw [h.taken]
    simp only [Bool.and_eq_true, Bool.or_eq_true, decide_eq_true_eq, bne_iff_ne]
    exact ⟨.inl ⟨by omega, hne⟩, hne⟩

/-! ### Processes -/

/-- A process is made, or the one with a given pid ends; the pids in use are beside the
namespace. -/
def processStep (c : Config) (s : PidNamespace × List Nat) : Option Nat → PidNamespace × List Nat
  | none => ((allocPidmap c s.1).2, (allocPidmap c s.1).1.toList ++ s.2)
  | some pid => if pid ∈ s.2 then (freePidmap c s.1 pid, s.2.erase pid) else s

/-- The bitmaps are the set of the pids in use, none of which is in use twice. -/
structure InUse (c : Config) (s : PidNamespace × List Nat) : Prop where
  counted : Counted c s.1
  nodup : s.2.Nodup
  bits : ∀ q, allocated c s.1 q = true ↔ q ∈ s.2

lemma InUse.step {s : PidNamespace × List Nat} (h : InUse c s) (event : Option Nat) :
    InUse c (processStep c s event) := by
  cases event with
  | none =>
    have hsearched := allocPidmap_searched h.counted
    rw [processStep]
    generalize allocPidmap c s.1 = result at hsearched ⊢
    obtain ⟨_ | pid, ns⟩ := result
    · exact ⟨hsearched.2.counted, h.nodup, fun q => by rw [hsearched.2.set, h.bits]; rfl⟩
    · obtain ⟨-, htakes⟩ := hsearched
      have hfresh : pid ∉ s.2 := by simp [← h.bits, htakes.free]
      refine ⟨htakes.counted, h.nodup.cons hfresh, fun q => ?_⟩
      simp [htakes.set, h.bits, or_comm]
  | some pid =>
    rw [processStep]
    split_ifs with hmem
    · obtain ⟨hcounted, hbits⟩ := h.counted.free ((h.bits pid).mpr hmem)
      refine ⟨hcounted, h.nodup.erase pid, fun q => ?_⟩
      simp [hbits, h.bits, h.nodup.mem_erase_iff, and_comm]
    · exact h

/-- However processes come and go, no two have the same pid, and the bitmaps hold their pids. -/
theorem pids_in_use (c : Config) (events : List (Option Nat)) :
    InUse c (events.foldl (processStep c) (createPidNamespace c, [0])) :=
  events.foldlRecOn _ ⟨counted_create c, by simp, by simp [allocated_create]⟩
    fun _ h event _ => h.step event

end R0Kernel.Pid
