import R0Kernel.Net.Filter.Model

/-!
# What an accepted filter can do

`sk_chk_filter` looks at each instruction once. `Accepted` collects what its answer 0 means, and
one lemma about the interpreter's switch derives from it what a pass of the loop can do: move the
program counter forward inside the filter, or stop in one of the ways of `Finishes`.
-/

namespace R0Kernel.Net.Filter

open State List

variable {filter : List SockFilter} {skb : SkBuff} {beyond : Nat → UInt8} {i : SockFilter}
  {s s' : State} {pc flen : Nat} {op : Opcode}

/-! ### The checker's answer -/

lemma chkInsn_of_chkLoop {l : List SockFilter} (h : chkLoop flen pc l = true) {j : Nat}
    (hi : l[j]? = some i) : chkInsn flen (pc + j) i = true := by
  induction l generalizing pc j with
  | nil => cases hi
  | cons head rest ih =>
    rw [chkLoop] at h
    split at h
    next hhead =>
      cases j with
      | zero =>
        cases hi
        exact hhead
      | succ j =>
        have hrest := ih h hi
        rwa [add_right_comm] at hrest
    next => cases h

/-- `sk_run_filter` knows every label of `sk_chk_filter`, and by no other value. -/
lemma decode_of_mem_checked : ∀ op ∈ Opcode.checked, decode op.code = some op := by
  decide +kernel

lemma chkOp_of_chkInsn (h : chkInsn flen pc i = true) :
    ∃ op, decode i.code = some op ∧ chkOp flen pc i op = true := by
  rw [chkInsn] at h
  split at h
  next op hop =>
    have hlabel := decode_of_mem_checked op (mem_of_find?_eq_some hop)
    have hcode := find?_some hop
    exact ⟨op, beq_iff_eq.mp hcode ▸ hlabel, h⟩
  next => cases h

/-- What `sk_chk_filter` has established when it returns 0. -/
structure Accepted (filter : List SockFilter) : Prop where
  pos : 0 < filter.length
  le : filter.length ≤ bpfMaxinsns
  insn : ∀ pc i, filter[pc]? = some i → chkInsn filter.length pc i = true
  last : ∀ i, filter.getLast? = some i → bpfClass i.code = bpfRet

lemma accepted_of_skChkFilter (h : skChkFilter filter = 0) : Accepted filter := by
  unfold skChkFilter at h
  split at h
  next => cases h
  next hlen =>
    push Not at hlen
    split at h
    next hloop =>
      refine ⟨Nat.pos_of_ne_zero hlen.1, hlen.2, ?_, ?_⟩
      · intro pc i hi
        have hinsn := chkInsn_of_chkLoop hloop hi
        rwa [zero_add] at hinsn
      · intro i hi
        simp only [hi] at h
        by_contra hclass
        rw [if_neg hclass] at h
        cases h
    next => cases h

lemma ret_of_class (op : Opcode) (h : bpfClass op.code = bpfRet) : op = .retK ∨ op = .retA := by
  have hall : ∀ op ∈ Opcode.all, bpfClass op.code = bpfRet → op = .retK ∨ op = .retA := by
    decide +kernel
  exact hall op op.mem_all h

/-- Behind an instruction that does not return there is another one. -/
lemma Accepted.lt_of_not_ret (hacc : Accepted filter) (hi : filter[pc]? = some i)
    (hop : decode i.code = some op) (hretK : op ≠ .retK) (hretA : op ≠ .retA) :
    pc + 1 < filter.length := by
  obtain ⟨hlt, -⟩ := List.getElem?_eq_some_iff.mp hi
  rcases Nat.lt_or_eq_of_le hlt with hmore | hend
  · exact hmore
  · have hlast : filter.getLast? = some i := by
      rw [getLast?_eq_getElem?, ← hend]
      exact hi
    have hclass := hacc.last i hlast
    rw [← code_of_decode hop] at hclass
    rcases ret_of_class op hclass with h | h
    · exact absurd h hretK
    · exact absurd h hretA

/-! ### One pass of the loop -/

/-- The offset and the width of a load that goes through `load_pointer`. -/
def Opcode.packetLoad (i : SockFilter) (s : State) : Opcode → Option (Int × Nat)
  | ldAbs size => some (toInt i.k.toNat, size.bytes)
  | ldInd size => some (toInt (s.x + i.k).toNat, size.bytes)
  | ldxMsh => some (toInt i.k.toNat, 1)
  | _ => none

/-- How an accepted filter can stop at instruction `i`. -/
inductive Finishes (skb : SkBuff) (beyond : Nat → UInt8) (i : SockFilter) (s : State) :
    Exit → Prop where
  | retK : decode i.code = some .retK → Finishes skb beyond i s (.ret i.k)
  | retA : decode i.code = some .retA → Finishes skb beyond i s (.ret s.a)
  | divByX : decode i.code = some (.alu .div .x) → s.x = 0 → Finishes skb beyond i s .divByX
  | noData {op : Opcode} {k : Int} {size : Nat} :
      decode i.code = some op → op.packetLoad i s = some (k, size) →
      loadPointer skb beyond k size = none → Finishes skb beyond i s .noData

/-- A pass of the loop moves forward and stays inside the filter, or finishes, or accesses a null
`skb->dev`. -/
inductive Advances (filter : List SockFilter) (skb : SkBuff) (beyond : Nat → UInt8)
    (i : SockFilter) (s : State) : State ⊕ Exit → Prop where
  | next {s' : State} : s.pc < s'.pc → s'.pc < filter.length →
      Advances filter skb beyond i s (.inl s')
  | exit {e : Exit} : Finishes skb beyond i s e → Advances filter skb beyond i s (.inr e)
  | nullDev : skb.dev = none → Advances filter skb beyond i s (.inr (.fault .nullDev))

section Pass

variable (hpc : s.pc + 1 < filter.length) {op : Opcode}
include hpc

lemma advances_setA (v : UInt32) : Advances filter skb beyond i s (.inl (s.setA v)) :=
  .next (Int.lt_succ _) hpc

lemma advances_setX (v : UInt32) : Advances filter skb beyond i s (.inl (s.setX v)) :=
  .next (Int.lt_succ _) hpc

lemma advances_withScratch (hk : i.k.toNat < bpfMemwords) {f : Fin bpfMemwords → State}
    (hf : ∀ k, (f k).pc = s.pc + 1) : Advances filter skb beyond i s (withScratch i.k f) := by
  rw [withScratch, dif_pos hk]
  apply Advances.next
  · rw [hf]
    exact Int.lt_succ _
  · rw [hf]
    exact hpc

omit hpc in
/-- What an ancillary load finds does not depend on the state. -/
lemma ancillary_cases (skb : SkBuff) (k : Int) :
    (∃ v, ∀ s, ancillary skb k s = .inl (s.setA v)) ∨
      (skb.dev = none ∧ ∀ s, ancillary skb k s = .inr (.fault .nullDev)) ∨
      ∀ s, ancillary skb k s = .inr .noData := by
  unfold ancillary
  split
  next => exact .inl ⟨_, fun _ => rfl⟩
  next =>
    split
    next => exact .inl ⟨_, fun _ => rfl⟩
    next =>
      split
      next =>
        cases hdev : skb.dev with
        | some v => exact .inl ⟨v, fun _ => rfl⟩
        | none => exact .inr (.inl ⟨rfl, fun _ => rfl⟩)
      next => exact .inr (.inr fun _ => rfl)

lemma advances_load (size : Size) (k : Int) (hop : decode i.code = some op)
    (hload : op.packetLoad i s = some (k, size.bytes)) :
    Advances filter skb beyond i s (load skb beyond size k s) := by
  unfold load
  split
  next => exact advances_setA hpc _
  next hnull =>
    rcases ancillary_cases skb k with ⟨v, hv⟩ | ⟨hdev, hfault⟩ | hnone
    · rw [hv]
      exact advances_setA hpc v
    · rw [hfault]
      exact .nullDev hdev
    · rw [hnone]
      exact .exit (.noData hop hload hnull)

lemma advances_loadMsh (k : Int) (hop : decode i.code = some op)
    (hload : op.packetLoad i s = some (k, 1)) :
    Advances filter skb beyond i s (loadMsh skb beyond k s) := by
  unfold loadMsh
  split
  next => exact advances_setX hpc _
  next hnull => exact .exit (.noData hop hload hnull)

end Pass

/-- The jump offset is below `flen - pc - 1`, so `pc += k` does not wrap. -/
lemma toInt_ja (hk : i.k.toNat < flen - pc - 1) (hflen : flen ≤ bpfMaxinsns) :
    toInt ((pc : Int) + i.k.toNat) = pc + i.k.toNat := by
  have hmax : flen ≤ 4096 := hflen
  apply Int.bmod_eq_of_le
  · omega
  · omega

lemma advances_ja (hpc : s.pc = pc) (hk : i.k.toNat < filter.length - pc - 1)
    (hflen : filter.length ≤ bpfMaxinsns) :
    Advances filter skb beyond i s (.inl { s with pc := toInt (s.pc + i.k.toNat) + 1 }) := by
  have hsum := toInt_ja hk hflen
  rw [hpc]
  apply Advances.next <;> dsimp only <;> omega

lemma advances_jump {d : Nat} (hpc : s.pc = pc) (hd : pc + d + 1 < filter.length) :
    Advances filter skb beyond i s (.inl (s.jump d)) := by
  apply Advances.next <;> rw [jump] <;> dsimp only <;> omega

lemma exec_advances (hacc : Accepted filter) (hi : filter[pc]? = some i) (hpc : s.pc = pc)
    (hop : decode i.code = some op) (hchk : chkOp filter.length pc i op = true) :
    Advances filter skb beyond i s (exec skb beyond i s op) := by
  have hmore : op ≠ .retK → op ≠ .retA → s.pc + 1 < filter.length := by
    intro hretK hretA
    have hlt := hacc.lt_of_not_ret hi hop hretK hretA
    omega
  cases op with
  | alu op src =>
    have hnext := hmore nofun nofun
    cases op with
    | div =>
      cases src with
      | x =>
        rw [exec]
        split
        next hx => exact .exit (.divByX hop hx)
        next => exact advances_setA hnext _
      | k =>
        have hk : i.k ≠ 0 := bne_iff_ne.mp hchk
        rw [exec, if_neg hk]
        exact advances_setA hnext _
    | _ => exact advances_setA hnext _
  | ja =>
    exact advances_ja hpc (of_decide_eq_true hchk) hacc.le
  | jmp op src =>
    obtain ⟨hjt, hjf⟩ := (Bool.and_eq_true _ _).mp hchk
    apply advances_jump hpc
    split
    next => exact of_decide_eq_true hjt
    next => exact of_decide_eq_true hjf
  | ldAbs size | ldInd size =>
    rw [exec]
    exact advances_load (hmore nofun nofun) size _ hop rfl
  | ldxMsh =>
    rw [exec]
    exact advances_loadMsh (hmore nofun nofun) _ hop rfl
  | retK => exact .exit (.retK hop)
  | retA => exact .exit (.retA hop)
  | ldMem | ldxMem | st | stx =>
    rw [exec]
    exact advances_withScratch (hmore nofun nofun) (of_decide_eq_true hchk) fun _ => rfl
  | neg | ldLen | ldImm | txa => exact advances_setA (hmore nofun nofun) _
  | ldxLen | ldxImm | tax => exact advances_setX (hmore nofun nofun) _

def State.Inside (filter : List SockFilter) (s : State) : Prop :=
  0 ≤ s.pc ∧ s.pc < filter.length

lemma exists_fetch (hs : s.Inside filter) :
    ∃ i, filter[s.pc.toNat]? = some i ∧ fetch filter s.pc = some i := by
  obtain ⟨hnonneg, hlt⟩ := hs
  have hbound : s.pc.toNat < filter.length := by omega
  refine ⟨filter[s.pc.toNat], getElem?_eq_getElem hbound, ?_⟩
  rw [fetch, if_neg (Int.not_lt.mpr hnonneg)]
  exact getElem?_eq_getElem hbound

lemma step_eq_exec (hlt : s.pc < filter.length) (hi : fetch filter s.pc = some i)
    (hop : decode i.code = some op) :
    step filter skb beyond s = exec skb beyond i s op := by
  rw [step, if_neg (Int.not_le.mpr hlt), hi]
  simp only [hop]

/-- From inside the filter, a step goes forward inside the filter or finishes. -/
lemma step_advances (skb : SkBuff) (beyond : Nat → UInt8) (hacc : Accepted filter)
    (hs : s.Inside filter) :
    ∃ i, fetch filter s.pc = some i ∧
      Advances filter skb beyond i s (step filter skb beyond s) := by
  obtain ⟨i, hi, hfetch⟩ := exists_fetch hs
  obtain ⟨op, hop, hchk⟩ := chkOp_of_chkInsn (hacc.insn _ i hi)
  refine ⟨i, hfetch, ?_⟩
  rw [step_eq_exec hs.2 hfetch hop]
  exact exec_advances hacc hi (Int.toNat_of_nonneg hs.1).symm hop hchk

lemma inside_of_step (hacc : Accepted filter) (hs : s.Inside filter)
    (hstep : step filter skb beyond s = .inl s') : s'.Inside filter ∧ s.pc < s'.pc := by
  obtain ⟨i, -, hadv⟩ := step_advances skb beyond hacc hs
  rw [hstep] at hadv
  cases hadv with
  | next hforward hlt => exact ⟨⟨le_trans hs.1 hforward.le, hlt⟩, hforward⟩

lemma inside_init (hacc : Accepted filter) (o : Outside) : (init o).Inside filter :=
  ⟨le_rfl, Int.natCast_pos.mpr hacc.pos⟩

/-! ### Whole runs -/

lemma inside_after (hacc : Accepted filter) {o : Outside} {n : Nat}
    (hs : Machine.after (step filter skb o.beyond) n (init o) = some s) : s.Inside filter :=
  Machine.after_invariant (fun _ _ ht hstep => (inside_of_step hacc ht hstep).1)
    (inside_init hacc o) hs

/-- The rank is the number of instructions behind the program counter. -/
lemma exists_exit (hacc : Accepted filter) (skb : SkBuff) (o : Outside) :
    ∃ e n s, skRunFilter filter skb o filter.length = some e ∧
      Machine.after (step filter skb o.beyond) n (init o) = some s ∧
      step filter skb o.beyond s = .inr e := by
  have hkeep : ∀ t t', State.Inside filter t → step filter skb o.beyond t = .inl t' →
      t'.Inside filter ∧ (filter.length - 1 - t'.pc).toNat < (filter.length - 1 - t.pc).toNat := by
    intro t t' ht hstep
    obtain ⟨ht', hforward⟩ := inside_of_step hacc ht hstep
    have hbound := ht'.2
    exact ⟨ht', by omega⟩
  have hrank : (filter.length - 1 - (init o).pc).toNat < filter.length := by
    have hpos := hacc.pos
    simp only [init]
    omega
  exact Machine.exists_run_of_rank _ hkeep (inside_init hacc o) hrank

lemma skRunFilter_exits (hchk : skChkFilter filter = 0) (skb : SkBuff) (o : Outside) :
    ∃ e, skRunFilter filter skb o filter.length = some e := by
  obtain ⟨e, -, -, hrun, -⟩ := exists_exit (accepted_of_skChkFilter hchk) skb o
  exact ⟨e, hrun⟩

/-- An accepted filter stops within `flen` instructions on every packet that has a device, at a
`BPF_RET` or with 0 at a failed load or a division by `X == 0`; until then the program counter stays
inside the filter. -/
theorem sk_chk_filter_sound (filter : List SockFilter) (hchk : skChkFilter filter = 0)
    (skb : SkBuff) (hdev : skb.dev ≠ none) (o : Outside) :
    (∃ e n s i, skRunFilter filter skb o filter.length = some e ∧
      Machine.after (step filter skb o.beyond) n (init o) = some s ∧
      fetch filter s.pc = some i ∧ Finishes skb o.beyond i s e) ∧
    ∀ n s, Machine.after (step filter skb o.beyond) n (init o) = some s →
      0 ≤ s.pc ∧ s.pc < filter.length := by
  have hacc := accepted_of_skChkFilter hchk
  refine ⟨?_, fun n s hs => inside_after hacc hs⟩
  obtain ⟨e, n, s, hrun, hs, hstep⟩ := exists_exit hacc skb o
  obtain ⟨i, hi, hadv⟩ := step_advances skb o.beyond hacc (inside_after hacc hs)
  rw [hstep] at hadv
  cases hadv with
  | exit hfin => exact ⟨e, n, s, i, hrun, hs, hi, hfin⟩
  | nullDev hnull => exact absurd hnull hdev

def emptyPacket : SkBuff where
  linear := []
  data := 0
  frags := []
  networkHeader := 0
  macHeader := 0
  protocol := (0, 0)
  pktType := 0
  dev := some 1
  data_le := le_rfl
  len_lt := by decide

/-- `ld [0]; ret #1` -/
def loadWord : List SockFilter :=
  [⟨0x20, 0, 0, 0⟩, ⟨0x06, 0, 0, 1⟩]

theorem sk_chk_filter_sound_loadWord : skChkFilter loadWord = 0 ∧
    ∀ o, (∃ e n s i, skRunFilter loadWord emptyPacket o loadWord.length = some e ∧
      Machine.after (step loadWord emptyPacket o.beyond) n (init o) = some s ∧
      fetch loadWord s.pc = some i ∧ Finishes emptyPacket o.beyond i s e) ∧
    ∀ n s, Machine.after (step loadWord emptyPacket o.beyond) n (init o) = some s →
      0 ≤ s.pc ∧ s.pc < loadWord.length :=
  have hchk : skChkFilter loadWord = 0 := by decide +kernel
  ⟨hchk, fun o => sk_chk_filter_sound loadWord hchk emptyPacket (by simp [emptyPacket]) o⟩

/-- The load finds no bytes: the accepted filter returns 0 at its first instruction and never
reaches its `BPF_RET`. -/
theorem sk_run_filter_stops_at_load : skChkFilter loadWord = 0 ∧
    ∀ o, skRunFilter loadWord emptyPacket o loadWord.length = some .noData :=
  ⟨by decide +kernel, fun _ => rfl⟩

end R0Kernel.Net.Filter
