import R0Kernel.Net.Filter.Checker

/-!
# What a filter can see of the kernel's memory

`sk_run_filter` does not initialise its scratch words and `__load_pointer` only checks the first
byte of a load, so two runs of a filter on a packet can differ. They differ in a register as soon
as, and not before, the run loads a scratch word it has not stored or reads behind the tail.
-/

namespace R0Kernel.Net.Filter

open Machine Function List Option

variable {filter : List SockFilter} {skb : SkBuff} {o o' : Outside} {i : SockFilter}
  {s s' t : State} {n : Nat} {op : Opcode}

/-- The state after `n` instructions of `sk_run_filter`. -/
def stateAfter (filter : List SockFilter) (skb : SkBuff) (o : Outside) (n : Nat) : Option State :=
  after (step filter skb o.beyond) n (State.init o)

/-- `op` is the label of the instruction at the program counter. -/
def At (filter : List SockFilter) (s : State) (i : SockFilter) (op : Opcode) : Prop :=
  fetch filter s.pc = some i ∧ decode i.code = some op

def LoadsFrom (filter : List SockFilter) (s : State) (k : Fin bpfMemwords) : Prop :=
  ∃ i, (At filter s i .ldMem ∨ At filter s i .ldxMem) ∧ i.k.toNat = k

def StoresTo (filter : List SockFilter) (s : State) (k : Fin bpfMemwords) : Prop :=
  ∃ i, (At filter s i .st ∨ At filter s i .stx) ∧ i.k.toNat = k

/-- A load through `__load_pointer` whose last bytes lie behind the tail. -/
def ReadsPastTail (filter : List SockFilter) (skb : SkBuff) (s : State) : Prop :=
  ∃ i op k size p, At filter s i op ∧ op.packetLoad i s = some (k, size) ∧ k < skfAdOff ∧
    loadPointer' skb k = some p ∧ skb.linear.length < p + size

def StoredBefore (filter : List SockFilter) (skb : SkBuff) (o : Outside) (n : Nat)
    (k : Fin bpfMemwords) : Prop :=
  ∃ m < n, ∃ s, stateAfter filter skb o m = some s ∧ StoresTo filter s k

/-- Every scratch word is stored before it is loaded, and no load reads behind the tail. -/
structure Clean (filter : List SockFilter) (skb : SkBuff) (o : Outside) : Prop where
  scratch : ∀ n s k, stateAfter filter skb o n = some s → LoadsFrom filter s k →
    StoredBefore filter skb o n k
  tail : ∀ n s, stateAfter filter skb o n = some s → ¬ ReadsPastTail filter skb s

/-- The registers: the program counter, `A` and `X`. -/
def State.regs (s : State) : Int × UInt32 × UInt32 :=
  (s.pc, s.a, s.x)

/-! ### Reading the packet -/

variable {k : Fin bpfMemwords} {p size : Nat} {b : Nat → UInt8}

lemma loadPointer'_lt {k : Int} (h : loadPointer' skb k = some p) :
    p < skb.linear.length := by
  obtain ⟨q, -, hq⟩ := bind_eq_some_iff.mp h
  split at hq
  next hbounds =>
    cases hq
    omega
  next => cases hq

lemma readAt_congr {b' : Nat → UInt8} (h : p + size ≤ skb.linear.length) :
    readAt skb b p size = readAt skb b' p size := by
  apply map_congr_left
  intro j hj
  have hlt : p + j < skb.linear.length := by
    have := mem_range.mp hj
    omega
  rw [byteAt, byteAt, getElem?_eq_getElem hlt]
  rfl

/-- A load that does not reach behind the tail sees the packet only. -/
lemma loadPointer_congr {b' : Nat → UInt8} {k : Int}
    (h : ∀ p, k < skfAdOff → loadPointer' skb k = some p → p + size ≤ skb.linear.length) :
    loadPointer skb b k size = loadPointer skb b' k size := by
  unfold loadPointer
  split
  next => rfl
  next =>
    split
    next => rfl
    next hk =>
      cases hp : loadPointer' skb k with
      | none => rfl
      | some p =>
        have hle := h p (Int.not_le.mp hk) hp
        exact congrArg some (readAt_congr hle)

lemma loadPointer_of_neg {k : Int} (hk : k < skfAdOff) (hp : loadPointer' skb k = some p) :
    loadPointer skb b k size = some (readAt skb b p size) := by
  have hneg : ¬ 0 ≤ k := by
    have hoff : skfAdOff < 0 := by decide
    omega
  rw [loadPointer, if_neg hneg, if_neg (Int.not_le.mpr hk), hp, map_some]

/-- A load across the tail shows the first byte behind it. -/
lemma beyond_of_readAt_eq {b' : Nat → UInt8} (hp : p < skb.linear.length)
    (hpast : skb.linear.length < p + size) (h : readAt skb b p size = readAt skb b' p size) :
    b 0 = b' 0 := by
  have hmem : skb.linear.length - p ∈ List.range size := mem_range.mpr (by omega)
  have hbyte := map_inj_left.mp h _ hmem
  rw [Nat.add_sub_cancel' hp.le, byteAt, byteAt, getElem?_eq_none le_rfl, Nat.sub_self] at hbyte
  exact hbyte

lemma ntoh_eq_ofDigits (l : List UInt8) :
    ntoh l = UInt32.ofNat (Nat.ofDigits 256 (l.reverse.map UInt8.toNat)) := by
  rw [ntoh, Nat.ofDigits_eq_foldr, foldr_map, foldr_reverse]
  simp only [Nat.cast_id, add_comm]

/-- A register of four bytes holds up to four bytes. -/
lemma ntoh_inj {l l' : List UInt8} (hlen : l.length = l'.length) (hle : l.length ≤ 4)
    (h : ntoh l = ntoh l') : l = l' := by
  have hbyte : ∀ l : List UInt8, ∀ d ∈ l.reverse.map UInt8.toNat, d < 256 := by
    intro l d hd
    obtain ⟨b, -, rfl⟩ := mem_map.mp hd
    exact b.toNat_lt
  have hlt : ∀ l : List UInt8, l.length ≤ 4 →
      Nat.ofDigits 256 (l.reverse.map UInt8.toNat) < UInt32.size := by
    intro l hl
    refine (Nat.ofDigits_lt_base_pow_length (by decide) (hbyte l)).trans_le ?_
    rw [length_map, length_reverse]
    exact (Nat.pow_le_pow_right (by decide) hl).trans (by decide)
  have hnat := congrArg UInt32.toNat h
  rw [ntoh_eq_ofDigits, ntoh_eq_ofDigits, UInt32.toNat_ofNat_of_lt' (hlt l hle),
    UInt32.toNat_ofNat_of_lt' (hlt l' (hlen ▸ hle))] at hnat
  have hdigits := Nat.ofDigits_inj_of_len_eq (by decide) (by simpa using hlen) (hbyte l)
    (hbyte l') hnat
  exact reverse_injective (map_injective_iff.mpr (fun _ _ => UInt8.toNat_inj.mp) hdigits)

/-! ### One instruction in two runs -/

/-- Two states with the same registers and the same words in `W`. -/
structure Same (W : Set (Fin bpfMemwords)) (s s' : State) : Prop where
  pc : s.pc = s'.pc
  a : s.a = s'.a
  x : s.x = s'.x
  mem : ∀ k ∈ W, s.mem k = s'.mem k

namespace Same

variable {W : Set (Fin bpfMemwords)}

variable (h : Same W s s')

include h

lemma regs : s.regs = s'.regs := by
  rw [State.regs, State.regs, h.pc, h.a, h.x]

lemma setA (v : UInt32) : Same W (s.setA v) (s'.setA v) :=
  ⟨congrArg (· + 1) h.pc, rfl, h.x, h.mem⟩

lemma setX (v : UInt32) : Same W (s.setX v) (s'.setX v) :=
  ⟨congrArg (· + 1) h.pc, h.a, rfl, h.mem⟩

lemma jump (d : Nat) : Same W (s.jump d) (s'.jump d) :=
  ⟨congrArg (fun pc : Int => pc + d + 1) h.pc, h.a, h.x, h.mem⟩

lemma mono {V : Set (Fin bpfMemwords)} (hVW : V ⊆ W) : Same V s s' :=
  ⟨h.pc, h.a, h.x, fun k hk => h.mem k (hVW hk)⟩

lemma setPc (pc : Int) : Same W { s with pc := pc } { s' with pc := pc } :=
  ⟨rfl, h.a, h.x, h.mem⟩

lemma store (k : Fin bpfMemwords) (v : UInt32) :
    Same (insert k W) (s.store k v) (s'.store k v) := by
  refine ⟨congrArg (· + 1) h.pc, h.a, h.x, ?_⟩
  intro j hj
  by_cases hjk : j = k
  · subst hjk
    simp only [State.store, update_self]
  · simp only [State.store, update_of_ne hjk]
    exact h.mem j (Set.mem_of_mem_insert_of_ne hj hjk)

end Same

section TwoRuns

variable {W : Set (Fin bpfMemwords)} {b b' : Nat → UInt8}

lemma load_same (h : Same W s s') {size : Size} {k : Int}
    (hptr : loadPointer skb b k size.bytes = loadPointer skb b' k size.bytes) :
    Sum.LiftRel (Same W) Eq (load skb b size k s) (load skb b' size k s') := by
  rw [load, load, ← hptr]
  split
  next => exact .inl (h.setA _)
  next =>
    rcases ancillary_cases skb k with ⟨v, hv⟩ | ⟨-, hexit⟩ | hexit
    · rw [hv, hv]
      exact .inl (h.setA v)
    all_goals
      rw [hexit, hexit]
      exact .inr rfl

lemma loadMsh_same (h : Same W s s') {k : Int}
    (hptr : loadPointer skb b k 1 = loadPointer skb b' k 1) :
    Sum.LiftRel (Same W) Eq (loadMsh skb b k s) (loadMsh skb b' k s') := by
  rw [loadMsh, loadMsh, ← hptr]
  split
  next => exact .inl (h.setX _)
  next => exact .inr rfl

lemma operand_same (h : Same W s s') (src : Src) : operand i s src = operand i s' src := by
  cases src with
  | k => rfl
  | x => exact h.x

lemma withScratch_same {V : Set (Fin bpfMemwords)} {f f' : Fin bpfMemwords → State}
    (h : ∀ k : Fin bpfMemwords, i.k.toNat = k → Same V (f k) (f' k)) :
    Sum.LiftRel (Same V) Eq (withScratch i.k f) (withScratch i.k f') := by
  unfold withScratch
  split
  next => exact .inl (h _ rfl)
  next => exact .inr rfl

/-- Two runs go on alike through an instruction that loads only words they share. -/
lemma exec_same (h : Same W s s') (hst : op ≠ .st) (hstx : op ≠ .stx)
    (hscratch : ∀ k : Fin bpfMemwords, op = .ldMem ∨ op = .ldxMem → i.k.toNat = k → k ∈ W)
    (hptr : ∀ k size, op.packetLoad i s = some (k, size) →
      loadPointer skb b k size = loadPointer skb b' k size) :
    Sum.LiftRel (Same W) Eq (exec skb b i s op) (exec skb b' i s' op) := by
  cases op with
  | alu op src =>
    cases op with
    | div =>
      cases src with
      | x =>
        rw [exec, exec, ← h.x, ← h.a]
        split
        next => exact .inr rfl
        next => exact .inl (h.setA _)
      | k =>
        rw [exec, exec, ← h.a]
        split
        next => exact .inr rfl
        next => exact .inl (h.setA _)
    | _ =>
      rw [exec, exec, ← operand_same h, ← h.a]
      · exact .inl (h.setA _)
      all_goals simp
  | neg =>
    rw [exec, exec, ← h.a]
    exact .inl (h.setA _)
  | ja =>
    rw [exec, exec, ← h.pc]
    exact .inl (h.setPc _)
  | jmp op src =>
    rw [exec, exec, ← operand_same h, ← h.a]
    exact .inl (h.jump _)
  | ldAbs size =>
    rw [exec, exec]
    exact load_same h (hptr _ _ rfl)
  | ldInd size =>
    rw [exec, exec, ← h.x]
    exact load_same h (hptr _ _ rfl)
  | ldxMsh =>
    rw [exec, exec]
    exact loadMsh_same h (hptr _ _ rfl)
  | ldMem =>
    rw [exec, exec]
    apply withScratch_same
    intro k hk
    rw [← h.mem k (hscratch k (.inl rfl) hk)]
    exact h.setA _
  | ldxMem =>
    rw [exec, exec]
    apply withScratch_same
    intro k hk
    rw [← h.mem k (hscratch k (.inr rfl) hk)]
    exact h.setX _
  | tax =>
    rw [exec, exec, ← h.a]
    exact .inl (h.setX _)
  | txa =>
    rw [exec, exec, ← h.x]
    exact .inl (h.setA _)
  | retA =>
    rw [exec, exec, ← h.a]
    exact .inr rfl
  | retK => exact .inr rfl
  | st => exact absurd rfl hst
  | stx => exact absurd rfl hstx
  | ldLen | ldImm => exact .inl (h.setA _)
  | ldxLen | ldxImm => exact .inl (h.setX _)

/-- A store puts the same value into its word in both runs. -/
lemma exec_same_store (h : Same W s s') (hop : op = .st ∨ op = .stx) :
    Sum.LiftRel (Same (W ∪ {k | i.k.toNat = k})) Eq (exec skb b i s op) (exec skb b' i s' op) := by
  have hsub : ∀ k : Fin bpfMemwords, i.k.toNat = k → W ∪ {k | i.k.toNat = k} ⊆ insert k W := by
    intro k hk j hj
    rcases hj with hW | hj
    · exact Set.mem_insert_of_mem k hW
    · have hjk : j = k := Fin.ext (Eq.trans (Eq.symm hj) hk)
      exact hjk ▸ Set.mem_insert j W
  rcases hop with rfl | rfl
  · rw [exec, exec, ← h.a]
    apply withScratch_same
    intro k hk
    exact (h.store k _).mono (hsub k hk)
  · rw [exec, exec, ← h.x]
    apply withScratch_same
    intro k hk
    exact (h.store k _).mono (hsub k hk)

end TwoRuns

/-! ### A clean run sees the filter and the packet only -/

lemma At.unique {j : SockFilter} {op' : Opcode} (h : At filter s i op)
    (h' : At filter s j op') : i = j ∧ op = op' := by
  obtain rfl : i = j := some.inj (h.1.symm.trans h'.1)
  exact ⟨rfl, some.inj (h.2.symm.trans h'.2)⟩

lemma At.of_pc (h : At filter s i op) (hpc : s.pc = s'.pc) : At filter s' i op :=
  ⟨hpc ▸ h.1, h.2⟩

lemma StoredBefore.of_succ (h : StoredBefore filter skb o (n + 1) k)
    (hs : stateAfter filter skb o n = some s) :
    StoredBefore filter skb o n k ∨ StoresTo filter s k := by
  obtain ⟨m, hm, t, ht, hstore⟩ := h
  rcases Nat.lt_succ_iff_lt_or_eq.mp hm with hlt | rfl
  · exact .inl ⟨m, hlt, t, ht, hstore⟩
  · obtain rfl : t = s := some.inj (ht.symm.trans hs)
    exact .inr hstore

lemma step_same (o' : Outside) (hclean : Clean filter skb o)
    (hs : stateAfter filter skb o n = some s) (h : Same {k | StoredBefore filter skb o n k} s s') :
    Sum.LiftRel (Same {k | StoredBefore filter skb o (n + 1) k}) Eq
      (step filter skb o.beyond s) (step filter skb o'.beyond s') := by
  rw [step, step, ← h.pc]
  split
  next => exact .inr rfl
  next =>
    cases hi : fetch filter s.pc with
    | none => exact .inr rfl
    | some i =>
      cases hop : decode i.code with
      | none =>
        simp only [hop]
        exact .inr rfl
      | some op =>
        simp only [hop]
        have hat : At filter s i op := ⟨hi, hop⟩
        by_cases hstore : op = .st ∨ op = .stx
        · refine (exec_same_store h hstore).mono ?_ fun _ _ => id
          intro t t' ht
          apply ht.mono
          intro k hk
          rcases StoredBefore.of_succ hk hs with hbefore | ⟨j, hj, hjk⟩
          · exact .inl hbefore
          · obtain rfl : i = j := hj.elim (fun hj => (hat.unique hj).1)
              fun hj => (hat.unique hj).1
            exact .inr hjk
        · push Not at hstore
          refine (exec_same h hstore.1 hstore.2 ?_ ?_).mono ?_ fun _ _ => id
          · intro k hload hk
            apply hclean.scratch n s k hs
            rcases hload with rfl | rfl
            · exact ⟨i, .inl hat, hk⟩
            · exact ⟨i, .inr hat, hk⟩
          · intro k size hload
            apply loadPointer_congr
            intro p hk hp
            by_contra hpast
            exact hclean.tail n s hs ⟨i, op, k, size, p, hat, hload, hk, hp, by omega⟩
          · intro t t' ht
            apply ht.mono
            intro k hk
            rcases StoredBefore.of_succ hk hs with hbefore | ⟨j, hj, -⟩
            · exact hbefore
            · -- the instruction is no store
              rcases hj with hj | hj
              · exact absurd (hat.unique hj).2 hstore.1
              · exact absurd (hat.unique hj).2 hstore.2

/-- Both runs have come to the `n`-th instruction, with the same registers and stored words. -/
def InStep (filter : List SockFilter) (skb : SkBuff) (o o' : Outside) (n : Nat)
    (s s' : State) : Prop :=
  stateAfter filter skb o n = some s ∧ stateAfter filter skb o' n = some s' ∧
    Same {k | StoredBefore filter skb o n k} s s'

lemma inStep_init : InStep filter skb o o' 0 (State.init o) (State.init o') := by
  refine ⟨rfl, rfl, rfl, rfl, rfl, ?_⟩
  intro k hk
  obtain ⟨m, hm, -⟩ := hk
  exact absurd hm (Nat.not_lt_zero m)

lemma inStep_step (o' : Outside) (hclean : Clean filter skb o) (n : Nat) (s s' : State)
    (h : InStep filter skb o o' n s s') :
    Sum.LiftRel (InStep filter skb o o' (n + 1)) Eq
      (step filter skb o.beyond s) (step filter skb o'.beyond s') := by
  obtain ⟨hs, hs', hsame⟩ := h
  have hnext := step_same o' hclean hs hsame
  generalize ht : step filter skb o.beyond s = next at hnext
  generalize ht' : step filter skb o'.beyond s' = next' at hnext
  cases hnext with
  | inl hsame' => exact .inl ⟨after_succ_of_inl hs ht, after_succ_of_inl hs' ht', hsame'⟩
  | inr heq => exact .inr heq

lemma regs_eq_of_clean (hclean : Clean filter skb o) (o' : Outside) (n : Nat) :
    (stateAfter filter skb o n).map State.regs = (stateAfter filter skb o' n).map State.regs := by
  have hrel := after_lockstep (inStep_step o' hclean) inStep_init n
  rw [stateAfter, stateAfter]
  generalize after (step filter skb o.beyond) n (State.init o) = x at hrel
  generalize after (step filter skb o'.beyond) n (State.init o') = y at hrel
  cases hrel with
  | none => rfl
  | some h => exact congrArg some h.2.2.regs

lemma skRunFilter_eq_of_clean (hclean : Clean filter skb o) (o' : Outside) (fuel : Nat) :
    skRunFilter filter skb o fuel = skRunFilter filter skb o' fuel :=
  run_lockstep (inStep_step o' hclean) inStep_init fuel

/-! ### A run that is not clean sees more -/

lemma load_mem {size : Size} {k : Int} (h : load skb b size k s = .inl t) :
    t.mem = s.mem := by
  unfold load at h
  split at h
  next =>
    cases h
    rfl
  next =>
    rcases ancillary_cases skb k with ⟨v, hv⟩ | ⟨-, hexit⟩ | hexit
    · rw [hv] at h
      cases h
      rfl
    all_goals
      rw [hexit] at h
      cases h

lemma loadMsh_mem {k : Int} (h : loadMsh skb b k s = .inl t) :
    t.mem = s.mem := by
  unfold loadMsh at h
  split at h
  next =>
    cases h
    rfl
  next => cases h

lemma withScratch_inl {f : Fin bpfMemwords → State} (h : withScratch i.k f = .inl t) :
    ∃ k : Fin bpfMemwords, i.k.toNat = k ∧ t = f k := by
  unfold withScratch at h
  split at h
  next hk => exact ⟨⟨i.k.toNat, hk⟩, rfl, (Sum.inl.inj h).symm⟩
  next => cases h

lemma exec_mem (h : exec skb b i s op = .inl t) (hk : op = .st ∨ op = .stx → i.k.toNat ≠ k) :
    t.mem k = s.mem k := by
  cases op with
  | alu op src =>
    cases op with
    | div =>
      cases src with
      | x | k =>
        rw [exec] at h
        split at h
        next => cases h
        next =>
          cases h
          rfl
    | _ =>
      cases h
      rfl
  | ldAbs size | ldInd size =>
    rw [exec] at h
    rw [load_mem h]
  | ldxMsh =>
    rw [exec] at h
    rw [loadMsh_mem h]
  | ldMem | ldxMem =>
    rw [exec] at h
    obtain ⟨j, -, rfl⟩ := withScratch_inl h
    rfl
  | st | stx =>
    rw [exec] at h
    obtain ⟨j, hj, rfl⟩ := withScratch_inl h
    have hne : k ≠ j := by
      rintro rfl
      first
        | exact hk (.inl rfl) hj
        | exact hk (.inr rfl) hj
    exact update_of_ne hne _ _
  | retK | retA => cases h
  | _ =>
    cases h
    rfl

lemma exists_at_of_step (h : step filter skb b s = .inl t) :
    ∃ i op, At filter s i op ∧ exec skb b i s op = .inl t := by
  unfold step at h
  split at h
  next => cases h
  next =>
    split at h
    next i hi =>
      split at h
      next op hop => exact ⟨i, op, ⟨hi, hop⟩, h⟩
      next => cases h
    next => cases h

lemma lt_of_at (h : At filter s i op) : s.pc < filter.length := by
  have hi := h.1
  rw [fetch] at hi
  split at hi
  next => cases hi
  next =>
    obtain ⟨hlt, -⟩ := List.getElem?_eq_some_iff.mp hi
    omega

lemma step_of_at (h : At filter s i op) :
    step filter skb b s = exec skb b i s op :=
  step_eq_exec (lt_of_at h) h.1 h.2

/-- A word that was not stored still has its content on entry. -/
lemma mem_of_not_storedBefore (hs : stateAfter filter skb o n = some s)
    (hk : ¬ StoredBefore filter skb o n k) : s.mem k = o.scratch k := by
  induction n generalizing s with
  | zero =>
    cases hs
    rfl
  | succ n ih =>
    obtain ⟨t, ht, hstep⟩ := exists_of_after_succ hs
    obtain ⟨i, op, hat, hexec⟩ := exists_at_of_step hstep
    have hbefore : ¬ StoredBefore filter skb o n k := by
      rintro ⟨m, hm, hstored⟩
      exact hk ⟨m, Nat.lt_succ_of_lt hm, hstored⟩
    rw [exec_mem hexec, ih ht hbefore]
    intro hop hik
    apply hk
    refine ⟨n, Nat.lt_succ_self n, t, ht, i, ?_, hik⟩
    rcases hop with rfl | rfl
    · exact .inl hat
    · exact .inr hat

/-- The registers of a run, at every instruction, do not depend on what lies outside. -/
def RegsFixed (filter : List SockFilter) (skb : SkBuff) : Prop :=
  ∀ o o' n, (stateAfter filter skb o n).map State.regs =
    (stateAfter filter skb o' n).map State.regs

lemma RegsFixed.exists_state (h : RegsFixed filter skb)
    (hs : stateAfter filter skb o n = some s) (o' : Outside) :
    ∃ s', stateAfter filter skb o' n = some s' ∧ s.pc = s'.pc ∧ s.a = s'.a ∧ s.x = s'.x := by
  have hregs := h o o' n
  rw [hs] at hregs
  obtain ⟨s', hs', heq⟩ := map_eq_some_iff.mp hregs.symm
  simp only [State.regs, Prod.mk.injEq] at heq
  exact ⟨s', hs', heq.1.symm, heq.2.1.symm, heq.2.2.symm⟩

lemma RegsFixed.storedBefore (h : RegsFixed filter skb) (hk : StoredBefore filter skb o' n k) :
    StoredBefore filter skb o n k := by
  obtain ⟨m, hm, s, hs, i, hat, hik⟩ := hk
  obtain ⟨s', hs', hpc, -⟩ := h.exists_state hs o
  exact ⟨m, hm, s', hs', i, hat.imp (·.of_pc hpc) (·.of_pc hpc), hik⟩

/-- If the registers are fixed, so are the results of the instruction the run has come to. -/
lemma RegsFixed.exec_regs (h : RegsFixed filter skb) (hs : stateAfter filter skb o n = some s)
    (hs' : stateAfter filter skb o' n = some s') (hat : At filter s i op) {t t' : State}
    (hat' : At filter s' i op) (ht : exec skb o.beyond i s op = .inl t)
    (ht' : exec skb o'.beyond i s' op = .inl t') : t.regs = t'.regs := by
  have hnext := h o o' (n + 1)
  rw [stateAfter, after_succ_of_inl hs ((step_of_at hat).trans ht), stateAfter,
    after_succ_of_inl hs' ((step_of_at hat').trans ht')] at hnext
  exact some.inj hnext

lemma withScratch_of_eq (hk : i.k.toNat = k) (f : Fin bpfMemwords → State) :
    withScratch i.k f = .inl (f k) := by
  have hlt : i.k.toNat < bpfMemwords := hk ▸ k.isLt
  rw [withScratch, dif_pos hlt]
  congr 2
  exact Fin.ext hk

lemma exec_ldMem_of_eq (hk : i.k.toNat = k) :
    exec skb b i s .ldMem = .inl (s.setA (s.mem k)) := by
  rw [exec, withScratch_of_eq hk]

lemma exec_ldxMem_of_eq (hk : i.k.toNat = k) :
    exec skb b i s .ldxMem = .inl (s.setX (s.mem k)) := by
  rw [exec, withScratch_of_eq hk]

lemma RegsFixed.scratch (h : RegsFixed filter skb) (hs : stateAfter filter skb o n = some s)
    (hload : LoadsFrom filter s k) :
    StoredBefore filter skb o n k := by
  by_contra hnot
  -- another run that differs in this word only
  let o' : Outside := ⟨update o.scratch k (o.scratch k + 1), o.beyond⟩
  obtain ⟨s', hs', hpc, ha, hx⟩ := h.exists_state hs o'
  have hmem : s.mem k = o.scratch k := mem_of_not_storedBefore hs hnot
  have hmem' : s'.mem k = o.scratch k + 1 := by
    rw [mem_of_not_storedBefore hs' fun hk => hnot (h.storedBefore hk)]
    exact update_self ..
  have hne : s.mem k ≠ s'.mem k := by
    rw [hmem, hmem']
    simp
  obtain ⟨i, hat | hat, hik⟩ := hload
  · have hregs := h.exec_regs hs hs' hat (hat.of_pc hpc) (exec_ldMem_of_eq hik)
      (exec_ldMem_of_eq hik)
    exact hne (congrArg (·.2.1) hregs)
  · have hregs := h.exec_regs hs hs' hat (hat.of_pc hpc) (exec_ldxMem_of_eq hik)
      (exec_ldxMem_of_eq hik)
    exact hne (congrArg (·.2.2) hregs)

lemma load_of_neg {size : Size} {k : Int} (hk : k < skfAdOff) (hp : loadPointer' skb k = some p) :
    load skb b size k s = .inl (s.setA (ntoh (readAt skb b p size.bytes))) := by
  rw [load, loadPointer_of_neg hk hp]

section

variable (h : RegsFixed filter skb) (hs : stateAfter filter skb o n = some s)

include h hs

/-- If the registers are fixed, a load of `size` bytes into `A` does not cross the tail. -/
lemma RegsFixed.load_within {size : Size} {k : Int} (hat : At filter s i op)
    (hexec : ∀ b s', s'.x = s.x → exec skb b i s' op = load skb b size k s') (hk : k < skfAdOff)
    (hp : loadPointer' skb k = some p) :
    p + size.bytes ≤ skb.linear.length := by
  by_contra hpast
  -- another run that differs in the first byte behind the tail
  let o' : Outside := ⟨o.scratch, update o.beyond 0 (o.beyond 0 + 1)⟩
  obtain ⟨s', hs', hpc, ha, hx⟩ := h.exists_state hs o'
  have hregs := h.exec_regs hs hs' hat (hat.of_pc hpc)
    ((hexec _ s rfl).trans (load_of_neg hk hp)) ((hexec _ s' hx.symm).trans (load_of_neg hk hp))
  have hsize : (readAt skb o.beyond p size.bytes).length ≤ 4 := by
    rw [readAt, length_map]
    cases size <;> decide
  have hlen : (readAt skb o.beyond p size.bytes).length =
      (readAt skb o'.beyond p size.bytes).length := by
    simp only [readAt, length_map]
  have hbytes := ntoh_inj hlen hsize (congrArg (·.2.1) hregs)
  have hbyte := beyond_of_readAt_eq (loadPointer'_lt hp) (not_le.mp hpast) hbytes
  simp [o'] at hbyte

lemma RegsFixed.tail :
    ¬ ReadsPastTail filter skb s := by
  rintro ⟨i, op, k, size, p, hat, hload, hk, hp, hpast⟩
  cases op with
  | ldAbs size =>
    rw [Opcode.packetLoad, some.injEq, Prod.mk.injEq] at hload
    obtain ⟨rfl, rfl⟩ := hload
    refine not_lt.mpr (h.load_within hs hat ?_ hk hp) hpast
    intro b s' _
    rw [exec]
  | ldInd size =>
    rw [Opcode.packetLoad, some.injEq, Prod.mk.injEq] at hload
    obtain ⟨rfl, rfl⟩ := hload
    refine not_lt.mpr (h.load_within hs hat ?_ hk hp) hpast
    intro b s' hx
    rw [exec, hx]
  | ldxMsh =>
    -- a single byte, and the pointer lies before the tail
    rw [Opcode.packetLoad, some.injEq, Prod.mk.injEq] at hload
    have hlt := loadPointer'_lt hp
    omega
  | _ => cases hload

end

/-- The registers do not depend on what lies outside if and only if every run is clean. -/
lemma clean_iff_regsFixed : (∀ o, Clean filter skb o) ↔ RegsFixed filter skb := by
  constructor
  · intro hclean o o' n
    exact regs_eq_of_clean (hclean o) o' n
  · intro hfixed o
    exact ⟨fun n s k hs hload => hfixed.scratch hs hload, fun n s hs => hfixed.tail hs⟩

/-- The registers of an accepted filter's run on a packet are functions of the filter and the
packet if and only if no run loads a scratch word before storing it or reads behind the tail; and
then so is the result. -/
theorem sk_run_filter_independent (filter : List SockFilter) (hchk : skChkFilter filter = 0)
    (skb : SkBuff) :
    ((∀ o, Clean filter skb o) ↔ ∀ o o' n, (stateAfter filter skb o n).map State.regs =
      (stateAfter filter skb o' n).map State.regs) ∧
    ((∀ o, Clean filter skb o) →
      ∃ e, ∀ o, skRunFilter filter skb o filter.length = some e) := by
  refine ⟨clean_iff_regsFixed, ?_⟩
  intro hclean
  let o : Outside := ⟨fun _ => 0, fun _ => 0⟩
  obtain ⟨e, hrun⟩ := skRunFilter_exits hchk skb o
  refine ⟨e, ?_⟩
  intro o'
  rw [← skRunFilter_eq_of_clean (hclean o) o' filter.length, hrun]

/-- `st M[0]; ld M[0]; ret A` -/
def storeThenLoad : List SockFilter :=
  [⟨0x02, 0, 0, 0⟩, ⟨0x60, 0, 0, 0⟩, ⟨0x16, 0, 0, 0⟩]

lemma storeThenLoad_regs : RegsFixed storeThenLoad emptyPacket := by
  suffices hfixed : ∀ n, ∃ r, ∀ o,
      (stateAfter storeThenLoad emptyPacket o n).map State.regs = r by
    intro o o' n
    obtain ⟨r, hr⟩ := hfixed n
    rw [hr o, hr o']
  intro n
  match n with
  | 0 => exact ⟨some (0, 0, 0), fun _ => rfl⟩
  | 1 => exact ⟨some (1, 0, 0), fun _ => rfl⟩
  | 2 => exact ⟨some (2, 0, 0), fun _ => rfl⟩
  | m + 3 =>
    refine ⟨none, fun o => ?_⟩
    have hexit : stateAfter storeThenLoad emptyPacket o 3 = none := rfl
    rw [stateAfter, add_comm, after_add_of_none hexit m]
    rfl

theorem sk_run_filter_independent_storeThenLoad : skChkFilter storeThenLoad = 0 ∧
    (∀ o, Clean storeThenLoad emptyPacket o) ∧
    ∃ e, ∀ o, skRunFilter storeThenLoad emptyPacket o storeThenLoad.length = some e :=
  have hchk : skChkFilter storeThenLoad = 0 := by decide +kernel
  have hindep := sk_run_filter_independent storeThenLoad hchk emptyPacket
  have hclean := hindep.1.mpr storeThenLoad_regs
  ⟨hchk, hclean, hindep.2 hclean⟩

/-- `ld M[0]; ret A` -/
def loadScratch : List SockFilter :=
  [⟨0x60, 0, 0, 0⟩, ⟨0x16, 0, 0, 0⟩]

/-- An accepted filter returns the first word of the uninitialised scratch memory. -/
theorem sk_run_filter_leaks : skChkFilter loadScratch = 0 ∧
    (∀ o, skRunFilter loadScratch emptyPacket o loadScratch.length =
      some (.ret (o.scratch ⟨0, by decide⟩))) ∧
    ∃ o o', o.beyond = o'.beyond ∧ skRunFilter loadScratch emptyPacket o loadScratch.length ≠
      skRunFilter loadScratch emptyPacket o' loadScratch.length :=
  ⟨by decide +kernel, fun _ => rfl, ⟨fun _ => 0, fun _ => 0⟩, ⟨fun _ => 1, fun _ => 0⟩, rfl,
    fun h => absurd (congrArg (Option.map Exit.value) h) (by decide +kernel)⟩

end R0Kernel.Net.Filter
