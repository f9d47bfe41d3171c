import R0Kernel.Fs.Ext2.GetBlocks

/-!
# Mapping blocks of one file at the same time

Calls of `ext2_get_blocks` read the chain without a lock and then wait for `truncate_mutex`. The
section under the mutex starts from the end of the chain as it was read, so a run of calls is right
as long as that pointer is still zero when the section is entered.
-/

namespace R0Kernel.Ext2.GetBlocks

open List

structure Call where
  iblock : Nat
  maxblocks : Nat
  chainEnd : ChainEnd
  deriving DecidableEq

/-- The file, the logical blocks with the block that a caller was told for them, and the calls that
have read their chain. -/
structure State where
  file : File
  told : List (Nat × Nat)
  waiting : List Call

def tell (iblock : Nat) (r : Nat × Nat) : List (Nat × Nat) :=
  (List.range r.2).map fun j => (iblock + j, r.1 + j)

inductive Event where
  | read (bread : Nat → Bool) (iblock maxblocks : Nat)
  | allocate (call : Call) (a : Allocator) (clearFails : Bool)

def step (bits : Nat) (s : State) : Event → Option State
  | .read bread iblock maxblocks =>
    if 0 < maxblocks then
      match lookup bits bread iblock maxblocks s.file.mem with
      | .failed => some s
      | .found first n => some { s with told := tell iblock (first, n) ++ s.told }
      | .missing e => some { s with waiting := ⟨iblock, maxblocks, e⟩ :: s.waiting }
    else none
  | .allocate call a clearFails =>
    if call ∈ s.waiting then
      let (file, r) :=
        allocate bits a clearFails call.iblock call.maxblocks call.chainEnd s.file
      some ⟨file, r.elim [] (tell call.iblock) ++ s.told, s.waiting.erase call⟩
    else none

/-- Callers agree with the file, and blocks obtained since the start belong to it. -/
structure Linear (bits : Nat) (start : Finset Nat) (s : State) : Prop where
  single : ∀ i b b', Mapped bits s.file.mem i b → Mapped bits s.file.mem i b' → b = b'
  agreed : ∀ p ∈ s.told, Mapped bits s.file.mem p.1 p.2
  noLeak : ∀ b ∈ s.file.used, b ∈ start ∨ Reachable bits s.file.mem b

/-- The chain of the call still ends where it was read, and clearing does not fail. -/
def Undisturbed (s : State) : Event → Prop
  | .read _ _ _ => True
  | .allocate call _ clearFails =>
    s.file.mem call.chainEnd.holder call.chainEnd.slot = 0 ∧ clearFails = false

/-- States that runs of undisturbed events lead to. -/
inductive Reaches (bits : Nat) (start : State) : State → Prop where
  | start : Reaches bits start start
  | step {s s' : State} {event : Event} : Reaches bits start s → Undisturbed s event →
      step bits s event = some s' → Reaches bits start s'

lemma leads_unique {m : Pointers} {h h₁ h₂ : Holder} {π : List Nat} (h₁' : Leads m h π h₁)
    (h₂' : Leads m h π h₂) : h₁ = h₂ := by
  induction π generalizing h with
  | nil => exact h₁'.symm.trans h₂'
  | cons o π ih => exact ih h₁'.2 h₂'.2

section Runs

variable {bits : Nat} {start : Finset Nat} {s s' : State}

/-- The invariant of undisturbed runs. -/
structure Ok (bits : Nat) (start : Finset Nat) (s : State) : Prop where
  tree : IsTree bits s.file
  agreed : ∀ p ∈ s.told, Mapped bits s.file.mem p.1 p.2
  noLeak : ∀ b ∈ s.file.used, b ∈ start ∨ Reachable bits s.file.mem b
  waiting : ∀ c ∈ s.waiting, 0 < c.maxblocks ∧ Arrives bits s.file.mem c.iblock c.chainEnd

lemma forall_tell {iblock first n : Nat} {P : Nat × Nat → Prop}
    (h : ∀ j < n, P (iblock + j, first + j)) : ∀ p ∈ tell iblock (first, n), P p := by
  intro p hp
  obtain ⟨j, hj, rfl⟩ := mem_map.mp hp
  exact h j (mem_range.mp hj)

section

variable (hbits : 4 ≤ bits) (hs : Ok bits start s)

include hbits hs

lemma Ok.read {bread : Nat → Bool} {iblock maxblocks : Nat}
    (h : GetBlocks.step bits s (.read bread iblock maxblocks) = some s') : Ok bits start s' := by
  simp only [GetBlocks.step] at h
  split at h
  next hmax =>
    have hspec := lookup_spec bread iblock hbits hmax s.file.mem
    split at h <;> obtain rfl := Option.some.inj h
    next => exact hs
    next first n hlook =>
      rw [hlook] at hspec
      exact { hs with agreed := forall_mem_append.mpr ⟨forall_tell hspec.2.2, hs.agreed⟩ }
    next e hlook =>
      rw [hlook] at hspec
      exact { hs with waiting := forall_mem_cons.mpr ⟨⟨hmax, hspec.1⟩, hs.waiting⟩ }
  next => cases h

/-- Linking new blocks keeps what callers know. -/
lemma Ok.linked {iblock first n : Nat} {e : ChainEnd} {new : List Nat}
    (hk : Linking bits s.file iblock e new first n) (call : Call) :
    Ok bits start ⟨GetBlocks.linked s.file e new first n, tell iblock (first, n) ++ s.told,
      s.waiting.erase call⟩ where
  tree := hk.isTree hbits
  agreed := forall_mem_append.mpr ⟨forall_tell fun j hj => hk.mapped hbits hj,
    fun p hp => hk.kept ⟨p.1, prefix_rfl⟩ (hs.agreed p hp)⟩
  noLeak := by
    intro b hb
    rcases Finset.mem_union.mp hb with hold | hnew
    · refine (hs.noLeak b hold).imp_right ?_
      rintro ⟨π, hπ, hl⟩
      exact ⟨π, hπ, hk.kept hπ hl⟩
    · exact .inr (hk.reachable hbits b (mem_toFinset.mp hnew))
  waiting := by
    intro c hc
    obtain ⟨hmax, pre, hpath, hlead⟩ := hs.waiting c (mem_of_mem_erase hc)
    exact ⟨hmax, pre, hpath, hk.kept ⟨c.iblock, _, hpath.symm⟩ hlead⟩

lemma Ok.step {event : Event} (hevent : Undisturbed s event)
    (h : GetBlocks.step bits s event = some s') :
    Ok bits start s' := by
  cases event with
  | read bread iblock maxblocks => exact hs.read hbits h
  | allocate call a clearFails =>
    obtain ⟨hzero, rfl⟩ := hevent
    simp only [GetBlocks.step] at h
    split at h
    next hcall =>
      obtain ⟨hmax, harrives⟩ := hs.waiting call hcall
      obtain ⟨-, hfail⟩ | ⟨-, new, first, n, hk, -, heq⟩ :=
        allocate_cases a hmax hs.tree harrives hzero
      · rw [hfail] at h
        obtain rfl := Option.some.inj h
        exact { hs with waiting := fun c hc => hs.waiting c (mem_of_mem_erase hc) }
      · rw [heq] at h
        obtain rfl := Option.some.inj h
        exact hs.linked hbits hk call
    next => cases h

end

/-- In every run of undisturbed events each block has one mapping, all callers were told that one,
and no block is lost. -/
theorem ext2_get_blocks_linear (hbits : 4 ≤ bits) {f : File} (hf : IsTree bits f)
    (h : Reaches bits ⟨f, [], []⟩ s) : Linear bits f.used s := by
  have hok : Ok bits f.used s := by
    induction h with
    | start => exact ⟨hf, by simp, fun b hb => .inl hb, by simp⟩
    | step _ hevent hstep ih => exact ih.step hbits hevent hstep
  refine ⟨fun i b b' hb hb' => ?_, hok.agreed, hok.noLeak⟩
  injection leads_unique hb hb'

def readFirst : Event := .read (fun _ => true) 0 1

/-- A call for the first block of a file that has none. -/
def firstCall : Call := ⟨0, 1, ⟨.inode, 0, []⟩⟩

/-- Two calls for two blocks wait at the same time. -/
theorem ext2_get_blocks_linear_two :
    ∃ s, Reaches 8 ⟨emptyFile, [], []⟩ s ∧ s.told = [(1, 101), (0, 100)] ∧ Linear 8 ∅ s := by
  have hfirst : Reaches 8 ⟨emptyFile, [], []⟩ ⟨emptyFile, [], [firstCall]⟩ :=
    Reaches.start.step (show Undisturbed _ readFirst from trivial) rfl
  have hboth := hfirst.step (show Undisturbed _ (.read (fun _ => true) 1 1) from trivial) rfl
  have hone := hboth.step
    (show Undisturbed _ (.allocate firstCall twoBlocks false) from ⟨rfl, rfl⟩) rfl
  have hrun := hone.step
    (show Undisturbed _ (.allocate ⟨1, 1, .inode, 1, []⟩ twoBlocks false) from ⟨rfl, rfl⟩) rfl
  exact ⟨_, hrun, rfl, ext2_get_blocks_linear (by decide) (emptyFile_isTree 8) hrun⟩

/-- Two calls read that block 0 has no mapping; each allocates a block and reports it. -/
theorem ext2_get_blocks_disturbed :
    ∃ s, [readFirst, readFirst, .allocate firstCall twoBlocks false,
        .allocate firstCall twoBlocks false].foldlM (step 8) ⟨emptyFile, [], []⟩ = some s ∧
      s.told = [(0, 101), (0, 100)] ∧ ¬Linear 8 ∅ s := by
  refine ⟨_, rfl, rfl, fun h => ?_⟩
  have hsame := h.single 0 101 100 (h.agreed (0, 101) (by decide)) (h.agreed (0, 100) (by decide))
  cases hsame

end Runs

end R0Kernel.Ext2.GetBlocks
