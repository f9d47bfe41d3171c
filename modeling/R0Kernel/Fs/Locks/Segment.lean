import R0Kernel.Fs.Locks.PosixLock

/-! # The effect of a request on the locks of its owner

What the pass of `__posix_lock_file` computes on the sorted locks of one owner,
without pointers: locks before the request are skipped, the request swallows the
locks it touches or covers, and the pieces that stick out on either side stay.
The result is again a sorted list of separated ranges and denotes the byte map
with the request written over it.
-/

namespace R0Kernel.Fs.Locks

open List

variable {Owner : Type*} {t : LockType} {b : Int}

/-! ## Byte maps -/

/-- The type of the first lock of the list that covers the byte. -/
def typeAt : List (FileLock Owner) → Int → Option LockType
  | [], _ => none
  | fl :: rest, b => if fl.start ≤ b ∧ b ≤ fl.stop then some fl.type else typeAt rest b

/-- What a request of the type leaves on the bytes of its range. -/
def LockType.granted : LockType → Option LockType
  | .unlck => none
  | t => some t

lemma LockType.granted_of_ne (ht : t ≠ .unlck) : t.granted = some t := by
  cases t with
  | rdlck => rfl
  | wrlck => rfl
  | unlck => exact absurd rfl ht

/-- The first range ends before the second starts, with a gap if they are of
one type. -/
def Separated (f g : FileLock Owner) : Prop :=
  f.stop < g.start ∧ (f.type = g.type → f.stop + 1 < g.start)

/-- A POSIX request of the owner for a range of offsets. -/
structure IsRequest (o : Owner) (r : FileLock Owner) : Prop where
  owner : r.owner = o
  posix : r.flags.posix = true
  nonneg : 0 ≤ r.start
  ordered : r.start ≤ r.stop
  bounded : r.stop ≤ offsetMax

/-- A POSIX lock the owner holds. -/
structure IsHeld (o : Owner) (f : FileLock Owner) : Prop extends IsRequest o f where
  held : f.type ≠ .unlck

/-! ## The pass without pointers -/

/-- The request has become the lock `r`; swallow what follows. -/
def absorb (r : FileLock Owner) : List (FileLock Owner) → List (FileLock Owner)
  | [] => [r]
  | fl :: rest =>
    if r.type = fl.type then
      if r.stop < fl.start - 1 then r :: fl :: rest
      else absorb { r with stop := max r.stop fl.stop } rest
    else if r.stop < fl.start then r :: fl :: rest
    else if r.stop < fl.stop then r :: { fl with start := r.stop + 1 } :: rest
    else absorb r rest

def inserted (r : FileLock Owner) : List (FileLock Owner) :=
  if r.type = .unlck then [] else [r]

def leftPiece (r fl : FileLock Owner) : List (FileLock Owner) :=
  if fl.start < r.start then [{ fl with stop := r.start - 1 }] else []

def overlay (r : FileLock Owner) : List (FileLock Owner) → List (FileLock Owner)
  | [] => inserted r
  | fl :: rest =>
    if r.type = fl.type then
      if fl.stop < r.start - 1 then fl :: overlay r rest
      else if r.stop < fl.start - 1 then r :: fl :: rest
      else absorb { fl with start := min fl.start r.start, stop := max fl.stop r.stop } rest
    else if fl.stop < r.start then fl :: overlay r rest
    else if r.stop < fl.start then inserted r ++ fl :: rest
    else if r.stop < fl.stop then
      leftPiece r fl ++ inserted r ++ { fl with start := r.stop + 1 } :: rest
    else if r.start ≤ fl.start then
      if r.type = .unlck then overlay r rest
      else absorb { fl with start := r.start, stop := r.stop, type := r.type } rest
    else leftPiece r fl ++ overlay r rest

variable {o : Owner} {r fl : FileLock Owner} {locks rest : List (FileLock Owner)}

lemma IsHeld.merge (hfl : IsHeld o fl) (hr : IsRequest o r) :
    IsHeld o { fl with start := min fl.start r.start, stop := max fl.stop r.stop } := by
  refine ⟨⟨hfl.owner, hfl.posix, le_min hfl.nonneg hr.nonneg, ?_, max_le hfl.bounded hr.bounded⟩,
    hfl.held⟩
  exact (min_le_left _ _).trans (hfl.ordered.trans (le_max_left _ _))

lemma IsHeld.retype (hfl : IsHeld o fl) (hr : IsHeld o r) :
    IsHeld o { fl with start := r.start, stop := r.stop, type := r.type } :=
  ⟨⟨hfl.owner, hfl.posix, hr.nonneg, hr.ordered, hr.bounded⟩, hr.held⟩

lemma IsHeld.extend (hr : IsHeld o r) (hfl : IsHeld o fl) :
    IsHeld o { r with stop := max r.stop fl.stop } :=
  ⟨⟨hr.owner, hr.posix, hr.nonneg, hr.ordered.trans (le_max_left _ _),
    max_le hr.bounded hfl.bounded⟩, hr.held⟩

lemma IsHeld.behind (hfl : IsHeld o fl) (hr : IsRequest o r) (hstick : r.stop < fl.stop) :
    IsHeld o { fl with start := r.stop + 1 } :=
  ⟨⟨hfl.owner, hfl.posix, by linarith [hr.nonneg, hr.ordered], hstick, hfl.bounded⟩, hfl.held⟩

@[simp] lemma typeAt_cons (fl : FileLock Owner) (b : Int) :
    typeAt (fl :: locks) b =
      if fl.start ≤ b ∧ b ≤ fl.stop then some fl.type else typeAt locks b := rfl

lemma typeAt_eq_none (hbehind : ∀ g ∈ locks, b < g.start) :
    typeAt locks b = none := by
  induction locks with
  | nil => rfl
  | cons fl rest ih =>
    obtain ⟨hfl, hrest⟩ := forall_mem_cons.mp hbehind
    rw [typeAt_cons, if_neg (fun h => absurd h.1 (not_le.mpr hfl)), ih hrest]

lemma exists_of_typeAt {locks : List (FileLock Owner)} (h : typeAt locks b = some t) :
    ∃ fl ∈ locks, fl.start ≤ b ∧ b ≤ fl.stop ∧ fl.type = t := by
  induction locks with
  | nil => simp [typeAt] at h
  | cons fl rest ih =>
    rw [typeAt_cons] at h
    split at h
    next hin => exact ⟨fl, mem_cons_self, hin.1, hin.2, Option.some.inj h⟩
    next =>
      obtain ⟨g, hg, hrest⟩ := ih h
      exact ⟨g, mem_cons_of_mem _ hg, hrest⟩

/-! ## What the pass leaves -/

/-- Locks that the owner holds, in order and apart. -/
structure Laid (o : Owner) (locks : List (FileLock Owner)) : Prop where
  held : ∀ g ∈ locks, IsHeld o g
  sorted : locks.Pairwise Separated

lemma laid_cons : Laid o (fl :: locks) ↔
    IsHeld o fl ∧ (∀ g ∈ locks, Separated fl g) ∧ Laid o locks := by
  constructor
  · rintro ⟨hheld, hsorted⟩
    obtain ⟨hfl, hheld⟩ := forall_mem_cons.mp hheld
    obtain ⟨hbehind, hsorted⟩ := pairwise_cons.mp hsorted
    exact ⟨hfl, hbehind, hheld, hsorted⟩
  · rintro ⟨hfl, hbehind, hheld, hsorted⟩
    exact ⟨forall_mem_cons.mpr ⟨hfl, hheld⟩, pairwise_cons.mpr ⟨hbehind, hsorted⟩⟩

/-- A range that ends before a sorted list is separated from it throughout. -/
lemma Laid.separated (h : Laid o (fl :: locks)) (hr : Separated r fl) :
    ∀ g ∈ fl :: locks, Separated r g := by
  obtain ⟨hfl, hbehind, -⟩ := laid_cons.mp h
  have hordered := hfl.ordered
  grind [Separated]

/-- The result is laid out, is behind whatever the request and the locks are behind, and denotes the
byte map `types`. -/
structure Leaves (o : Owner) (r : FileLock Owner) (locks result : List (FileLock Owner))
    (types : Int → Option LockType) : Prop where
  laid : Laid o result
  behind : ∀ f, Separated f r → (∀ g ∈ locks, Separated f g) → ∀ g ∈ result, Separated f g
  typeAt_eq : ∀ b, typeAt result b = types b

/-- The byte map of the locks with the request written over it. -/
def written (r : FileLock Owner) (locks : List (FileLock Owner)) (b : Int) : Option LockType :=
  if r.start ≤ b ∧ b ≤ r.stop then r.type.granted else typeAt locks b

lemma Leaves.cons (hr : IsHeld o r) (hlocks : Laid o (fl :: rest)) (hsep : Separated r fl) :
    Leaves o r (fl :: rest) (r :: fl :: rest) (typeAt (r :: fl :: rest)) :=
  ⟨laid_cons.mpr ⟨hr, hlocks.separated hsep, hlocks⟩,
    fun _ hf hl => forall_mem_cons.mpr ⟨hf, hl⟩, fun _ => rfl⟩

lemma absorb_leaves (hr : IsHeld o r) (hlocks : Laid o locks)
    (hstart : ∀ g ∈ locks, r.start ≤ g.start) :
    Leaves o r locks (absorb r locks) (typeAt (r :: locks)) := by
  induction locks generalizing r with
  | nil => exact ⟨laid_cons.mpr ⟨hr, by simp, hlocks⟩, by simp [absorb], fun b => rfl⟩
  | cons fl rest ih =>
    obtain ⟨hfl, hbehind, hrest⟩ := laid_cons.mp hlocks
    obtain ⟨hle, hstart⟩ := forall_mem_cons.mp hstart
    unfold absorb
    split_ifs with htype hgap hgap hstick
    · exact .cons hr hlocks (by grind [Separated])
    · obtain ⟨hlaid, hfront, htypes⟩ := ih (hr.extend hfl) hrest hstart
      refine ⟨hlaid, fun f hf hl => hfront f hf (forall_mem_cons.mp hl).2, fun b => ?_⟩
      grind [typeAt]
    · exact .cons hr hlocks (by grind [Separated])
    · have hright := laid_cons.mpr ⟨hfl.behind hr.toIsRequest hstick, hbehind, hrest⟩
      refine ⟨laid_cons.mpr ⟨hr, hright.separated ?_, hright⟩, ?_, fun b => ?_⟩
      · grind [Separated]
      · grind [Separated]
      · grind [typeAt]
    · obtain ⟨hlaid, hfront, htypes⟩ := ih hr hrest hstart
      refine ⟨hlaid, fun f hf hl => hfront f hf (forall_mem_cons.mp hl).2, fun b => ?_⟩
      grind [typeAt]

lemma inserted_leaves (hr : IsRequest o r) (hlocks : Laid o locks)
    (hsep : ∀ g ∈ locks, Separated r g) :
    Leaves o r locks (inserted r ++ locks) (written r locks) := by
  unfold inserted
  split_ifs with hunlck
  · refine ⟨hlocks, fun f hf hl => hl, fun b => ?_⟩
    rw [written]
    split_ifs with hin
    · rw [hunlck]
      exact typeAt_eq_none fun g hg => hin.2.trans_lt (hsep g hg).1
    · rfl
  · refine ⟨laid_cons.mpr ⟨⟨hr, hunlck⟩, hsep, hlocks⟩, fun f hf hl => ?_, fun b => ?_⟩
    · exact forall_mem_cons.mpr ⟨hf, hl⟩
    · rw [written, LockType.granted_of_ne hunlck, singleton_append, typeAt_cons]

/-- The piece in front of the request, before what is left of `rest'`. -/
lemma Leaves.leftPiece {rest' result : List (FileLock Owner)} {types : Int → Option LockType}
    (h : Leaves o r rest' result types) (rest : List (FileLock Owner)) (hfl : IsHeld o fl)
    (hreach : r.start ≤ fl.stop) (hne : r.type ≠ fl.type)
    (hrest : ∀ f, Separated f r → (∀ g ∈ fl :: rest, Separated f g) → ∀ g ∈ rest', Separated f g)
    (hpiece : ∀ g ∈ rest', Separated { fl with stop := r.start - 1 } g) :
    Leaves o r (fl :: rest) (leftPiece r fl ++ result)
      fun b => if fl.start ≤ b ∧ b ≤ r.start - 1 then some fl.type else types b := by
  obtain ⟨hlaid, hfront, htypes⟩ := h
  unfold Locks.leftPiece
  split_ifs with hlt
  · refine ⟨laid_cons.mpr ⟨?_, ?_, hlaid⟩, fun f hf hl => ?_, fun b => ?_⟩
    · grind [IsHeld, IsRequest]
    · exact hfront _ (by grind [Separated]) hpiece
    · exact forall_mem_cons.mpr ⟨(forall_mem_cons.mp hl).1, hfront f hf (hrest f hf hl)⟩
    · rw [singleton_append, typeAt_cons, htypes]
  · refine ⟨hlaid, fun f hf hl => hfront f hf (hrest f hf hl), fun b => ?_⟩
    rw [nil_append, htypes, if_neg (by omega)]

/-- The pass writes the request over the owner's byte map. -/
lemma overlay_leaves (hr : IsRequest o r) (hlocks : Laid o locks) :
    Leaves o r locks (overlay r locks) (written r locks) := by
  induction locks with
  | nil => simpa [overlay] using inserted_leaves hr hlocks (by simp)
  | cons fl rest ih =>
    obtain ⟨hfl, hbehind, hrest⟩ := laid_cons.mp hlocks
    have hordered := hr.ordered
    have hordered' := hfl.ordered
    have hgranted := LockType.granted_of_ne hfl.held
    obtain ⟨hlaid, hfront, htypes⟩ := ih hrest
    have hskip (hsep : Separated fl r) :
        Leaves o r (fl :: rest) (fl :: overlay r rest) (written r (fl :: rest)) := by
      refine ⟨laid_cons.mpr ⟨hfl, hfront fl hsep hbehind, hlaid⟩, by grind, fun b => ?_⟩
      grind [Separated, typeAt, written]
    unfold overlay
    split_ifs with htype hgap hgap hreach hgap hstick hcovered hunlck
    · exact hskip (by grind [Separated])
    · obtain ⟨hlaid, hfront, htypes⟩ := Leaves.cons ⟨hr, htype ▸ hfl.held⟩ hlocks
        (by grind [Separated])
      refine ⟨hlaid, hfront, fun b => ?_⟩
      rw [typeAt_cons, written, htype, hgranted]
    · obtain ⟨hlaid, hfront, htypes⟩ := absorb_leaves (hfl.merge hr) hrest (by grind [Separated])
      refine ⟨hlaid, fun f hf hl => ?_, fun b => ?_⟩
      · obtain ⟨hffl, hl⟩ := forall_mem_cons.mp hl
        refine hfront f ⟨lt_min hffl.1 hf.1, fun heq => ?_⟩ hl
        exact lt_min (hffl.2 heq) (hf.2 (heq.trans htype.symm))
      · rw [htypes, written, htype, hgranted]
        simp only [typeAt_cons]
        split_ifs <;> first | rfl | omega
    · exact hskip (by grind [Separated])
    · exact inserted_leaves hr hlocks (by grind [Separated])
    · have hright := laid_cons.mpr ⟨hfl.behind hr hstick, hbehind, hrest⟩
      have hall := (inserted_leaves hr hright (by grind [Separated])).leftPiece rest hfl
        (not_lt.mp hreach) htype (by grind [Separated]) (by grind [Separated])
      rw [append_assoc]
      refine ⟨hall.laid, hall.behind, fun b => ?_⟩
      rw [hall.typeAt_eq]
      grind [typeAt, written]
    · refine ⟨hlaid, by grind, fun b => ?_⟩
      grind [typeAt, LockType.granted, written]
    · obtain ⟨hlaid, hfront, htypes⟩ := absorb_leaves (hfl.retype ⟨hr, hunlck⟩) hrest
        (by grind [Separated])
      refine ⟨hlaid, fun f hf hl => hfront f hf (forall_mem_cons.mp hl).2, fun b => ?_⟩
      grind [typeAt, LockType.granted_of_ne, written]
    · have hall := (ih hrest).leftPiece rest hfl (not_lt.mp hreach) htype
        (by grind [Separated]) (by grind [Separated])
      refine ⟨hall.laid, hall.behind, fun b => ?_⟩
      rw [hall.typeAt_eq]
      grind [typeAt, written]

end R0Kernel.Fs.Locks
