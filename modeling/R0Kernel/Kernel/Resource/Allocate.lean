import R0Kernel.Foundation.Masks
import R0Kernel.Kernel.Resource.Adjust

/-!
# Allocating a resource

`allocate_resource` takes the first gap between the children of a node that is wide enough, and
requests the resource there. Every test it makes holds of what it places, except for the lower
bound: where rounding up to the alignment wraps around, the candidate is at zero, and nothing
compares it with `min` again.
-/

namespace R0Kernel.Resource

open ChildSibling Forest Masks List

variable {h h' : Heap} {A C F K T : Forest Id} {P new r root : Id} {fuel w : Nat}
  {size min max align : Nat} {x : Nat} {l : List Id} {gap : Nat × Nat}

/-! ### The code -/

/-- `ALIGN` in a `resource_size_t` of `w` bits. -/
def alignUp (w x align : Nat) : Nat :=
  (x + (align - 1)) % 2 ^ w &&& (2 ^ w - 1 - (align - 1))

/-- The arithmetic of one pass of `find_resource`: the candidate, from the ends of the gap. -/
def candidate (w min max align lo hi : Nat) : Nat × Nat :=
  (alignUp w (if lo < min then min else lo) align, if max < hi then max else hi)

def gapEnd (w : Nat) (h : Heap) (root : Id) : Option Id → Nat
  | some this => (h.start this + (2 ^ w - 1)) % 2 ^ w
  | none => h.end_ root

/-- The loop of `find_resource`: `new->start` and `new->end` as it leaves them, and whether it has
found a place. `alignf` is given both, `size` and `align`. -/
def findLoop (w : Nat) (h : Heap) (root : Id) (size min max align : Nat)
    (alignf : Option (Nat × Nat → Nat → Nat → Nat × Nat)) :
    Nat → Nat → Option Id → Option ((Nat × Nat) × Bool)
  | 0, _, _ => none
  | fuel + 1, start, this =>
    let new := candidate w min max align start (gapEnd w h root this)
    let new := match alignf with
      | some alignf => alignf new size align
      | none => new
    if new.1 < new.2 ∧ (size + (2 ^ w - 1)) % 2 ^ w ≤ new.2 - new.1 then
      some ((new.1, regionEnd w new.1 size), true)
    else
      match this with
      | none => some (new, false)
      | some this =>
        findLoop w h root size min max align alignf fuel ((h.end_ this + 1) % 2 ^ w)
          (h.ptrs.sibling this)

def findResource (w fuel : Nat) (h : Heap) (root : Id) (size min max align : Nat)
    (alignf : Option (Nat × Nat → Nat → Nat → Nat × Nat)) : Option ((Nat × Nat) × Bool) :=
  match h.ptrs.child root with
  | none => findLoop w h root size min max align alignf fuel (h.start root) none
  | some this =>
    if h.start this = 0 then
      findLoop w h root size min max align alignf fuel ((h.end_ this + 1) % 2 ^ w)
        (h.ptrs.sibling this)
    else findLoop w h root size min max align alignf fuel (h.start root) (some this)

def allocateResource (w fuel : Nat) (h : Heap) (root new : Id) (size min max align : Nat)
    (alignf : Option (Nat × Nat → Nat → Nat → Nat × Nat)) : Option (Heap × Int) :=
  (findResource w fuel h root size min max align alignf).bind fun (range, found) =>
    let h := h.setRange new range.1 range.2
    if found then requestResource fuel h root new else some (h, ebusy)

/-! ### Gaps -/

/-- What a caller may ask for. -/
structure Proper (w size min max align : Nat) : Prop where
  size_pos : 1 ≤ size
  size_lt : size < 2 ^ w
  min_le : min ≤ max
  max_lt : max < 2 ^ w
  align : ∃ k < w, align = 2 ^ k

/-- The gaps that the search goes through, from `lo` on, up to `top` behind the last child. -/
def gapsFrom (w : Nat) (h : Heap) (top : Nat) : Nat → List Id → List (Nat × Nat)
  | lo, [] => [(lo, top)]
  | lo, c :: rest => (lo, h.start c - 1) :: gapsFrom w h top ((h.end_ c + 1) % 2 ^ w) rest

/-- All gaps below a node. One in front of a child at zero is left out. -/
def gaps (w : Nat) (h : Heap) (P : Id) : List Id → List (Nat × Nat)
  | [] => gapsFrom w h (h.end_ P) (h.start P) []
  | c :: rest =>
    if h.start c = 0 then gapsFrom w h (h.end_ P) ((h.end_ c + 1) % 2 ^ w) rest
    else gapsFrom w h (h.end_ P) (h.start P) (c :: rest)

/-- The gap is taken. -/
def Roomy (w size min max align : Nat) (gap : Nat × Nat) : Bool :=
  let new := candidate w min max align gap.1 gap.2
  decide (new.1 < new.2 ∧ size - 1 ≤ new.2 - new.1)

def chosen (w : Nat) (h : Heap) (P : Id) (K : Forest Id) (size min max align : Nat) :
    Option (Nat × Nat) :=
  (gaps w h P K.tops).find? (Roomy w size min max align)

/-- Rounding up from the start of the gap passes the end of the type. -/
def Wraps (w min align : Nat) (gap : Nat × Nat) : Prop :=
  2 ^ w < (if gap.1 < min then min else gap.1) + align

lemma alignUp_eq (x : Nat) {k : Nat} (hk : k < w) :
    alignUp w x (2 ^ k) = (x + (2 ^ k - 1)) % 2 ^ w / 2 ^ k * 2 ^ k := by
  have hpos : 0 < 2 ^ k := Nat.two_pow_pos k
  have hmask : 2 ^ w - 1 - (2 ^ k - 1) = 2 ^ w - 2 ^ k := by omega
  rw [alignUp, hmask, and_clear (Nat.mod_lt _ (Nat.two_pow_pos w)) hk.le]

/-- Rounding up gives a multiple, which is no less unless it wraps around, and is then zero. -/
lemma alignUp_spec (halign : ∃ k < w, align = 2 ^ k) (hx : x < 2 ^ w) :
    align ∣ alignUp w x align ∧ (x + align ≤ 2 ^ w → x ≤ alignUp w x align) ∧
      (2 ^ w < x + align → alignUp w x align = 0) := by
  obtain ⟨k, hk, rfl⟩ := halign
  rw [alignUp_eq x hk]
  refine ⟨Nat.dvd_mul_left _ _, fun hfits => ?_, fun hwraps => ?_⟩
  · rw [Nat.mod_eq_of_lt (by omega)]
    have hdiv := Nat.div_add_mod (x + (2 ^ k - 1)) (2 ^ k)
    rw [mul_comm]
    omega
  · have hle : 2 ^ k ≤ 2 ^ w := Nat.pow_le_pow_right (by decide) hk.le
    have hmod : (x + (2 ^ k - 1)) % 2 ^ w = x + (2 ^ k - 1) - 2 ^ w := by
      rw [Nat.mod_eq_sub_mod (by omega), Nat.mod_eq_of_lt (by omega)]
    rw [Nat.div_eq_of_lt (by omega), zero_mul]

/-! ### The search -/

/-- What the search gives for the gap it takes. -/
def place (w size min max align : Nat) (gap : Nat × Nat) : Nat × Nat :=
  ((candidate w min max align gap.1 gap.2).1,
    regionEnd w (candidate w min max align gap.1 gap.2).1 size)

/-- The search takes the first gap that is wide enough. -/
def Finds (w size min max align : Nat) (l : List (Nat × Nat)) :
    Option ((Nat × Nat) × Bool) → Prop
  | none => False
  | some (range, found) =>
    match l.find? (Roomy w size min max align) with
    | some gap => found = true ∧ range = place w size min max align gap
    | none => found = false

section

variable (hproper : Proper w size min max align) {lo : Nat}

include hproper

lemma findLoop_pass {hi : Nat} {this : Option Id} (hhi : gapEnd w h P this = hi) :
    findLoop w h P size min max align none (fuel + 1) lo this =
      if Roomy w size min max align (lo, hi) = true then
        some (place w size min max align (lo, hi), true)
      else
        match this with
        | none => some (candidate w min max align lo hi, false)
        | some this =>
          findLoop w h P size min max align none fuel ((h.end_ this + 1) % 2 ^ w)
            (h.ptrs.sibling this) := by
  have hsize : (size + (2 ^ w - 1)) % 2 ^ w = size - 1 := by
    have hpos := hproper.size_pos
    have hlt := hproper.size_lt
    rw [Nat.mod_eq_sub_mod (by omega), Nat.mod_eq_of_lt (by omega)]
    omega
  cases this with
  | none => simp only [findLoop, hhi, hsize, Roomy, decide_eq_true_eq, place]
  | some this => simp only [findLoop, hhi, hsize, Roomy, decide_eq_true_eq, place]

lemma findLoop_spec {par p : Option Id} (hrep : Rep h.ptrs par p F)
    (hstart : ∀ c ∈ F.tops, 0 < h.start c ∧ h.start c < 2 ^ w) (hfuel : F.tops.length < fuel) :
    Finds w size min max align (gapsFrom w h (h.end_ P) lo F.tops)
      (findLoop w h P size min max align none fuel lo p) := by
  induction F generalizing p fuel lo with
  | nil =>
    have hp : p = none := hrep
    subst hp
    obtain _ | fuel := fuel
    · omega
    have hhi : gapEnd w h P none = h.end_ P := rfl
    rw [findLoop_pass hproper hhi, tops, gapsFrom]
    cases hroomy : Roomy w size min max align (lo, h.end_ P) with
    | true => simp [Finds, hroomy]
    | false => simp [Finds, hroomy]
  | cons c kids rest _ ih =>
    obtain ⟨rfl, -, -, hrest⟩ := hrep
    obtain _ | fuel := fuel
    · omega
    obtain ⟨hpos, hlt⟩ := hstart c mem_cons_self
    have hhi : gapEnd w h P (some c) = h.start c - 1 := by
      rw [gapEnd, Nat.mod_eq_sub_mod (by omega), Nat.mod_eq_of_lt (by omega)]
      omega
    rw [findLoop_pass hproper hhi, tops, gapsFrom]
    cases hroomy : Roomy w size min max align (lo, h.start c - 1) with
    | true => simp [Finds, hroomy]
    | false =>
      have hbehind : Finds w size min max align
          (gapsFrom w h (h.end_ P) ((h.end_ c + 1) % 2 ^ w) rest.tops)
          (findLoop w h P size min max align none fuel ((h.end_ c + 1) % 2 ^ w)
            (h.ptrs.sibling c)) :=
        ih hrest (fun d hd => hstart d (mem_cons_of_mem c hd)) (Nat.lt_of_succ_lt_succ hfuel)
      have hskip : ((lo, h.start c - 1) :: gapsFrom w h (h.end_ P) ((h.end_ c + 1) % 2 ^ w)
            rest.tops).find? (Roomy w size min max align) =
          (gapsFrom w h (h.end_ P) ((h.end_ c + 1) % 2 ^ w) rest.tops).find?
            (Roomy w size min max align) := by
        rw [find?_cons, hroomy]
      simp only [Bool.false_eq_true, if_false, Finds, hskip]
      exact hbehind

lemma findResource_spec (hrep : Rep h.ptrs (some P) (h.ptrs.child P) K)
    (hord : Ordered h (h.start P) (h.end_ P) K) (hsized : h.end_ P < 2 ^ w)
    (hfuel : K.tops.length < fuel) :
    Finds w size min max align (gaps w h P K.tops)
      (findResource w fuel h P size min max align none) := by
  have hlt : ∀ c ∈ K.tops, h.start c < 2 ^ w := by
    intro c hc
    obtain ⟨-, hle, hhi⟩ := hord.le_start hc
    omega
  cases K with
  | nil =>
    have hnone : h.ptrs.child P = none := hrep
    rw [findResource, hnone]
    exact findLoop_spec hproper (hnone ▸ hrep) (by simp [tops]) hfuel
  | cons c kids rest =>
    have hsome : h.ptrs.child P = some c := hrep.1
    have hrest : ∀ d ∈ rest.tops, 0 < h.start d := by
      intro d hd
      obtain ⟨hlo, -⟩ := hord.2.2.2.2.le_start hd
      omega
    rw [findResource, hsome, tops, gaps]
    dsimp only
    split_ifs with hzero
    · exact findLoop_spec hproper hrep.2.2.2
        (fun d hd => ⟨hrest d hd, hlt d (mem_cons_of_mem c hd)⟩) (Nat.lt_of_succ_lt hfuel)
    · apply findLoop_spec hproper (hsome ▸ hrep) _ hfuel
      intro d hd
      refine ⟨?_, hlt d hd⟩
      rcases mem_cons.mp hd with rfl | hd
      · exact Nat.pos_of_ne_zero hzero
      · exact hrest d hd

end

lemma lt_of_mem_gapsFrom {top lo : Nat} (hlo : lo < 2 ^ w) (hgap : gap ∈ gapsFrom w h top lo l) :
    gap.1 < 2 ^ w := by
  induction l generalizing lo with
  | nil =>
    rw [gapsFrom, mem_singleton] at hgap
    rw [hgap]
    exact hlo
  | cons c rest ih =>
    rcases mem_cons.mp hgap with rfl | hgap
    · exact hlo
    · exact ih (Nat.mod_lt _ (Nat.two_pow_pos w)) hgap

lemma lt_of_mem_gaps (hP : h.start P < 2 ^ w) (hgap : gap ∈ gaps w h P l) : gap.1 < 2 ^ w := by
  cases l with
  | nil => exact lt_of_mem_gapsFrom hP hgap
  | cons c rest =>
    rw [gaps] at hgap
    split_ifs at hgap with hzero
    · exact lt_of_mem_gapsFrom (Nat.mod_lt _ (Nat.two_pow_pos w)) hgap
    · exact lt_of_mem_gapsFrom hP hgap

/-- What the search has made sure of when it takes a gap. -/
structure Searched (w size min max align : Nat) (gap range : Nat × Nat) : Prop where
  length : range.2 + 1 = range.1 + size
  aligned : align ∣ range.1
  le_max : range.2 ≤ max
  min_le : ¬Wraps w min align gap → min ≤ range.1
  wrapped : Wraps w min align gap → range.1 = 0

lemma searched_place (hproper : Proper w size min max align) (hlo : gap.1 < 2 ^ w)
    (hroomy : Roomy w size min max align gap = true) :
    Searched w size min max align gap (place w size min max align gap) := by
  have hstart : (if gap.1 < min then min else gap.1) < 2 ^ w := by
    have hmin := hproper.min_le
    have hmax := hproper.max_lt
    split_ifs <;> omega
  have hge : min ≤ if gap.1 < min then min else gap.1 := by
    split_ifs <;> omega
  obtain ⟨hdvd, hkeep, hwrap⟩ := alignUp_spec hproper.align hstart
  simp only [Roomy, decide_eq_true_eq] at hroomy
  have hpos := hproper.size_pos
  have hle : (candidate w min max align gap.1 gap.2).2 ≤ max := by
    simp only [candidate]
    split_ifs <;> omega
  have hmax := hproper.max_lt
  have hend : regionEnd w (candidate w min max align gap.1 gap.2).1 size =
      (candidate w min max align gap.1 gap.2).1 + size - 1 := by
    rw [regionEnd, Nat.mod_eq_sub_mod (by omega), Nat.mod_eq_of_lt (by omega)]
    omega
  refine ⟨?_, hdvd, ?_, fun hfits => hge.trans (hkeep (not_lt.mp hfits)), hwrap⟩
  · simp only [place, hend]
    omega
  · simp only [place, hend]
    omega

/-! ### The result -/

/-- What a call that succeeds has to have done. -/
structure Placed (h h' : Heap) (P new : Id) (K : Forest Id) (size min max align : Nat) : Prop where
  length : h'.end_ new + 1 = h'.start new + size
  aligned : align ∣ h'.start new
  min_le : min ≤ h'.start new
  le_max : h'.end_ new ≤ max
  inside : h.start P ≤ h'.start new ∧ h'.end_ new ≤ h.end_ P
  apart : ∀ c ∈ K.tops, h.end_ c < h'.start new ∨ h'.end_ new < h.start c

/-- The bottom of the node is free and the gap that is taken wraps around to it, while the caller
wants more than zero. -/
structure Strays (w : Nat) (h : Heap) (P : Id) (K : Forest Id) (size min max align : Nat) :
    Prop where
  min_pos : 0 < min
  start : h.start P = 0
  end_ : size - 1 ≤ h.end_ P
  free : ∀ c ∈ K.tops, size - 1 < h.start c
  wraps : ∃ gap, chosen w h P K size min max align = some gap ∧ Wraps w min align gap

lemma sameOn_setRange (hnew : new ∉ T.ids) (start end_ : Nat) :
    SameOn h (h.setRange new start end_) T := by
  have hne : ∀ r ∈ T.ids, r ≠ new := fun r hr => ne_of_mem_of_not_mem hr hnew
  exact ⟨fun _ _ => rfl, fun _ _ => rfl, fun r hr => (setRange_of_ne (hne r hr)).1,
    fun r hr => (setRange_of_ne (hne r hr)).2, fun _ _ => rfl⟩

/-- In front of the first of some siblings is in front of all of them. -/
lemma Ordered.lt_start_of_head {lo hi : Nat} (ho : Ordered h lo hi C)
    (hhead : ∀ c ∈ C.tops.head?, x < h.start c) : ∀ c ∈ C.tops, x < h.start c := by
  cases C with
  | nil => simp [tops]
  | cons d kids rest =>
    have hd := hhead d rfl
    intro c hc
    rcases mem_cons.mp hc with rfl | hc
    · exact hd
    · obtain ⟨-, hle, -, -, hrest⟩ := ho
      have hlo := (hrest.le_start hc).1
      omega

/-- What the request does with a range that the search has found. -/
lemma request_cases (hwf : WellFormed h root T) (hat : At T P K) (hnew : new ∉ T.ids)
    (hfuel : T.ids.card ≤ fuel) (range : Nat × Nat) :
    (∃ h', requestResource fuel (h.setRange new range.1 range.2) P new = some (h', 0) ∧
      h'.start new = range.1 ∧ h'.end_ new = range.2 ∧
      h.start P ≤ range.1 ∧ range.2 ≤ h.end_ P ∧
      ∀ c ∈ K.tops, h.end_ c < range.1 ∨ range.2 < h.start c) ∨
    (requestResource fuel (h.setRange new range.1 range.2) P new =
        some (h.setRange new range.1 range.2, ebusy) ∧
      ¬(h.start P ≤ range.1 ∧ range.1 ≤ range.2 ∧ range.2 ≤ h.end_ P ∧
        ∀ c ∈ K.tops, h.end_ c < range.1 ∨ range.2 < h.start c)) := by
  have hsame := sameOn_setRange (h := h) hnew range.1 range.2
  have hself := setRange_self h new range.1 range.2
  have hP := hat.mem
  have hK : ∀ c ∈ K.tops, c ∈ T.ids := fun c hc => hat.subset (mem_ids_of_mem_tops hc)
  have hrep : Rep (h.setRange new range.1 range.2).ptrs (some P)
      ((h.setRange new range.1 range.2).ptrs.child P) K := hwf.rep.at hat
  obtain ⟨out, hcall, hreq⟩ := requestResource'_spec new hrep
    (lt_of_lt_of_le (tops_length_lt hat) hfuel)
  rw [requestResource, hcall]
  cases hreq with
  | outside hfits =>
    refine .inr ⟨rfl, fun hall => hfits ?_⟩
    rw [Fits, hsame.start P hP, hsame.end_ P hP, hself.1, hself.2]
    exact ⟨hall.1, hall.2.1, hall.2.2.1⟩
  | placed hfits hsplit hA hC =>
    rw [Fits, hsame.start P hP, hsame.end_ P hP, hself.1, hself.2] at hfits
    refine .inl ⟨_, rfl, hself.1, hself.2, hfits.1, hfits.2.2, ?_⟩
    intro c hc
    have hcT := hK c hc
    subst hsplit
    rw [tops_append] at hc
    rcases mem_append.mp hc with hc | hc
    · have hfront := hA c hc
      rw [hsame.end_ c hcT, hself.1] at hfront
      exact .inl hfront
    · obtain ⟨lo, hord⟩ := ((hwf.congr hsame).ordered.at hat).2.append_right
      have hbehind := hord.lt_start_of_head hC c hc
      rw [hsame.start c hcT, hself.2] at hbehind
      exact .inr hbehind
  | @conflict A C k c hfits hsplit hA hover =>
    refine .inr ⟨rfl, fun hall => ?_⟩
    have hc : c ∈ K.tops := by
      rw [hsplit, tops_append]
      exact mem_append_right _ mem_cons_self
    rw [Overlaps, hsame.start c (hK c hc), hsame.end_ c (hK c hc)] at hover
    have hapart := hall.2.2.2 c hc
    omega

/-- What `allocate_resource` asks of the tree and of its arguments. -/
structure Askable (w : Nat) (h : Heap) (root : Id) (T : Forest Id) (P : Id) (K : Forest Id)
    (new : Id) : Prop where
  wf : WellFormed h root T
  at_ : At T P K
  fresh : new ∉ T.ids
  sized : ∀ r ∈ T.ids, h.end_ r < 2 ^ w

lemma allocateResource_cases (hask : Askable w h root T P K new) (hfuel : T.ids.card ≤ fuel)
    (hproper : Proper w size min max align) :
    (chosen w h P K size min max align = none ∧
      ∃ h', allocateResource w fuel h P new size min max align none = some (h', ebusy) ∧
        SameOn h h' T) ∨
    ∃ gap range, chosen w h P K size min max align = some gap ∧
      Searched w size min max align gap range ∧
      allocateResource w fuel h P new size min max align none =
        requestResource fuel (h.setRange new range.1 range.2) P new := by
  have hord := hask.wf.ordered.at hask.at_
  have hP := hask.sized P hask.at_.mem
  have hfinds := findResource_spec hproper (hask.wf.rep.at hask.at_) hord.2 hP
    (lt_of_lt_of_le (tops_length_lt hask.at_) hfuel)
  rw [allocateResource]
  cases hcall : findResource w fuel h P size min max align none with
  | none =>
    rw [hcall] at hfinds
    exact hfinds.elim
  | some result =>
    obtain ⟨range, found⟩ := result
    rw [hcall] at hfinds
    cases hchosen : chosen w h P K size min max align with
    | none =>
      rw [chosen] at hchosen
      rw [Finds, hchosen] at hfinds
      obtain rfl : found = false := hfinds
      exact .inl ⟨rfl, _, rfl, sameOn_setRange hask.fresh _ _⟩
    | some gap =>
      rw [chosen] at hchosen
      rw [Finds, hchosen] at hfinds
      obtain ⟨rfl, rfl⟩ := hfinds
      have hlo : gap.1 < 2 ^ w :=
        lt_of_mem_gaps (lt_of_le_of_lt hord.1 hP) (mem_of_find?_eq_some hchosen)
      exact .inr ⟨gap, _, rfl, searched_place hproper hlo (find?_some hchosen), rfl⟩

/-- `allocate_resource` below the node `P` comes to an end, and a call that succeeds has placed the
resource as it was asked to and one that fails has left the tree as it was, if and only if the
candidate does not wrap around to a free bottom of the node below `min`. -/
theorem allocate_resource_iff (hask : Askable w h root T P K new) (hfuel : T.ids.card ≤ fuel)
    (hproper : Proper w size min max align) :
    (∃ h' r, allocateResource w fuel h P new size min max align none = some (h', r) ∧
      (r = 0 → Placed h h' P new K size min max align) ∧ (r ≠ 0 → SameOn h h' T)) ↔
    ¬Strays w h P K size min max align := by
  rcases allocateResource_cases hask hfuel hproper with
    ⟨hnone, h', hcall, hsame⟩ | ⟨gap, range, hgap, hsearched, hcall⟩
  · constructor
    · rintro - ⟨-, -, -, -, gap, hgap, -⟩
      rw [hnone] at hgap
      cases hgap
    · intro _
      exact ⟨h', ebusy, hcall, fun hzero => absurd hzero (by decide), fun _ => hsame⟩
  have hlength := hsearched.length
  rw [hcall]
  rcases request_cases hask.wf hask.at_ hask.fresh hfuel range with
    ⟨h', hreq, hstart, hend, hlow, hhigh, hapart⟩ | ⟨hreq, hnot⟩
  · have hplaced : min ≤ range.1 → Placed h h' P new K size min max align := by
      intro hmin
      refine ⟨?_, ?_, ?_, ?_, ?_, ?_⟩
      · rw [hstart, hend]
        exact hlength
      · rw [hstart]
        exact hsearched.aligned
      · rw [hstart]
        exact hmin
      · rw [hend]
        exact hsearched.le_max
      · rw [hstart, hend]
        exact ⟨hlow, hhigh⟩
      · rw [hstart, hend]
        exact hapart
    constructor
    · rintro ⟨h'', r, hreq', hzero, -⟩ hstrays
      obtain ⟨rfl, rfl⟩ := Prod.mk.inj (Option.some.inj (hreq.symm.trans hreq'))
      obtain ⟨gap', hgap', hwraps⟩ := hstrays.wraps
      obtain rfl := Option.some.inj (hgap.symm.trans hgap')
      have hmin := (hzero rfl).min_le
      rw [hstart, hsearched.wrapped hwraps] at hmin
      have hminpos := hstrays.min_pos
      omega
    · intro hstrays
      refine ⟨h', 0, hreq, fun _ => hplaced ?_, fun hne => absurd rfl hne⟩
      by_contra hmin
      have hwraps : Wraps w min align gap := by
        by_contra hfits
        exact hmin (hsearched.min_le hfits)
      have hzero := hsearched.wrapped hwraps
      refine hstrays ⟨by omega, by omega, by omega, fun c hc => ?_, gap, hgap, hwraps⟩
      have hc' := hapart c hc
      omega
  · constructor
    · rintro - hstrays
      obtain ⟨gap', hgap', hwraps⟩ := hstrays.wraps
      obtain rfl := Option.some.inj (hgap.symm.trans hgap')
      have hzero := hsearched.wrapped hwraps
      have hfirst := hstrays.start
      have hlast := hstrays.end_
      refine hnot ⟨by omega, by omega, by omega, fun c hc => .inr ?_⟩
      have hfree := hstrays.free c hc
      omega
    · intro _
      exact ⟨_, ebusy, hreq, fun hzero => absurd hzero (by decide),
        fun _ => sameOn_setRange hask.fresh _ _⟩

/-- All addresses of 32 bits (0), and below it the page at `0x1000` (1). -/
def whole : Heap :=
  { bridge with
    start := fun r => if r = 0 then 0 else 0x1000
    end_ := fun r => if r = 0 then 0xffffffff else 0x1fff }

lemma whole_askable :
    Askable 32 whole 0 (cons 0 (cons 1 .nil .nil) .nil) 0 (cons 1 .nil .nil) 2 where
  wf := ⟨bridge_wellFormed.rep, rfl, by decide,
    ⟨by decide, by decide, by decide, ⟨by decide, by decide, by decide, trivial, trivial⟩, trivial⟩⟩
  at_ := .here
  fresh := by decide
  sized := by decide

/-- Two pages at `0x1000` or above are found behind the page that is taken. -/
theorem allocate_resource_iff_whole :
    Proper 32 0x2000 0x1000 0xffffffff 0x1000 ∧
      ∃ h', allocateResource 32 2 whole 0 2 0x2000 0x1000 0xffffffff 0x1000 none = some (h', 0) ∧
        Placed whole h' 0 2 (cons 1 .nil .nil) 0x2000 0x1000 0xffffffff 0x1000 := by
  have hproper : Proper 32 0x2000 0x1000 0xffffffff 0x1000 :=
    ⟨by decide, by decide, by decide, by decide, 12, by decide, rfl⟩
  obtain ⟨h', r, hcall, hplaced, -⟩ :=
    (allocate_resource_iff whole_askable (by decide : _ ≤ 2) hproper).mpr
      fun hstrays => absurd (hstrays.free 1 (by decide)) (by decide)
  have hr : (allocateResource 32 2 whole 0 2 0x2000 0x1000 0xffffffff 0x1000 none).map Prod.snd =
      some 0 := by decide +kernel
  rw [hcall] at hr
  obtain rfl : r = 0 := Option.some.inj hr
  exact ⟨hproper, h', hcall, hplaced rfl⟩

/-- Above `0xf0000000` there is no multiple of `0x20000000`, and the resource is placed at zero. -/
theorem allocate_resource_below_min :
    Askable 32 whole 0 (cons 0 (cons 1 .nil .nil) .nil) 0 (cons 1 .nil .nil) 2 ∧
    Proper 32 16 0xf0000001 0xffffffff 0x20000000 ∧
      ∃ h', allocateResource 32 2 whole 0 2 16 0xf0000001 0xffffffff 0x20000000 none =
          some (h', 0) ∧ h'.start 2 = 0 ∧ h'.end_ 2 = 15 :=
  ⟨whole_askable, ⟨by decide, by decide, by decide, by decide, 29, by decide, by decide⟩,
    _, rfl, by decide +kernel, by decide +kernel⟩

end R0Kernel.Resource
