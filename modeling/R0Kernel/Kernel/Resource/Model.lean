import R0Kernel.Foundation.ChildSibling

/-!
# The resource tree

The model of the functions of the resource tree, over a heap of resources with their parent, child
and sibling pointers. A `struct resource **` is a `Link`. Every loop of the source takes a number
of passes it may make; a function gives `none` if it runs out of them or follows a null pointer.
-/

namespace R0Kernel.Resource

open ChildSibling Function

/-- The address of a `struct resource`. -/
abbrev Id := Nat

structure Heap where
  ptrs : Ptrs Id
  start : Id → Nat
  end_ : Id → Nat
  flags : Id → UInt32

/-- `-EBUSY` -/
def ebusy : Int := -16

/-- `-EINVAL` -/
def einval : Int := -22

def ioresourceBusy : UInt32 := 0x80000000

namespace Heap

def get (h : Heap) (p : Link Id) : Option Id := h.ptrs.get p

def busy (h : Heap) (r : Id) : Bool := h.flags r &&& ioresourceBusy != 0

/-- `new->sibling = tmp; *p = new; new->parent = root` -/
def link (h : Heap) (p : Link Id) (tmp : Option Id) (new root : Id) : Heap :=
  { h with ptrs := ((h.ptrs.set (.sibling new) tmp).set p (some new)).setParent new (some root) }

/-- `*p = tmp->sibling` -/
def unlink (h : Heap) (p : Link Id) (tmp : Id) : Heap :=
  { h with ptrs := h.ptrs.set p (h.ptrs.sibling tmp) }

end Heap

/-! ### Requests and releases -/

/-- The loop of `__request_resource`, with the conflict it finds. -/
def requestLoop (h : Heap) (root new : Id) : Nat → Link Id → Option (Heap × Option Id)
  | 0, _ => none
  | fuel + 1, p =>
    match h.get p with
    | none => some (h.link p none new root, none)
    | some tmp =>
      if h.end_ new < h.start tmp then some (h.link p (some tmp) new root, none)
      else if h.end_ tmp < h.start new then requestLoop h root new fuel (.sibling tmp)
      else some (h, some tmp)

variable (fuel : Nat) (h : Heap)

/-- `__request_resource` -/
def requestResource' (root new : Id) : Option (Heap × Option Id) :=
  if h.end_ new < h.start new then some (h, some root)
  else if h.start new < h.start root then some (h, some root)
  else if h.end_ root < h.end_ new then some (h, some root)
  else requestLoop h root new fuel (.child root)

def requestResource (root new : Id) : Option (Heap × Int) :=
  (requestResource' fuel h root new).map fun (h', conflict) =>
    (h', if conflict.isSome then ebusy else 0)

def releaseLoop (h : Heap) (old : Id) : Nat → Link Id → Option (Heap × Int)
  | 0, _ => none
  | fuel + 1, p =>
    match h.get p with
    | none => some (h, einval)
    | some tmp =>
      if tmp = old then
        some ({ h.unlink p tmp with ptrs := (h.unlink p tmp).ptrs.setParent old none }, 0)
      else releaseLoop h old fuel (.sibling tmp)

def releaseResource (old : Id) : Option (Heap × Int) :=
  (h.ptrs.parent old).bind fun parent => releaseLoop h old fuel (.child parent)

/-! ### Insertion -/

/-- How the first loop of `insert_resource` ends. -/
inductive Descent where
  /-- the resource went in without a conflict -/
  | placed (h : Heap)
  /-- `first == parent` -/
  | outside
  /-- `first` is in the way below `parent` -/
  | blocked (parent first : Id)

/-- The first loop of `insert_resource`. -/
def descend (fuel : Nat) (h : Heap) (new : Id) : Nat → Id → Option Descent
  | 0, _ => none
  | rounds + 1, parent =>
    (requestResource' fuel h parent new).bind fun (h', conflict) =>
      match conflict with
      | none => some (.placed h')
      | some first =>
        if first = parent then some .outside
        else if h.start new < h.start first ∨ h.end_ first < h.end_ new then
          some (.blocked parent first)
        else if h.start first = h.start new ∧ h.end_ first = h.end_ new then
          some (.blocked parent first)
        else descend fuel h new rounds first

/-- The second loop: the last sibling that `new` covers, `none` for a partial overlap. -/
def coverLoop (h : Heap) (new : Id) : Nat → Id → Option (Option Id)
  | 0, _ => none
  | fuel + 1, next =>
    if h.start next < h.start new ∨ h.end_ new < h.end_ next then some none
    else
      match h.ptrs.sibling next with
      | none => some (some next)
      | some s => if h.end_ new < h.start s then some (some next) else coverLoop h new fuel s

/-- The third loop: `next->parent = new` along the siblings. -/
def adoptLoop (new : Id) : Nat → Ptrs Id → Option Id → Option (Ptrs Id)
  | _, m, none => some m
  | 0, _, some _ => none
  | fuel + 1, m, some next => adoptLoop new fuel (m.setParent next (some new)) (m.sibling next)

def beforeLoop (m : Ptrs Id) (first : Id) : Nat → Id → Option Id
  | 0, _ => none
  | fuel + 1, next =>
    match m.sibling next with
    | none => none
    | some s => if s = first then some next else beforeLoop m first fuel s

/-- The pointer writes of `insert_resource`, with `last` the last covered sibling. -/
def capture (m : Ptrs Id) (parent new first last : Id) : Option (Ptrs Id) :=
  let m := (m.setParent new (some parent)).set (.sibling new) (m.sibling last)
  let m := (m.set (.child new) (some first)).set (.sibling last) none
  (adoptLoop new fuel m (some first)).bind fun m =>
    if m.child parent = some first then some (m.set (.child parent) (some new))
    else
      (m.child parent).bind fun next =>
        (beforeLoop m first fuel next).map fun before => m.set (.sibling before) (some new)

def insertResource (parent new : Id) : Option (Heap × Int) :=
  (descend fuel h new fuel parent).bind fun d =>
    match d with
    | .placed h' => some (h', 0)
    | .outside => some (h, ebusy)
    | .blocked parent first =>
      (coverLoop h new fuel first).bind fun covered =>
        match covered with
        | none => some (h, ebusy)
        | some last =>
          (capture fuel h.ptrs parent new first last).map fun m => ({ h with ptrs := m }, 0)

/-! ### Regions -/

/-- `start + n - 1` in a `resource_size_t` of `w` bits. -/
def regionEnd (w start n : Nat) : Nat :=
  (start + n + (2 ^ w - 1)) % 2 ^ w

/-- The new resource of `__request_region`, allocated at `res`. -/
def allocRegion (res start end_ : Nat) : Heap where
  ptrs :=
    { parent := update h.ptrs.parent res none
      sibling := update h.ptrs.sibling res none
      child := update h.ptrs.child res none }
  start := update h.start res start
  end_ := update h.end_ res end_
  flags := update h.flags res ioresourceBusy

/-- The loop of `__request_region`: the heap with the region in it, `none` if it is in conflict. -/
def regionLoop (fuel : Nat) (h : Heap) (res : Id) : Nat → Id → Option (Option Heap)
  | 0, _ => none
  | rounds + 1, parent =>
    (requestResource' fuel h parent res).bind fun (h', conflict) =>
      match conflict with
      | none => some (some h')
      | some c =>
        if c ≠ parent ∧ h.busy c = false then regionLoop fuel h res rounds c else some none

/-- `__request_region`; `res` is what `kzalloc` gives. The result is the region, if any. -/
def requestRegion (w fuel : Nat) (h : Heap) (parent : Id) (start n : Nat) (res : Option Id) :
    Option (Heap × Option Id) :=
  match res with
  | none => some (h, none)
  | some res =>
    let h := allocRegion h res start (regionEnd w start n)
    (regionLoop fuel h res fuel parent).map fun placed =>
      match placed with
      | some h' => (h', some res)
      | none => (h, none)

/-- The loop of `__release_region`, with whether it found the region. -/
def releaseRegionLoop (h : Heap) (start end_ : Nat) : Nat → Link Id → Option (Heap × Bool)
  | 0, _ => none
  | fuel + 1, p =>
    match h.get p with
    | none => some (h, false)
    | some res =>
      if h.start res ≤ start ∧ end_ ≤ h.end_ res then
        if h.busy res = false then releaseRegionLoop h start end_ fuel (.child res)
        else if h.start res ≠ start ∨ h.end_ res ≠ end_ then some (h, false)
        else some (h.unlink p res, true)
      else releaseRegionLoop h start end_ fuel (.sibling res)

def releaseRegion (w fuel : Nat) (h : Heap) (parent : Id) (start n : Nat) :
    Option (Heap × Bool) :=
  releaseRegionLoop h start (regionEnd w start n) fuel (.child parent)

/-! ### Well-formed trees -/

/-- Siblings from left to right, each a nonempty range behind the one before it, all inside
`[lo, hi]`, and the same for the children of each of them inside its range. -/
def Ordered (h : Heap) (lo hi : Nat) : Forest Id → Prop
  | .nil => True
  | .cons r kids rest => lo ≤ h.start r ∧ h.start r ≤ h.end_ r ∧ h.end_ r ≤ hi ∧
      Ordered h (h.start r) (h.end_ r) kids ∧ Ordered h (h.end_ r + 1) hi rest

/-- The tree below `root` is `T`, and is well formed. -/
structure WellFormed (root : Id) (T : Forest Id) : Prop where
  rep : Rep h.ptrs none (some root) T
  tops : T.tops = [root]
  nodup : T.ids.Nodup
  ordered : Ordered h (h.start root) (h.end_ root) T

end R0Kernel.Resource
