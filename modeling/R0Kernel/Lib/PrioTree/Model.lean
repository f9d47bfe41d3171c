import R0Kernel.Foundation.Machine
import R0Kernel.Foundation.SelfLinked

/-!
# The radix priority search tree

The model of `prio_tree_insert`, `prio_tree_remove` and `prio_tree_next`. A node is an address; the
fields of all nodes are maps. Every loop of the source takes a number of passes it may make; a
function gives `none` if it runs out of them or reaches a `BUG`.
-/

namespace R0Kernel.PrioTree

open SelfLinked

/-- The address of a `struct prio_tree_node`. -/
abbrev Id := Nat

def bitsPerLong : Nat := 32

def ulongMax : Nat := 2 ^ bitsPerLong - 1

/-- The nodes in memory, the `vm_area_struct`s around them, and a `struct prio_tree_root`. -/
structure State where
  links : Links Id
  start : Id → BitVec bitsPerLong
  last : Id → BitVec bitsPerLong
  vmPgoff : Id → BitVec bitsPerLong
  vmStart : Id → BitVec bitsPerLong
  vmEnd : Id → BitVec bitsPerLong
  prioTreeNode : Option Id
  indexBits : Nat
  raw : Bool

namespace State

def left (s : State) (node : Id) : Id := s.links (.child .left) node

def right (s : State) (node : Id) : Id := s.links (.child .right) node

def parent (s : State) (node : Id) : Id := s.links .parent node

def set (s : State) (f : Field) (node v : Id) : State := { s with links := s.links.set f node v }

variable (s : State) (node : Id)

def initNode : State := { s with links := s.links.init node }

@[simp]
lemma set_links (f : Field) (node v : Id) :
    (s.set f node v).links = s.links.set f node v := rfl

@[simp]
lemma initNode_links :
    (s.initNode node).links = s.links.init node := rfl

def isRoot : Prop := s.parent node = node

def leftEmpty : Prop := s.left node = node

def rightEmpty : Prop := s.right node = node

instance (s : State) (node : Id) : Decidable (s.isRoot node) := inferInstanceAs (Decidable (_ = _))

instance (s : State) (node : Id) : Decidable (s.leftEmpty node) :=
  inferInstanceAs (Decidable (_ = _))

instance (s : State) (node : Id) : Decidable (s.rightEmpty node) :=
  inferInstanceAs (Decidable (_ = _))

/-- `get_index`, the radix index and the heap index -/
def getIndex : Nat × Nat :=
  if s.raw then
    ((s.vmPgoff node).toNat,
      (s.vmPgoff node + ((s.vmEnd node - s.vmStart node) >>> 12 - 1)).toNat)
  else ((s.start node).toNat, (s.last node).toNat)

end State

/-- `prio_tree_maxindex`, with the table that `prio_tree_init` fills -/
def prioTreeMaxindex (bits : Nat) : Nat :=
  if bits - 1 < bitsPerLong - 1 then 2 ^ (bits - 1 + 1) - 1 else ulongMax

/-! ### Replacing a node -/

variable (s : State)

/-- The link to `old` in `prio_tree_replace`, from the root or from the parent of `old`. -/
def relink (old node : Id) : Option State :=
  if s.isRoot old then
    if s.prioTreeNode ≠ some old then none
    else some { s.set .parent node node with prioTreeNode := some node }
  else
    let p := s.parent old
    let s := s.set .parent node p
    if s.left p = old then some (s.set (.child .left) p node)
    else some (s.set (.child .right) p node)

/-- The link from `old` to its child on one side, taken over by `node`. -/
def takeChild (d : Side) (old node : Id) : State :=
  let c := s.links (.child d) old
  if c = old then s else (s.set (.child d) node c).set .parent c node

def prioTreeReplace (old node : Id) : Option State :=
  (relink (s.initNode node) old node).map fun s =>
    takeChild (takeChild s .left old node) .right old node

/-! ### Insertion -/

/-- `heap_index - radix_index`, as `unsigned long` -/
def indexSize (radix heap : Nat) : Nat := (heap + 2 ^ bitsPerLong - radix) % 2 ^ bitsPerLong

/-- The exchange of `cur` and `node` in `prio_tree_insert`, with the indices of `node`. -/
def exchange (cur node : Id) (radix heap : Nat) : Option (State × Id × Id × Nat × Nat) :=
  if (s.getIndex cur).2 < heap ∨ ((s.getIndex cur).2 = heap ∧ radix < (s.getIndex cur).1) then
    (prioTreeReplace s cur node).map fun s' => (s', node, cur, s.getIndex cur)
  else some (s, cur, node, radix, heap)

/-- `cur->left = node` or `cur->right = node`, and `node->parent = cur` -/
def hang (d : Side) (cur node : Id) : State :=
  ((s.initNode node).set (.child d) cur node).set .parent node cur

/-- `mask >>= 1`, with the change to the size at the lowest bit -/
def nextMask (mask : Nat) (sizeFlag : Bool) : Nat × Bool :=
  if mask / 2 = 0 then (2 ^ (bitsPerLong - 1), true) else (mask / 2, sizeFlag)

def insertLoop (res : Id) : Nat → State → Id → Id → Nat → Nat → Nat → Bool → Option (State × Id)
  | 0, _, _, _, _, _, _, _ => none
  | fuel + 1, s, cur, node, radix, heap, mask, sizeFlag =>
    if mask = 0 then none
    else if s.getIndex cur = (radix, heap) then some (s, cur)
    else
      (exchange s cur node radix heap).bind fun (s, cur, node, radix, heap) =>
        let index := if sizeFlag then indexSize radix heap else radix
        let d : Side := if index &&& mask ≠ 0 then .right else .left
        if s.links (.child d) cur = cur then some (hang s d cur node, res)
        else insertLoop res fuel s (s.links (.child d) cur) node radix heap
          (nextMask mask sizeFlag).1 (nextMask mask sizeFlag).2

/-! ### Removal -/

/-- The first loop of `prio_tree_remove`: down to a leaf, along the larger heap index. -/
def descendLoop (s : State) : Nat → Id → Option Id
  | 0, _ => none
  | fuel + 1, cur =>
    if s.leftEmpty cur then
      if s.rightEmpty cur then some cur else descendLoop s fuel (s.right cur)
    else if s.rightEmpty cur then descendLoop s fuel (s.left cur)
    else if (s.getIndex (s.right cur)).2 ≤ (s.getIndex (s.left cur)).2 then
      descendLoop s fuel (s.left cur)
    else descendLoop s fuel (s.right cur)

/-- The second loop of `prio_tree_remove`: `cur = prio_tree_replace(root, cur->parent, cur)` -/
def climbLoop (node : Id) : Nat → State → Id → Option State
  | 0, _, _ => none
  | fuel + 1, s, cur =>
    if cur = node then some s
    else (prioTreeReplace s (s.parent cur) cur).bind fun s' => climbLoop node fuel s' (s.parent cur)

variable (fuel : Nat)

def prioTreeRemove (s : State) (node : Id) : Option State :=
  (descendLoop s fuel node).bind fun cur =>
    if s.isRoot cur then
      if s.prioTreeNode ≠ some cur then none
      else some { s with prioTreeNode := none, indexBits := 1 }
    else
      let p := s.parent cur
      let s := if s.right p = cur then s.set (.child .right) p p else s.set (.child .left) p p
      climbLoop node fuel s cur

/-! ### Expansion -/

/-- `root->index_bits++` -/
def State.widen : State := { s with indexBits := s.indexBits + 1 }

/-- `prev->left = node; node->parent = prev` -/
def State.hangLeft (prev node : Id) : State :=
  (s.set (.child .left) prev node).set .parent node prev

/-- `last = root->prio_tree_node; prio_tree_remove(..); INIT_PRIO_TREE_NODE(last)`, linked behind
the node that was taken out before. -/
def popRoot (s : State) (top : Id) (chain : Option (Id × Id)) : Option (State × Id × Id) :=
  (prioTreeRemove fuel s top).map fun s' =>
    match chain with
    | none => (s'.initNode top, top, top)
    | some (first, prev) => ((s'.initNode top).hangLeft prev top, first, top)

/-- The loop of `prio_tree_expand`, with `first` and `last`. -/
def expandLoop (fuel maxHeapIndex : Nat) :
    Nat → State → Option (Id × Id) → Option (State × Option (Id × Id))
  | 0, _, _ => none
  | rounds + 1, s, chain =>
    if prioTreeMaxindex s.indexBits < maxHeapIndex then
      match s.prioTreeNode with
      | none => expandLoop fuel maxHeapIndex rounds s.widen chain
      | some top =>
        (popRoot fuel s.widen top chain).bind fun (s', chain') =>
          expandLoop fuel maxHeapIndex rounds s' (some chain')
    else some (s, chain)

/-- `node->left = first; first->parent = node`, if nodes were taken out -/
def hangChain (node : Id) : Option (Id × Id) → State
  | none => s
  | some (first, _) => s.hangLeft node first

/-- `last`, which is `node` if no node was taken out -/
def lastOf (node : Id) : Option (Id × Id) → Id
  | none => node
  | some (_, last) => last

/-- The end of `prio_tree_expand`: `node` on top of the nodes taken out, and the rest of the tree
below them. -/
def putOnTop (node : Id) (chain : Option (Id × Id)) : State :=
  let s₁ := hangChain (s.initNode node) node chain
  match s.prioTreeNode with
  | none => { s₁ with prioTreeNode := some node }
  | some top => { s₁.hangLeft (lastOf node chain) top with prioTreeNode := some node }

def prioTreeExpand (s : State) (node : Id) (maxHeapIndex : Nat) : Option (State × Id) :=
  let s := if prioTreeMaxindex s.indexBits < maxHeapIndex then s.widen else s
  (expandLoop fuel maxHeapIndex fuel s none).map fun (s, chain) => (putOnTop s node chain, node)

def prioTreeInsert (s : State) (node : Id) : Option (State × Id) :=
  let heap := (s.getIndex node).2
  match s.prioTreeNode with
  | none => prioTreeExpand fuel s node heap
  | some cur =>
    if prioTreeMaxindex s.indexBits < heap then prioTreeExpand fuel s node heap
    else insertLoop node fuel s cur node (s.getIndex node).1 heap (2 ^ (s.indexBits - 1)) false

/-! ### Iteration -/

/-- The fields of a `struct prio_tree_iter`. -/
structure Iter where
  cur : Option Id
  mask : Nat
  value : Nat
  sizeLevel : Nat
  rIndex : Nat
  hIndex : Nat

variable (it : Iter)

def overlap (index : Nat × Nat) : Prop :=
  index.1 ≤ it.hIndex ∧ it.rIndex ≤ index.2

instance (it : Iter) (index : Nat × Nat) : Decidable (overlap it index) :=
  inferInstanceAs (Decidable (_ ∧ _))

/-- The step down to `next` in `prio_tree_left` and `prio_tree_right`; `none` is a `BUG_ON`. -/
def stepDown (next : Id) : Option Iter :=
  if it.mask / 2 ≠ 0 then
    some { it with
      cur := next
      mask := it.mask / 2
      sizeLevel := if it.sizeLevel ≠ 0 then it.sizeLevel + 1 else it.sizeLevel }
  else if it.sizeLevel ≠ 0 then
    if ¬ s.leftEmpty next ∨ ¬ s.rightEmpty next then none
    else some { it with cur := next, mask := ulongMax, sizeLevel := it.sizeLevel + 1 }
  else some { it with cur := next, mask := 2 ^ (bitsPerLong - 1), sizeLevel := 1 }

/-- `prio_tree_left` at the node `cur`: `some none` for a null pointer. -/
def prioTreeLeft (cur : Id) : Option (Option Iter) :=
  if s.leftEmpty cur then some none
  else if it.rIndex ≤ (s.getIndex (s.left cur)).2 then (stepDown s it (s.left cur)).map some
  else some none

/-- `prio_tree_right` at the node `cur`: `some none` for a null pointer. -/
def prioTreeRight (cur : Id) : Option (Option Iter) :=
  if s.rightEmpty cur then some none
  else
    let value := if it.sizeLevel ≠ 0 then it.value else it.value ||| it.mask
    if it.hIndex < value then some none
    else if it.rIndex ≤ (s.getIndex (s.right cur)).2 then
      (stepDown s { it with value := value } (s.right cur)).map some
    else some none

def prioTreeParent (cur : Id) : Iter :=
  let mask := if it.mask = ulongMax then 1 else if it.sizeLevel = 1 then 1
    else it.mask * 2 % 2 ^ bitsPerLong
  let sizeLevel := if it.sizeLevel ≠ 0 then it.sizeLevel - 1 else it.sizeLevel
  let value := if sizeLevel = 0 ∧ it.value &&& mask ≠ 0 then it.value ^^^ mask else it.value
  { it with cur := s.parent cur, mask := mask, sizeLevel := sizeLevel, value := value }

def firstLoop (s : State) : Nat → Iter → Id → Option (Iter × Option Id)
  | 0, _, _ => none
  | fuel + 1, it, cur =>
    if overlap it (s.getIndex cur) then some (it, some cur)
    else
      (prioTreeLeft s it cur).bind fun
        | some it' => firstLoop s fuel it' (s.left cur)
        | none =>
          (prioTreeRight s it cur).bind fun
            | some it' => firstLoop s fuel it' (s.right cur)
            | none => some (it, none)

def prioTreeFirst (s : State) (it : Iter) : Option (Iter × Option Id) :=
  let it := { it with cur := none, mask := 0, value := 0, sizeLevel := 0 }
  match s.prioTreeNode with
  | none => some (it, none)
  | some top =>
    if (s.getIndex top).2 < it.rIndex then some (it, none)
    else firstLoop s fuel { it with mask := 2 ^ (s.indexBits - 1), cur := some top } top

/-- Where `prio_tree_next` is: at the first `while`, at the second one, or in the loop inside it. -/
inductive At where
  | left
  | right
  | climb
  deriving DecidableEq

/-- One step of `prio_tree_next` at the node `cur`. It ends with the node it gives, with a null
pointer, or (`none`) with a `BUG_ON`. -/
def nextStep : At × Iter × Id → (At × Iter × Id) ⊕ Option (Iter × Option Id)
  | (.left, it, cur) =>
    match prioTreeLeft s it cur with
    | none => .inr none
    | some none => .inl (.right, it, cur)
    | some (some it') =>
      if overlap it' (s.getIndex (s.left cur)) then .inr (some (it', some (s.left cur)))
      else .inl (.left, it', s.left cur)
  | (.right, it, cur) =>
    match prioTreeRight s it cur with
    | none => .inr none
    | some none => .inl (.climb, it, cur)
    | some (some it') =>
      if overlap it' (s.getIndex (s.right cur)) then .inr (some (it', some (s.right cur)))
      else .inl (.left, it', s.right cur)
  | (.climb, it, cur) =>
    if s.isRoot cur then .inr (some (it, none))
    else if s.right (s.parent cur) = cur then
      .inl (.climb, prioTreeParent s it cur, s.parent cur)
    else .inl (.right, prioTreeParent s it cur, s.parent cur)

def prioTreeNext (s : State) (it : Iter) : Option (Iter × Option Id) :=
  match it.cur with
  | none => prioTreeFirst fuel s it
  | some cur => (Machine.run (nextStep s) fuel (.left, it, cur)).join

end R0Kernel.PrioTree
