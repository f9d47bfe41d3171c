import R0Kernel.Foundation.RedBlack

/-! # The red-black trees of `lib/rbtree.c`

Nodes live in a memory addressed by 32-bit words; a node's parent and colour
share a word. An operation on the null pointer has no result, and neither has a
loop that runs out of rounds. The mirrored halves of the source are one text with
a direction `d`, which is `left` for the half written first.
-/

namespace R0Kernel.Rbtree

open R0Kernel.RedBlack

abbrev Ptr := UInt32

structure RbNode where
  rbParentColor : UInt32
  rbRight : Ptr
  rbLeft : Ptr
  deriving DecidableEq

def rbRed : UInt32 := 0

def rbBlack : UInt32 := 1

namespace RbNode

variable (r : RbNode)

def rbParent : Ptr := r.rbParentColor &&& ~~~3

def rbColor : UInt32 := r.rbParentColor &&& 1

def rbIsRed : Bool := r.rbColor == 0

def rbIsBlack : Bool := r.rbColor != 0

def rbSetRed : RbNode := { r with rbParentColor := r.rbParentColor &&& ~~~1 }

def rbSetBlack : RbNode := { r with rbParentColor := r.rbParentColor ||| 1 }

def rbSetParent (p : Ptr) (r : RbNode) : RbNode :=
  { r with rbParentColor := (r.rbParentColor &&& 3) ||| p }

def rbSetColor (color : UInt32) (r : RbNode) : RbNode :=
  { r with rbParentColor := (r.rbParentColor &&& ~~~1) ||| color }

/-- `rb_left` or `rb_right`. -/
def child : Dir → Ptr
  | .left => r.rbLeft
  | .right => r.rbRight

def setChild (d : Dir) (p : Ptr) (r : RbNode) : RbNode :=
  match d with
  | .left => { r with rbLeft := p }
  | .right => { r with rbRight := p }

end RbNode

/-- The nodes and `root->rb_node`. -/
structure Mem where
  node : Ptr → RbNode
  root : Ptr

namespace Mem

variable (m : Mem)

def load (p : Ptr) : Option RbNode :=
  if p = 0 then none else some (m.node p)

def store (p : Ptr) (r : RbNode) : Mem :=
  { m with node := Function.update m.node p r }

def modify (p : Ptr) (f : RbNode → RbNode) : Option Mem :=
  if p = 0 then none else some (m.store p (f (m.node p)))

/-- `if (p) ...` -/
def modifyIf (p : Ptr) (f : RbNode → RbNode) : Option Mem :=
  if p = 0 then some m else m.modify p f

/-- Make `new` the child of `parent` that `old` is, or the root. The test is for
side `d`. -/
def replaceChild (d : Dir) (parent old new : Ptr) : Option Mem := do
  if parent = 0 then some { m with root := new }
  else
    let p ← m.load parent
    if old = p.child d then m.modify parent (.setChild d new)
    else m.modify parent (.setChild d.flip new)

end Mem

variable (d : Dir)

/-- `__rb_rotate_left` and `__rb_rotate_right`. -/
def rotate (node : Ptr) (m : Mem) : Option Mem := do
  let n ← m.load node
  let right := n.child d.flip
  let parent := n.rbParent
  let r ← m.load right
  let m ← m.modify node (.setChild d.flip (r.child d))
  let m ← m.modifyIf (r.child d) (.rbSetParent node)
  let m ← m.modify right (.setChild d node)
  let m ← m.modify right (.rbSetParent parent)
  let m ← m.replaceChild d parent node right
  m.modify node (.rbSetParent right)

def rbRotateLeft : Ptr → Mem → Option Mem := rotate .left

def rbRotateRight : Ptr → Mem → Option Mem := rotate .right

/-! ## Insertion -/

/-- Where `rb_link_node` stores the new node. -/
inductive Link where
  | root
  | child (parent : Ptr) (d : Dir)

def Link.parent : Link → Ptr
  | .root => 0
  | .child parent _ => parent

def rbLinkNode (node : Ptr) (link : Link) (m : Mem) : Option Mem := do
  let m ← m.modify node fun _ => ⟨link.parent, 0, 0⟩
  match link with
  | .root => some { m with root := node }
  | .child parent d => m.modify parent (.setChild d node)

def isRedNode (p : Ptr) (m : Mem) : Option Bool :=
  if p = 0 then some false else (m.load p).map RbNode.rbIsRed

def isBlackOrNull (p : Ptr) (m : Mem) : Option Bool :=
  if p = 0 then some true else (m.load p).map RbNode.rbIsBlack

/-- The part of a round after the uncle has been found black: the node to go on
with and the memory. -/
def insertRotate (node parent gparent : Ptr) (m : Mem) : Option (Ptr × Mem) := do
  let p ← m.load parent
  let inner := p.child d.flip == node
  let m ← if inner then rotate d parent m else some m
  let (parent, node) := if inner then (node, parent) else (parent, node)
  let m ← m.modify parent .rbSetBlack
  let m ← m.modify gparent .rbSetRed
  let m ← rotate d.flip gparent m
  some (node, m)

def insertLoop : Nat → Ptr → Mem → Option Mem
  | 0, _, _ => none
  | fuel + 1, node, m => do
      let n ← m.load node
      let parent := n.rbParent
      if parent = 0 then some m
      else
        let p ← m.load parent
        if !p.rbIsRed then some m
        else
          let gparent := p.rbParent
          let g ← m.load gparent
          let d := if parent = g.rbLeft then Dir.left else Dir.right
          let uncle := g.child d.flip
          if ← isRedNode uncle m then
            let m ← m.modify uncle .rbSetBlack
            let m ← m.modify parent .rbSetBlack
            let m ← m.modify gparent .rbSetRed
            insertLoop fuel gparent m
          else
            let (node, m) ← insertRotate d node parent gparent m
            insertLoop fuel node m

def rbInsertColor (fuel : Nat) (node : Ptr) (m : Mem) : Option Mem := do
  let m ← insertLoop fuel node m
  m.modify m.root .rbSetBlack

/-! ## Removal -/

/-- If the far child of the sibling is black, its near child is rotated up. -/
def eraseNearUp (parent other : Ptr) (m : Mem) : Option (Ptr × Mem) := do
  let o ← m.load other
  if ← isBlackOrNull (o.child d.flip) m then
    let m ← m.modifyIf (o.child d) .rbSetBlack
    let m ← m.modify other .rbSetRed
    let m ← rotate d.flip other m
    let p ← m.load parent
    some (p.child d.flip, m)
  else some (other, m)

/-- The end of a round of `__rb_erase_color` in which the sibling has a red child. -/
def eraseRotate (parent other : Ptr) (m : Mem) : Option Mem := do
  let (other, m) ← eraseNearUp d parent other m
  let p ← m.load parent
  let m ← m.modify other (.rbSetColor p.rbColor)
  let m ← m.modify parent .rbSetBlack
  let o ← m.load other
  let m ← m.modifyIf (o.child d.flip) .rbSetBlack
  rotate d parent m

/-- The first test of a round: a red sibling is rotated up. -/
def eraseRedSibling (parent other : Ptr) (m : Mem) : Option (Ptr × Mem) := do
  let o ← m.load other
  if o.rbIsRed then
    let m ← m.modify other .rbSetBlack
    let m ← m.modify parent .rbSetRed
    let m ← rotate d parent m
    let p ← m.load parent
    some (p.child d.flip, m)
  else some (other, m)

def bothChildrenBlack (other : Ptr) (m : Mem) : Option Bool := do
  let o ← m.load other
  if ← isBlackOrNull o.rbLeft m then isBlackOrNull o.rbRight m else some false

/-- A round after its first test, with the loop to go on with. -/
def eraseBlackSibling (loop : Ptr → Ptr → Mem → Option (Ptr × Mem)) (d : Dir)
    (parent other : Ptr) (m : Mem) : Option (Ptr × Mem) := do
  if ← bothChildrenBlack other m then
    let m ← m.modify other .rbSetRed
    let n ← m.load parent
    loop parent n.rbParent m
  else
    let m ← eraseRotate d parent other m
    some (m.root, m)

def eraseLoop : Nat → Ptr → Ptr → Mem → Option (Ptr × Mem)
  | 0 => fun _ _ _ => none
  | fuel + 1 => fun node parent m => do
      if (← isBlackOrNull node m) && node != m.root then
        let p ← m.load parent
        let d := if p.rbLeft = node then Dir.left else Dir.right
        let (other, m) ← eraseRedSibling d parent (p.child d.flip) m
        eraseBlackSibling (eraseLoop fuel) d parent other m
      else some (node, m)

def rbEraseColor (fuel : Nat) (node parent : Ptr) (m : Mem) : Option Mem := do
  let (node, m) ← eraseLoop fuel node parent m
  m.modifyIf node .rbSetBlack

/-- `while ((left = node->rb_left) != NULL) node = left;` -/
def leftmost : Nat → Ptr → Mem → Option Ptr
  | 0, _, _ => none
  | fuel + 1, node, m => do
      let n ← m.load node
      if n.rbLeft = 0 then some node else leftmost fuel n.rbLeft m

/-- The end of the branch for a node with two children: `node` takes the place of
`old`. -/
def takePlace (old node : Ptr) (m : Mem) : Option Mem := do
  let o ← m.load old
  let m ← m.modify node fun _ => ⟨o.rbParentColor, o.rbRight, o.rbLeft⟩
  let o ← m.load old
  let m ← m.replaceChild .left o.rbParent old node
  let o ← m.load old
  let m ← m.modify o.rbLeft (.rbSetParent node)
  m.modifyIf o.rbRight (.rbSetParent node)

/-- The unlinking of a node with two children: its successor takes its place. The
result is `child`, `parent` and `color` at the label `color`. -/
def eraseTwo (fuel : Nat) (old : Ptr) (m : Mem) : Option ((Ptr × Ptr × UInt32) × Mem) := do
  let o ← m.load old
  let node ← leftmost fuel o.rbRight m
  let n ← m.load node
  let child := n.rbRight
  let parent := n.rbParent
  let color := n.rbColor
  let m ← m.modifyIf child (.rbSetParent parent)
  let m ← m.modify parent (.setChild (if parent = old then .right else .left) child)
  let parent := if parent = old then node else parent
  let m ← takePlace old node m
  some ((child, parent, color), m)

/-- The unlinking of a node whose only child, if any, is `child`. -/
def eraseOne (node child : Ptr) (m : Mem) : Option ((Ptr × Ptr × UInt32) × Mem) := do
  let n ← m.load node
  let parent := n.rbParent
  let color := n.rbColor
  let m ← m.modifyIf child (.rbSetParent parent)
  let m ← m.replaceChild .left parent node child
  some ((child, parent, color), m)

def rbErase (fuel : Nat) (node : Ptr) (m : Mem) : Option Mem := do
  let n ← m.load node
  let ((child, parent, color), m) ←
    if n.rbLeft = 0 then eraseOne node n.rbRight m
    else if n.rbRight = 0 then eraseOne node n.rbLeft m
    else eraseTwo fuel node m
  if color = rbBlack then rbEraseColor fuel child parent m else some m

end R0Kernel.Rbtree
