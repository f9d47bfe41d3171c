import R0Kernel.Foundation.Outcome
import R0Kernel.Fs.Ext2.Bitmap

/-!
# Reservation windows

The windows that keep a range of blocks for a file, and allocation inside them: looking for room for
a window between the others, making sure that it holds a free block, and extending it. The windows
are in a red-black tree. Their search goes by the shape of the tree; what `rb_insert_color` and
`rb_erase` make of the shape is left open.
-/

namespace R0Kernel.Ext2

open BitRun

abbrev NodeId := Nat

/-- `struct ext2_reserve_window_node` -/
structure Rsv where
  goalSize : Nat
  allocHit : Nat
  window : Window
  deriving DecidableEq

def RESERVE_WINDOW_NOT_ALLOCATED : Nat := 0

def MAX_RESERVE_BLOCKS : Nat := 1027

def Rsv.isEmpty (r : Rsv) : Bool := r.window.rsvEnd == RESERVE_WINDOW_NOT_ALLOCATED

inductive WinTree where
  | nil
  | node (left : WinTree) (id : NodeId) (right : WinTree)

def WinTree.inorder : WinTree → List NodeId
  | .nil => []
  | .node l id r => l.inorder ++ id :: r.inorder

/-- The balancing: any change of the shape that keeps the order of the nodes. -/
structure Balance where
  insertColor : WinTree → NodeId → WinTree
  erase : WinTree → NodeId → WinTree
  inorder_insertColor : ∀ t id, (insertColor t id).inorder = t.inorder
  inorder_erase : ∀ t id, (erase t id).inorder = t.inorder.erase id

/-- A tree that is kept as a list, which is one way to balance it. -/
def listBalance : Balance where
  insertColor := fun t _ => t
  erase := fun t id => (t.inorder.erase id).foldr (fun id t => .node .nil id t) .nil
  inorder_insertColor := fun _ _ => rfl
  inorder_erase := fun t id => by
    induction t.inorder.erase id with
    | nil => rfl
    | cons a l ih => simpa [WinTree.inorder] using ih

structure Rsvs where
  node : NodeId → Rsv
  tree : WinTree

/-- How a call can end without returning: `BUG()`, or a loop that goes on for longer than given. -/
inductive Stop where
  | bug
  | fuel
  deriving DecidableEq

namespace Rsvs

def set (st : Rsvs) (id : NodeId) (r : Rsv) : Rsvs :=
  { st with node := Function.update st.node id r }

/-- `rb_next` and those after it. -/
def following (st : Rsvs) (id : NodeId) : List NodeId :=
  (st.tree.inorder.dropWhile (· != id)).tail

def rbNext (st : Rsvs) (id : NodeId) : Option NodeId := (st.following id).head?

def rbPrev (st : Rsvs) (id : NodeId) : Option NodeId :=
  (st.tree.inorder.takeWhile (· != id)).getLast?

/-- The descent of `search_reserve_window`: the window with the goal in it, or else the last one
seen. -/
def descend (node : NodeId → Rsv) (goal : Nat) : WinTree → Option NodeId → Option NodeId
  | .nil, last => last
  | .node l id r, _ =>
    if goal < (node id).window.rsvStart then descend node goal l (some id)
    else if (node id).window.rsvEnd < goal then descend node goal r (some id)
    else some id

def searchReserveWindow (st : Rsvs) (goal : Nat) : Option NodeId :=
  match descend st.node goal st.tree none with
  | none => none
  | some id => if goal < (st.node id).window.rsvStart then st.rbPrev id else some id

/-- The place of a new leaf; none where the start is inside another window. -/
def link (node : NodeId → Rsv) (start : Nat) (id : NodeId) : WinTree → Option WinTree
  | .nil => some (.node .nil id .nil)
  | .node l this r =>
    if start < (node this).window.rsvStart then (link node start id l).map (.node · this r)
    else if (node this).window.rsvEnd < start then (link node start id r).map (.node l this ·)
    else none

variable (bal : Balance)

def windowAdd (st : Rsvs) (id : NodeId) : Except Stop Rsvs :=
  match link st.node (st.node id).window.rsvStart id st.tree with
  | none => .error .bug
  | some tree => .ok { st with tree := bal.insertColor tree id }

def windowRemove (st : Rsvs) (id : NodeId) : Rsvs :=
  let r := st.node id
  { st.set id { r with
      window := ⟨RESERVE_WINDOW_NOT_ALLOCATED, RESERVE_WINDOW_NOT_ALLOCATED⟩, allocHit := 0 } with
    tree := bal.erase st.tree id }

/-- The loop of `find_next_reservable_window`: the start of the room found and the window before
it. -/
def findRoom (node : NodeId → Rsv) (size lastBlock : Nat) :
    (cur : Nat) → (rsv : NodeId) → (after : List NodeId) → Option (Nat × NodeId)
  | cur, rsv, after =>
    let cur := if cur ≤ (node rsv).window.rsvEnd then u32 ((node rsv).window.rsvEnd + 1) else cur
    if lastBlock < cur then none
    else
      match after with
      | [] => some (cur, rsv)
      | next :: after =>
        if u32 (cur + size) ≤ (node next).window.rsvStart then some (cur, rsv)
        else findRoom node size lastBlock cur next after
  termination_by structural _ _ after => after

/-- `find_next_reservable_window`: none for `-1`. -/
def findNextReservableWindow (st : Rsvs) (searchHead : Option NodeId) (my : NodeId)
    (startBlock lastBlock : Nat) : Except Stop (Option Rsvs) :=
  match searchHead with
  | none => .ok none
  | some head =>
    let size := (st.node my).goalSize
    match findRoom st.node size lastBlock startBlock head (st.following head) with
    | none => .ok none
    | some (cur, prev) =>
      let st := if prev ≠ my ∧ (st.node my).isEmpty = false then st.windowRemove bal my else st
      let r := st.node my
      let st := st.set my { r with window := ⟨cur, subU32 (cur + size) 1⟩, allocHit := 0 }
      if prev ≠ my then (st.windowAdd bal my).map some else .ok (some st)

end Rsvs

/-! ### A window in a group -/

structure Group where
  first : Nat
  blocks : Nat

def Group.last (g : Group) : Nat := u32 (g.first + (g.blocks - 1))

def goalInMyReservation (w : Window) (grpGoal : Option Nat) (g : Group) : Bool :=
  if g.last < w.rsvStart ∨ w.rsvEnd < g.first then false
  else
    match grpGoal with
    | none => true
    | some goal =>
      !(u32 (goal + g.first) < w.rsvStart || w.rsvEnd < u32 (goal + g.first))

variable (bal : Balance) {g : Group} {bm : Bits} {count : Nat}

/-- The label `retry` of `alloc_new_reservation`: windows are tried until one holds a free block. -/
def retryReservation (g : Group) (bm : Bits) (my : NodeId) :
    (fuel : Nat) → (searchHead : Option NodeId) → (startBlock : Nat) → Rsvs →
      Except Stop (Bool × Rsvs)
  | 0, _, _, _ => .error .fuel
  | fuel + 1, searchHead, startBlock, st => do
    match ← st.findNextReservableWindow bal searchHead my startBlock g.last with
    | none => return (false, if (st.node my).isEmpty then st else st.windowRemove bal my)
    | some st =>
      let w := (st.node my).window
      match bitmapSearchNextUsableBlock (subU32 w.rsvStart g.first) bm g.blocks with
      | none => return (false, if (st.node my).isEmpty then st else st.windowRemove bal my)
      | some free =>
        let startBlock := u32 (free + g.first)
        if w.rsvStart ≤ startBlock ∧ startBlock ≤ w.rsvEnd then return (true, st)
        else retryReservation g bm my fuel (some my) startBlock st

def allocNewReservation (g : Group) (bm : Bits) (my : NodeId) (grpGoal : Option Nat) (fuel : Nat)
    (st : Rsvs) : Except Stop (Bool × Rsvs) :=
  let startBlock :=
    match grpGoal with
    | none => g.first
    | some goal => u32 (goal + g.first)
  let r := st.node my
  if r.isEmpty then
    retryReservation bal g bm my fuel (st.searchReserveWindow startBlock) startBlock st
  else if r.window.rsvStart ≤ g.last ∧ g.last < r.window.rsvEnd ∧
      r.window.rsvStart ≤ startBlock then
    .ok (false, st)
  else
    -- a window that was used well is made larger
    let st :=
      if u32 (subU32 r.window.rsvEnd r.window.rsvStart + 1) / 2 < r.allocHit then
        st.set my { r with goalSize := min (u32 (r.goalSize * 2)) MAX_RESERVE_BLOCKS }
      else st
    retryReservation bal g bm my fuel (st.searchReserveWindow startBlock) startBlock st

def tryToExtendReservation (st : Rsvs) (my : NodeId) (size : Nat) : Rsvs :=
  let r := st.node my
  let rsvEnd :=
    match st.rbNext my with
    | none => u32 (r.window.rsvEnd + size)
    | some next =>
      let nextStart := (st.node next).window.rsvStart
      if size ≤ subU32 (subU32 nextStart r.window.rsvEnd) 1 then u32 (r.window.rsvEnd + size)
      else subU32 nextStart 1
  st.set my { r with window := { r.window with rsvEnd } }

/-- One round of the loop of `ext2_try_to_allocate_with_rsv`, up to the attempt: a new window, or
the old one, perhaps extended. None where there is no new window. -/
def chooseWindow (g : Group) (bm : Bits) (my : NodeId) (failed : Bool) (grpGoal : Option Nat)
    (count fuel : Nat) (st : Rsvs) : Except Stop (Option (Option Nat) × Rsvs) :=
  let r := st.node my
  if r.isEmpty || failed || !goalInMyReservation r.window grpGoal g then do
    let st := if r.goalSize < count then st.set my { r with goalSize := count } else st
    let (found, st) ← allocNewReservation bal g bm my grpGoal fuel st
    if found then
      return (some (if goalInMyReservation (st.node my).window grpGoal g then grpGoal else none),
        st)
    else return (none, st)
  else
    match grpGoal with
    | none => .ok (some grpGoal, st)
    | some goal =>
      let curr := u32 (subU32 r.window.rsvEnd (goal + g.first) + 1)
      .ok (some grpGoal, if curr < count then tryToExtendReservation st my (subU32 count curr)
        else st)

/-- The loop of `ext2_try_to_allocate_with_rsv`. -/
def allocateInWindow (g : Group) (bm : Bits) (my : NodeId) (count : Nat) :
    (fuel : Nat) → (failed : Bool) → (grpGoal : Option Nat) → Rsvs → Except Stop (Attempt × Rsvs)
  | 0, _, _, _ => .error .fuel
  | fuel + 1, failed, grpGoal, st => do
    match ← chooseWindow bal g bm my failed grpGoal count fuel st with
    | (none, st) => return (⟨none, bm, count⟩, st)
    | (some grpGoal, st) =>
      let r := st.node my
      if g.last < r.window.rsvStart ∨ r.window.rsvEnd < g.first then .error .bug
      else
        let a := tryToAllocate g.first g.blocks bm grpGoal count (some r.window)
        match a.blk with
        | some _ => return (a, st.set my { r with allocHit := u32 (r.allocHit + a.count) })
        | none => allocateInWindow g bm my count fuel true grpGoal st

def tryToAllocateWithRsv (g : Group) (bm : Bits) (grpGoal : Option Nat) (myRsv : Option NodeId)
    (count fuel : Nat) (st : Rsvs) : Except Stop (Attempt × Rsvs) :=
  match myRsv with
  | none => .ok (tryToAllocate g.first g.blocks bm grpGoal count none, st)
  | some my => allocateInWindow bal g bm my count fuel false grpGoal st

/-! ### What an attempt leaves -/

open Outcome

/-- Whatever the windows are, blocks are only claimed by an attempt in one of them. -/
lemma allocateInWindow_ok {bal : Balance} {my : NodeId} (fuel : Nat) (failed : Bool)
    (grpGoal : Option Nat) (st : Rsvs) :
    Ensures (allocateInWindow bal g bm my count fuel failed grpGoal st)
      fun p => p.1.Ok bm g.blocks count := by
  induction fuel generalizing failed grpGoal st with
  | zero => exact .error
  | succ fuel ih =>
    refine .bind_any fun chosen => ?_
    obtain ⟨_ | grpGoal, st⟩ := chosen
    · exact .pure (Attempt.ok_failed le_rfl)
    · simp only
      split
      · exact .error
      · split
        · apply Ensures.pure
          dsimp only
          exact tryToAllocate_ok _
        · exact ih true grpGoal st

lemma tryToAllocateWithRsv_ok {bal : Balance} {grpGoal : Option Nat} {myRsv : Option NodeId}
    {fuel : Nat} {st : Rsvs} :
    Ensures (tryToAllocateWithRsv bal g bm grpGoal myRsv count fuel st)
      fun p => p.1.Ok bm g.blocks count := by
  cases myRsv with
  | none =>
    apply Ensures.ok
    dsimp only
    exact tryToAllocate_ok none
  | some my => exact allocateInWindow_ok fuel false grpGoal st

end R0Kernel.Ext2
