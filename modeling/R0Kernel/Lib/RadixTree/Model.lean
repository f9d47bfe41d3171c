import R0Kernel.Foundation.SlotTree

/-! # The radix trees of `lib/radix-tree.c`

A node owns what its slots point to, so a pointer to a node is the node; the
`path` array of the source is a list of nodes with a hole at the offset, the last
one first. `unsigned long` has 32 bits and `RADIX_TREE_MAP_SHIFT` is 6. An
operation that runs into a `BUG_ON` or follows a pointer that is not a node has no
result.
-/

namespace R0Kernel.RadixTree

open Function

abbrev Index := UInt32

abbrev Item := UInt32

def radixTreeMapShift : Nat := 6

def radixTreeIndexBits : Nat := 32

abbrev Offset := Fin 64

abbrev Tag := Fin 2

/-- A `struct radix_tree_node` without its slots. -/
structure NodeInfo where
  height : Nat
  count : Nat
  tags : Tag → Offset → Bool

abbrev Slot := SlotTree Offset NodeInfo Item

abbrev PathEntry := SlotTree.Frame Offset NodeInfo Item

/-- `root->rnode`; the low bit says that it points to a node. -/
structure Rnode where
  ptr : Slot
  indirect : Bool

structure Root where
  height : Nat
  gfpMask : UInt32
  rnode : Rnode

/-! ## Tags -/

namespace NodeInfo

variable (r : NodeInfo)

def tagSet (tag : Tag) (offset : Offset) : NodeInfo :=
  { r with tags := update r.tags tag (update (r.tags tag) offset true) }

def tagClear (tag : Tag) (offset : Offset) : NodeInfo :=
  { r with tags := update r.tags tag (update (r.tags tag) offset false) }

def tagGet (tag : Tag) (offset : Offset) : Bool := r.tags tag offset

def anyTagSet (tag : Tag) : Bool := decide (∃ offset, r.tags tag offset = true)

end NodeInfo

def gfpBitsShift : UInt32 := 21

def gfpBitsMask : UInt32 := (1 <<< gfpBitsShift) - 1

def rootTagBit (tag : Tag) : UInt32 := 1 <<< (tag.val.toUInt32 + gfpBitsShift)

namespace Root

variable (root : Root)

def rootTagSet (tag : Tag) : Root :=
  { root with gfpMask := root.gfpMask ||| rootTagBit tag }

def rootTagClear (tag : Tag) : Root :=
  { root with gfpMask := root.gfpMask &&& ~~~(rootTagBit tag) }

def rootTagClearAll : Root :=
  { root with gfpMask := root.gfpMask &&& gfpBitsMask }

def rootTagGet (tag : Tag) : Bool := root.gfpMask &&& rootTagBit tag != 0

end Root

/-! ## Allocation -/

structure Node where
  info : NodeInfo
  slots : Offset → Slot

def Node.slot (n : Node) : Slot := .node n.info n.slots

def Node.setHeight (n : Node) (height : Nat) : Node := { n with info := { n.info with height } }

/-- What one call of the allocator does: it fails, returns an object made by the
constructor or one that was freed before. -/
inductive Grant where
  | fail
  | fresh
  | reuse (i : Nat)

/-- The grants of the calls to come, `fresh` after the last one, and the nodes that
were freed, as they were left. -/
structure Pool where
  grants : List Grant
  freed : List Node

def radixTreeNodeCtor : Node := ⟨⟨0, 0, fun _ _ => false⟩, fun _ => .null⟩

def radixTreeNodeAlloc (pool : Pool) : Option Node × Pool :=
  match pool.grants with
  | [] => (some radixTreeNodeCtor, pool)
  | .fail :: grants => (none, { pool with grants })
  | .fresh :: grants => (some radixTreeNodeCtor, { pool with grants })
  | .reuse i :: grants =>
    match pool.freed[i]? with
    | none => (none, { pool with grants })
    | some node => (some node, ⟨grants, pool.freed.eraseIdx i⟩)

structure Tree where
  root : Root
  freed : List Node

/-! ## Heights and offsets -/

/-- `__maxindex`, the entries of `height_to_maxindex`. -/
def radixTreeMaxindex (height : Nat) : Nat :=
  let width := height * radixTreeMapShift
  if radixTreeIndexBits < width then 2 ^ 32 - 1
  else if width = 0 then 0
  else (2 ^ 32 - 1) >>> (radixTreeIndexBits - width)

variable (index : Index)

/-- `(index >> shift) & RADIX_TREE_MAP_MASK` on the level above `height` others. -/
def slotOffset (height : Nat) : Offset :=
  Fin.ofNat 64 (index.toNat >>> (height * radixTreeMapShift))

/-! ## Looking up -/

def slotItem : Slot → Option (Option Item)
  | .null => some none
  | .leaf x => some (some x)
  | .node _ _ => none

def lookupLoop (index : Index) : Nat → Slot → Option (Option Item)
  | _, .null => some none
  | 0, slot => slotItem slot
  | height + 1, .node _ slots => lookupLoop index height (slots (slotOffset index height))
  | _ + 1, .leaf _ => none

variable (root : Root)

def radixTreeLookup (index : Index) : Option (Option Item) :=
  if root.rnode.ptr.isNull then some none
  else if !root.rnode.indirect then
    if 0 < index then some none else slotItem root.rnode.ptr
  else
    match root.rnode.ptr with
    | .node r _ =>
      if radixTreeMaxindex r.height < index.toNat then some none
      else lookupLoop index r.height root.rnode.ptr
    | _ => none

/-! ## Inserting -/

def eexist : Int := 17

def enomem : Int := 12

def isIndirectPtr (item : Item) : Bool := item &&& 1 != 0

/-- The loop that looks for the new height, with a bound on its rounds. -/
def extendHeight (index : Index) : Nat → Nat → Nat
  | 0, height => height
  | fuel + 1, height =>
    if radixTreeMaxindex height < index.toNat then extendHeight index fuel (height + 1) else height

/-- One more level on top of the tree. -/
def extendOnce (node : Node) : Root :=
  let slots := update node.slots 0 root.rnode.ptr
  let tagged (r : NodeInfo) (tag : Tag) := if root.rootTagGet tag then r.tagSet tag 0 else r
  let info := tagged (tagged node.info 0) 1
  { root with
    height := root.height + 1
    rnode := ⟨.node { info with height := root.height + 1, count := 1 } slots, true⟩ }

/-- No height above 6 is needed for a 32-bit index. -/
def radixTreeMaxPath : Nat := 6

/-- `node->count++` for the node in whose slot the loop is, if there is one. -/
def bumpCount : List PathEntry → List PathEntry
  | [] => []
  | f :: path => { f with info := { f.info with count := f.info.count + 1 } } :: path

/-- The root pointer of a tree that is held open at a path. -/
def relink (path : List PathEntry) (slot : Slot) : Rnode :=
  ⟨SlotTree.plug path slot, !path.isEmpty⟩

/-- Storing the item in the slot at the bottom, with the `BUG_ON`s on its tags. -/
def insertItem (item : Item) : List PathEntry → Option Rnode
  | [] => if root.rootTagGet 0 || root.rootTagGet 1 then none else some (relink [] (.leaf item))
  | f :: path =>
    if f.info.tagGet 0 f.hole || f.info.tagGet 1 f.hole then none
    else some (relink (bumpCount (f :: path)) (.leaf item))

section Insert

variable {σ : Type} (alloc : Root → σ → Option Node × σ)

/-- The loop of `radix_tree_extend` over an allocator; the result says whether it succeeded. -/
def extendLoop : Nat → Root → σ → Bool × Root × σ
  | 0, root, s => (true, root, s)
  | rounds + 1, root, s =>
    match alloc root s with
    | (none, s) => (false, root, s)
    | (some node, s) => extendLoop rounds (extendOnce root node) s

def radixTreeExtend (index : Index) (root : Root) (s : σ) : Bool × Root × σ :=
  let height := extendHeight index radixTreeMaxPath (root.height + 1)
  if root.rnode.ptr.isNull then (true, { root with height }, s)
  else extendLoop alloc (height - root.height) root s

/-- Making the tree high enough. -/
def grow (index : Index) (root : Root) (s : σ) : Bool × Root × σ :=
  if radixTreeMaxindex root.height < index.toNat then radixTreeExtend alloc index root s
  else (true, root, s)

/-- The loop of `radix_tree_insert` over an allocator. -/
def insertLoop (root : Root) (index : Index) (item : Item) :
    Nat → List PathEntry → Slot → σ → Option (Int × Rnode × σ)
  | 0, path, slot, s =>
    if !slot.isNull then some (-eexist, relink path slot, s)
    else (insertItem root item path).map fun rnode => (0, rnode, s)
  | height + 1, path, .null, s =>
    match alloc root s with
    | (none, s) => some (-enomem, relink path .null, s)
    | (some node, s) =>
      let node := node.setHeight (height + 1)
      let offset := slotOffset index height
      insertLoop root index item height (⟨node.info, node.slots, offset⟩ :: bumpCount path)
        (node.slots offset) s
  | height + 1, path, .node r slots, s =>
    let offset := slotOffset index height
    insertLoop root index item height (⟨r, slots, offset⟩ :: path) (slots offset) s
  | _ + 1, _, .leaf _, _ => none

def radixTreeInsertWith (index : Index) (item : Item) (root : Root) (s : σ) :
    Option (Int × Root × σ) :=
  if isIndirectPtr item then none
  else
    let (ok, root, s) := grow alloc index root s
    if !ok then some (-enomem, root, s)
    else
      (insertLoop alloc root index item root.height [] root.rnode.ptr s).map
        fun (error, rnode, s) => (error, { root with rnode }, s)

end Insert

def radixTreeInsert (item : Item) (grants : List Grant) (t : Tree) : Option (Int × Tree) :=
  (radixTreeInsertWith (fun _ => radixTreeNodeAlloc) index item t.root ⟨grants, t.freed⟩).map
    fun (error, root, pool) => (error, ⟨root, pool.freed⟩)

/-! ## Setting and clearing a tag -/

def tagSetLoop (index : Index) (tag : Tag) : Nat → List PathEntry → Slot → Option (Rnode × Slot)
  | 0, path, slot => some (relink path slot, slot)
  | height + 1, path, .node r slots =>
    let offset := slotOffset index height
    let r := if r.tagGet tag offset then r else r.tagSet tag offset
    let slot := slots offset
    if slot.isNull then none else tagSetLoop index tag height (⟨r, slots, offset⟩ :: path) slot
  | _ + 1, _, _ => none

def radixTreeTagSet (tag : Tag) (t : Tree) : Option (Option Item × Tree) :=
  if radixTreeMaxindex t.root.height < index.toNat then none
  else do
    let (rnode, slot) ← tagSetLoop index tag t.root.height [] t.root.rnode.ptr
    let item ← slotItem slot
    let root := { t.root with rnode }
    let root := if !slot.isNull && !root.rootTagGet tag then root.rootTagSet tag else root
    some (item, { t with root })

/-- The loop of `radix_tree_tag_get`, which also checks that the tag is set on the
whole way to a tagged item. -/
def tagGetLoop (index : Index) (tag : Tag) : Nat → Bool → Slot → Option Bool
  | 0, _, _ => none
  | _ + 1, _, .null => some false
  | height + 1, sawUnsetTag, .node r slots =>
    let offset := slotOffset index height
    let sawUnsetTag := sawUnsetTag || !r.tagGet tag offset
    if height = 0 then
      if r.tagGet tag offset && sawUnsetTag then none else some (r.tagGet tag offset)
    else tagGetLoop index tag height sawUnsetTag (slots offset)
  | _ + 1, _, .leaf _ => none

def radixTreeTagGet (tag : Tag) (root : Root) : Option Bool :=
  if !root.rootTagGet tag then some false
  else if root.rnode.ptr.isNull then some false
  else if !root.rnode.indirect then some (index == 0)
  else
    match root.rnode.ptr with
    | .node r _ =>
      if radixTreeMaxindex r.height < index.toNat then some false
      else tagGetLoop index tag r.height false root.rnode.ptr
    | _ => none

/-- The way down to the slot at the bottom; `some none` is the exit on an empty
slot. -/
def descend (index : Index) : Nat → List PathEntry → Slot → Option (Option (List PathEntry × Slot))
  | _, _, .null => some none
  | 0, path, slot => some (some (path, slot))
  | height + 1, path, .node r slots =>
    let offset := slotOffset index height
    descend index height (⟨r, slots, offset⟩ :: path) (slots offset)
  | _ + 1, _, .leaf _ => none

/-- The way up of `radix_tree_tag_clear`; the result says whether it came to the
end of the path. -/
def clearTags (tag : Tag) : List PathEntry → List PathEntry × Bool
  | [] => ([], true)
  | f :: path =>
    if !f.info.tagGet tag f.hole then (f :: path, false)
    else
      let f := { f with info := f.info.tagClear tag f.hole }
      if f.info.anyTagSet tag then (f :: path, false)
      else
        let (path, top) := clearTags tag path
        (f :: path, top)

def radixTreeTagClear (tag : Tag) (root : Root) : Option (Option Item × Root) :=
  if radixTreeMaxindex root.height < index.toNat then some (none, root)
  else do
    match ← descend index root.height [] root.rnode.ptr with
    | none => some (none, root)
    | some (path, slot) =>
      let item ← slotItem slot
      let (path, top) := clearTags tag path
      let root := { root with rnode := relink path slot }
      let root := if top && root.rootTagGet tag then root.rootTagClear tag else root
      some (item, root)

/-! ## Deleting -/

/-- The child in the first slot becomes the root. -/
def shrinkOnce (slots : Offset → Slot) : Root :=
  { root with rnode := ⟨slots 0, decide (1 < root.height)⟩, height := root.height - 1 }

def shrinkFreed (r : NodeInfo) (slots : Offset → Slot) : Node :=
  ⟨{ (r.tagClear 0 0).tagClear 1 0 with count := 0 }, update slots 0 .null⟩

def shrinkLoop : Nat → Root → List Node → Option (Root × List Node)
  | 0, root, freed => some (root, freed)
  | rounds + 1, root, freed =>
    if !root.rnode.indirect then none
    else
      match root.rnode.ptr with
      | .node r slots =>
        if r.count ≠ 1 || (slots 0).isNull then some (root, freed)
        else shrinkLoop rounds (shrinkOnce root slots) (shrinkFreed r slots :: freed)
      | _ => none

def radixTreeShrink (freed : List Node) : Option (Root × List Node) :=
  shrinkLoop root.height root freed

/-- A node on the path after its slot has been emptied. -/
def emptied (f : PathEntry) : Node :=
  ⟨{ f.info with count := f.info.count - 1 }, update f.slots f.hole .null⟩

/-- The way up of `radix_tree_delete`. -/
def deleteLoop (root : Root) :
    List PathEntry → Option Node → List Node → Option (Root × List Node)
  | [], toFree, freed =>
    some ({ root.rootTagClearAll with height := 0, rnode := ⟨.null, false⟩ },
      toFree.toList ++ freed)
  | f :: path, toFree, freed =>
    let node := emptied f
    let freed := toFree.toList ++ freed
    if node.info.count ≠ 0 then
      let root := { root with rnode := ⟨SlotTree.plug path node.slot, true⟩ }
      if path.isEmpty then radixTreeShrink root freed else some (root, freed)
    else deleteLoop root path (some node) freed

/-- Clearing the tags of the item about to be deleted. The path is read again, since
a tag may have been cleared in its nodes. -/
def clearItemTags (index : Index) : List Tag → Root → Option Root
  | [], root => some root
  | tag :: tags, root => do
      match ← descend index root.height [] root.rnode.ptr with
      | some (f :: _, _) =>
        if f.info.tagGet tag f.hole then
          let (_, root) ← radixTreeTagClear index tag root
          clearItemTags index tags root
        else clearItemTags index tags root
      | _ => none

def radixTreeDelete (t : Tree) : Option (Option Item × Tree) :=
  if radixTreeMaxindex t.root.height < index.toNat then some (none, t)
  else if t.root.height = 0 then do
    let item ← slotItem t.root.rnode.ptr
    some (item, { t with root := { t.root.rootTagClearAll with rnode := ⟨.null, false⟩ } })
  else do
    match ← descend index t.root.height [] t.root.rnode.ptr with
    | none => some (none, t)
    | some (_, slot) =>
      let item ← slotItem slot
      let root ← clearItemTags index [0, 1] t.root
      match ← descend index root.height [] root.rnode.ptr with
      | none => none
      | some (path, _) =>
        let (root, freed) ← deleteLoop root path none t.freed
        some (item, ⟨root, freed⟩)

end R0Kernel.RadixTree
