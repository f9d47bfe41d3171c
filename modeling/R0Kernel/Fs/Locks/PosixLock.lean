import Mathlib

/-! # POSIX record locks of one inode

The lock list of an inode and `__posix_lock_file` of `fs/locks.c`. The list is
kept split at the pointer `before`; a pointer to a node in front of it is the
node's position, which no later step of the pass changes. Wakeups and the
private data of lock managers do not touch the list and are left out; an owner
stands for what `fl_compare_owner` compares.
-/

namespace R0Kernel.Fs.Locks

/-- `F_RDLCK`, `F_WRLCK` and `F_UNLCK`. -/
inductive LockType where
  | rdlck
  | wrlck
  | unlck
  deriving DecidableEq

/-- The bits of `fl_flags` that the function reads. -/
structure Flags where
  posix : Bool
  access : Bool
  exists' : Bool
  sleep : Bool
  deriving DecidableEq

structure FileLock (Owner : Type*) where
  owner : Owner
  flags : Flags
  type : LockType
  start : Int
  stop : Int
  deriving DecidableEq

/-- The errors of `__posix_lock_file`; `ok` is zero. -/
inductive Errno where
  | ok
  | eagain
  | edeadlk
  | enolck
  | enoent
  deriving DecidableEq

/-- Arithmetic on `loff_t`, a signed 64-bit type. -/
def loff (x : Int) : Int := Int.bmod x (2 ^ 64)

def offsetMax : Int := 2 ^ 63 - 1

variable {Owner : Type*} [DecidableEq Owner]

def posixSameOwner (fl1 fl2 : FileLock Owner) : Bool := fl1.owner == fl2.owner

def locksOverlap (fl1 fl2 : FileLock Owner) : Bool :=
  decide (fl2.start ≤ fl1.stop) && decide (fl1.start ≤ fl2.stop)

def locksConflict (callerFl sysFl : FileLock Owner) : Bool :=
  sysFl.type == .wrlck || callerFl.type == .wrlck

def posixLocksConflict (callerFl sysFl : FileLock Owner) : Bool :=
  if !sysFl.flags.posix || posixSameOwner callerFl sysFl then false
  else if !locksOverlap callerFl sysFl then false
  else locksConflict callerFl sysFl

/-- An entry of `blocked_list`: a waiting request and the lock it waits for. -/
structure Blocked (Owner : Type*) where
  fl : FileLock Owner
  next : FileLock Owner

/-- Follow the waiters from the blocking lock on. The counter admits eleven
hops, `MAX_DEADLK_ITERATIONS` and one more. -/
def posixLocksDeadlockFrom (blocked : List (Blocked Owner)) (callerFl : FileLock Owner) :
    Nat → FileLock Owner → Bool
  | 0, blockFl => posixSameOwner callerFl blockFl
  | hops + 1, blockFl =>
    posixSameOwner callerFl blockFl ||
      match blocked.find? fun waiter => posixSameOwner waiter.fl blockFl with
      | none => false
      | some waiter => posixLocksDeadlockFrom blocked callerFl hops waiter.next

def posixLocksDeadlock (blocked : List (Blocked Owner)) (callerFl blockFl : FileLock Owner) :
    Bool :=
  posixLocksDeadlockFrom blocked callerFl 11 blockFl

/-! ## The pass over the owner's locks -/

/-- The local variables of the pass. `passed` are the nodes in front of
`before`, `caller` is the structure the function was called with and `request`
is the node it has been re-pointed to, if any. -/
structure Walk (Owner : Type*) where
  passed : List (FileLock Owner)
  caller : FileLock Owner
  request : Option Nat
  left : Option Nat
  right : Option Nat
  added : Bool

namespace Walk

/-- `*request`. -/
def req (w : Walk Owner) : FileLock Owner :=
  match w.request with
  | none => w.caller
  | some i => w.passed.getD i w.caller

def modifyReq (w : Walk Owner) (f : FileLock Owner → FileLock Owner) : Walk Owner :=
  match w.request with
  | none => { w with caller := f w.caller }
  | some i => { w with passed := w.passed.modify i f }

/-- `before = &fl->fl_next`. -/
def pass (w : Walk Owner) (fl : FileLock Owner) : Walk Owner :=
  { w with passed := w.passed ++ [fl] }

/-- `request = fl; added = 1` and on to the next lock. -/
def adopt (w : Walk Owner) (fl : FileLock Owner) : Walk Owner :=
  { w.pass fl with request := some w.passed.length, added := true }

/-- Make `fl` and the request one range, each getting the lower start and the
higher end of both. -/
def mergeInto (w : Walk Owner) (fl : FileLock Owner) : Walk Owner × FileLock Owner :=
  let first := if w.req.start < fl.start then (w, { fl with start := w.req.start })
    else (w.modifyReq fun r => { r with start := fl.start }, fl)
  if first.2.stop < first.1.req.stop then
    (first.1, { first.2 with stop := first.1.req.stop })
  else (first.1.modifyReq fun r => { r with stop := first.2.stop }, first.2)

end Walk

/-- The second `while` loop. The result is the state of the variables and the
nodes from `*before` on. -/
def processOwner : Walk Owner → List (FileLock Owner) → Walk Owner × List (FileLock Owner)
  | w, [] => (w, [])
  | w, fl :: rest =>
    if !posixSameOwner w.req fl then (w, fl :: rest)
    else if w.req.type = fl.type then
      if fl.stop < loff (w.req.start - 1) then processOwner (w.pass fl) rest
      else if w.req.stop < loff (fl.start - 1) then (w, fl :: rest)
      else
        let merged := w.mergeInto fl
        if w.added then processOwner merged.1 rest
        else processOwner (merged.1.adopt merged.2) rest
    else
      if fl.stop < w.req.start then processOwner (w.pass fl) rest
      else if w.req.stop < fl.start then (w, fl :: rest)
      else
        let w := if w.req.type = .unlck then { w with added := true } else w
        let w := if fl.start < w.req.start then { w with left := some w.passed.length } else w
        if w.req.stop < fl.stop then ({ w with right := some w.passed.length }, fl :: rest)
        else if w.req.start ≤ fl.start then
          if w.added then processOwner w rest
          else
            processOwner (w.adopt { fl with
              start := w.req.start, stop := w.req.stop, type := w.req.type }) rest
        else processOwner (w.pass fl) rest

/-- Inserting and trimming after the pass. `right` is the node at `before`; when
it is `left` too, a copy of it in front becomes the left piece. -/
def insertAndTrim (w : Walk Owner) (rest : List (FileLock Owner)) : List (FileLock Owner) :=
  let inserted := if w.added then [] else [w.req]
  let trimLeft (fl : FileLock Owner) : FileLock Owner :=
    { fl with stop := loff (w.req.start - 1) }
  let trimRight (fl : FileLock Owner) : FileLock Owner :=
    { fl with start := loff (w.req.stop + 1) }
  match w.right, rest with
  | some _, fl :: rest =>
    if w.left = w.right then w.passed ++ trimLeft fl :: inserted ++ trimRight fl :: rest
    else
      (match w.left with
        | some i => w.passed.modify i trimLeft
        | none => w.passed) ++ inserted ++ trimRight fl :: rest
  | _, rest =>
    (match w.left with
      | some i => w.passed.modify i trimLeft
      | none => w.passed) ++ inserted ++ rest

/-- The tests between the pass and the changes they guard. -/
def finishLock (w : Walk Owner) (rest : List (FileLock Owner)) (newFl newFl2 : Bool) :
    Errno × List (FileLock Owner) :=
  if w.right.isSome && w.left == w.right && !newFl2 then (.enolck, w.passed ++ rest)
  else if !w.added && w.req.type == .unlck then
    (if w.req.flags.exists' then .enoent else .ok, w.passed ++ rest)
  else if !w.added && !newFl then (.enolck, w.passed ++ rest)
  else (.ok, insertAndTrim w rest)

/-- `__posix_lock_file` on the inode's list. `alloc` and `alloc2` say whether
the two `locks_alloc_lock` calls succeed if they are made. -/
def posixLockFile (flock : List (FileLock Owner)) (blocked : List (Blocked Owner))
    (request : FileLock Owner) (alloc alloc2 : Bool) : Errno × List (FileLock Owner) :=
  let wanted := !request.flags.access &&
    (request.type != .unlck || request.start != 0 || request.stop != offsetMax)
  match if request.type = .unlck then none
    else flock.find? fun fl => posixLocksConflict request fl with
  | some fl =>
    if !request.flags.sleep then (.eagain, flock)
    else if posixLocksDeadlock blocked request fl then (.edeadlk, flock)
    else (.eagain, flock)
  | none =>
    if request.flags.access then (.ok, flock)
    else
      let split := flock.span fun fl => !fl.flags.posix || !posixSameOwner request fl
      let walked := processOwner ⟨split.1, request, none, none, none, false⟩ split.2
      finishLock walked.1 walked.2 (wanted && alloc) (wanted && alloc2)

end R0Kernel.Fs.Locks
