import Mathlib

/-! # The timer wheel

`internal_add_timer`, `cascade`, `__mod_timer`, `del_timer` and the loop of
`__run_timers` of `kernel/timer.c`, for one base and a 32-bit `unsigned long`.
-/

namespace R0Kernel.Timer

open Function

def tvnBits : UInt32 := 6

def tvrBits : UInt32 := 8

def tvnMask : UInt32 := (1 <<< tvnBits) - 1

def tvrMask : UInt32 := (1 <<< tvrBits) - 1

inductive Vec where
  | tv1
  | tv2
  | tv3
  | tv4
  | tv5
  deriving DecidableEq

/-- A list head: a slot of a vector, or the local `work_list` of `__run_timers`. -/
inductive Head where
  | slot (tv : Vec) (index : Nat)
  | workList
  deriving DecidableEq

/-- The base with the timers linked to each head, and of each timer the field
`expires` and whether `entry.next` is set. -/
structure TvecBase (Timer : Type*) where
  timerJiffies : UInt32
  list : Head → List Timer
  expires : Timer → UInt32
  pending : Timer → Bool

variable {Timer : Type*} [DecidableEq Timer]

/-- The slot that `internal_add_timer` chooses. -/
def slotFor (timerJiffies expires : UInt32) : Head :=
  let idx := expires - timerJiffies
  if idx < 1 <<< tvrBits then .slot .tv1 (expires &&& tvrMask).toNat
  else if idx < 1 <<< (tvrBits + tvnBits) then
    .slot .tv2 ((expires >>> tvrBits) &&& tvnMask).toNat
  else if idx < 1 <<< (tvrBits + 2 * tvnBits) then
    .slot .tv3 ((expires >>> (tvrBits + tvnBits)) &&& tvnMask).toNat
  else if idx < 1 <<< (tvrBits + 3 * tvnBits) then
    .slot .tv4 ((expires >>> (tvrBits + 2 * tvnBits)) &&& tvnMask).toNat
  else if idx.toInt32 < 0 then .slot .tv1 (timerJiffies &&& tvrMask).toNat
  else
    -- the limit matters only where `unsigned long` is wider
    let expires := if 0xffffffff < idx then 0xffffffff + timerJiffies else expires
    .slot .tv5 ((expires >>> (tvrBits + 3 * tvnBits)) &&& tvnMask).toNat

namespace TvecBase

/-- `list_add_tail`, which also makes the timer pending. -/
def listAddTail (base : TvecBase Timer) (timer : Timer) (head : Head) : TvecBase Timer :=
  { base with
    list := update base.list head (base.list head ++ [timer])
    pending := update base.pending timer true }

def internalAddTimer (base : TvecBase Timer) (timer : Timer) : TvecBase Timer :=
  base.listAddTail timer (slotFor base.timerJiffies (base.expires timer))

/-- A timer is on one list at most, so removing its entry is removing it wherever
it is. -/
def detachTimer (base : TvecBase Timer) (timer : Timer) (clearPending : Bool) :
    TvecBase Timer :=
  { base with
    list := fun head => (base.list head).erase timer
    pending := if clearPending then update base.pending timer false
      else base.pending }

def setExpires (base : TvecBase Timer) (timer : Timer) (expires : UInt32) : TvecBase Timer :=
  { base with expires := update base.expires timer expires }

def modTimer (base : TvecBase Timer) (timer : Timer) (expires : UInt32) :
    Bool × TvecBase Timer :=
  let detached := if base.pending timer then base.detachTimer timer false else base
  (base.pending timer, (detached.setExpires timer expires).internalAddTimer timer)

def delTimer (base : TvecBase Timer) (timer : Timer) : Bool × TvecBase Timer :=
  if base.pending timer then (true, base.detachTimer timer true) else (false, base)

def cascade (base : TvecBase Timer) (tv : Vec) (index : Nat) : Nat × TvecBase Timer :=
  let emptied := { base with list := update base.list (.slot tv index) [] }
  (index, (base.list (.slot tv index)).foldl internalAddTimer emptied)

def index (base : TvecBase Timer) (n : UInt32) : Nat :=
  ((base.timerJiffies >>> (tvrBits + n * tvnBits)) &&& tvnMask).toNat

/-- The chain of `cascade` calls; each one is made if the one before returned
zero. -/
def cascadeVectors (base : TvecBase Timer) : TvecBase Timer :=
  let second := base.cascade .tv2 (base.index 0)
  if second.1 ≠ 0 then second.2
  else
    let third := second.2.cascade .tv3 (base.index 1)
    if third.1 ≠ 0 then third.2
    else
      let fourth := third.2.cascade .tv4 (base.index 2)
      if fourth.1 ≠ 0 then fourth.2
      else (fourth.2.cascade .tv5 (base.index 3)).2

/-- `++base->timer_jiffies` and `list_replace_init` of the slot of `tv1` to the
work list. -/
def expire (base : TvecBase Timer) (index : Nat) : TvecBase Timer :=
  { base with
    timerJiffies := base.timerJiffies + 1
    list := update
      (update base.list .workList (base.list (.slot .tv1 index)))
      (.slot .tv1 index) [] }

/-- One iteration of the loop of `__run_timers` up to the filled work list. -/
def iterate (base : TvecBase Timer) : TvecBase Timer :=
  let index := (base.timerJiffies &&& tvrMask).toNat
  let cascaded := if index = 0 then base.cascadeVectors else base
  cascaded.expire index

end TvecBase

end R0Kernel.Timer
