import R0Kernel.Foundation.Extents

/-!
# Reassembly of IP datagrams

`ip_frag_queue` and `ip_frag_reasm` of `net/ipv4/ip_fragment.c`, for one queue. A buffer is a
value: the bytes it holds from `data` on, and those that have been pulled off in front of `data`
since it was at the network header. What is met outside the queue, the outcome of every allocation
among it, is an argument of each call.

The sizes are numbers without a bound. No buffer that `ip_rcv` hands on is longer than the sixteen
bits of `tot_len` can say, so no sum of the source leaves an `int`.
-/

namespace R0Kernel.IpFragment

/-- The part of an `sk_buff` from `data` on: the bytes of the linear part and of the pages, and the
bytes of each buffer on `frag_list`. -/
structure Buffer where
  own : List UInt8
  fragList : List (List UInt8)
  deriving DecidableEq

namespace Buffer

def bytes (b : Buffer) : List UInt8 := b.own ++ b.fragList.flatten

def len (b : Buffer) : Nat := b.bytes.length

/-- The walk over `frag_list` in `__pskb_pull_tail`. -/
def eat : Nat → List (List UInt8) → List (List UInt8)
  | _, [] => []
  | n, list :: rest =>
    if n = 0 then list :: rest
    else if list.length ≤ n then eat (n - list.length) rest
    else list.drop n :: rest

/-- The walk over `frag_list` in `___pskb_trim`. -/
def keep : Nat → List (List UInt8) → List (List UInt8)
  | _, [] => []
  | n, frag :: rest =>
    if frag.length < n then frag :: keep (n - frag.length) rest else [frag.take n]

/-- `pskb_pull`; `ok` says whether there is memory for it. -/
def pskbPull (ok : Bool) (n : Nat) (b : Buffer) : Option Buffer :=
  if b.len < n then none
  else if ok then some ⟨b.own.drop n, eat (n - b.own.length) b.fragList⟩
  else none

/-- `pskb_trim_rcsum`; `ok` says whether there is memory for it. -/
def pskbTrim (ok : Bool) (n : Nat) (b : Buffer) : Option Buffer :=
  if b.len ≤ n then some b
  else if ok then
    some (if n ≤ b.own.length then ⟨b.own.take n, []⟩
      else ⟨b.own, keep (n - b.own.length) b.fragList⟩)
  else none

end Buffer

/-- An IP packet as `ip_rcv` hands it on: `data` is at the network header, and the buffer has been
trimmed to the length that the header gives. -/
structure Packet where
  ihl : Fin 16
  /-- `frag_off`, in the order of the host -/
  fragOff : UInt16
  /-- `IPSKB_FRAG_COMPLETE` -/
  fragComplete : Bool
  buf : Buffer
  totLen : buf.len ≤ 65535

namespace Packet

def hdrlen (skb : Packet) : Nat := skb.ihl * 4

def offset (skb : Packet) : Nat := (skb.fragOff &&& 0x1fff).toNat * 8

/-- `IP_MF`. -/
def more (skb : Packet) : Bool := skb.fragOff &&& 0x2000 != 0

/-- The packet carries `b` for place `i` of the datagram. -/
def Carries (skb : Packet) (i : Nat) (b : UInt8) : Prop :=
  skb.offset ≤ i ∧ skb.buf.bytes[skb.hdrlen + (i - skb.offset)]? = some b

end Packet

structure SkBuff where
  ihl : Fin 16
  /-- what lies between the network header and `data` -/
  pulled : List UInt8
  buf : Buffer
  /-- `FRAG_CB(skb)->offset` -/
  offset : Nat
  deriving DecidableEq

namespace SkBuff

def bytes (skb : SkBuff) : List UInt8 := skb.buf.bytes

def len (skb : SkBuff) : Nat := skb.buf.len

/-- The end of the range that the buffer covers. -/
def stop (skb : SkBuff) : Nat := skb.offset + skb.len

def hdrlen (skb : SkBuff) : Nat := skb.ihl * 4

def pull (skb : SkBuff) (ok : Bool) (n : Nat) : Option SkBuff :=
  match skb.buf.pskbPull ok n with
  | none => none
  | some buf => some { skb with pulled := skb.pulled ++ skb.bytes.take n, buf }

end SkBuff

def Packet.skb (skb : Packet) : SkBuff := ⟨skb.ihl, [], skb.buf, 0⟩

/-- `struct ipq`; the three flags are those of `last_in`. -/
structure Ipq where
  fragments : List SkBuff
  len : Int
  meat : Int
  firstIn : Bool
  lastIn : Bool
  complete : Bool
  rid : UInt32
  deriving DecidableEq

/-- A queue that has just been made. -/
def Ipq.new : Ipq := ⟨[], 0, 0, false, false, false, 0⟩

inductive Errno where
  | enoent
  | enomem
  | einval
  | e2big
  | etimedout
  | einprogress
  deriving DecidableEq

/-- What a call meets outside the queue. -/
structure Env where
  /-- the peer, if there is one, by what `atomic_inc_return` of its `rid` gives -/
  peer : Option UInt32
  /-- `sysctl_ipfrag_max_dist` -/
  maxDist : UInt32
  /-- `mod_timer` finds the timer pending -/
  pending : Bool
  /-- there is memory to pull the header off -/
  pullHeader : Bool
  /-- there is memory to trim the fragment -/
  trim : Bool
  /-- there is memory to pull off what `prev` holds -/
  pullFront : Bool
  /-- there is memory to pull the head off `next` -/
  pullNext : Bool
  /-- `skb_clone` succeeds -/
  clone : Bool
  /-- the head is not cloned, or there is memory to copy it -/
  expand : Bool
  /-- `alloc_skb` succeeds -/
  alloc : Bool
  deriving DecidableEq

def ipFragTooFar (q : Ipq) (env : Env) : Ipq × Bool :=
  match env.peer with
  | none => (q, false)
  | some rid =>
    if env.maxDist = 0 then (q, false)
    else ({ q with rid }, !q.fragments.isEmpty && decide (env.maxDist < rid - q.rid))

def ipFragReinit (q : Ipq) (env : Env) : Ipq × Option Errno :=
  if env.pending then
    ({ q with fragments := [], len := 0, meat := 0, firstIn := false, lastIn := false,
              complete := false }, none)
  else (q, some .etimedout)

def ipqKill (q : Ipq) : Ipq := { q with complete := true }

/-- The start of `ip_frag_queue`: is the queue open to this fragment? -/
def accept (q : Ipq) (skb : Packet) (env : Env) : Ipq × Option Errno :=
  if q.complete then (q, some .enoent)
  else if skb.fragComplete then (q, none)
  else
    match ipFragTooFar q env with
    | (q, false) => (q, none)
    | (q, true) =>
      match ipFragReinit q env with
      | (q, none) => (q, none)
      | (q, some e) => (ipqKill q, some e)

/-- The length of the datagram as the fragment bears it out, and the end of the fragment; there is
none if the fragment contradicts what is known. -/
def setEnd (q : Ipq) (more : Bool) (end_ : Int) : Option (Ipq × Int) :=
  if more then
    let end_ := end_ - end_ % 8
    if q.len < end_ then
      if q.lastIn then none else some ({ q with len := end_ }, end_)
    else some (q, end_)
  else if end_ < q.len ∨ (q.lastIn = true ∧ end_ ≠ q.len) then none
  else some ({ q with lastIn := true, len := end_ }, end_)

/-- The fragment without its header and without what lies past its end. -/
def cut (skb : Packet) (n : Nat) (env : Env) : Option SkBuff :=
  match skb.skb.pull env.pullHeader skb.hdrlen with
  | none => none
  | some skb =>
    match skb.buf.pskbTrim env.trim n with
    | none => none
    | some buf => some { skb with buf }

/-- The fragment without what the fragment in front of it holds, and its offset. -/
def behindPrev (before : List SkBuff) (skb : SkBuff) (offset : Nat) (end_ : Int) (env : Env) :
    Except Errno (SkBuff × Nat) :=
  match before.getLast? with
  | none => .ok (skb, offset)
  | some prev =>
    let i : Int := (prev.offset + prev.len) - offset
    if 0 < i then
      if end_ ≤ offset + i then .error .einval
      else
        match skb.pull env.pullFront i.toNat with
        | none => .error .enomem
        | some skb => .ok (skb, offset + i.toNat)
    else .ok (skb, offset)

/-- The loop over the fragments that a new one ending at `end_` overlaps, with the bytes counted in
`meat`. The last component says whether it came to its end. -/
def eatNext (ok : Bool) (end_ : Int) : List SkBuff → Int → List SkBuff × Int × Bool
  | [], meat => ([], meat, true)
  | next :: rest, meat =>
    if next.offset < end_ then
      let i := end_ - next.offset
      if i < next.len then
        match next.pull ok i.toNat with
        | none => (next :: rest, meat, false)
        | some skb => ({ skb with offset := next.offset + i.toNat } :: rest, meat - i, true)
      else eatNext ok end_ rest (meat - next.len)
    else (next :: rest, meat, true)

/-- `ip_frag_queue` up to the call of `ip_frag_reasm`. The result, if there is one, is the list of
fragments in front of the new one, whose last is the `prev` of that call. -/
def ipFragEnqueue (q : Ipq) (skb : Packet) (env : Env) : Ipq × Except Errno (List SkBuff) :=
  match accept q skb env with
  | (q, some e) => (q, .error e)
  | (q, none) =>
    match setEnd q skb.more (skb.offset + skb.buf.len - skb.hdrlen) with
    | none => (q, .error .einval)
    | some (q, end_) =>
      if end_ = skb.offset then (q, .error .einval)
      else
        match cut skb (end_ - skb.offset).toNat env with
        | none => (q, .error .enomem)
        | some buf =>
          let before := q.fragments.takeWhile fun next => next.offset < skb.offset
          let next := q.fragments.dropWhile fun next => next.offset < skb.offset
          match behindPrev before buf skb.offset end_ env with
          | .error e => (q, .error e)
          | .ok (buf, offset) =>
            match eatNext env.pullNext end_ next q.meat with
            | (next, meat, false) =>
              ({ q with fragments := before ++ next, meat }, .error .enomem)
            | (next, meat, true) =>
              let q := { q with
                fragments := before ++ { buf with offset } :: next
                meat := meat + buf.len
                firstIn := q.firstIn || offset = 0 }
              if q.firstIn ∧ q.lastIn ∧ q.meat = q.len then (q, .ok before)
              else (q, .error .einprogress)

/-- A datagram as `ip_frag_reasm` leaves it in the head of the list. -/
structure Datagram where
  skb : SkBuff
  /-- `head->len`, as the loop counts it -/
  len : Nat
  fragOff : UInt16
  totLen : UInt16
  deriving DecidableEq

def Datagram.payload (d : Datagram) : List UInt8 := d.skb.bytes.drop d.skb.hdrlen

inductive Reply where
  | error (e : Errno)
  | datagram (d : Datagram)
  /-- a list without a head -/
  | oops
  deriving DecidableEq

/-- The head of the list without its own `frag_list`, which moves to a new buffer behind it. -/
def splitHead (head : SkBuff) (rest : List SkBuff) (ok : Bool) : Option (SkBuff × List SkBuff) :=
  if head.buf.fragList = [] then some (head, rest)
  else if ok then
    some ({ head with buf := ⟨head.buf.own, []⟩ }, ⟨0, [], ⟨[], head.buf.fragList⟩, 0⟩ :: rest)
  else none

/-- The datagram made of the head and the buffers behind it. -/
def glue (head : SkBuff) (rest : List SkBuff) (totLen : UInt16) : Datagram where
  skb := { head with
    pulled := []
    buf := ⟨head.pulled ++ head.buf.own, rest.map SkBuff.bytes⟩ }
  len := rest.foldl (fun len fp => len + fp.len) (head.pulled.length + head.len)
  fragOff := 0
  totLen

/-- Build the datagram. The new fragment takes the place of the first one and a clone takes its own,
so that the list holds the same buffers as before. -/
def ipFragReasm (q : Ipq) (prev : List SkBuff) (env : Env) : Ipq × Reply :=
  let q := ipqKill q
  if prev ≠ [] ∧ env.clone = false then (q, .error .enomem)
  else
    match q.fragments with
    | [] => (q, .oops)
    | head :: rest =>
      let len : Int := head.hdrlen + q.len
      if 65535 < len then (q, .error .e2big)
      else if env.expand = false then (q, .error .enomem)
      else
        match splitHead head rest env.alloc with
        | none => (q, .error .enomem)
        | some (head, rest) =>
          ({ q with fragments := [] }, .datagram (glue head rest (UInt16.ofNat len.toNat)))

def ipFragQueue (q : Ipq) (skb : Packet) (env : Env) : Ipq × Reply :=
  match ipFragEnqueue q skb env with
  | (q, .error e) => (q, .error e)
  | (q, .ok prev) => ipFragReasm q prev env

structure Call where
  skb : Packet
  env : Env

/-- The queue after a sequence of calls, and the answers. -/
def run : Ipq → List Call → Ipq × List Reply
  | q, [] => (q, [])
  | q, call :: calls =>
    let step := ipFragQueue q call.skb call.env
    let rest := run step.1 calls
    (rest.1, step.2 :: rest.2)

end R0Kernel.IpFragment
