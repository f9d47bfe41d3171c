import R0Kernel.Foundation.Machine

/-!
# Socket filters: instructions, checker and interpreter

The model of `sk_chk_filter` and `sk_run_filter`. The interpreter is a step machine: one step is
one pass of the loop of `sk_run_filter`, and an exit says why the function stopped. Everything
the function reads that is neither the filter nor the packet is in `Outside`: the scratch words,
which it never initialises, and the memory behind the tail of the packet's linear part.
-/

namespace R0Kernel.Net.Filter

/-! ### Instructions -/

def bpfMaxinsns : Nat := 4096

def bpfMemwords : Nat := 16

/-- One instruction, `struct sock_filter`. -/
structure SockFilter where
  code : UInt16
  jt : UInt8
  jf : UInt8
  k : UInt32
deriving DecidableEq

/-- The second operand of an instruction, `BPF_K` or `BPF_X`. -/
inductive Src where
  | k
  | x
deriving DecidableEq

inductive AluOp where
  | add
  | sub
  | mul
  | div
  | or
  | and
  | lsh
  | rsh
deriving DecidableEq

inductive JmpOp where
  | jeq
  | jgt
  | jge
  | jset
deriving DecidableEq

/-- The width of a packet load, `BPF_W`, `BPF_H` or `BPF_B`. -/
inductive Size where
  | w
  | h
  | b
deriving DecidableEq

/-- The labels of the switches over `code`. -/
inductive Opcode where
  | alu (op : AluOp) (src : Src)
  | neg
  | ja
  | jmp (op : JmpOp) (src : Src)
  | ldAbs (size : Size)
  | ldInd (size : Size)
  | ldLen
  | ldxLen
  | ldxMsh
  | ldImm
  | ldxImm
  | ldMem
  | ldxMem
  | tax
  | txa
  | retK
  | retA
  | st
  | stx
deriving DecidableEq

def Src.code : Src → UInt16
  | k => 0x00
  | x => 0x08

def AluOp.code : AluOp → UInt16
  | add => 0x00
  | sub => 0x10
  | mul => 0x20
  | div => 0x30
  | or => 0x40
  | and => 0x50
  | lsh => 0x60
  | rsh => 0x70

def JmpOp.code : JmpOp → UInt16
  | jeq => 0x10
  | jgt => 0x20
  | jge => 0x30
  | jset => 0x40

def Size.code : Size → UInt16
  | w => 0x00
  | h => 0x08
  | b => 0x10

def Size.bytes : Size → Nat
  | w => 4
  | h => 2
  | b => 1

def bpfLd : UInt16 := 0x00
def bpfLdx : UInt16 := 0x01
def bpfSt : UInt16 := 0x02
def bpfStx : UInt16 := 0x03
def bpfAlu : UInt16 := 0x04
def bpfJmp : UInt16 := 0x05
def bpfRet : UInt16 := 0x06
def bpfMisc : UInt16 := 0x07

def bpfClass (code : UInt16) : UInt16 :=
  code &&& 0x07

def Opcode.code : Opcode → UInt16
  | alu op src => bpfAlu ||| op.code ||| src.code
  | neg => bpfAlu ||| 0x80
  | ja => bpfJmp ||| 0x00
  | jmp op src => bpfJmp ||| op.code ||| src.code
  | ldAbs size => bpfLd ||| size.code ||| 0x20
  | ldInd size => bpfLd ||| size.code ||| 0x40
  | ldLen => bpfLd ||| Size.code .w ||| 0x80
  | ldxLen => bpfLdx ||| Size.code .w ||| 0x80
  | ldxMsh => bpfLdx ||| Size.code .b ||| 0xa0
  | ldImm => bpfLd ||| 0x00
  | ldxImm => bpfLdx ||| 0x00
  | ldMem => bpfLd ||| 0x60
  | ldxMem => bpfLdx ||| 0x60
  | tax => bpfMisc ||| 0x00
  | txa => bpfMisc ||| 0x80
  | retK => bpfRet ||| Src.code .k
  | retA => bpfRet ||| 0x10
  | st => bpfSt
  | stx => bpfStx

/-- The labels of `sk_run_filter`. -/
def Opcode.all : List Opcode :=
  [.alu .add .k, .alu .add .x, .alu .sub .k, .alu .sub .x, .alu .mul .k, .alu .mul .x,
    .alu .div .k, .alu .div .x, .alu .or .k, .alu .or .x, .alu .and .k, .alu .and .x,
    .alu .lsh .k, .alu .lsh .x, .alu .rsh .k, .alu .rsh .x, .neg, .ja, .jmp .jeq .k, .jmp .jeq .x,
    .jmp .jgt .k, .jmp .jgt .x, .jmp .jge .k, .jmp .jge .x, .jmp .jset .k, .jmp .jset .x,
    .ldAbs .w, .ldAbs .h, .ldAbs .b, .ldInd .w, .ldInd .h, .ldInd .b, .ldLen, .ldxLen, .ldxMsh,
    .ldImm, .ldxImm, .ldMem, .ldxMem, .tax, .txa, .retK, .retA, .st, .stx]

/-- The label a `code` selects, `none` for the default branch. -/
def decode (code : UInt16) : Option Opcode :=
  Opcode.all.find? fun op => op.code == code

lemma code_of_decode {code : UInt16} {op : Opcode} (h : decode code = some op) :
    op.code = code := by
  have hfound := List.find?_some h
  exact beq_iff_eq.mp hfound

lemma Opcode.mem_all (op : Opcode) : op ∈ Opcode.all := by
  cases op with
  | alu op src => cases op <;> cases src <;> simp [Opcode.all]
  | jmp op src => cases op <;> cases src <;> simp [Opcode.all]
  | ldAbs size => cases size <;> simp [Opcode.all]
  | ldInd size => cases size <;> simp [Opcode.all]
  | _ => simp [Opcode.all]

/-! ### The packet -/

/-- The parts of `struct sk_buff` a filter can see. Pointers are offsets from `skb->head`;
`linear` is the memory from `head` up to the tail, `frags` the paged data behind it. -/
structure SkBuff where
  linear : List UInt8
  data : Nat
  frags : List UInt8
  networkHeader : Int
  macHeader : Int
  /-- `skb->protocol`, in network byte order -/
  protocol : UInt8 × UInt8
  pktType : Fin 8
  /-- `skb->dev->ifindex`, `none` for a null `skb->dev` -/
  dev : Option UInt32
  data_le : data ≤ linear.length
  len_lt : linear.length - data + frags.length < 2 ^ 31

/-- What a run may read besides the filter and the packet: the scratch words as the stack holds
them on entry, and the bytes from the tail pointer on. -/
structure Outside where
  scratch : Fin bpfMemwords → UInt32
  beyond : Nat → UInt8

namespace SkBuff

variable (skb : SkBuff)

def bytes : List UInt8 :=
  skb.linear.drop skb.data ++ skb.frags

def len : UInt32 :=
  UInt32.ofNat skb.bytes.length

def headlen : Nat :=
  skb.linear.length - skb.data

end SkBuff

def skbCopyBits (skb : SkBuff) (offset size : Nat) : Option (List UInt8) :=
  if skb.bytes.length < offset + size then none
  else some ((skb.bytes.drop offset).take size)

/-- `skb_header_pointer`, with the `size` bytes at the pointer it returns. -/
def skbHeaderPointer (skb : SkBuff) (offset size : Nat) : Option (List UInt8) :=
  if offset + size ≤ skb.headlen then some ((skb.linear.drop (skb.data + offset)).take size)
  else skbCopyBits skb offset size

def skfAdOff : Int := -0x1000

def skfNetOff : Int := -0x100000

def skfLlOff : Int := -0x200000

/-- `__load_pointer`. Only the byte pointed at is known to lie before the tail. -/
def loadPointer' (skb : SkBuff) (k : Int) : Option Nat :=
  let ptr :=
    if skfNetOff ≤ k then some (skb.networkHeader + k - skfNetOff)
    else if skfLlOff ≤ k then some (skb.macHeader + k - skfLlOff)
    else none
  ptr.bind fun p => if 0 ≤ p ∧ p < skb.linear.length then some p.toNat else none

def byteAt (skb : SkBuff) (beyond : Nat → UInt8) (p : Nat) : UInt8 :=
  skb.linear[p]?.getD (beyond (p - skb.linear.length))

def readAt (skb : SkBuff) (beyond : Nat → UInt8) (p size : Nat) : List UInt8 :=
  (List.range size).map fun i => byteAt skb beyond (p + i)

/-- `load_pointer`, with the `size` bytes at the pointer it returns. -/
def loadPointer (skb : SkBuff) (beyond : Nat → UInt8) (k : Int) (size : Nat) :
    Option (List UInt8) :=
  if 0 ≤ k then skbHeaderPointer skb k.toNat size
  else if skfAdOff ≤ k then none
  else (loadPointer' skb k).map fun p => readAt skb beyond p size

/-- `ntohl`, `ntohs` and the plain byte: the bytes as a big-endian number. -/
def ntoh (bytes : List UInt8) : UInt32 :=
  UInt32.ofNat (bytes.foldl (fun acc b => 256 * acc + b.toNat) 0)

/-! ### The interpreter -/

/-- The local variables of `sk_run_filter`. -/
structure State where
  pc : Int
  a : UInt32
  x : UInt32
  mem : Fin bpfMemwords → UInt32

/-- What the C code leaves undefined: reading an instruction outside the filter, a scratch word
outside `mem`, a division by a zero constant, an access through a null `skb->dev`. -/
inductive Fault where
  | pc
  | scratch
  | divide
  | nullDev
deriving DecidableEq

/-- How a run of `sk_run_filter` stops. -/
inductive Exit where
  /-- a return at `BPF_RET` -/
  | ret (v : UInt32)
  /-- `return 0` after a load that found neither packet bytes nor ancillary data -/
  | noData
  /-- `return 0` at a division by `X == 0` -/
  | divByX
  /-- `return 0` behind the loop -/
  | fellOff
  /-- the default branch -/
  | unknown
  | fault (f : Fault)
deriving DecidableEq

/-- The value `sk_run_filter` returns. -/
def Exit.value : Exit → Option UInt32
  | ret v => some v
  | noData | divByX | fellOff | unknown => some 0
  | fault _ => none

namespace State

variable (s : State)

def setA (v : UInt32) : State := { s with a := v, pc := s.pc + 1 }

def setX (v : UInt32) : State := { s with x := v, pc := s.pc + 1 }

def store (k : Fin bpfMemwords) (v : UInt32) : State :=
  { s with mem := Function.update s.mem k v, pc := s.pc + 1 }

def jump (d : Nat) : State := { s with pc := s.pc + d + 1 }

end State

/-- The value an `int` holds after the conversion of an unsigned one. -/
def toInt (v : Int) : Int :=
  Int.bmod v (2 ^ 32)

/-- `A <<= v` and `A >>= v` as ARM shifts by a register: by its low byte, all bits lost from 32
on. -/
def shift (f : UInt32 → UInt32 → UInt32) (a v : UInt32) : UInt32 :=
  if v % 256 < 32 then f a (v % 256) else 0

def AluOp.eval : AluOp → UInt32 → UInt32 → UInt32
  | add, a, v => a + v
  | sub, a, v => a - v
  | mul, a, v => a * v
  | div, a, v => a / v
  | or, a, v => a ||| v
  | and, a, v => a &&& v
  | lsh, a, v => shift (· <<< ·) a v
  | rsh, a, v => shift (· >>> ·) a v

def JmpOp.holds : JmpOp → UInt32 → UInt32 → Bool
  | jeq, a, v => a == v
  | jgt, a, v => v < a
  | jge, a, v => v ≤ a
  | jset, a, v => a &&& v != 0

def operand (i : SockFilter) (s : State) : Src → UInt32
  | .k => i.k
  | .x => s.x

/-- The switch over `k - SKF_AD_OFF` behind a failed load. -/
def ancillary (skb : SkBuff) (k : Int) (s : State) : State ⊕ Exit :=
  if k - skfAdOff = 0 then .inl (s.setA (ntoh [skb.protocol.1, skb.protocol.2]))
  else if k - skfAdOff = 4 then .inl (s.setA (UInt32.ofNat skb.pktType))
  else if k - skfAdOff = 8 then
    match skb.dev with
    | some ifindex => .inl (s.setA ifindex)
    | none => .inr (.fault .nullDev)
  else .inr .noData

/-- `load_w`, `load_h` and `load_b`. -/
def load (skb : SkBuff) (beyond : Nat → UInt8) (size : Size) (k : Int) (s : State) :
    State ⊕ Exit :=
  match loadPointer skb beyond k size.bytes with
  | some bytes => .inl (s.setA (ntoh bytes))
  | none => ancillary skb k s

/-- The branch of `BPF_LDX|BPF_B|BPF_MSH`, which has no ancillary data. -/
def loadMsh (skb : SkBuff) (beyond : Nat → UInt8) (k : Int) (s : State) : State ⊕ Exit :=
  match loadPointer skb beyond k 1 with
  | some bytes => .inl (s.setX ((ntoh bytes &&& 0xf) <<< 2))
  | none => .inr .noData

def withScratch (k : UInt32) (f : Fin bpfMemwords → State) : State ⊕ Exit :=
  if h : k.toNat < bpfMemwords then .inl (f ⟨k.toNat, h⟩) else .inr (.fault .scratch)

/-- The switch of `sk_run_filter`, at its labels. -/
def exec (skb : SkBuff) (beyond : Nat → UInt8) (i : SockFilter) (s : State) :
    Opcode → State ⊕ Exit
  | .alu .div .x => if s.x = 0 then .inr .divByX else .inl (s.setA (s.a / s.x))
  | .alu .div .k => if i.k = 0 then .inr (.fault .divide) else .inl (s.setA (s.a / i.k))
  | .alu op src => .inl (s.setA (op.eval s.a (operand i s src)))
  | .neg => .inl (s.setA (-s.a))
  -- `pc` is an `int`, `k` a `u32`: the sum is unsigned
  | .ja => .inl { s with pc := toInt (s.pc + i.k.toNat) + 1 }
  | .jmp op src =>
    .inl (s.jump (if op.holds s.a (operand i s src) then i.jt.toNat else i.jf.toNat))
  | .ldAbs size => load skb beyond size (toInt i.k.toNat) s
  | .ldInd size => load skb beyond size (toInt (s.x + i.k).toNat) s
  | .ldLen => .inl (s.setA skb.len)
  | .ldxLen => .inl (s.setX skb.len)
  | .ldxMsh => loadMsh skb beyond (toInt i.k.toNat) s
  | .ldImm => .inl (s.setA i.k)
  | .ldxImm => .inl (s.setX i.k)
  | .ldMem => withScratch i.k fun k => s.setA (s.mem k)
  | .ldxMem => withScratch i.k fun k => s.setX (s.mem k)
  | .tax => .inl (s.setX s.a)
  | .txa => .inl (s.setA s.x)
  | .retK => .inr (.ret i.k)
  | .retA => .inr (.ret s.a)
  | .st => withScratch i.k fun k => s.store k s.a
  | .stx => withScratch i.k fun k => s.store k s.x

variable (filter : List SockFilter)

def fetch (pc : Int) : Option SockFilter :=
  if pc < 0 then none else filter[pc.toNat]?

/-- One pass of the loop of `sk_run_filter`. -/
def step (skb : SkBuff) (beyond : Nat → UInt8) (s : State) : State ⊕ Exit :=
  if filter.length ≤ s.pc then .inr .fellOff
  else
    match fetch filter s.pc with
    | some i =>
      match decode i.code with
      | some op => exec skb beyond i s op
      | none => .inr .unknown
    | none => .inr (.fault .pc)

/-- The state on entry. `mem` is not initialised. -/
def State.init (o : Outside) : State :=
  ⟨0, 0, 0, o.scratch⟩

/-- `sk_run_filter`, following at most `fuel` instructions. -/
def skRunFilter (skb : SkBuff) (o : Outside) (fuel : Nat) : Option Exit :=
  Machine.run (step filter skb o.beyond) fuel (State.init o)

/-! ### The checker -/

/-- `-EINVAL` -/
def einval : Int := -22

/-- The switch of `sk_chk_filter`, at its labels: whether it breaks out to the next
instruction. -/
def chkOp (flen pc : Nat) (i : SockFilter) : Opcode → Bool
  | .alu .div .k => i.k != 0
  | .alu _ _ | .neg | .ldAbs _ | .ldLen | .ldInd _ | .ldImm | .ldxLen | .ldxMsh | .ldxImm | .tax
  | .txa | .retK | .retA => true
  | .ldMem | .ldxMem | .st | .stx => i.k.toNat < bpfMemwords
  | .ja => i.k.toNat < flen - pc - 1
  | .jmp _ _ => pc + i.jt.toNat + 1 < flen && pc + i.jf.toNat + 1 < flen

/-- The labels of `sk_chk_filter`. -/
def Opcode.checked : List Opcode :=
  [.alu .add .k, .alu .add .x, .alu .sub .k, .alu .sub .x, .alu .mul .k, .alu .mul .x,
    .alu .div .x, .alu .and .k, .alu .and .x, .alu .or .k, .alu .or .x, .alu .lsh .k, .alu .lsh .x,
    .alu .rsh .k, .alu .rsh .x, .neg, .ldAbs .w, .ldAbs .h, .ldAbs .b, .ldLen, .ldInd .w,
    .ldInd .h, .ldInd .b, .ldImm, .ldxLen, .ldxMsh, .ldxImm, .tax, .txa, .retK, .retA,
    .alu .div .k, .ldMem, .ldxMem, .st, .stx, .ja, .jmp .jeq .k, .jmp .jeq .x, .jmp .jge .k,
    .jmp .jge .x, .jmp .jgt .k, .jmp .jgt .x, .jmp .jset .k, .jmp .jset .x]

/-- One pass of the loop of `sk_chk_filter`. -/
def chkInsn (flen pc : Nat) (i : SockFilter) : Bool :=
  match Opcode.checked.find? fun op => op.code == i.code with
  | some op => chkOp flen pc i op
  | none => false

/-- The loop of `sk_chk_filter` from instruction `pc` on. -/
def chkLoop (flen : Nat) : Nat → List SockFilter → Bool
  | _, [] => true
  | pc, i :: rest => if chkInsn flen pc i then chkLoop flen (pc + 1) rest else false

def skChkFilter : Int :=
  if filter.length = 0 ∨ bpfMaxinsns < filter.length then einval
  else if chkLoop filter.length 0 filter then
    match filter.getLast? with
    | some last => if bpfClass last.code = bpfRet then 0 else einval
    | none => einval
  else einval

end R0Kernel.Net.Filter
