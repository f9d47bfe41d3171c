import Mathlib.Data.List.Basic
import Mathlib.Order.Lattice.Nat
import Mathlib.Tactic.IntervalCases

/-!
# POSIX access control lists

The lists of `fs/posix_acl.c`. What `posix_acl_valid` accepts has the entries of a structured list
in their order: the owner, the named users, the owning group, the named groups, the mask and the
others. On such a list `posix_acl_permission` decides as POSIX 1003.1e says, and
`posix_acl_chmod_masq` writes the bits of a mode into it.
-/

namespace R0Kernel.PosixAcl

open List

/-! ### The model -/

/-- `e_tag`; a value other than the defined ones is unknown. -/
inductive Tag where
  | userObj
  | user
  | groupObj
  | group
  | mask
  | other
  | unknown (tag : UInt16)
  deriving DecidableEq

/-- What an entry holds besides its tag. -/
structure Body where
  perm : UInt16
  id : UInt32

structure Entry extends Body where
  tag : Tag

abbrev Mode := UInt16

def undefinedId : UInt32 := 0xffffffff

def einval : Int := 22

def eio : Int := 5

def eacces : Int := 13

def S_IRWXU : Mode := 0o700

def S_IRWXG : Mode := 0o070

def S_IRWXO : Mode := 0o007

def S_IRWXUGO : Mode := 0o777

/-- The variable `state` of `posix_acl_valid`; `done` is zero. -/
inductive State where
  | userObj
  | user
  | group
  | other
  | done
  deriving DecidableEq

/-- A named entry, with an identifier that is not below `id`. -/
def namedOk (pa : Entry) (id : UInt32) : Prop := pa.id ≠ undefinedId ∧ id ≤ pa.id

instance (pa : Entry) (id : UInt32) : Decidable (namedOk pa id) :=
  inferInstanceAs (Decidable (_ ∧ _))

def validLoop : State → (id : UInt32) → (needsMask : Bool) → List Entry → Int
  | state, _, _, [] => if state = .done then 0 else -einval
  | state, id, needsMask, pa :: acl =>
    if pa.perm &&& ~~~7 ≠ 0 then -einval
    else
      match pa.tag with
      | .userObj => if state = .userObj then validLoop .user 0 needsMask acl else -einval
      | .user =>
        if state = .user ∧ namedOk pa id then validLoop state (pa.id + 1) true acl else -einval
      | .groupObj => if state = .user then validLoop .group 0 needsMask acl else -einval
      | .group =>
        if state = .group ∧ namedOk pa id then validLoop state (pa.id + 1) true acl else -einval
      | .mask => if state = .group then validLoop .other id needsMask acl else -einval
      | .other =>
        if state = .other ∨ state = .group ∧ needsMask = false then validLoop .done id needsMask acl
        else -einval
      | .unknown _ => -einval

def posixAclValid (acl : List Entry) : Int := validLoop .userObj 0 false acl

/-- The loop of `posix_acl_equiv_mode`: the mode so far and `not_equiv`. -/
def equivLoop : (mode : Mode) → (notEquiv : Bool) → List Entry → Option (Mode × Bool)
  | mode, notEquiv, [] => some (mode, notEquiv)
  | mode, notEquiv, pa :: acl =>
    match pa.tag with
    | .userObj => equivLoop (mode ||| (pa.perm &&& S_IRWXO) <<< 6) notEquiv acl
    | .groupObj => equivLoop (mode ||| (pa.perm &&& S_IRWXO) <<< 3) notEquiv acl
    | .other => equivLoop (mode ||| pa.perm &&& S_IRWXO) notEquiv acl
    | .mask => equivLoop (mode &&& ~~~S_IRWXG ||| (pa.perm &&& S_IRWXO) <<< 3) true acl
    | .user => equivLoop mode true acl
    | .group => equivLoop mode true acl
    | .unknown _ => none

/-- `posix_acl_equiv_mode`: the result and `*mode_p`. -/
def posixAclEquivMode (acl : List Entry) (modeP : Mode) : Int × Mode :=
  match equivLoop 0 false acl with
  | none => (-einval, modeP)
  | some (mode, notEquiv) => (if notEquiv then 1 else 0, modeP &&& ~~~S_IRWXUGO ||| mode)

structure Inode where
  uid : UInt32
  gid : UInt32

/-- `current`: its `fsuid`, and `in_group_p`. -/
structure Caller where
  fsuid : UInt32
  inGroup : UInt32 → Bool

def Contains (perm : UInt16) (want : UInt32) : Prop := perm.toUInt32 &&& want = want

instance (perm : UInt16) (want : UInt32) : Decidable (Contains perm want) :=
  inferInstanceAs (Decidable (_ = _))

def decision (perm : UInt16) (want : UInt32) : Int := if Contains perm want then 0 else -eacces

/-- From the label `mask` on, with the entries behind `pa`. -/
def maskLoop (pa : Entry) (want : UInt32) : List Entry → Int
  | [] => decision pa.perm want
  | m :: acl => if m.tag = .mask then decision (pa.perm &&& m.perm) want else maskLoop pa want acl

def permissionLoop (inode : Inode) (caller : Caller) (want : UInt32) : (found : Bool) →
    List Entry → Int
  | _, [] => -eio
  | found, pa :: acl =>
    match pa.tag with
    | .userObj =>
      if inode.uid = caller.fsuid then decision pa.perm want
      else permissionLoop inode caller want found acl
    | .user =>
      if pa.id = caller.fsuid then maskLoop pa want acl
      else permissionLoop inode caller want found acl
    | .groupObj =>
      if caller.inGroup inode.gid then
        if Contains pa.perm want then maskLoop pa want acl
        else permissionLoop inode caller want true acl
      else permissionLoop inode caller want found acl
    | .group =>
      if caller.inGroup pa.id then
        if Contains pa.perm want then maskLoop pa want acl
        else permissionLoop inode caller want true acl
      else permissionLoop inode caller want found acl
    | .mask => permissionLoop inode caller want found acl
    | .other => if found then -eacces else decision pa.perm want
    | .unknown _ => -eio

def posixAclPermission (inode : Inode) (caller : Caller) (acl : List Entry) (want : UInt32) : Int :=
  permissionLoop inode caller want false acl

/-- The loop of `posix_acl_chmod_masq` on the entry that follows those of `before`: the entries as
they are left, whether the loop came to the end, and the places of `group_obj` and `mask_obj`. -/
def chmodLoop (mode : Mode) (before : List Entry) (groupObj maskObj : Option Nat) :
    List Entry → List Entry × Bool × Option Nat × Option Nat
  | [] => (before, true, groupObj, maskObj)
  | pa :: acl =>
    match pa.tag with
    | .userObj =>
      chmodLoop mode (before ++ [{ pa with perm := (mode &&& S_IRWXU) >>> 6 }]) groupObj maskObj acl
    | .user => chmodLoop mode (before ++ [pa]) groupObj maskObj acl
    | .group => chmodLoop mode (before ++ [pa]) groupObj maskObj acl
    | .groupObj => chmodLoop mode (before ++ [pa]) (some before.length) maskObj acl
    | .mask => chmodLoop mode (before ++ [pa]) groupObj (some before.length) acl
    | .other =>
      chmodLoop mode (before ++ [{ pa with perm := mode &&& S_IRWXO }]) groupObj maskObj acl
    | .unknown _ => (before ++ pa :: acl, false, groupObj, maskObj)

def setPerm (perm : UInt16) (pa : Entry) : Entry := { pa with perm := perm }

def posixAclChmodMasq (acl : List Entry) (mode : Mode) : Int × List Entry :=
  match chmodLoop mode [] none none acl with
  | (acl, false, _, _) => (-eio, acl)
  | (acl, true, _, some maskObj) => (0, acl.modify maskObj (setPerm ((mode &&& S_IRWXG) >>> 3)))
  | (acl, true, some groupObj, none) =>
    (0, acl.modify groupObj (setPerm ((mode &&& S_IRWXG) >>> 3)))
  | (acl, true, none, none) => (-eio, acl)

/-! ### Well-formed lists -/

def Body.entry (b : Body) (tag : Tag) : Entry := { b with tag := tag }

def Body.PermOk (b : Body) : Prop := b.perm &&& ~~~7 = 0

structure Named (l : List Body) : Prop where
  perm : ∀ b ∈ l, b.PermOk
  defined : ∀ b ∈ l, b.id ≠ undefinedId
  increasing : l.Pairwise fun b c => b.id < c.id

/-- A list with its parts. Named entries come with a mask. -/
structure Acl where
  owner : Body
  users : List Body
  group : Body
  groups : List Body
  mask : Option Body
  other : Body
  objects : owner.PermOk ∧ group.PermOk ∧ other.PermOk ∧ ∀ m ∈ mask, m.PermOk
  named_users : Named users
  named_groups : Named groups
  mask_of_named : mask = none → users = [] ∧ groups = []

namespace Acl

def tail (a : Acl) : List Entry := a.mask.toList.map (·.entry .mask) ++ [a.other.entry .other]

def entries (a : Acl) : List Entry :=
  a.owner.entry .userObj :: (a.users.map (·.entry .user) ++
    a.group.entry .groupObj :: (a.groups.map (·.entry .group) ++ a.tail))

end Acl

/-! ### What is accepted -/

/-- Named entries whose identifiers are not below `id`. -/
def NamedFrom (id : UInt32) (l : List Body) : Prop := Named l ∧ ∀ b ∈ l, id ≤ b.id

lemma add_one_le_iff {i j : UInt32} (h : i ≠ undefinedId) : i + 1 ≤ j ↔ i < j := by
  have hne : i.toNat ≠ 2 ^ 32 - 1 := fun heq => h (UInt32.toNat_inj.mp heq)
  have hi := i.toNat_lt
  rw [UInt32.le_iff_toNat_le, UInt32.toNat_add, UInt32.toNat_one,
    Nat.mod_eq_of_lt (by omega)]
  exact Iff.rfl

lemma namedFrom_nil (id : UInt32) : NamedFrom id [] := ⟨⟨by simp, by simp, .nil⟩, by simp⟩

variable {l : List Body} {state : State} {tag : Tag} {p : UInt16} {want : UInt32}

lemma namedFrom_cons {id : UInt32} {b : Body} : NamedFrom id (b :: l) ↔
    b.PermOk ∧ namedOk (b.entry .user) id ∧ NamedFrom (b.id + 1) l := by
  constructor
  · rintro ⟨⟨hperm, hdefined, hincreasing⟩, hid⟩
    obtain ⟨hperm, hperms⟩ := forall_mem_cons.mp hperm
    obtain ⟨hdef, hdefs⟩ := forall_mem_cons.mp hdefined
    obtain ⟨hlt, hlts⟩ := pairwise_cons.mp hincreasing
    refine ⟨hperm, ⟨hdef, hid b mem_cons_self⟩, ⟨hperms, hdefs, hlts⟩, fun c hc => ?_⟩
    exact (add_one_le_iff hdef).mpr (hlt c hc)
  · rintro ⟨hperm, ⟨hdef, hid⟩, ⟨hperms, hdefs, hlts⟩, hnext⟩
    have hlt : ∀ c ∈ l, b.id < c.id := fun c hc => (add_one_le_iff hdef).mp (hnext c hc)
    refine ⟨⟨forall_mem_cons.mpr ⟨hperm, hperms⟩, forall_mem_cons.mpr ⟨hdef, hdefs⟩,
      pairwise_cons.mpr ⟨hlt, hlts⟩⟩, forall_mem_cons.mpr ⟨hid, fun c hc => ?_⟩⟩
    exact UInt32.le_trans hid (UInt32.le_of_lt (hlt c hc))

/-- One round of `posix_acl_valid` that does not fail. -/
inductive ValidStep (id : UInt32) : State → Bool → Entry → State → UInt32 → Bool → Prop where
  | userObj (b : Body) (n : Bool) : ValidStep id .userObj n (b.entry .userObj) .user 0 n
  | user (b : Body) (n : Bool) (h : namedOk (b.entry .user) id) :
      ValidStep id .user n (b.entry .user) .user (b.id + 1) true
  | groupObj (b : Body) (n : Bool) : ValidStep id .user n (b.entry .groupObj) .group 0 n
  | group (b : Body) (n : Bool) (h : namedOk (b.entry .user) id) :
      ValidStep id .group n (b.entry .group) .group (b.id + 1) true
  | mask (b : Body) (n : Bool) : ValidStep id .group n (b.entry .mask) .other id n
  | other (b : Body) (n : Bool) : ValidStep id .other n (b.entry .other) .done id n
  | otherUnmasked (b : Body) : ValidStep id .group false (b.entry .other) .done id false

lemma einval_ne : (-einval : Int) ≠ 0 := by decide

lemma of_ite_einval {c : Prop} [Decidable c] {x : Int} (h : (if c then x else -einval) = 0) :
    c ∧ x = 0 := by
  by_cases hc : c
  · exact ⟨hc, (if_pos hc).symm.trans h⟩
  · exact absurd ((if_neg hc).symm.trans h) einval_ne

variable {id : UInt32} {n : Bool} {acl : List Entry} (a : Acl) (mode : Mode)

lemma validLoop_cons {pa : Entry} :
    validLoop state id n (pa :: acl) = 0 ↔ pa.PermOk ∧
      ∃ state' id' n', ValidStep id state n pa state' id' n' ∧ validLoop state' id' n' acl = 0 := by
  obtain ⟨b, tag⟩ := pa
  constructor
  · intro h
    by_cases hperm : b.perm &&& ~~~7 ≠ 0
    · rw [validLoop, if_pos hperm] at h
      exact absurd h einval_ne
    refine ⟨not_not.mp hperm, ?_⟩
    rw [validLoop, if_neg hperm] at h
    cases tag with
    | userObj =>
      obtain ⟨rfl, h⟩ := of_ite_einval h
      exact ⟨_, _, _, .userObj b n, h⟩
    | user =>
      obtain ⟨⟨rfl, hid⟩, h⟩ := of_ite_einval h
      exact ⟨_, _, _, .user b n hid, h⟩
    | groupObj =>
      obtain ⟨rfl, h⟩ := of_ite_einval h
      exact ⟨_, _, _, .groupObj b n, h⟩
    | group =>
      obtain ⟨⟨rfl, hid⟩, h⟩ := of_ite_einval h
      exact ⟨_, _, _, .group b n hid, h⟩
    | mask =>
      obtain ⟨rfl, h⟩ := of_ite_einval h
      exact ⟨_, _, _, .mask b n, h⟩
    | other =>
      obtain ⟨rfl | ⟨rfl, rfl⟩, h⟩ := of_ite_einval h
      · exact ⟨_, _, _, .other b n, h⟩
      · exact ⟨_, _, _, .otherUnmasked b, h⟩
    | unknown _ => exact absurd h einval_ne
  · rintro ⟨hperm, state', id', n', hstep, h⟩
    have hperm' : ¬b.perm &&& ~~~7 ≠ 0 := not_not.mpr hperm
    rw [validLoop, if_neg hperm']
    cases hstep with
    | userObj | groupObj | mask | other | otherUnmasked => simpa [Body.entry] using h
    | user _ _ hid => exact (if_pos ⟨rfl, hid⟩).trans h
    | group _ _ hid => exact (if_pos ⟨rfl, hid⟩).trans h

lemma valid_users (h : validLoop .user id n acl = 0) :
    ∃ users group rest, acl = users.map (Body.entry · .user) ++ Body.entry group .groupObj :: rest ∧
      NamedFrom id users ∧ group.PermOk ∧ validLoop .group 0 (n || !users.isEmpty) rest = 0 := by
  induction acl generalizing id n with
  | nil => cases h
  | cons pa acl ih =>
    obtain ⟨hperm, state, id', n', hstep, hrest⟩ := validLoop_cons.mp h
    cases hstep with
    | user b _ hid =>
      obtain ⟨users, group, rest, rfl, husers, hgroup, hvalid⟩ := ih hrest
      exact ⟨b :: users, group, rest, rfl, namedFrom_cons.mpr ⟨hperm, hid, husers⟩, hgroup,
        by simpa using hvalid⟩
    | groupObj b => exact ⟨[], b, acl, rfl, namedFrom_nil id, hperm, by simpa using hrest⟩

lemma valid_done (h : validLoop .done id n acl = 0) : acl = [] := by
  cases acl with
  | nil => rfl
  | cons pa acl =>
    obtain ⟨-, _, _, _, hstep, -⟩ := validLoop_cons.mp h
    cases hstep

lemma valid_other (h : validLoop .other id n acl = 0) :
    ∃ other : Body, acl = [other.entry .other] ∧ other.PermOk := by
  cases acl with
  | nil => cases h
  | cons pa acl =>
    obtain ⟨hperm, _, _, _, hstep, hrest⟩ := validLoop_cons.mp h
    cases hstep with
    | other b =>
      obtain rfl := valid_done hrest
      exact ⟨b, rfl, hperm⟩

lemma valid_groups (h : validLoop .group id n acl = 0) :
    ∃ groups, ∃ mask : Option Body, ∃ other : Body,
      acl = groups.map (Body.entry · .group) ++ (mask.toList.map (·.entry .mask) ++
        [other.entry .other]) ∧ NamedFrom id groups ∧ (∀ m ∈ mask, m.PermOk) ∧ other.PermOk ∧
      (mask = none → n = false ∧ groups = []) := by
  induction acl generalizing id n with
  | nil => cases h
  | cons pa acl ih =>
    obtain ⟨hperm, state, id', n', hstep, hrest⟩ := validLoop_cons.mp h
    cases hstep with
    | group b _ hid =>
      obtain ⟨groups, mask, other, rfl, hgroups, hmask, hother, hnone⟩ := ih hrest
      exact ⟨b :: groups, mask, other, rfl, namedFrom_cons.mpr ⟨hperm, hid, hgroups⟩, hmask, hother,
        fun heq => nomatch (hnone heq).1⟩
    | mask b =>
      obtain ⟨other, rfl, hother⟩ := valid_other hrest
      exact ⟨[], some b, other, rfl, namedFrom_nil id, fun m hm => Option.some.inj hm ▸ hperm,
        hother, nofun⟩
    | otherUnmasked b =>
      obtain rfl := valid_done hrest
      exact ⟨[], none, b, rfl, namedFrom_nil id, by simp, hperm, fun _ => ⟨rfl, rfl⟩⟩

lemma exists_acl (h : posixAclValid acl = 0) : ∃ a : Acl, acl = a.entries := by
  cases acl with
  | nil => cases h
  | cons pa acl =>
    obtain ⟨hperm, _, _, _, hstep, hrest⟩ := validLoop_cons.mp h
    cases hstep with
    | userObj b =>
      obtain ⟨users, group, rest, rfl, husers, hgroup, hrest⟩ := valid_users hrest
      obtain ⟨groups, mask, other, rfl, hgroups, hmask, hother, hnone⟩ := valid_groups hrest
      refine ⟨⟨b, users, group, groups, mask, other, ⟨hperm, hgroup, hother, hmask⟩,
        husers.1, hgroups.1, fun heq => ?_⟩, rfl⟩
      obtain ⟨hnamed, hgroups⟩ := hnone heq
      exact ⟨by simpa using hnamed, hgroups⟩

/-- Named entries in front of what is accepted. -/
lemma valid_named_append (hnames : state = .user ∧ tag = .user ∨ state = .group ∧ tag = .group)
    (hl : NamedFrom id l) (h : ∀ id', validLoop state id' (n || !l.isEmpty) acl = 0) :
    validLoop state id n (l.map (Body.entry · tag) ++ acl) = 0 := by
  induction l generalizing id n with
  | nil => simpa using h id
  | cons b l ih =>
    obtain ⟨hperm, hid, hl⟩ := namedFrom_cons.mp hl
    refine validLoop_cons.mpr ⟨hperm, state, b.id + 1, true, ?_, ih hl (by simpa using h)⟩
    obtain ⟨rfl, rfl⟩ | ⟨rfl, rfl⟩ := hnames
    · exact .user b n hid
    · exact .group b n hid

lemma Acl.valid : posixAclValid a.entries = 0 := by
  obtain ⟨howner, hgroup, hother, hmask⟩ := a.objects
  have hzero : ∀ b : Body, (0 : UInt32) ≤ b.id :=
    fun b => UInt32.le_iff_toNat_le.mpr (Nat.zero_le _)
  have hend : ∀ id n, validLoop .other id n [a.other.entry .other] = 0 := fun id n =>
    validLoop_cons.mpr ⟨hother, _, _, _, .other _ _, rfl⟩
  refine validLoop_cons.mpr ⟨howner, _, _, _, .userObj _ _, ?_⟩
  refine valid_named_append (.inl ⟨rfl, rfl⟩) ⟨a.named_users, fun b _ => hzero b⟩ fun id => ?_
  refine validLoop_cons.mpr ⟨hgroup, _, _, _, .groupObj _ _, ?_⟩
  refine valid_named_append (.inr ⟨rfl, rfl⟩) ⟨a.named_groups, fun b _ => hzero b⟩ fun id => ?_
  rw [Acl.tail]
  cases hm : a.mask with
  | none =>
    obtain ⟨husers, hgroups⟩ := a.mask_of_named hm
    rw [husers, hgroups]
    exact validLoop_cons.mpr ⟨hother, _, _, _, .otherUnmasked _, rfl⟩
  | some m => exact validLoop_cons.mpr ⟨hmask m hm, _, _, _, .mask _ _, hend _ _⟩

/-- The lists that `posix_acl_valid` accepts are those with the parts of an ACL, in their order. -/
theorem posix_acl_valid_iff (acl : List Entry) :
    posixAclValid acl = 0 ↔ ∃ a : Acl, acl = a.entries :=
  ⟨exists_acl, fun ⟨a, ha⟩ => ha ▸ a.valid⟩

/-! ### Decisions -/

lemma contains_and {m : UInt16} :
    Contains (p &&& m) want ↔ Contains p want ∧ Contains m want := by
  rw [Contains, UInt16.toUInt32_and, UInt32.and_assoc]
  constructor
  · intro h
    have hm : m.toUInt32 &&& want = want := by
      grind
    exact ⟨by rwa [hm] at h, hm⟩
  · rintro ⟨hp, hm⟩
    rw [hm, hp]

namespace Acl

variable (a : Acl) (inode : Inode) (caller : Caller) (want : UInt32)

/-- Permissions of an entry of the group class, intersected with the mask if there is one. -/
def masked (perm : UInt16) : UInt16 := (a.mask.map fun m => perm &&& m.perm).getD perm

/-- The permissions of the owning and the named groups of the caller. -/
def groupPerms : List UInt16 :=
  (if caller.inGroup inode.gid then [a.group.perm] else []) ++
    (a.groups.filter (caller.inGroup ·.id)).map Body.perm

/-- The decision of POSIX 1003.1e. -/
def Grants : Prop :=
  if inode.uid = caller.fsuid then Contains a.owner.perm want
  else
    match a.users.find? (·.id = caller.fsuid) with
    | some b => Contains (a.masked b.perm) want
    | none =>
      if a.groupPerms inode caller = [] then Contains a.other.perm want
      else ∃ p ∈ a.groupPerms inode caller, Contains (a.masked p) want

/-- The caller is not the owner, and a named user or a member of an owning or named group. -/
def GroupClass : Prop :=
  inode.uid ≠ caller.fsuid ∧
    ((∃ b ∈ a.users, b.id = caller.fsuid) ∨ a.groupPerms inode caller ≠ [])

variable {a inode caller want}

def MaskAllows (a : Acl) (want : UInt32) : Prop := ∀ m ∈ a.mask, Contains m.perm want

lemma contains_masked {p : UInt16} :
    Contains (a.masked p) want ↔ Contains p want ∧ a.MaskAllows want := by
  cases hm : a.mask with
  | none => simp [masked, MaskAllows, hm]
  | some m => simp [masked, MaskAllows, hm, contains_and]

/-- The search for the mask, behind an entry of the group class. -/
lemma maskLoop_append (pa : Entry) {l : List Entry} (hl : ∀ e ∈ l, e.tag ≠ .mask) :
    maskLoop pa want (l ++ a.tail) = decision (a.masked pa.perm) want := by
  induction l with
  | nil =>
    cases hm : a.mask with
    | none => simp [tail, masked, hm, maskLoop, Body.entry]
    | some m => simp [tail, masked, hm, maskLoop, Body.entry]
  | cons e l ih =>
    obtain ⟨he, hl⟩ := forall_mem_cons.mp hl
    rw [cons_append, maskLoop, if_neg he, ih hl]

/-- What the loop decides from the groups on, for the permissions of the groups of the caller that
are still to come. -/
def groupDecision (a : Acl) (want : UInt32) (found : Bool) (perms : List UInt16) : Int :=
  if found = true ∨ perms ≠ [] then
    if ∃ p ∈ perms, Contains (a.masked p) want then 0 else -eacces
  else decision a.other.perm want

lemma groupDecision_step {isMember : Bool} {perm : UInt16} {perms : List UInt16} {found : Bool} :
    (if isMember then
      if Contains perm want then decision (a.masked perm) want else a.groupDecision want true perms
    else a.groupDecision want found perms) =
      a.groupDecision want found ((if isMember then [perm] else []) ++ perms) := by
  cases isMember with
  | false => rfl
  | true =>
    have hright : a.groupDecision want found (perm :: perms) =
        if ∃ p ∈ perm :: perms, Contains (a.masked p) want then 0 else -eacces :=
      if_pos (.inr (by simp))
    have hleft : a.groupDecision want true perms =
        if ∃ p ∈ perms, Contains (a.masked p) want then 0 else -eacces := if_pos (.inl rfl)
    simp only [if_true, singleton_append, hright, hleft, decision, exists_mem_cons_iff]
    by_cases hperm : Contains perm want
    · by_cases hmask : Contains (a.masked perm) want
      · simp [hperm, hmask]
      · -- the mask takes what is wanted from all of them
        have hnone : ¬∃ p ∈ perms, Contains (a.masked p) want := fun ⟨p, _, hp⟩ =>
          hmask (contains_masked.mpr ⟨hperm, (contains_masked.mp hp).2⟩)
        simp [hperm, hmask, hnone]
    · have hmask : ¬Contains (a.masked perm) want := fun h => hperm (contains_masked.mp h).1
      simp [hperm, hmask]

lemma permissionLoop_groups (a : Acl) (l : List Body) (found : Bool) :
    permissionLoop inode caller want found (l.map (·.entry .group) ++ a.tail) =
      a.groupDecision want found ((l.filter (caller.inGroup ·.id)).map Body.perm) := by
  induction l generalizing found with
  | nil =>
    cases hm : a.mask with
    | none => cases found <;> simp [tail, hm, permissionLoop, groupDecision, Body.entry]
    | some m => cases found <;> simp [tail, hm, permissionLoop, groupDecision, Body.entry]
  | cons b l ih =>
    have hmask : maskLoop (b.entry .group) want (l.map (·.entry .group) ++ a.tail) = _ :=
      maskLoop_append _ (by simp [Body.entry])
    have hperms : ((b :: l).filter (caller.inGroup ·.id)).map Body.perm =
        (if caller.inGroup b.id then [b.perm] else []) ++
          (l.filter (caller.inGroup ·.id)).map Body.perm := by
      rw [filter_cons]
      split_ifs <;> rfl
    rw [hperms, ← groupDecision_step, ← ih, ← ih]
    exact if_congr Iff.rfl (if_congr Iff.rfl hmask rfl) rfl

def fromGroup (a : Acl) : List Entry :=
  a.group.entry .groupObj :: (a.groups.map (·.entry .group) ++ a.tail)

lemma permissionLoop_group (a : Acl) : permissionLoop inode caller want false a.fromGroup =
    a.groupDecision want false (a.groupPerms inode caller) := by
  have hmask : maskLoop (a.group.entry .groupObj) want (a.groups.map (·.entry .group) ++ a.tail) =
      _ :=
    maskLoop_append _ (by simp [Body.entry])
  rw [groupPerms, ← groupDecision_step, ← permissionLoop_groups, ← permissionLoop_groups]
  exact if_congr Iff.rfl (if_congr Iff.rfl hmask rfl) rfl

/-- The named users, and what comes behind them. -/
lemma permissionLoop_users (a : Acl) (l : List Body) : permissionLoop inode caller want false
    (l.map (·.entry .user) ++ a.fromGroup) = match l.find? (·.id = caller.fsuid) with
      | some b => decision (a.masked b.perm) want
      | none => a.groupDecision want false (a.groupPerms inode caller) := by
  induction l with
  | nil => exact permissionLoop_group a
  | cons b l ih =>
    rw [find?_cons]
    by_cases hid : b.id = caller.fsuid
    · have hmask : maskLoop (b.entry .user) want (l.map (·.entry .user) ++ a.fromGroup) =
          decision (a.masked b.perm) want := by
        rw [fromGroup, ← cons_append, ← append_assoc]
        exact maskLoop_append _ (forall_mem_append.mpr ⟨by simp [Body.entry],
          forall_mem_cons.mpr ⟨by simp [Body.entry], by simp [Body.entry]⟩⟩)
      simp only [hid, decide_true]
      exact (if_pos hid).trans hmask
    · simp only [hid, decide_false]
      exact (if_neg hid).trans ih

/-- A result that grants if and only if the condition holds, and denies otherwise. -/
def Decides (result : Int) (granted : Prop) : Prop :=
  (result = 0 ↔ granted) ∧ (result = 0 ∨ result = -eacces)

lemma decides_ite (p : Prop) [Decidable p] : Decides (if p then 0 else -eacces) p := by
  by_cases hp : p
  · simp [Decides, hp]
  · simp [Decides, hp, eacces]

lemma decides_groupDecision (a : Acl) (perms : List UInt16) :
    Decides (a.groupDecision want false perms)
    (if perms = [] then Contains a.other.perm want else ∃ p ∈ perms,
      Contains (a.masked p) want) := by
  by_cases hperms : perms = []
  · rw [groupDecision, if_neg (by simp [hperms]), if_pos hperms]
    exact decides_ite _
  · rw [groupDecision, if_pos (.inr hperms), if_neg hperms]
    exact decides_ite _

lemma permission_decides (a : Acl) (inode : Inode) (caller : Caller) (want : UInt32) :
    Decides (posixAclPermission inode caller a.entries want) (a.Grants inode caller want) := by
  by_cases howner : inode.uid = caller.fsuid
  · have hloop : posixAclPermission inode caller a.entries want = decision a.owner.perm want :=
      if_pos howner
    rw [hloop, Grants, if_pos howner]
    exact decides_ite _
  · have hloop : posixAclPermission inode caller a.entries want = _ :=
      (if_neg howner).trans (permissionLoop_users a a.users)
    rw [hloop, Grants, if_neg howner]
    cases a.users.find? (·.id = caller.fsuid) with
    | none => exact decides_groupDecision a _
    | some b => exact decides_ite _

end Acl

/-! ### Changing the mode -/

def groupBits (mode : Mode) : UInt16 := (mode &&& S_IRWXG) >>> 3

lemma mode_ext {m m' : Mode} (h : ∀ i (hi : i < 16), m.toBitVec[i] = m'.toBitVec[i]) : m = m' :=
  UInt16.toBitVec_inj.mp (BitVec.eq_of_getElem_eq h)

section Bits

variable (mode : Mode)

lemma user_permOk : (mode &&& S_IRWXU) >>> 6 &&& ~~~7 = 0 := by
  refine mode_ext fun i hi => ?_
  interval_cases i <;> simp [S_IRWXU]

lemma group_permOk : groupBits mode &&& ~~~7 = 0 := by
  refine mode_ext fun i hi => ?_
  interval_cases i <;> simp [groupBits, S_IRWXG]

lemma other_permOk : mode &&& S_IRWXO &&& ~~~7 = 0 := by
  refine mode_ext fun i hi => ?_
  interval_cases i <;> simp [S_IRWXO]

end Bits

def Body.setPerm (b : Body) (perm : UInt16) : Body := { b with perm := perm }

/-- The bits of the mode are those of the owner, of the mask or else of the owning group, and of the
others. -/
def Acl.chmod (a : Acl) (mode : Mode) : Acl where
  owner := a.owner.setPerm ((mode &&& S_IRWXU) >>> 6)
  users := a.users
  group := if a.mask.isNone then a.group.setPerm (groupBits mode) else a.group
  groups := a.groups
  mask := a.mask.map (·.setPerm (groupBits mode))
  other := a.other.setPerm (mode &&& S_IRWXO)
  objects := by
    refine ⟨user_permOk mode, ?_, other_permOk mode, fun m hm => ?_⟩
    · split_ifs
      · exact group_permOk mode
      · exact a.objects.2.1
    · obtain ⟨m, -, rfl⟩ := Option.map_eq_some_iff.mp hm
      exact group_permOk mode
  named_users := a.named_users
  named_groups := a.named_groups
  mask_of_named := fun h => a.mask_of_named (Option.map_eq_none_iff.mp h)

lemma Acl.chmod_mask (mode : Mode) :
    (a.chmod mode).mask = a.mask.map (·.setPerm (groupBits mode)) := rfl

lemma Acl.chmod_group {a : Acl} (hm : a.mask = none) :
    (a.chmod mode).group = a.group.setPerm (groupBits mode) := by
  simp [chmod, hm]

section Chmod

variable {mode : Mode} {before : List Entry} {groupObj maskObj : Option Nat}

lemma chmodLoop_named {tag : Tag} (htag : tag = .user ∨ tag = .group) (l : List Body)
    (acl : List Entry) : chmodLoop mode before groupObj maskObj (l.map (·.entry tag) ++ acl) =
      chmodLoop mode (before ++ l.map (·.entry tag)) groupObj maskObj acl := by
  induction l generalizing before with
  | nil => simp
  | cons b l ih =>
    have hstep :
        chmodLoop mode before groupObj maskObj (b.entry tag :: (l.map (·.entry tag) ++ acl)) =
        chmodLoop mode (before ++ [b.entry tag]) groupObj maskObj (l.map (·.entry tag) ++ acl) := by
      obtain rfl | rfl := htag <;> rfl
    rw [map_cons, cons_append, hstep, ih, append_assoc, singleton_append]

lemma modify_length_append {α : Type} (l₁ l₂ : List α) (x : α) (f : α → α) :
    (l₁ ++ x :: l₂).modify l₁.length f = l₁ ++ f x :: l₂ := by
  induction l₁ with
  | nil => rfl
  | cons y l₁ ih => simp [ih]

/-- The loop up to the groups: the place of the owning group is known. -/
lemma Acl.chmodLoop_entries (a : Acl) (mode : Mode) : ∃ l : List Entry,
    l = (a.owner.setPerm ((mode &&& S_IRWXU) >>> 6)).entry .userObj :: a.users.map (·.entry .user) ∧
      chmodLoop mode [] none none a.entries =
        chmodLoop mode (l ++ a.group.entry .groupObj :: a.groups.map (·.entry .group))
          (some l.length) none a.tail := by
  refine ⟨_, rfl, ?_⟩
  have howner : chmodLoop mode [] none none a.entries = chmodLoop mode
      [(a.owner.setPerm ((mode &&& S_IRWXU) >>> 6)).entry .userObj] none none
      (a.users.map (·.entry .user) ++ a.fromGroup) := rfl
  rw [howner, chmodLoop_named (.inl rfl)]
  have hgroup (before : List Entry) : chmodLoop mode before none none a.fromGroup =
      chmodLoop mode (before ++ [a.group.entry .groupObj]) (some before.length) none
        (a.groups.map (·.entry .group) ++ a.tail) := rfl
  rw [hgroup, chmodLoop_named (.inr rfl), append_assoc, singleton_append, singleton_append]

end Chmod

lemma Acl.chmodMasq_entries (mode : Mode) :
    posixAclChmodMasq a.entries mode = (0, (a.chmod mode).entries) := by
  obtain ⟨l, hl, hloop⟩ := a.chmodLoop_entries mode
  have hentries : (a.chmod mode).entries = l ++ (a.chmod mode).group.entry .groupObj ::
      (a.groups.map (·.entry .group) ++ (a.chmod mode).tail) := by
    rw [hl]
    rfl
  rw [posixAclChmodMasq, hloop, hentries, tail, tail]
  cases hm : a.mask with
  | none =>
    change (0, List.modify _ _ _) = _
    rw [append_assoc, cons_append, modify_length_append, chmod_group mode hm, chmod_mask, hm]
    rfl
  | some m =>
    have hgroup : (a.chmod mode).group = a.group := by simp [chmod, hm]
    change (0, List.modify _ _ _) = _
    rw [append_assoc _ [_] [_], singleton_append, modify_length_append, hgroup, chmod_mask, hm,
      append_assoc]
    rfl

/-- The bits of the mode, from the permissions of the owner, the owning group and the others. -/
lemma mode_bits : (0 : Mode) ||| ((mode &&& S_IRWXU) >>> 6 &&& S_IRWXO) <<< 6 |||
    (groupBits mode &&& S_IRWXO) <<< 3 ||| mode &&& S_IRWXO &&& S_IRWXO = mode &&& S_IRWXUGO := by
  refine mode_ext fun i hi => ?_
  interval_cases i <;> simp [groupBits, S_IRWXU, S_IRWXG, S_IRWXO, S_IRWXUGO]

/-- The bits of the mode, with the mask in the place of the owning group. -/
lemma mode_bits_masked (g : UInt16) :
    ((0 : Mode) ||| ((mode &&& S_IRWXU) >>> 6 &&& S_IRWXO) <<< 6 ||| (g &&& S_IRWXO) <<< 3) &&&
      ~~~S_IRWXG |||
      (groupBits mode &&& S_IRWXO) <<< 3 ||| mode &&& S_IRWXO &&& S_IRWXO = mode &&& S_IRWXUGO := by
  refine mode_ext fun i hi => ?_
  interval_cases i <;> simp [groupBits, S_IRWXU, S_IRWXG, S_IRWXO, S_IRWXUGO]

lemma equivLoop_named (htag : tag = .user ∨ tag = .group) (mode : Mode) (notEquiv : Bool)
    (l : List Body) (acl : List Entry) : ∃ notEquiv',
      equivLoop mode notEquiv (l.map (·.entry tag) ++ acl) = equivLoop mode notEquiv' acl := by
  induction l generalizing notEquiv with
  | nil => exact ⟨notEquiv, rfl⟩
  | cons b l ih =>
    obtain ⟨n, hn⟩ := ih true
    refine ⟨n, ?_⟩
    rw [← hn]
    obtain rfl | rfl := htag <;> rfl

lemma Acl.equivLoop_chmod (mode : Mode) :
    ∃ notEquiv, equivLoop 0 false (a.chmod mode).entries = some (mode &&& S_IRWXUGO, notEquiv) := by
  obtain ⟨n, hn⟩ :=
    equivLoop_named (.inl rfl) ((0 : Mode) ||| ((mode &&& S_IRWXU) >>> 6 &&& S_IRWXO) <<< 6) false
    a.users (a.chmod mode).fromGroup
  obtain ⟨n', hn'⟩ :=
    equivLoop_named (.inr rfl) ((0 : Mode) ||| ((mode &&& S_IRWXU) >>> 6 &&& S_IRWXO) <<< 6 |||
    ((a.chmod mode).group.perm &&& S_IRWXO) <<< 3) n a.groups (a.chmod mode).tail
  have hloop : equivLoop 0 false (a.chmod mode).entries = _ := hn.trans hn'
  rw [hloop, tail]
  cases hm : a.mask with
  | none =>
    rw [chmod_group mode hm, chmod_mask, hm]
    exact ⟨n', congrArg (fun m => some (m, n')) (mode_bits mode)⟩
  | some m =>
    rw [chmod_mask, hm]
    exact ⟨true, congrArg (fun m => some (m, true)) (mode_bits_masked mode _)⟩

/-- After `chmod` the group class has no more than the group bits. -/
lemma Acl.chmod_contains (mode : Mode) (hp : a.mask = none → p = groupBits mode)
    (h : Contains ((a.chmod mode).masked p) want) :
    Contains (groupBits mode) want := by
  obtain ⟨hcontains, hmask⟩ := contains_masked.mp h
  cases hm : a.mask with
  | none => rwa [hp hm] at hcontains
  | some m => exact hmask (m.setPerm (groupBits mode)) (by simp [chmod, hm])

lemma Acl.chmod_groupClass (mode : Mode) {inode : Inode} {caller : Caller}
    (hclass : a.GroupClass inode caller) (hgrants : (a.chmod mode).Grants inode caller want) :
    Contains (groupBits mode) want := by
  obtain ⟨howner, hmember⟩ := hclass
  rw [Grants, if_neg howner] at hgrants
  cases hfind : (a.chmod mode).users.find? (·.id = caller.fsuid) with
  | some b =>
    rw [hfind] at hgrants
    refine a.chmod_contains mode (fun hnone => ?_) hgrants
    have hb : b ∈ a.users := mem_of_find?_eq_some hfind
    rw [(a.mask_of_named hnone).1] at hb
    cases hb
  | none =>
    have hperms : a.groupPerms inode caller ≠ [] := by
      refine hmember.resolve_left fun ⟨b, hb, hid⟩ => ?_
      exact find?_eq_none.mp hfind b hb (decide_eq_true hid)
    have hperms' : (a.chmod mode).groupPerms inode caller ≠ [] := by
      simp only [groupPerms, chmod, ne_eq, append_eq_nil_iff, not_and] at hperms ⊢
      intro hgroup
      apply hperms
      split_ifs at hgroup ⊢
      rfl
    rw [hfind] at hgrants
    simp only [if_neg hperms'] at hgrants
    obtain ⟨p, hp, hcontains⟩ := hgrants
    refine a.chmod_contains mode (fun hnone => ?_) hcontains
    have hgroups : (a.chmod mode).groups = [] := (a.mask_of_named hnone).2
    rw [groupPerms, chmod_group mode hnone, hgroups] at hp
    split_ifs at hp
    · simpa [Body.setPerm] using hp
    · simp at hp

/-- The decisions on a valid list are those of POSIX 1003.1e; and after `chmod` the list is valid,
has the bits of the mode, and grants no more than the group bits to the group class. -/
theorem posix_acl_decisions (acl : List Entry) (h : posixAclValid acl = 0) :
    ∃ a : Acl, acl = a.entries ∧
      (∀ inode caller want,
        Acl.Decides (posixAclPermission inode caller acl want) (a.Grants inode caller want)) ∧
      ∀ mode, ∃ acl', posixAclChmodMasq acl mode = (0, acl') ∧ posixAclValid acl' = 0 ∧
        (∀ modeP, 0 ≤ (posixAclEquivMode acl' modeP).1 ∧
          (posixAclEquivMode acl' modeP).2 = modeP &&& ~~~S_IRWXUGO ||| mode &&& S_IRWXUGO) ∧
        ∀ inode caller want, a.GroupClass inode caller →
          posixAclPermission inode caller acl' want = 0 → Contains (groupBits mode) want := by
  obtain ⟨a, rfl⟩ := exists_acl h
  refine ⟨a, rfl, a.permission_decides, fun mode => ⟨_, a.chmodMasq_entries mode, Acl.valid _,
    fun modeP => ?_, fun inode caller want hclass hperm => ?_⟩⟩
  · obtain ⟨n, hn⟩ := a.equivLoop_chmod mode
    rw [posixAclEquivMode, hn]
    cases n <;> simp
  · exact a.chmod_groupClass mode hclass (((a.chmod mode).permission_decides ..).1.mp hperm)

/-- A list with a named group and a mask. -/
theorem posix_acl_decisions_masked : ∃ a : Acl, a.mask ≠ none ∧
    ∀ inode caller want, Acl.Decides (posixAclPermission inode caller
      [⟨⟨6, 0⟩, .userObj⟩, ⟨⟨4, 0⟩, .groupObj⟩, ⟨⟨7, 100⟩, .group⟩, ⟨⟨5, 0⟩, .mask⟩,
        ⟨⟨0, 0⟩, .other⟩] want)
      (a.Grants inode caller want) := by
  obtain ⟨a, hentries, hdecides, -⟩ := posix_acl_decisions
    [⟨⟨6, 0⟩, .userObj⟩, ⟨⟨4, 0⟩, .groupObj⟩, ⟨⟨7, 100⟩, .group⟩, ⟨⟨5, 0⟩, .mask⟩,
      ⟨⟨0, 0⟩, .other⟩] (by decide)
  refine ⟨a, fun hnone => ?_, hdecides⟩
  obtain ⟨husers, hgroups⟩ := a.mask_of_named hnone
  have hlength := congrArg List.length hentries
  simp [Acl.entries, Acl.tail, husers, hgroups, hnone] at hlength

end R0Kernel.PosixAcl
