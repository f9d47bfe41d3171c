import Mathlib

/-! # Aligned power-of-two blocks

A block is a start and an order: it covers `2 ^ order` consecutive units and
starts at a multiple of its size. Aligned blocks are laminar, so a family of
disjoint aligned blocks in which no block and its buddy both occur below a top
order is determined by the units it covers.
-/

namespace R0Kernel.Dyadic

def andNot (a b : Nat) : Nat := a ^^^ (a &&& b)

def Covers (start order unit : Nat) : Prop := start ≤ unit ∧ unit < start + 2 ^ order

def Apart (p o q r : Nat) : Prop := p + 2 ^ o ≤ q ∨ q + 2 ^ r ≤ p

instance (start order unit : Nat) : Decidable (Covers start order unit) :=
  inferInstanceAs (Decidable (_ ∧ _))

instance (p o q r : Nat) : Decidable (Apart p o q r) := inferInstanceAs (Decidable (_ ∨ _))

lemma Covers.start (p o : Nat) : Covers p o p :=
  ⟨le_rfl, Nat.lt_add_of_pos_right (Nat.two_pow_pos o)⟩

variable {p o q r : Nat}

lemma Apart.symm (hapart : Apart p o q r) : Apart q r p o := Or.symm hapart

lemma Apart.not_covers {unit : Nat} (hapart : Apart p o q r) (hleft : Covers p o unit) :
    ¬ Covers q r unit := by
  intro hright
  unfold Apart at hapart
  unfold Covers at hleft hright
  omega

lemma apart_iff_forall_not_covers :
    Apart p o q r ↔ ∀ unit, Covers p o unit → ¬ Covers q r unit := by
  refine ⟨fun hapart _ => hapart.not_covers, fun hforall => ?_⟩
  by_contra hmeet
  have hopos := Nat.two_pow_pos o
  have hrpos := Nat.two_pow_pos r
  unfold Apart at hmeet
  -- the larger of the two starts lies in both blocks
  exact hforall (max p q) ⟨by omega, by omega⟩ ⟨by omega, by omega⟩

lemma covers_succ_iff (p o unit : Nat) :
    Covers p (o + 1) unit ↔ Covers p o unit ∨ Covers (p + 2 ^ o) o unit := by
  unfold Covers
  omega

/-! ## Buddies -/

lemma even_xor (k o : Nat) : (2 ^ (o + 1) * k) ^^^ 2 ^ o = 2 ^ (o + 1) * k + 2 ^ o := by
  have hlt : 2 ^ o < 2 ^ (o + 1) := Nat.pow_lt_pow_right (by omega) (by omega)
  rw [Nat.two_pow_add_eq_or_of_lt hlt]
  apply Nat.eq_of_testBit_eq
  intro i
  simp only [Nat.testBit_xor, Nat.testBit_or, Nat.testBit_two_pow_mul, Nat.testBit_two_pow]
  by_cases hi : o = i
  · subst hi
    simp
  · simp [hi]

lemma odd_xor (k o : Nat) : (2 ^ (o + 1) * k + 2 ^ o) ^^^ 2 ^ o = 2 ^ (o + 1) * k := by
  rw [← even_xor, Nat.xor_assoc, Nat.xor_self, Nat.xor_zero]

lemma even_andNot (k o : Nat) : andNot (2 ^ (o + 1) * k) (2 ^ o) = 2 ^ (o + 1) * k := by
  apply Nat.eq_of_testBit_eq
  intro i
  simp only [andNot, Nat.testBit_xor, Nat.testBit_and, Nat.testBit_two_pow_mul,
    Nat.testBit_two_pow]
  by_cases hi : o = i
  · subst hi
    simp
  · simp [hi]

lemma odd_andNot (k o : Nat) :
    andNot (2 ^ (o + 1) * k + 2 ^ o) (2 ^ o) = 2 ^ (o + 1) * k := by
  rw [← even_xor]
  apply Nat.eq_of_testBit_eq
  intro i
  simp only [andNot, Nat.testBit_xor, Nat.testBit_and, Nat.testBit_two_pow_mul,
    Nat.testBit_two_pow]
  by_cases hi : o = i
  · subst hi
    simp
  · simp [hi]

/-- An aligned block is the lower or the upper half of an aligned pair; its
buddy is the other half and clearing the size bit gives the pair's start. -/
lemma buddy_cases (haligned : 2 ^ o ∣ p) :
    (2 ^ (o + 1) ∣ p ∧ p ^^^ 2 ^ o = p + 2 ^ o ∧ andNot p (2 ^ o) = p) ∨
      ∃ q, 2 ^ (o + 1) ∣ q ∧ p = q + 2 ^ o ∧ p ^^^ 2 ^ o = q ∧ andNot p (2 ^ o) = q := by
  obtain ⟨k, rfl⟩ := haligned
  rcases Nat.even_or_odd' k with ⟨m, rfl | rfl⟩
  · have heq : 2 ^ o * (2 * m) = 2 ^ (o + 1) * m := by ring
    rw [heq]
    exact Or.inl ⟨Nat.dvd_mul_right _ _, even_xor m o, even_andNot m o⟩
  · have heq : 2 ^ o * (2 * m + 1) = 2 ^ (o + 1) * m + 2 ^ o := by ring
    rw [heq]
    exact Or.inr ⟨2 ^ (o + 1) * m, Nat.dvd_mul_right _ _, rfl, odd_xor m o, odd_andNot m o⟩

lemma xor_two_pow_involutive (p o : Nat) : (p ^^^ 2 ^ o) ^^^ 2 ^ o = p := by
  rw [Nat.xor_assoc, Nat.xor_self, Nat.xor_zero]

lemma andNot_aligned (haligned : 2 ^ o ∣ p) : 2 ^ (o + 1) ∣ andNot p (2 ^ o) := by
  rcases buddy_cases haligned with ⟨hp, _, hcomb⟩ | ⟨q, hq, _, _, hcomb⟩ <;> rw [hcomb] <;>
    assumption

/-- The pair covers exactly what the block and its buddy cover. -/
lemma covers_andNot_iff (haligned : 2 ^ o ∣ p) (unit : Nat) :
    Covers (andNot p (2 ^ o)) (o + 1) unit ↔
      Covers p o unit ∨ Covers (p ^^^ 2 ^ o) o unit := by
  rcases buddy_cases haligned with ⟨_, hbuddy, hcomb⟩ | ⟨q, _, hp, hbuddy, hcomb⟩
  · rw [hcomb, hbuddy, covers_succ_iff]
  · rw [hcomb, hbuddy, hp, covers_succ_iff, or_comm]

/-! ## Laminarity -/

/-- Of two aligned blocks the smaller is inside the larger or apart from it. -/
lemma inside_or_apart (hp : 2 ^ o ∣ p) (hq : 2 ^ r ∣ q) (hle : o ≤ r) :
    (q ≤ p ∧ p + 2 ^ o ≤ q + 2 ^ r) ∨ Apart p o q r := by
  obtain ⟨k, rfl⟩ := hp
  obtain ⟨d, rfl⟩ : ∃ d, r = o + d := ⟨r - o, by omega⟩
  obtain ⟨m, rfl⟩ := hq
  have hsize : 2 ^ (o + d) * m = 2 ^ o * (2 ^ d * m) := by rw [pow_add, mul_assoc]
  have hend : 2 ^ o * (2 ^ d * m) + 2 ^ (o + d) = 2 ^ o * (2 ^ d * m + 2 ^ d) := by
    ring
  unfold Apart
  rw [hsize, hend]
  -- everything is a multiple of the smaller size, so compare the multipliers
  have hmono : ∀ a b : Nat, a ≤ b → 2 ^ o * a ≤ 2 ^ o * b := fun a b => Nat.mul_le_mul_left _
  rcases lt_or_ge k (2 ^ d * m) with hlt | hge
  · exact Or.inr (Or.inl (hmono _ _ hlt))
  · rcases lt_or_ge k (2 ^ d * m + 2 ^ d) with hlt | hge'
    · exact Or.inl ⟨hmono _ _ hge, hmono _ _ hlt⟩
    · exact Or.inr (Or.inr (hmono _ _ hge'))

/-- An aligned block that contains one half of an aligned pair is that half or
contains the pair. -/
lemma eq_half_or_inside {h s t : Nat} (hp : 2 ^ (o + 1) ∣ p) (hs : 2 ^ t ∣ s)
    (hhalf : h = p ∨ h = p + 2 ^ o) (hlow : s ≤ h) (hhigh : h + 2 ^ o ≤ s + 2 ^ t) :
    (s = h ∧ t = o) ∨ (s ≤ p ∧ p + 2 ^ (o + 1) ≤ s + 2 ^ t) := by
  rcases lt_or_ge o t with hlt | hge
  · right
    rcases inside_or_apart hp hs hlt with hin | hapart
    · exact hin
    · have hcover : Covers p (o + 1) h := ⟨by omega, by omega⟩
      exact absurd ⟨hlow, by omega⟩ (hapart.not_covers hcover)
  · left
    have hpow : 2 ^ t ≤ 2 ^ o := Nat.pow_le_pow_right (by omega) hge
    have heq : 2 ^ t = 2 ^ o := by omega
    exact ⟨by omega, Nat.pow_right_injective (le_refl 2) heq⟩

lemma lower_xor (hp : 2 ^ (o + 1) ∣ p) : p ^^^ 2 ^ o = p + 2 ^ o := by
  obtain ⟨k, rfl⟩ := hp
  exact even_xor k o

/-! ## Canonical families -/

abbrev Family := Nat → Nat → Prop

def Family.Cover (family : Family) (unit : Nat) : Prop :=
  ∃ p o, family p o ∧ Covers p o unit

def Family.Fills (family : Family) (p o : Nat) : Prop :=
  ∀ unit, Covers p o unit → family.Cover unit

/-- Disjoint aligned blocks below `top` among which no two are buddies, except
at the last order. -/
structure Family.Canonical (top : Nat) (family : Family) : Prop where
  bounded : ∀ p o, family p o → o < top
  aligned : ∀ p o, family p o → 2 ^ o ∣ p
  apart : ∀ p o q r, family p o → family q r → (p, o) ≠ (q, r) → Apart p o q r
  coalesced : ∀ p o, o + 1 < top → family p o → ¬ family (p ^^^ 2 ^ o) o

namespace Family.Canonical

variable {top : Nat} {family other : Family}

variable (hcanon : family.Canonical top)

include hcanon

lemma eq_of_covers {p o q r unit : Nat} (hleft : family p o) (hright : family q r)
    (hcover : Covers p o unit) (hcover' : Covers q r unit) : (p, o) = (q, r) := by
  by_contra hne
  exact (hcanon.apart p o q r hleft hright hne).not_covers hcover hcover'

/-- An aligned block that is filled lies inside a single block of the family:
two halves that are not inside one block would be listed buddies. -/
lemma inside_of_fills {o : Nat} (ho : o < top) :
    ∀ p, 2 ^ o ∣ p → family.Fills p o →
      ∃ q r, family q r ∧ q ≤ p ∧ p + 2 ^ o ≤ q + 2 ^ r := by
  induction o with
  | zero =>
    intro p _ hfills
    obtain ⟨q, r, hmem, hlow, hhigh⟩ := hfills p (Covers.start p 0)
    exact ⟨q, r, hmem, hlow, by omega⟩
  | succ o ih =>
    intro p haligned hfills
    have hdvd : 2 ^ o ∣ p := (pow_dvd_pow 2 (by omega)).trans haligned
    have hfillsLow : family.Fills p o := fun unit hunit =>
      hfills unit ((covers_succ_iff p o unit).mpr (Or.inl hunit))
    have hfillsHigh : family.Fills (p + 2 ^ o) o := fun unit hunit =>
      hfills unit ((covers_succ_iff p o unit).mpr (Or.inr hunit))
    have hdvdHigh : 2 ^ o ∣ p + 2 ^ o := (Nat.dvd_add_right hdvd).mpr (dvd_refl _)
    obtain ⟨q, r, hmem, hlow, hhigh⟩ := ih (by omega) p hdvd hfillsLow
    obtain ⟨q', r', hmem', hlow', hhigh'⟩ := ih (by omega) (p + 2 ^ o) hdvdHigh hfillsHigh
    rcases eq_half_or_inside haligned (hcanon.aligned q r hmem) (Or.inl rfl) hlow hhigh with
      ⟨rfl, rfl⟩ | hin
    · rcases eq_half_or_inside haligned (hcanon.aligned q' r' hmem') (Or.inr rfl)
        hlow' hhigh' with ⟨rfl, rfl⟩ | hin
      · rw [← lower_xor haligned] at hmem'
        exact absurd hmem' (hcanon.coalesced q r' (by omega) hmem)
      · exact ⟨q', r', hmem', hin⟩
    · exact ⟨q, r, hmem, hin⟩

/-- The blocks of a canonical family are the maximal aligned blocks it fills. -/
lemma mem_iff (p o : Nat) :
    family p o ↔ o < top ∧ 2 ^ o ∣ p ∧ family.Fills p o ∧
      ∀ q r, r < top → 2 ^ r ∣ q → family.Fills q r →
        q ≤ p → p + 2 ^ o ≤ q + 2 ^ r → q = p ∧ r = o := by
  constructor
  · intro hmem
    refine ⟨hcanon.bounded p o hmem, hcanon.aligned p o hmem,
      fun unit hunit => ⟨p, o, hmem, hunit⟩, ?_⟩
    intro q r hr hq hfills hlow hhigh
    obtain ⟨s, t, hst, hs, ht⟩ := hcanon.inside_of_fills hr q hq hfills
    have hpair := hcanon.eq_of_covers hmem hst (Covers.start p o)
      ⟨by omega, by have := Nat.two_pow_pos o; omega⟩
    obtain ⟨rfl, rfl⟩ := Prod.mk.inj hpair
    have hpow : 2 ^ r = 2 ^ o := by omega
    exact ⟨by omega, Nat.pow_right_injective (le_refl 2) hpow⟩
  · rintro ⟨ho, hp, hfills, hmax⟩
    obtain ⟨s, t, hst, hs, ht⟩ := hcanon.inside_of_fills ho p hp hfills
    obtain ⟨rfl, rfl⟩ := hmax s t (hcanon.bounded s t hst) (hcanon.aligned s t hst)
      (fun unit hunit => ⟨s, t, hst, hunit⟩) hs ht
    exact hst

/-- Two canonical families that cover the same units are the same family. -/
lemma unique (hother : other.Canonical top)
    (hcover : ∀ unit, family.Cover unit ↔ other.Cover unit) (p o : Nat) :
    family p o ↔ other p o := by
  have hfills : ∀ q r, family.Fills q r ↔ other.Fills q r := fun q r =>
    forall₂_congr fun unit _ => hcover unit
  rw [hcanon.mem_iff, hother.mem_iff]
  simp only [hfills]

end Family.Canonical

end R0Kernel.Dyadic
