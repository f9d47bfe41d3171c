import R0Kernel.Net.IpFragment.Model

/-!
# Integrity of reassembly

The fragments of a queue cover disjoint ranges in ascending order, and each is a piece of a packet
that came in, at the place the packet gives it. One step of `ip_frag_queue` keeps this whatever the
allocations do. The two counters then tell when the ranges leave no gap.
-/

namespace R0Kernel.IpFragment

open Extents List Option SkBuff Prod

namespace Buffer

variable {b b' : Buffer} {ok : Bool} {n : Nat}

lemma flatten_eat (n : Nat) (l : List (List UInt8)) : (eat n l).flatten = l.flatten.drop n := by
  induction l generalizing n with
  | nil => simp [eat]
  | cons list rest ih =>
    simp only [eat]
    split_ifs with hzero hwhole
    · simp [hzero]
    · rw [ih, flatten_cons, drop_append, drop_of_length_le hwhole, nil_append]
    · rw [flatten_cons, flatten_cons, drop_append_of_le_length (by omega)]

lemma flatten_keep (n : Nat) (l : List (List UInt8)) : (keep n l).flatten = l.flatten.take n := by
  induction l generalizing n with
  | nil => simp [keep]
  | cons frag rest ih =>
    simp only [keep]
    split_ifs with hwhole
    · have hfrag : frag.take n = frag := take_of_length_le hwhole.le
      rw [flatten_cons, ih, flatten_cons, take_append, hfrag]
    · have hle : n ≤ frag.length := by omega
      simp [take_append_of_le_length hle]

lemma pskbPull_spec (h : b.pskbPull ok n = some b') : n ≤ b.len ∧ b'.bytes = b.bytes.drop n := by
  simp only [pskbPull] at h
  split_ifs at h with hlen
  obtain rfl := some.inj h
  refine ⟨by omega, ?_⟩
  simp only [bytes]
  rw [flatten_eat, drop_append]

lemma pskbTrim_spec (h : b.pskbTrim ok n = some b') : b'.bytes = b.bytes.take n := by
  simp only [pskbTrim] at h
  split_ifs at h with hlen hok hown
  · obtain rfl := some.inj h
    exact (take_of_length_le hlen).symm
  · obtain rfl := some.inj h
    simp [bytes, take_append_of_le_length hown]
  · obtain rfl := some.inj h
    have htake : b.own.take n = b.own := take_of_length_le (by omega)
    simp only [bytes]
    rw [flatten_keep, take_append, htake]

end Buffer

variable {skb skb' : SkBuff} {ok : Bool} {n : Nat} {f : SkBuff} {r : Packet} {env : Env}

/-- A pull moves bytes from behind `data` to in front of it. -/
lemma SkBuff.pull_spec (h : skb.pull ok n = some skb') :
    n ≤ skb.len ∧ skb'.ihl = skb.ihl ∧ skb'.pulled ++ skb'.bytes = skb.pulled ++ skb.bytes ∧
      skb'.pulled.length = skb.pulled.length + n ∧ skb'.len = skb.len - n := by
  simp only [pull] at h
  split at h
  · cases h
  · next buf hbuf =>
    obtain rfl := some.inj h
    obtain ⟨hn, hbytes⟩ := Buffer.pskbPull_spec hbuf
    refine ⟨hn, rfl, ?_, ?_, ?_⟩
    · simp only [bytes, hbytes, append_assoc, take_append_drop]
    · have hle : n ≤ skb.bytes.length := hn
      simp [min_eq_left hle]
    · simp [len, Buffer.len, hbytes]

lemma SkBuff.pull_offset (offset : Nat) (h : skb.pull ok n = some skb') :
    ({ skb with offset } : SkBuff).pull ok n = some { skb' with offset } := by
  simp only [pull] at h ⊢
  split at h
  · cases h
  · obtain rfl := some.inj h
    rfl

/-- What remains of packet `r` in `f`, a part of its payload at the offset that `r` gives it. -/
structure Piece (r : Packet) (f : SkBuff) : Prop where
  ihl : f.ihl = r.ihl
  part : f.pulled ++ f.bytes <+: r.buf.bytes
  place : f.pulled.length + r.offset = r.hdrlen + f.offset
  behind : r.offset ≤ f.offset

namespace Piece

variable {r : Packet} {f f' : SkBuff} {ok : Bool} {n : Nat}

/-- Pulling bytes off the front moves the piece on by as many. -/
lemma pull (h : Piece r f) (hpull : f.pull ok n = some f') :
    Piece r { f' with offset := f.offset + n } := by
  obtain ⟨-, hihl, hsame, hpulled, -⟩ := pull_spec hpull
  refine ⟨hihl.trans h.ihl, ?_, ?_, h.behind.trans (Nat.le_add_right _ _)⟩
  · change f'.pulled ++ f'.bytes <+: r.buf.bytes
    rw [hsame]
    exact h.part
  · have hplace := h.place
    change f'.pulled.length + r.offset = r.hdrlen + (f.offset + n)
    omega

lemma carries (h : Piece r f) {i : Nat} {b : UInt8} (hi : f.offset ≤ i)
    (hb : f.bytes[i - f.offset]? = some b) : r.Carries i b := by
  have hplace := h.place
  have hbehind := h.behind
  refine ⟨hbehind.trans hi, ?_⟩
  obtain ⟨tail, htail⟩ := h.part
  have hlt : i - f.offset < f.bytes.length := (List.getElem?_eq_some_iff.mp hb).1
  have hindex : r.hdrlen + (i - r.offset) = f.pulled.length + (i - f.offset) := by omega
  rw [← htail, hindex, append_assoc, getElem?_append_right (Nat.le_add_right _ _),
    Nat.add_sub_cancel_left, getElem?_append_left hlt]
  exact hb

/-- A piece that begins the datagram is all of the payload's front. -/
lemma pulled_length (h : Piece r f) (hzero : f.offset = 0) : f.pulled.length = f.hdrlen := by
  have hplace := h.place
  have hbehind := h.behind
  have hhdr : f.hdrlen = r.hdrlen := by simp only [hdrlen, Packet.hdrlen, h.ihl]
  omega

end Piece

/-- `f'` is `f`, or what is left of it once its head has been pulled off. -/
structure Beheaded (f f' : SkBuff) : Prop where
  piece : ∀ r, Piece r f → Piece r f'
  offset : f.offset ≤ f'.offset
  stop : f'.stop = f.stop
  nonempty : f'.offset < f'.stop

lemma Beheaded.refl (h : f.offset < f.stop) : Beheaded f f :=
  ⟨fun _ h => h, le_rfl, rfl, h⟩

lemma Beheaded.of_pull {s : SkBuff} (h : f.pull ok n = some s) (hn : n < f.len) :
    Beheaded f { s with offset := f.offset + n } := by
  obtain ⟨-, -, -, -, hlen⟩ := pull_spec h
  have hlen' : ({ s with offset := f.offset + n } : SkBuff).len = f.len - n := hlen
  refine ⟨fun r hr => hr.pull h, Nat.le_add_right _ _, ?_, ?_⟩
  · simp only [SkBuff.stop, hlen']
    omega
  · simp only [SkBuff.stop, hlen']
    omega

/-- What is left of a list of fragments whose first ones have been dropped and whose next one may
have lost its head. -/
def Remains (l l' : List SkBuff) : Prop :=
  l' = [] ∨ ∃ skipped f f' rest, l = skipped ++ f :: rest ∧ l' = f' :: rest ∧ Beheaded f f'

namespace Remains

variable {before l l' : List SkBuff} {f g : SkBuff}

lemma cons (h : Remains l l') : Remains (f :: l) l' := by
  rcases h with h | ⟨skipped, g, g', rest, rfl, rfl, hg⟩
  · exact .inl h
  · exact .inr ⟨f :: skipped, g, g', rest, rfl, rfl, hg⟩

lemma ordered (h : Remains l l') (hl : Ordered SkBuff.offset SkBuff.stop (before ++ l)) :
    Ordered SkBuff.offset SkBuff.stop (before ++ l') := by
  rcases h with rfl | ⟨skipped, g, g', rest, rfl, rfl, hg⟩
  · exact hl.sublist (by simp)
  · have hkept : Ordered SkBuff.offset SkBuff.stop (before ++ g :: rest) := hl.sublist (by simp)
    exact hkept.narrow hg.offset hg.nonempty hg.stop.le

lemma mem (h : Remains l l') (hl : ∀ f ∈ l, f.offset < f.stop) (hg : g ∈ l') :
    ∃ f ∈ l, Beheaded f g := by
  rcases h with rfl | ⟨skipped, f, f', rest, rfl, rfl, hf⟩
  · cases hg
  · rcases mem_cons.mp hg with rfl | hg
    · exact ⟨f, by simp, hf⟩
    · have hmem : g ∈ skipped ++ f :: rest := by simp [hg]
      exact ⟨g, hmem, .refl (hl g hmem)⟩

end Remains

def total (l : List SkBuff) : Nat := (l.map len).sum

@[simp] lemma total_nil : total [] = 0 := rfl

@[simp] lemma total_cons (f : SkBuff) (l : List SkBuff) : total (f :: l) = f.len + total l := rfl

@[simp] lemma total_append (l l' : List SkBuff) : total (l ++ l') = total l + total l' := by
  simp [total]

/-- The loop over the overlapped fragments keeps `meat` in step with the list, also where it breaks
off for want of memory. -/
lemma eatNext_spec (ok : Bool) (end_ : Int) (l : List SkBuff) (meat : Int)
    (hl : ∀ f ∈ l, f.offset < f.stop) :
    Remains l (eatNext ok end_ l meat).1 ∧
      (eatNext ok end_ l meat).2.1 - total (eatNext ok end_ l meat).1 = meat - total l := by
  induction l generalizing meat with
  | nil => exact ⟨.inl rfl, rfl⟩
  | cons next rest ih =>
    have hkeep : Remains (next :: rest) (next :: rest) :=
      .inr ⟨[], next, next, rest, rfl, rfl, .refl (hl next mem_cons_self)⟩
    simp only [eatNext]
    split_ifs with hover hpart
    · split
      · exact ⟨hkeep, rfl⟩
      · next s hs =>
        have hlt : (end_ - next.offset).toNat < next.len := by omega
        have hbeheaded := Beheaded.of_pull hs hlt
        refine ⟨.inr ⟨[], next, _, rest, rfl, rfl, hbeheaded⟩, ?_⟩
        have hstop := hbeheaded.stop
        simp only [SkBuff.stop] at hstop
        simp only [total_cons]
        omega
    · obtain ⟨hremains, hmeat⟩ := ih (meat - next.len) fun f hf => hl f (mem_cons_of_mem _ hf)
      refine ⟨hremains.cons, ?_⟩
      simp only [total_cons]
      omega
    · exact ⟨hkeep, rfl⟩

/-- Once the loop has come to its end, nothing of what is left lies in front of `end_`. -/
lemma eatNext_clear {end_ : Int} {l : List SkBuff} {meat : Int}
    (hl : Ordered SkBuff.offset SkBuff.stop l) (hend : (eatNext ok end_ l meat).2.2 = true) :
    ∀ g ∈ (eatNext ok end_ l meat).1, end_ ≤ g.offset := by
  induction l generalizing meat with
  | nil => simp [eatNext]
  | cons next rest ih =>
    simp only [eatNext] at hend ⊢
    have hrest : ∀ {a : Int}, a ≤ next.stop → ∀ g ∈ rest, a ≤ (g.offset : Int) := by
      intro a ha g hg
      have hle := hl.hi_le hg
      omega
    split_ifs at hend ⊢ with hover hpart
    · split at hend
      · simp at hend
      · next s hs =>
        intro g hg
        rcases mem_cons.mp hg with rfl | hg
        · simp only
          omega
        · refine hrest ?_ g hg
          simp only [SkBuff.stop]
          omega
    · exact ih hl.of_cons hend
    · intro g hg
      have hle := hl.le_lo hg
      omega

lemma cut_spec (h : cut r n env = some skb) :
    r.hdrlen ≤ r.buf.len ∧ Piece r { skb with offset := r.offset } ∧
      skb.len = min n (r.buf.len - r.hdrlen) := by
  simp only [cut] at h
  split at h
  · cases h
  · next bare hbare =>
    obtain ⟨hle, hihl, hsame, hpulled, hlen⟩ := pull_spec hbare
    split at h
    · cases h
    · next buf hbuf =>
      obtain rfl := some.inj h
      have hbytes := Buffer.pskbTrim_spec hbuf
      refine ⟨hle, ⟨hihl, ?_, ?_, le_rfl⟩, ?_⟩
      · have hwhole : bare.pulled ++ bare.bytes = r.buf.bytes := hsame
        rw [← hwhole]
        simp only [bytes, hbytes]
        exact (prefix_append_right_inj _).mpr <| take_prefix _ _
      · have hpulled' : bare.pulled.length = 0 + r.hdrlen := hpulled
        simp only
        omega
      · have hlen' : bare.buf.bytes.length = r.buf.len - r.hdrlen := hlen
        simp [len, Buffer.len, hbytes, hlen']

/-- Behind the fragment in front of it, the new one still reaches up to its end and is not empty. -/
lemma behindPrev_spec {before : List SkBuff} {offset offset' stop : Nat}
    (hbefore : Ordered SkBuff.offset SkBuff.stop before) (hpiece : Piece r { skb with offset })
    (hstop : offset + skb.len = stop) (hlt : offset < stop)
    (h : behindPrev before skb offset stop env = .ok (skb', offset')) :
    Piece r { skb' with offset := offset' } ∧ offset' + skb'.len = stop ∧ offset' < stop ∧
      ∀ f ∈ before, f.stop ≤ offset' := by
  rcases before.eq_nil_or_concat with rfl | ⟨init, prev, rfl⟩
  · obtain ⟨rfl, rfl⟩ := mk.inj (Except.ok.inj h)
    exact ⟨hpiece, hstop, hlt, by simp⟩
  · rw [concat_eq_append] at *
    have hreach : ∀ {o : Nat}, prev.stop ≤ o → ∀ f ∈ init ++ [prev], f.stop ≤ o := by
      intro o ho f hf
      rcases mem_append.mp hf with hf | hf
      · have hcross := (pairwise_append.mp hbefore.apart).2.2 f hf prev (by simp)
        have hprev := hbefore.nonempty prev (by simp)
        omega
      · rw [mem_singleton.mp hf]
        exact ho
    simp only [behindPrev, getLast?_concat] at h
    split_ifs at h with hover hin
    · split at h
      · cases h
      · next s hs =>
        obtain ⟨rfl, rfl⟩ := mk.inj (Except.ok.inj h)
        obtain ⟨-, -, -, -, hlen⟩ := pull_spec hs
        have hmoved := hpiece.pull (pull_offset offset hs)
        refine ⟨hmoved, by omega, by omega, hreach ?_⟩
        simp only [SkBuff.stop]
        omega
    · obtain ⟨rfl, rfl⟩ := mk.inj (Except.ok.inj h)
      refine ⟨hpiece, hstop, hlt, hreach ?_⟩
      simp only [SkBuff.stop]
      omega

/-- The fragments are in the order of their offsets and cover disjoint ranges below `len`; `meat`
counts their bytes. -/
structure Ipq.WellFormed (q : Ipq) : Prop where
  ordered : Ordered SkBuff.offset SkBuff.stop q.fragments
  within : ∀ f ∈ q.fragments, (f.stop : Int) ≤ q.len
  meat : q.meat = total q.fragments

/-- Besides, every fragment is a piece of a packet that was received. -/
structure Ipq.Sound (received : List Packet) (q : Ipq) : Prop extends q.WellFormed where
  pieces : ∀ f ∈ q.fragments, ∃ r ∈ received, Piece r f

namespace Ipq.Sound

variable {received received' : List Packet} {q q' : Ipq}

lemma empty (hfragments : q.fragments = []) (hmeat : q.meat = 0) : q.Sound received := by
  refine ⟨⟨?_, ?_, ?_⟩, ?_⟩
  · rw [hfragments]
    exact .nil
  · simp [hfragments]
  · simp [hfragments, hmeat]
  · simp [hfragments]

lemma of_same (h : q.Sound received) (hfragments : q'.fragments = q.fragments)
    (hmeat : q'.meat = q.meat) (hlen : q.len ≤ q'.len) : q'.Sound received := by
  refine ⟨⟨?_, ?_, ?_⟩, ?_⟩
  · rw [hfragments]
    exact h.ordered
  · rw [hfragments]
    exact fun f hf => (h.within f hf).trans hlen
  · rw [hfragments, hmeat]
    exact h.meat
  · rw [hfragments]
    exact h.pieces

lemma mono (h : q.Sound received) (hsub : received ⊆ received') : q.Sound received' := by
  refine ⟨h.toWellFormed, fun f hf => ?_⟩
  obtain ⟨r, hr, hpiece⟩ := h.pieces f hf
  exact ⟨r, hsub hr, hpiece⟩

/-- Fragments behind `before` may be dropped or lose their head. -/
lemma remains {before next next' : List SkBuff} {meat : Int} (h : q.Sound received)
    (hsplit : q.fragments = before ++ next) (hremains : Remains next next')
    (hmeat : meat - total next' = q.meat - total next) :
    ({ q with fragments := before ++ next', meat } : Ipq).Sound received := by
  have hordered : Ordered SkBuff.offset SkBuff.stop (before ++ next) := hsplit ▸ h.ordered
  have hnext : ∀ f ∈ next, f.offset < f.stop :=
    fun f hf => hordered.nonempty f (mem_append_right _ hf)
  refine ⟨⟨hremains.ordered hordered, ?_, ?_⟩, ?_⟩
  · intro f hf
    rcases mem_append.mp hf with hf | hf
    · exact h.within f (hsplit ▸ mem_append_left _ hf)
    · obtain ⟨g, hg, hbeheaded⟩ := hremains.mem hnext hf
      rw [hbeheaded.stop]
      exact h.within g (hsplit ▸ mem_append_right _ hg)
  · have htotal := h.meat
    rw [hsplit, total_append] at htotal
    simp only [total_append]
    omega
  · intro f hf
    rcases mem_append.mp hf with hf | hf
    · exact h.pieces f (hsplit ▸ mem_append_left _ hf)
    · obtain ⟨g, hg, hbeheaded⟩ := hremains.mem hnext hf
      obtain ⟨r, hr, hpiece⟩ := h.pieces g (hsplit ▸ mem_append_right _ hg)
      exact ⟨r, hr, hbeheaded.piece r hpiece⟩

/-- A piece of a received packet that fits between two fragments can be put there. -/
lemma insert {before next : List SkBuff} (f : SkBuff) (firstIn : Bool) (h : q.Sound received)
    (hsplit : q.fragments = before ++ next) (hf : f.offset < f.stop) (hlen : (f.stop : Int) ≤ q.len)
    (hbefore : ∀ g ∈ before, g.stop ≤ f.offset) (hnext : ∀ g ∈ next, f.stop ≤ g.offset)
    (hpiece : ∃ r ∈ received, Piece r f) :
    ({ q with fragments := before ++ f :: next, meat := q.meat + f.len, firstIn } : Ipq).Sound
      received := by
  have hordered : Ordered SkBuff.offset SkBuff.stop (before ++ next) := hsplit ▸ h.ordered
  have hmem : ∀ g, g ∈ before ++ f :: next → g = f ∨ g ∈ q.fragments := by
    intro g hg
    rw [hsplit]
    simp only [mem_append, mem_cons] at hg ⊢
    tauto
  refine ⟨⟨hordered.insert hf hbefore hnext, ?_, ?_⟩, ?_⟩
  · intro g hg
    rcases hmem g hg with rfl | hg
    · exact hlen
    · exact h.within g hg
  · have htotal := h.meat
    rw [hsplit, total_append] at htotal
    simp only [total_append, total_cons]
    omega
  · intro g hg
    rcases hmem g hg with rfl | hg
    · exact hpiece
    · exact h.pieces g hg

end Ipq.Sound

section Step

variable {received : List Packet} {q q' : Ipq} {r : Packet} {env : Env} {ok : Bool}

lemma accept_complete (h : q.complete = true) : accept q r env = (q, some .enoent) := by
  simp only [accept, h, if_true]

lemma accept_sound (h : q.Sound received) : (accept q r env).1.Sound received := by
  simp only [accept]
  split_ifs with hcomplete hflag
  · exact h
  · exact h
  · have hfar : (ipFragTooFar q env).1.Sound received := by
      simp only [ipFragTooFar]
      split
      · exact h
      · split_ifs
        · exact h
        · exact h.of_same rfl rfl le_rfl
    cases hcase : ipFragTooFar q env with
    | mk near far =>
      rw [hcase] at hfar
      cases far with
      | false => exact hfar
      | true =>
        simp only [ipFragReinit]
        by_cases hpending : env.pending = true
        · rw [if_pos hpending]
          exact .empty rfl rfl
        · rw [if_neg hpending]
          exact hfar.of_same rfl rfl le_rfl

/-- The length never shrinks, and it reaches up to the end of the fragment. -/
lemma setEnd_spec {more : Bool} {end_ stop : Int} (h : setEnd q more end_ = some (q', stop)) :
    q'.fragments = q.fragments ∧ q'.meat = q.meat ∧ q.len ≤ q'.len ∧ stop ≤ q'.len ∧
      (stop = end_ ∨ stop = end_ - end_ % 8) := by
  simp only [setEnd] at h
  split_ifs at h with hmore hlong hlast hbad
  · obtain ⟨rfl, rfl⟩ := mk.inj (some.inj h)
    exact ⟨rfl, rfl, hlong.le, le_rfl, .inr rfl⟩
  · obtain ⟨rfl, rfl⟩ := mk.inj (some.inj h)
    exact ⟨rfl, rfl, le_rfl, by omega, .inr rfl⟩
  · obtain ⟨rfl, rfl⟩ := mk.inj (some.inj h)
    exact ⟨rfl, rfl, by simp only; omega, le_rfl, .inl rfl⟩

/-- One fragment, whatever it is and whatever the allocations do, leaves the queue sound. -/
lemma ipFragEnqueue_sound (r : Packet) (env : Env) (h : q.Sound received) :
    (ipFragEnqueue q r env).1.Sound (received ++ [r]) := by
  have haccept : (accept q r env).1.Sound (received ++ [r]) :=
    (accept_sound h).mono (subset_append_left received [r])
  simp only [ipFragEnqueue]
  split
  · next q₁ e hq₁ =>
    rw [hq₁] at haccept
    exact haccept
  next q₁ hq₁ =>
  rw [hq₁] at haccept
  split
  · exact haccept
  next q₂ end_ hend =>
  obtain ⟨hfragments, hmeat, hgrown, hlen, hround⟩ := setEnd_spec hend
  have hsound := haccept.of_same hfragments hmeat hgrown
  split_ifs with hzero
  · exact hsound
  split
  · exact hsound
  next buf hcut =>
  obtain ⟨hhdr, hpiece, hbuf⟩ := cut_spec hcut
  -- the offset is a multiple of eight, so that rounding down does not take the end in front of it
  have haligned : r.offset % 8 = 0 := Nat.mul_mod_left _ _
  obtain ⟨stop, rfl⟩ : ∃ stop : Nat, end_ = stop := ⟨end_.toNat, by omega⟩
  have hlt : r.offset < stop := by omega
  have hstop : r.offset + buf.len = stop := by omega
  have hsplit : q₂.fragments = (q₂.fragments.takeWhile fun next => next.offset < r.offset) ++
      q₂.fragments.dropWhile fun next => next.offset < r.offset :=
    takeWhile_append_dropWhile.symm
  split
  · exact hsound
  next buf' offset hbehind =>
  have hordered : Ordered SkBuff.offset SkBuff.stop _ := hsplit ▸ hsound.ordered
  obtain ⟨hpiece', hstop', hlt', hbefore⟩ := behindPrev_spec
    (hordered.sublist (sublist_append_left _ _)) hpiece hstop hlt hbehind
  have hnext := hordered.sublist (sublist_append_right _ _)
  obtain ⟨hremains, hcount⟩ := eatNext_spec env.pullNext stop _ q₂.meat hnext.nonempty
  split
  · next next' meat heat =>
    rw [heat] at hremains hcount
    exact hsound.remains hsplit hremains hcount
  · next next' meat heat =>
    have hclear : ∀ g ∈ next', (stop : Int) ≤ g.offset := by
      have hall := eatNext_clear hnext (congrArg (fun result => result.2.2) heat)
      rwa [heat] at hall
    rw [heat] at hremains hcount
    have heaten := hsound.remains hsplit hremains hcount
    have hstop'' : ({ buf' with offset } : SkBuff).stop = stop := hstop'
    have hbehind' : ∀ g ∈ next', ({ buf' with offset } : SkBuff).stop ≤ g.offset := by
      intro g hg
      have hle := hclear g hg
      omega
    have hinserted := heaten.insert { buf' with offset } (q₂.firstIn || offset = 0) rfl
      (hstop''.symm ▸ hlt') (hstop''.symm ▸ hlen) hbefore hbehind' ⟨r, by simp, hpiece'⟩
    split_ifs
    · exact hinserted
    · exact hinserted

/-- Reassembly is called for with the bytes counted up to the length of the datagram. -/
lemma ipFragEnqueue_ok {prev : List SkBuff} (h : ipFragEnqueue q r env = (q', .ok prev)) :
    q.complete = false ∧ q'.meat = q'.len ∧ q'.fragments ≠ [] := by
  simp only [ipFragEnqueue] at h
  split at h
  · simp at h
  next q₁ hq₁ =>
  have hopen : q.complete = false := by
    by_contra hcomplete
    rw [accept_complete (by simpa using hcomplete)] at hq₁
    simp at hq₁
  refine ⟨hopen, ?_⟩
  split at h
  · simp at h
  split_ifs at h
  · simp at h
  split at h
  · simp at h
  split at h
  · simp at h
  split at h
  · simp at h
  split_ifs at h with hdone
  · obtain ⟨rfl, -⟩ := mk.inj h
    exact ⟨hdone.2.2, by simp⟩
  · simp at h

/-- The counters agree only if the fragments leave no gap. -/
lemma Ipq.WellFormed.tiles (h : q.WellFormed) (hmeat : q.meat = q.len) :
    ∃ n : Nat, q.len = n ∧ Tiles SkBuff.offset SkBuff.stop 0 q.fragments n := by
  have htotal := h.meat
  refine ⟨total q.fragments, by omega, ?_⟩
  apply h.ordered.tiles (Nat.zero_le _) (fun f _ => Nat.zero_le _)
  · intro f hf
    have hle := h.within f hf
    omega
  · simp [total, SkBuff.stop]

lemma splitHead_spec {head head' : SkBuff} {rest rest' : List SkBuff}
    (h : splitHead head rest ok = some (head', rest')) :
    head'.ihl = head.ihl ∧ head'.pulled = head.pulled ∧
      head'.buf.own ++ rest'.flatMap bytes = (head :: rest).flatMap bytes ∧
      head'.len + total rest' = total (head :: rest) := by
  simp only [splitHead] at h
  split_ifs at h with hnone hok
  · obtain ⟨rfl, rfl⟩ := mk.inj (some.inj h)
    simp [bytes, Buffer.bytes, hnone]
  · obtain ⟨rfl, rfl⟩ := mk.inj (some.inj h)
    simp [bytes, Buffer.bytes, len, Buffer.len, add_assoc]

lemma foldl_len (l : List SkBuff) (n : Nat) :
    l.foldl (fun len fp => len + fp.len) n = n + total l := by
  induction l generalizing n with
  | nil => rfl
  | cons f l ih => rw [foldl_cons, ih, total_cons, add_assoc]

lemma ipFragReasm_cases (q : Ipq) (prev : List SkBuff) (env : Env) :
    (∃ e, ipFragReasm q prev env = (ipqKill q, .error e)) ∨
    (q.fragments = [] ∧ ipFragReasm q prev env = (ipqKill q, .oops)) ∨
    ∃ head rest head' rest', q.fragments = head :: rest ∧ (head.hdrlen : Int) + q.len ≤ 65535 ∧
      splitHead head rest env.alloc = some (head', rest') ∧
      ipFragReasm q prev env = ({ ipqKill q with fragments := [] },
        .datagram (glue head' rest' (UInt16.ofNat (head.hdrlen + q.len : Int).toNat))) := by
  simp only [ipFragReasm]
  by_cases hclone : prev ≠ [] ∧ env.clone = false
  · rw [if_pos hclone]
    exact .inl ⟨_, rfl⟩
  rw [if_neg hclone]
  cases hfragments : (ipqKill q).fragments with
  | nil => exact .inr (.inl ⟨hfragments, rfl⟩)
  | cons head rest =>
    simp only
    split_ifs with hbig hexpand
    · exact .inl ⟨_, rfl⟩
    · exact .inl ⟨_, rfl⟩
    · cases hsplit : splitHead head rest env.alloc with
      | none => exact .inl ⟨_, rfl⟩
      | some parts =>
        exact .inr (.inr ⟨head, rest, parts.1, parts.2, hfragments, not_lt.mp hbig, hsplit, rfl⟩)

/-- Reassembly always finds a head. -/
lemma ipFragQueue_ne_oops (q : Ipq) (r : Packet) (env : Env) :
    (ipFragQueue q r env).2 ≠ .oops := by
  simp only [ipFragQueue]
  cases hstep : ipFragEnqueue q r env with
  | mk q' result =>
    cases result with
    | error e => simp
    | ok prev =>
      rcases ipFragReasm_cases q' prev env with
        ⟨e, hcase⟩ | ⟨hnone, -⟩ | ⟨_, _, _, _, -, -, -, hcase⟩
      · simp [hcase]
      · exact absurd hnone (ipFragEnqueue_ok hstep).2.2
      · simp [hcase]

/-- What a datagram that is delivered must be: `n` bytes of payload behind a header, each of them
carried for its place by a packet that was received. -/
structure Datagram.Faithful (received : List Packet) (n : Nat) (d : Datagram) : Prop where
  payload_length : d.payload.length = n
  len : d.len = d.skb.hdrlen + n
  totLen : d.totLen.toNat = d.len
  short : d.len ≤ 65535
  carried : ∀ i b, d.payload[i]? = some b → ∃ r ∈ received, r.Carries i b

lemma glue_faithful {head head' : SkBuff} {rest rest' : List SkBuff} {n : Nat}
    (hpieces : ∀ f ∈ head :: rest, ∃ r ∈ received, Piece r f)
    (htiles : Tiles SkBuff.offset SkBuff.stop 0 (head :: rest) n)
    (hshort : head.hdrlen + n ≤ 65535) (hsplit : splitHead head rest ok = some (head', rest')) :
    (glue head' rest' (UInt16.ofNat (head.hdrlen + n))).Faithful received n := by
  obtain ⟨hihl, hpulled, hbytes, htotal⟩ := splitHead_spec hsplit
  have hbody : ∀ f ∈ head :: rest, f.offset + f.bytes.length = f.stop := fun f _ => rfl
  have hlength := htiles.length_flatMap hbody
  have htotal' : total (head :: rest) = n := by
    rw [zero_add, length_flatMap] at hlength
    exact hlength
  obtain ⟨r, -, hr⟩ := hpieces head mem_cons_self
  -- the fragment at the start of the datagram has lost nothing but its header
  have hhdr : head'.pulled.length = head'.hdrlen := by
    rw [hpulled, hr.pulled_length htiles.1]
    simp only [hdrlen, hihl]
  have hhdr' : head'.hdrlen = head.hdrlen := by simp only [hdrlen, hihl]
  have hpayload : (glue head' rest' (UInt16.ofNat (head.hdrlen + n))).payload =
      (head :: rest).flatMap bytes := by
    rw [← hbytes]
    change ((head'.pulled ++ head'.buf.own) ++ (rest'.map bytes).flatten).drop
      head'.hdrlen = _
    rw [append_assoc, ← hhdr, drop_left, flatMap_def]
  have hlen : (glue head' rest' (UInt16.ofNat (head.hdrlen + n))).len = head.hdrlen + n := by
    simp only [glue]
    rw [foldl_len]
    omega
  refine ⟨?_, hlen.trans (by rw [← hhdr']; rfl), ?_, hlen ▸ hshort, ?_⟩
  · rw [hpayload]
    omega
  · rw [hlen]
    exact UInt16.toNat_ofNat_of_lt' (lt_of_le_of_lt hshort (by decide))
  · intro i b hb
    rw [hpayload] at hb
    obtain ⟨f, hf, hle, hval⟩ := htiles.of_getElem? hbody hb
    rw [zero_add] at hle hval
    obtain ⟨r, hr, hpiece⟩ := hpieces f hf
    exact ⟨r, hr, hpiece.carries hle hval⟩

/-- What a step has done that delivers `d`: the queue is empty and closed, with the counters of the
datagram. -/
structure Delivered (received : List Packet) (q : Ipq) (d : Datagram) : Prop where
  fragments : q.fragments = []
  complete : q.complete = true
  faithful : ∃ n : Nat, q.len = n ∧ q.meat = n ∧ d.Faithful received n

/-- A step that does not deliver leaves the queue sound. -/
lemma ipFragQueue_step (r : Packet) (env : Env) (h : q.Sound received) :
    ((ipFragQueue q r env).1.Sound (received ++ [r]) ∧
      ∀ d, (ipFragQueue q r env).2 ≠ .datagram d) ∨
    ∃ d, (ipFragQueue q r env).2 = .datagram d ∧
      Delivered (received ++ [r]) (ipFragQueue q r env).1 d := by
  have hsound := ipFragEnqueue_sound r env h
  simp only [ipFragQueue]
  cases hstep : ipFragEnqueue q r env with
  | mk q' result =>
    rw [hstep] at hsound
    cases result with
    | error e => exact .inl ⟨hsound, by simp⟩
    | ok prev =>
      simp only at hsound ⊢
      have hmeat := (ipFragEnqueue_ok hstep).2.1
      obtain ⟨n, hn, htiles⟩ := hsound.tiles hmeat
      have hkilled : (ipqKill q').Sound (received ++ [r]) := hsound.of_same rfl rfl le_rfl
      rcases ipFragReasm_cases q' prev env with ⟨e, hcase⟩ | ⟨-, hcase⟩ |
        ⟨head, rest, head', rest', hfragments, hshort, hsplit, hcase⟩
      · left
        rw [hcase]
        exact ⟨hkilled, by simp⟩
      · left
        rw [hcase]
        exact ⟨hkilled, by simp⟩
      · right
        have hnat : (head.hdrlen + q'.len : Int).toNat = head.hdrlen + n := by
          rw [hn]
          rfl
        have hfaithful := glue_faithful (hfragments ▸ hsound.pieces) (hfragments ▸ htiles)
          (by omega) hsplit
        rw [hcase, hnat]
        exact ⟨_, rfl, rfl, rfl, n, hn, hmeat.trans hn, hfaithful⟩

lemma ipFragQueue_complete (h : q.complete = true) :
    ipFragQueue q r env = (q, .error .enoent) := by
  simp only [ipFragQueue, ipFragEnqueue, accept_complete h]

end Step

def packets (calls : List Call) : List Packet := calls.map Call.skb

lemma run_concat (q : Ipq) (calls : List Call) (last : Call) :
    run q (calls ++ [last]) =
      ((ipFragQueue (run q calls).1 last.skb last.env).1,
        (run q calls).2 ++ [(ipFragQueue (run q calls).1 last.skb last.env).2]) := by
  induction calls generalizing q with
  | nil => rfl
  | cons call calls ih =>
    rw [cons_append, run, ih]
    rfl

/-- Over a whole run, the queue is sound until it has delivered. -/
lemma run_sound (calls : List Call) :
    (run .new calls).1.Sound (packets calls) ∨
    ((run .new calls).1.complete = true ∧ ∃ d, .datagram d ∈ (run .new calls).2) := by
  induction calls using List.reverseRecOn with
  | nil => exact .inl (.empty rfl rfl)
  | append_singleton calls last ih =>
    rw [run_concat, packets, map_append]
    rcases ih with hsound | ⟨hcomplete, d, hd⟩
    · rcases ipFragQueue_step last.skb last.env hsound with ⟨hsound, -⟩ | ⟨d, hd, hdelivered⟩
      · exact .inl hsound
      · exact .inr ⟨hdelivered.complete, d, by simp [hd]⟩
    · right
      rw [ipFragQueue_complete hcomplete]
      exact ⟨hcomplete, d, mem_append_left _ hd⟩

/-- For every sequence of fragments and every outcome of the allocations. Until a datagram has been
delivered, the list is in order and `meat` counts it; reassembly starts only on a list without a
gap; a datagram that is delivered is faithful to the packets, and leaves an empty list and both
counters at its length. -/
theorem ip_frag_queue_integrity (calls : List Call) (last : Call) :
    ((∀ d, .datagram d ∉ (run .new (calls ++ [last])).2) →
      (run .new (calls ++ [last])).1.WellFormed) ∧
    (∀ q prev, ipFragEnqueue (run .new calls).1 last.skb last.env = (q, .ok prev) →
      ∃ n : Nat, q.len = n ∧ Tiles SkBuff.offset SkBuff.stop 0 q.fragments n) ∧
    ∀ d, (ipFragQueue (run .new calls).1 last.skb last.env).2 = .datagram d →
      (run .new (calls ++ [last])).1.fragments = [] ∧
      ∃ n : Nat, (run .new (calls ++ [last])).1.len = n ∧
        (run .new (calls ++ [last])).1.meat = n ∧ d.Faithful (packets (calls ++ [last])) n := by
  refine ⟨?_, ?_, ?_⟩
  · intro hnone
    rcases run_sound (calls ++ [last]) with hsound | ⟨-, d, hd⟩
    · exact hsound.toWellFormed
    · exact absurd hd (hnone d)
  · intro q prev hstart
    obtain ⟨hopen, hmeat, -⟩ := ipFragEnqueue_ok hstart
    rcases run_sound calls with hsound | ⟨hcomplete, -⟩
    · have hsound' := ipFragEnqueue_sound last.skb last.env hsound
      rw [hstart] at hsound'
      exact hsound'.tiles hmeat
    · rw [hopen] at hcomplete
      cases hcomplete
  · intro d hd
    rw [run_concat, packets, map_append]
    rcases run_sound calls with hsound | ⟨hcomplete, -⟩
    · rcases ipFragQueue_step last.skb last.env hsound with ⟨-, hnone⟩ | ⟨d', hd', hdelivered⟩
      · exact absurd hd (hnone d)
      · obtain rfl := Reply.datagram.inj (hd'.symm.trans hd)
        exact ⟨hdelivered.fragments, hdelivered.faithful⟩
    · rw [ipFragQueue_complete hcomplete] at hd
      cases hd

def plain (fragOff : UInt16) (data : List UInt8) (h : 20 + data.length ≤ 65535) : Packet where
  ihl := ⟨5, by decide⟩
  fragOff
  fragComplete := false
  buf := ⟨List.replicate 20 0 ++ data, []⟩
  totLen := by
    simp [Buffer.len, Buffer.bytes]
    omega

/-- Nothing stands in the way of a call. -/
def Env.calm : Env := ⟨none, 64, true, true, true, true, true, true, true, true⟩

def firstCall : Call := ⟨plain 0x2000 [1, 2, 3, 4, 5, 6, 7, 8] (by decide), .calm⟩

def lastCall : Call := ⟨plain 1 [9, 10, 11, 12] (by decide), .calm⟩

/-- Two fragments make a datagram of twelve bytes. -/
theorem ip_frag_queue_integrity_two :
    ∃ d, (ipFragQueue (run .new [firstCall]).1 lastCall.skb lastCall.env).2 = .datagram d ∧
      d.payload = [1, 2, 3, 4, 5, 6, 7, 8, 9, 10, 11, 12] ∧
      d.Faithful (packets [firstCall, lastCall]) 12 := by
  obtain ⟨d, hd, hpayload⟩ :
      ∃ d, (ipFragQueue (run .new [firstCall]).1 lastCall.skb lastCall.env).2 = .datagram d ∧
        d.payload = [1, 2, 3, 4, 5, 6, 7, 8, 9, 10, 11, 12] := ⟨_, rfl, rfl⟩
  refine ⟨d, hd, hpayload, ?_⟩
  obtain ⟨-, n, -, -, hfaithful⟩ := (ip_frag_queue_integrity [firstCall] lastCall).2.2 d hd
  have hn : 12 = n := by simpa [hpayload] using hfaithful.payload_length
  exact hn ▸ hfaithful

/-- After the call that delivers, `meat` is not the sum of an empty list. -/
theorem meat_after_delivery :
    (run .new [firstCall, lastCall]).1.fragments = [] ∧
    (run .new [firstCall, lastCall]).1.meat = 12 ∧
    ¬(run .new [firstCall, lastCall]).1.WellFormed := by
  have hnone : (run .new [firstCall, lastCall]).1.fragments = [] := by decide +kernel
  have hmeat : (run .new [firstCall, lastCall]).1.meat = 12 := by decide +kernel
  refine ⟨hnone, hmeat, fun h => ?_⟩
  have hsum := h.meat
  rw [hmeat, hnone] at hsum
  cases hsum

end R0Kernel.IpFragment
