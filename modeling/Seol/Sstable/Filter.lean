import Seol.Sstable.Bloom

/-!
# Using and storing a bloom filter

Reference: `AddHash`, `ContainsHash`, `MarshalBinary` and `UnmarshalBinary` in `bloom/bloom.go`. A
sequence of insertions sets exactly the bits of the inserted hashes, so its order does not matter. The
binary format is exact: what `UnmarshalBinary` accepts is what `MarshalBinary` writes.
-/

namespace Seol.Bloom

open Common Checked

variable {ε : Type}

namespace Filter

/-! ## Sequences of insertions -/

/-- `AddHash` for one hash after the other, with what the calls return. -/
def addAll : Filter → List UInt64 → Checked ε (List Bool × Filter)
  | f, [] => .ok ([], f)
  | f, hash :: hashes => do
    let (contained, f) ← f.addHash hash
    let (answers, f) ← f.addAll hashes
    return (contained :: answers, f)

theorem SameShape.refl {f : Filter} (h : f.Sound) : SameShape f f := ⟨rfl, rfl, rfl, h⟩

theorem SameShape.trans {f g k : Filter} (h : SameShape f g) (h' : SameShape g k) : SameShape f k :=
  ⟨h'.numBits.trans h.numBits, h'.numHashes.trans h.numHashes, h'.seed.trans h.seed, h'.sound⟩

theorem SameShape.length_marshalBinary {f g : Filter} (h : SameShape f g) (hf : f.Sound) :
    g.marshalBinary.length = f.marshalBinary.length := by
  have hwords := h.sound.length_words
  rw [h.numBits, ← hf.length_words] at hwords
  rw [Filter.length_marshalBinary, Filter.length_marshalBinary]
  omega

theorem SameShape.positions {f g : Filter} (h : SameShape f g) (hash : UInt64) :
    g.positions hash = f.positions hash := by
  rw [Filter.positions, Filter.positions, h.numBits, h.numHashes]

/-- The bits after insertions: those that were set and those of the inserted hashes. -/
theorem addAll_spec {f : Filter} (h : f.Sound) (hashes : List UInt64) :
    ∃ answers g, (f.addAll hashes : Checked ε (List Bool × Filter)) = .ok (answers, g) ∧
      SameShape f g ∧
      ∀ j, g.bit j = (f.bit j || hashes.any fun hash => decide (j ∈ f.positions hash)) := by
  induction hashes generalizing f with
  | nil => exact ⟨[], f, rfl, SameShape.refl h, fun j => (Bool.or_false _).symm⟩
  | cons hash hashes ih =>
    obtain ⟨f', hadd, hshape, hbits⟩ := addHash_spec h hash (ε := ε)
    obtain ⟨answers, g, hall, hshape', hbits'⟩ := ih hshape.sound
    refine ⟨(f.positions hash).all f.bit :: answers, g, ?_, hshape.trans hshape', fun j => ?_⟩
    · rw [addAll, hadd, ok_bind]
      simp only [hall, ok_bind]
      rfl
    · simp only [hbits', hbits, hshape.positions, List.any_cons, Bool.or_assoc]

/-- A filter is its shape and its bits. -/
theorem words_eq_of_bit_eq {f g : Filter} (hlen : f.words.length = g.words.length)
    (hbit : ∀ j, f.bit j = g.bit j) : f.words = g.words := by
  apply List.ext_getElem hlen
  intro i hf hg
  rw [← UInt64.toNat_inj]
  apply Nat.eq_of_testBit_eq
  intro j
  by_cases hj : j < 64
  · have hdiv : (64 * i + j) / 64 = i := by omega
    have hmod : (64 * i + j) % 64 = j := by omega
    have hword := hbit (64 * i + j)
    rwa [bit, bit, hdiv, hmod, List.getD_eq_getElem _ _ hf, List.getD_eq_getElem _ _ hg] at hword
  · have hpow : 2 ^ 64 ≤ 2 ^ j := Nat.pow_le_pow_right (by decide) (not_lt.mp hj)
    rw [Nat.testBit_lt_two_pow ((UInt64.toNat_lt _).trans_le hpow),
      Nat.testBit_lt_two_pow ((UInt64.toNat_lt _).trans_le hpow)]

/-- Filters of one shape with the same bits are equal. -/
theorem SameShape.eq_of_bit_eq {f g k : Filter} (hg : SameShape f g) (hk : SameShape f k)
    (hbit : ∀ j, g.bit j = k.bit j) : g = k := by
  have hlen : g.words.length = k.words.length := by
    have hgw := hg.sound.length_words
    have hkw := hk.sound.length_words
    rw [hg.numBits] at hgw
    rw [hk.numBits] at hkw
    omega
  have hwords := words_eq_of_bit_eq hlen hbit
  cases g
  cases k
  simp only [Filter.mk.injEq]
  exact ⟨hwords, hg.numBits.trans hk.numBits.symm, hg.numHashes.trans hk.numHashes.symm,
    hg.seed.trans hk.seed.symm⟩

/-- Insertions in another order give the same filter. -/
theorem addAll_perm {f : Filter} (h : f.Sound) {hashes hashes' : List UInt64}
    (hperm : hashes'.Perm hashes) {answers answers' : List Bool} {g g' : Filter}
    (hadd : (f.addAll hashes : Checked ε (List Bool × Filter)) = .ok (answers, g))
    (hadd' : (f.addAll hashes' : Checked ε (List Bool × Filter)) = .ok (answers', g')) : g' = g := by
  obtain ⟨_, k, hk, hshape, hbits⟩ := addAll_spec h hashes (ε := ε)
  obtain ⟨_, k', hk', hshape', hbits'⟩ := addAll_spec h hashes' (ε := ε)
  rw [hadd] at hk
  rw [hadd'] at hk'
  obtain ⟨-, rfl⟩ := Prod.mk.inj (Except.ok.inj hk)
  obtain ⟨-, rfl⟩ := Prod.mk.inj (Except.ok.inj hk')
  refine hshape'.eq_of_bit_eq hshape fun j => ?_
  rw [hbits, hbits', hperm.any_eq]

/-- An inserted hash is contained after any further insertions. -/
theorem containsHash_addAll {f : Filter} (h : f.Sound) {hashes : List UInt64} {answers : List Bool}
    {g : Filter} (hadd : (f.addAll hashes : Checked ε (List Bool × Filter)) = .ok (answers, g))
    {hash : UInt64} (hmem : hash ∈ hashes) : (g.containsHash hash : Checked ε Bool) = .ok true := by
  obtain ⟨_, k, hk, hshape, hbits⟩ := addAll_spec h hashes (ε := ε)
  rw [hadd] at hk
  obtain ⟨-, rfl⟩ := Prod.mk.inj (Except.ok.inj hk)
  rw [containsHash_eq hshape.sound, Except.ok.injEq, List.all_eq_true, hshape.positions]
  intro p hp
  have hany : (hashes.any fun hash => decide (p ∈ f.positions hash)) = true :=
    List.any_eq_true.mpr ⟨hash, hmem, decide_eq_true hp⟩
  rw [hbits, hany, Bool.or_true]

/-- Inside a sequence of insertions, each returns what `ContainsHash` returned just before it. -/
theorem addAll_reports {f : Filter} (h : f.Sound) (pre : List UInt64) (hash : UInt64)
    (post : List UInt64) {answers : List Bool} {g : Filter}
    (hadd : (f.addAll (pre ++ hash :: post) : Checked ε (List Bool × Filter)) = .ok (answers, g)) :
    ∃ before g₀ contained g₁,
      (f.addAll pre : Checked ε (List Bool × Filter)) = .ok (before, g₀) ∧
      (g₀.addHash hash : Checked ε (Bool × Filter)) = .ok (contained, g₁) ∧
      answers[pre.length]? = some contained ∧
      (g₀.containsHash hash : Checked ε Bool) = .ok contained := by
  induction pre generalizing f answers with
  | nil =>
    obtain ⟨f', hstep, hshape, -⟩ := addHash_spec h hash (ε := ε)
    obtain ⟨answers', g', hrest, -⟩ := addAll_spec hshape.sound post (ε := ε)
    rw [List.nil_append, addAll, hstep, ok_bind] at hadd
    simp only [hrest, ok_bind] at hadd
    obtain ⟨rfl, -⟩ := Prod.mk.inj (Except.ok.inj hadd)
    -- the insertion asks for its bits before it sets any, as `ContainsHash` would
    exact ⟨[], f, _, f', rfl, hstep, rfl, containsHash_eq h hash⟩
  | cons first pre ih =>
    obtain ⟨f', hstep, hshape, -⟩ := addHash_spec h first (ε := ε)
    obtain ⟨answers', g', hrest, -⟩ := addAll_spec hshape.sound (pre ++ hash :: post) (ε := ε)
    rw [List.cons_append, addAll, hstep, ok_bind] at hadd
    simp only [hrest, ok_bind] at hadd
    obtain ⟨rfl, rfl⟩ := Prod.mk.inj (Except.ok.inj hadd)
    obtain ⟨before, g₀, contained, g₁, hpre, hadd₀, hanswer, hcontains⟩ := ih hshape.sound hrest
    refine ⟨(f.positions first).all f.bit :: before, g₀, contained, g₁, ?_, hadd₀, hanswer,
      hcontains⟩
    rw [addAll, hstep, ok_bind]
    simp only [hpre, ok_bind]
    rfl

/-- **No false negatives, exact reports.** On a filter of a positive number of whole words and at least
one hash, every sequence of insertions succeeds, all indexes are below the number of bits, the inserted
hashes are contained afterwards, each insertion returns what `ContainsHash` returned just before it, and
any other order of the insertions ends in the same words. -/
theorem addAll_exact {f : Filter} (hf : f.Sound) (hashes : List UInt64) :
    (∀ hash, index f.numBits hash < f.numBits.toNat) ∧
    ∃ answers g, (f.addAll hashes : Checked ε (List Bool × Filter)) = .ok (answers, g) ∧
      (∀ hash ∈ hashes, (g.containsHash hash : Checked ε Bool) = .ok true) ∧
      (∀ pre hash post, hashes = pre ++ hash :: post →
        ∃ before g₀ contained g₁,
          (f.addAll pre : Checked ε (List Bool × Filter)) = .ok (before, g₀) ∧
          (g₀.addHash hash : Checked ε (Bool × Filter)) = .ok (contained, g₁) ∧
          answers[pre.length]? = some contained ∧
          (g₀.containsHash hash : Checked ε Bool) = .ok contained) ∧
      ∀ hashes', hashes'.Perm hashes →
        ∃ answers', (f.addAll hashes' : Checked ε (List Bool × Filter)) = .ok (answers', g) := by
  refine ⟨index_lt hf.bits_pos, ?_⟩
  obtain ⟨answers, g, hadd, hshape, -⟩ := addAll_spec hf hashes (ε := ε)
  refine ⟨answers, g, hadd, fun hash hmem => containsHash_addAll hf hadd hmem, ?_, ?_⟩
  · rintro pre hash post rfl
    exact addAll_reports hf pre hash post hadd
  · intro hashes' hperm
    obtain ⟨answers', g', hadd', -⟩ := addAll_spec hf hashes' (ε := ε)
    -- the order decides which insertion finds its bits set, not which bits are set in the end
    obtain rfl := addAll_perm hf hperm hadd hadd'
    exact ⟨answers', hadd'⟩

/-- Two insertions into an empty word. -/
theorem addAll_exact_two : ∃ answers g,
    ((⟨[0], 64, 2, 0⟩ : Filter).addAll [5, 6] : Checked BloomError (List Bool × Filter)) =
        .ok (answers, g) ∧
      (g.containsHash 5 : Checked BloomError Bool) = .ok true := by
  obtain ⟨-, answers, g, hadd, hcontains, -⟩ :=
    addAll_exact (ε := BloomError) (f := ⟨[0], 64, 2, 0⟩) ⟨by decide, by decide, by decide⟩ [5, 6]
  exact ⟨answers, g, hadd, hcontains 5 (by simp)⟩

end Filter

/-! ## `UnmarshalBinary` -/

/-- **The codec is exact.** `UnmarshalBinary` succeeds on exactly the encodings of filters with a
positive number of whole words and at least one hash, and then leaves that filter; on failure it returns
an error and leaves the receiver alone. No probe of a decoded filter is out of range. -/
theorem unmarshal_exact (f : Filter) (data : Bytes) :
    (∀ g, f.unmarshal data = (.ok (), g) ↔ g.Sound ∧ data = g.marshalBinary) ∧
    ((¬∃ g : Filter, g.Sound ∧ data = g.marshalBinary) → ∃ e, f.unmarshal data = (fail e, f)) ∧
    ∀ g, f.unmarshal data = (.ok (), g) → ∀ hash,
      (g.containsHash hash : Checked BloomError Bool).Safe ∧
      (g.addHash hash : Checked BloomError (Bool × Filter)).Safe := by
  have hiff : ∀ g, f.unmarshal data = (.ok (), g) ↔ g.Sound ∧ data = g.marshalBinary := by
    intro g
    constructor
    · intro hok
      -- an error would not be the answer `ok`, and an accepted input is the encoding of one filter
      rcases f.unmarshal_cases data with ⟨e, hfail⟩ | ⟨g', hok', hg'⟩
      · rw [hok] at hfail
        cases (Prod.mk.inj hfail).1
      · rw [hok] at hok'
        obtain ⟨-, rfl⟩ := Prod.mk.inj hok'
        exact hg'
    · rintro ⟨hsound, rfl⟩
      exact f.unmarshal_marshalBinary hsound
  refine ⟨hiff, fun hnone => ?_, fun g hg hash => ?_⟩
  · rcases f.unmarshal_cases data with hfail | ⟨g, -, hg⟩
    · exact hfail
    · exact absurd ⟨g, hg⟩ hnone
  · obtain ⟨hsound, -⟩ := (hiff g).mp hg
    obtain ⟨g', hadd, -⟩ := Filter.addHash_spec hsound hash (ε := BloomError)
    rw [Filter.containsHash_eq hsound, hadd]
    exact ⟨safe_ok _, safe_ok _⟩

end Seol.Bloom
