import Seol.Common.Checked

/-!
# The bloom filter

Reference: `bloom/bloom.go`. A filter is a bit array in 64-bit words. A hash sets one bit for each of
`numHashes` derived hashes and is found when all of them are set. `Sound` is what `UnmarshalBinary`
checks; on sound filters no access is out of range, and the binary format is exact.
-/

namespace Seol.Bloom

open Common Checked

/-- `derivedHashMultiplier`. -/
def derivedHashMultiplier : UInt64 := 0x517cc1b727220a95

/-- `WordBits`. -/
def wordBits : ℕ := 64

/-- `Magic`. -/
def magic : ℕ := 0xB100F11E

/-- `Version`. -/
def version : UInt8 := 1

/-- `HeaderSize`: magic, version, bit count, hash count and seed. -/
def headerSize : ℕ := 4 + 1 + 8 + 4 + 8

/-- `Filter`. -/
structure Filter where
  words : List UInt64
  numBits : UInt64
  numHashes : UInt32
  seed : UInt64
deriving DecidableEq

/-- `wordCount`. -/
def wordCount (numBits : ℕ) : ℕ := (numBits + 63) / 64

/-- `normalizeItems`. -/
def normalizeItems (expectedItems : ℕ) : ℕ := if expectedItems < 1 then 1 else expectedItems

/-- The floating-point sizing of `NewFor` at its false positive rate: `optimalBits` of an item count
and `optimalHashes` of a bit count and an item count. -/
structure Sizing where
  optimalBits : ℕ → ℕ
  optimalHashes : ℕ → ℕ → UInt32

/-- `NewFor`. -/
def newFor (sizing : Sizing) (expectedItems : ℕ) : Filter :=
  let expectedItems := normalizeItems expectedItems
  let words := wordCount (sizing.optimalBits expectedItems)
  let actualBits := words * wordBits
  ⟨List.replicate words 0, UInt64.ofNat actualBits,
    sizing.optimalHashes actualBits expectedItems, 0⟩

/-- The errors of `UnmarshalBinary`. -/
inductive BloomError where
  /-- "bloom: data too short" -/
  | tooShort
  /-- "bloom: invalid magic %#x" -/
  | invalidMagic (got : ℕ)
  /-- "bloom: unsupported version %d" -/
  | unsupportedVersion (got : UInt8)
  /-- "bloom: invalid bit count %d" -/
  | invalidBitCount (numBits : ℕ)
  /-- "bloom: invalid hash count %d" -/
  | invalidHashCount (numHashes : ℕ)
  /-- "bloom: invalid data length %d" -/
  | invalidDataLength (length : ℕ)
deriving DecidableEq, Repr

/-- `index`: the high word of the product. -/
def index (numBits hash : UInt64) : ℕ := hash.toNat * numBits.toNat / 2 ^ 64

/-- The mask of a bit in its word. -/
def mask (idx : ℕ) : UInt64 := 1 <<< UInt64.ofNat (idx % 64)

/-- The next derived hash: `bits.RotateLeft64(h1, 5) + h2`. -/
def derive (h1 h2 : UInt64) : UInt64 := (h1 <<< 5 ||| h1 >>> 59) + h2

namespace Filter

variable {ε : Type}

/-- `check`. -/
def check (f : Filter) (idx : ℕ) : Checked ε Bool := do
  let word ← elemAt f.words (idx / 64)
  return word &&& mask idx != 0

/-- `set`. -/
def set (f : Filter) (idx : ℕ) : Checked ε (Bool × Filter) := do
  let word ← elemAt f.words (idx / 64)
  return (word &&& mask idx != 0, { f with words := f.words.set (idx / 64) (word ||| mask idx) })

/-- The loop of `AddHash` over the derived hashes that are left. -/
def addLoop (h2 : UInt64) : ℕ → UInt64 → Bool → Filter → Checked ε (Bool × Filter)
  | 0, _, previouslyContained, f => .ok (previouslyContained, f)
  | n + 1, h1, previouslyContained, f => do
    let h1 := derive h1 h2
    let (wasSet, f) ← f.set (index f.numBits h1)
    addLoop h2 n h1 (previouslyContained && wasSet) f

/-- `AddHash`. -/
def addHash (f : Filter) (hash : UInt64) : Checked ε (Bool × Filter) := do
  let (previouslyContained, f) ← f.set (index f.numBits hash)
  if f.numHashes = 1 then return (previouslyContained, f)
  addLoop (hash * derivedHashMultiplier) (f.numHashes.toNat - 1) hash previouslyContained f

/-- The loop of `ContainsHash`. -/
def containsLoop (f : Filter) (h2 : UInt64) : ℕ → UInt64 → Checked ε Bool
  | 0, _ => .ok true
  | n + 1, h1 => do
    let h1 := derive h1 h2
    if !(← f.check (index f.numBits h1)) then return false
    containsLoop f h2 n h1

/-- `ContainsHash`. -/
def containsHash (f : Filter) (hash : UInt64) : Checked ε Bool := do
  if !(← f.check (index f.numBits hash)) then return false
  if f.numHashes = 1 then return true
  f.containsLoop (hash * derivedHashMultiplier) (f.numHashes.toNat - 1) hash

/-- `MarshalBinary`. -/
def marshalBinary (f : Filter) : Bytes :=
  leBytes 4 magic ++ (version :: (leBytes 8 f.numBits.toNat ++ (leBytes 4 f.numHashes.toNat ++
    (leBytes 8 f.seed.toNat ++ f.words.flatMap fun word => leBytes 8 word.toNat))))

/-- The words of a filter from byte `ptr` on. -/
def readWords (data : Bytes) : ℕ → ℕ → Checked BloomError (List UInt64)
  | 0, _ => .ok []
  | n + 1, ptr => do
    let word ← readLEAt 8 data ptr
    return UInt64.ofNat word :: (← readWords data n (ptr + 8))

end Filter

/-- Methods that may change their receiver and fail. -/
abbrev OnFilter : Type → Type := ExceptT (Fault BloomError) (StateM Filter)

/-- A computation that does not touch the receiver. -/
def OnFilter.lift {α : Type} (x : Checked BloomError α) : OnFilter α := ExceptT.mk (pure x)

/-- `UnmarshalBinary`. -/
def unmarshalBinary (data : Bytes) : OnFilter Unit := do
  if data.length < headerSize then .lift (fail .tooShort)
  else
    let gotMagic ← .lift (readLEAt 4 data 0)
    if gotMagic ≠ magic then .lift (fail (.invalidMagic gotMagic))
    else
      let gotVersion ← .lift (elemAt data 4)
      if gotVersion ≠ version then .lift (fail (.unsupportedVersion gotVersion))
      else
        let numBits ← .lift (readLEAt 8 data 5)
        if numBits = 0 ∨ numBits % wordBits ≠ 0 then .lift (fail (.invalidBitCount numBits))
        else
          let numHashes ← .lift (readLEAt 4 data 13)
          if numHashes = 0 then .lift (fail (.invalidHashCount numHashes))
          else
            let wordCount := numBits / wordBits
            if data.length ≠ headerSize + wordCount * 8 then
              .lift (fail (.invalidDataLength data.length))
            else
              let words ← .lift (Filter.readWords data wordCount headerSize)
              modify fun f => { f with words := words }
              modify fun f => { f with numBits := UInt64.ofNat numBits }
              modify fun f => { f with numHashes := UInt32.ofNat numHashes }
              let seed ← .lift (readLEAt 8 data 17)
              modify fun f => { f with seed := UInt64.ofNat seed }

/-- The call `f.UnmarshalBinary(data)`: what it returns and the receiver after it. -/
def Filter.unmarshal (f : Filter) (data : Bytes) : Checked BloomError Unit × Filter :=
  (unmarshalBinary data).run.run f

/-- `ReadFilter`: `UnmarshalBinary` on a zero filter. -/
def readFilter (data : Bytes) : Checked BloomError Filter :=
  match (⟨[], 0, 0, 0⟩ : Filter).unmarshal data with
  | (.error e, _) => .error e
  | (.ok _, f) => .ok f

/-! ## Bits -/

/-- The filter's bit array has whole words, and at least one hash is used. -/
structure Filter.Sound (f : Filter) : Prop where
  bits_pos : 0 < f.numBits.toNat
  length_words : f.words.length * 64 = f.numBits.toNat
  hashes_pos : 0 < f.numHashes.toNat

/-- Whether a bit is set. -/
def Filter.bit (f : Filter) (idx : ℕ) : Bool := (f.words.getD (idx / 64) 0).toNat.testBit (idx % 64)

theorem toNat_mask (idx : ℕ) : (mask idx).toNat = 2 ^ (idx % 64) := by
  have hlt : idx % 64 < 64 := Nat.mod_lt _ (by decide)
  have hpow : 2 ^ (idx % 64) < 2 ^ 64 := Nat.pow_lt_pow_right (by decide) hlt
  rw [mask, UInt64.toNat_shiftLeft, UInt64.toNat_ofNat', Nat.mod_eq_of_lt (by omega : idx % 64 < 2 ^ 64),
    Nat.mod_mod]
  rw [Nat.shiftLeft_eq, UInt64.toNat_one, Nat.one_mul, Nat.mod_eq_of_lt hpow]

theorem and_mask_ne_zero (word : UInt64) (idx : ℕ) :
    (word &&& mask idx != 0) = word.toNat.testBit (idx % 64) := by
  have hiff : word &&& mask idx = 0 ↔ word.toNat.testBit (idx % 64) = false := by
    rw [← UInt64.toNat_inj, UInt64.toNat_and, toNat_mask, Nat.and_two_pow]
    cases word.toNat.testBit (idx % 64) <;> simp
  cases hbit : word.toNat.testBit (idx % 64) with
  | false => simp [hiff.mpr hbit]
  | true =>
    rw [bne_iff_ne]
    intro hzero
    rw [hiff.mp hzero] at hbit
    cases hbit

theorem index_lt {numBits : UInt64} (h : 0 < numBits.toNat) (hash : UInt64) :
    index numBits hash < numBits.toNat := by
  rw [index, Nat.div_lt_iff_lt_mul (by decide), Nat.mul_comm]
  exact Nat.mul_lt_mul_of_pos_left hash.toNat_lt h

namespace Filter

variable {ε : Type} {f : Filter}

theorem check_eq {idx : ℕ} (h : idx / 64 < f.words.length) :
    (f.check idx : Checked ε Bool) = .ok (f.bit idx) := by
  rw [check, elemAt_of_lt h, ok_bind, and_mask_ne_zero, bit, List.getD_eq_getElem _ _ h]
  rfl

/-- The filter with one more bit set. -/
def withBit (f : Filter) (idx : ℕ) : Filter :=
  { f with words := f.words.set (idx / 64) (f.words.getD (idx / 64) 0 ||| mask idx) }

theorem set_eq {idx : ℕ} (h : idx / 64 < f.words.length) :
    (f.set idx : Checked ε (Bool × Filter)) = .ok (f.bit idx, f.withBit idx) := by
  rw [set, elemAt_of_lt h, ok_bind, and_mask_ne_zero, bit, withBit, List.getD_eq_getElem _ _ h]
  rfl

theorem bit_withBit {idx : ℕ} (h : idx / 64 < f.words.length) (j : ℕ) :
    (f.withBit idx).bit j = (f.bit j || decide (j = idx)) := by
  have hmod : idx % 64 < 64 := Nat.mod_lt _ (by decide)
  simp only [bit, withBit]
  by_cases hword : j / 64 = idx / 64
  · rw [hword, List.getD_eq_getElem _ _ (by simpa using h), List.getElem_set_self,
      UInt64.toNat_or, Nat.testBit_or, toNat_mask, Nat.testBit_two_pow]
    congr 1
    rw [decide_eq_decide]
    omega
  · have hne : j ≠ idx := fun heq => hword (by rw [heq])
    rw [List.getD_eq_getElem?_getD, List.getD_eq_getElem?_getD, List.getElem?_set_ne (Ne.symm hword)]
    simp [hne]

/-- A bit that is set in a call was looked at before it was set. -/
theorem bit_and_all_withBit {idx : ℕ} (h : idx / 64 < f.words.length) (l : List ℕ) :
    (f.bit idx && l.all (f.withBit idx).bit) = (f.bit idx && l.all f.bit) := by
  cases hbit : f.bit idx with
  | false => rfl
  | true =>
    have hsame : ∀ j, (f.withBit idx).bit j = f.bit j := by
      intro j
      rw [bit_withBit h]
      by_cases hj : j = idx
      · simp [hj, hbit]
      · simp [hj]
    rw [funext hsame]

theorem Sound.withBit (h : f.Sound) (idx : ℕ) : (f.withBit idx).Sound :=
  ⟨h.bits_pos, by simpa [Filter.withBit] using h.length_words, h.hashes_pos⟩

theorem Sound.index_div_lt (h : f.Sound) (hash : UInt64) :
    index f.numBits hash / 64 < f.words.length := by
  have hlt := index_lt h.bits_pos hash
  have hlen := h.length_words
  omega

/-! ## Adding and finding -/

/-- The derived hashes from `h1` on. -/
def derived (h2 : UInt64) : ℕ → UInt64 → List UInt64
  | 0, _ => []
  | n + 1, h1 => derive h1 h2 :: derived h2 n (derive h1 h2)

/-- The bits of a hash. -/
def positions (f : Filter) (hash : UInt64) : List ℕ :=
  (hash :: derived (hash * derivedHashMultiplier) (f.numHashes.toNat - 1) hash).map
    (index f.numBits)

/-- The same filter but for its bits. -/
structure SameShape (f g : Filter) : Prop where
  numBits : g.numBits = f.numBits
  numHashes : g.numHashes = f.numHashes
  seed : g.seed = f.seed
  sound : g.Sound

theorem addLoop_spec (h : f.Sound) (h2 : UInt64) (n : ℕ) (h1 : UInt64) (prev : Bool) :
    ∃ g, (addLoop h2 n h1 prev f : Checked ε (Bool × Filter)) =
        .ok (prev && ((derived h2 n h1).map (index f.numBits)).all f.bit, g) ∧
      SameShape f g ∧
      ∀ j, g.bit j = (f.bit j || decide (j ∈ (derived h2 n h1).map (index f.numBits))) := by
  induction n generalizing f h1 prev with
  | zero => exact ⟨f, by simp [addLoop, derived], ⟨rfl, rfl, rfl, h⟩, by simp [derived]⟩
  | succ n ih =>
    have hlt := h.index_div_lt (derive h1 h2)
    set idx := index f.numBits (derive h1 h2) with hidx
    obtain ⟨g, hadd, hshape, hbits⟩ :=
      ih (h.withBit idx) (derive h1 h2) (prev && f.bit idx)
    refine ⟨g, ?_, ⟨hshape.numBits, hshape.numHashes, hshape.seed, hshape.sound⟩, fun j => ?_⟩
    · rw [addLoop, ← hidx, set_eq hlt, ok_bind]
      refine hadd.trans ?_
      simp only [derived, List.map_cons, List.all_cons, ← hidx]
      rw [Bool.and_assoc]
      -- whether all bits were set does not depend on the one the loop has just set
      exact congrArg (fun b => Except.ok (prev && b, g)) (bit_and_all_withBit hlt _)
    · rw [hbits, bit_withBit hlt]
      simp only [derived, List.map_cons, List.mem_cons, ← hidx, Bool.or_assoc, Bool.decide_or]
      rfl

/-- **`AddHash`** sets the bits of the hash and reports whether they were all set before. -/
theorem addHash_spec (h : f.Sound) (hash : UInt64) :
    ∃ g, (f.addHash hash : Checked ε (Bool × Filter)) = .ok ((f.positions hash).all f.bit, g) ∧
      SameShape f g ∧ ∀ j, g.bit j = (f.bit j || decide (j ∈ f.positions hash)) := by
  have hlt := h.index_div_lt hash
  set idx := index f.numBits hash with hidx
  obtain ⟨g, hadd, hshape, hbits⟩ := addLoop_spec (h.withBit idx)
    (hash * derivedHashMultiplier) (f.numHashes.toNat - 1) hash (f.bit idx) (ε := ε)
  refine ⟨g, ?_, ⟨hshape.numBits, hshape.numHashes, hshape.seed, hshape.sound⟩, fun j => ?_⟩
  · have hloop : (f.addHash hash : Checked ε (Bool × Filter)) =
        addLoop (hash * derivedHashMultiplier) (f.numHashes.toNat - 1) hash (f.bit idx)
          (f.withBit idx) := by
      rw [addHash, ← hidx, set_eq hlt, ok_bind]
      -- with one hash the loop has no rounds
      by_cases hone : (f.withBit idx).numHashes = 1
      · have hone' : f.numHashes = 1 := hone
        simp only [if_pos hone, hone']
        rfl
      · simp only [if_neg hone]
        rfl
    rw [hloop, hadd, positions, List.map_cons, List.all_cons, ← hidx]
    exact congrArg (fun b => Except.ok (b, g)) (bit_and_all_withBit hlt _)
  · rw [hbits, bit_withBit hlt, positions]
    simp only [List.map_cons, List.mem_cons, ← hidx, Bool.or_assoc, Bool.decide_or]
    rfl

theorem containsLoop_eq (h : f.Sound) (h2 : UInt64) (n : ℕ) (h1 : UInt64) :
    (f.containsLoop h2 n h1 : Checked ε Bool) =
      .ok (((derived h2 n h1).map (index f.numBits)).all f.bit) := by
  induction n generalizing h1 with
  | zero => rfl
  | succ n ih =>
    rw [containsLoop]
    simp only [check_eq (h.index_div_lt (derive h1 h2)), ok_bind, derived, List.map_cons,
      List.all_cons]
    cases f.bit (index f.numBits (derive h1 h2)) with
    | false => rfl
    | true => exact ih (derive h1 h2)

/-- **`ContainsHash`** reports whether all bits of the hash are set. -/
theorem containsHash_eq (h : f.Sound) (hash : UInt64) :
    (f.containsHash hash : Checked ε Bool) = .ok ((f.positions hash).all f.bit) := by
  rw [containsHash, check_eq (h.index_div_lt hash), ok_bind, positions, List.map_cons, List.all_cons]
  cases f.bit (index f.numBits hash) with
  | false => rfl
  | true =>
    by_cases hone : f.numHashes = 1
    · simp [hone, derived]
      rfl
    · simp only [Bool.not_true, Bool.false_eq_true, if_false, if_neg hone, containsLoop_eq h,
        Bool.true_and]

/-- Bits that are set stay set. -/
theorem containsHash_addHash (h : f.Sound) {hash hash' : UInt64} {b : Bool} {g : Filter}
    (hadd : (f.addHash hash : Checked ε (Bool × Filter)) = .ok (b, g))
    (hin : hash' = hash ∨ (f.containsHash hash' : Checked ε Bool) = .ok true) :
    (g.containsHash hash' : Checked ε Bool) = .ok true := by
  obtain ⟨g', hadd', hshape, hbits⟩ := addHash_spec h hash (ε := ε)
  rw [hadd] at hadd'
  obtain ⟨-, rfl⟩ := Prod.mk.inj (Except.ok.inj hadd')
  have hpos : g.positions hash' = f.positions hash' := by
    rw [positions, positions, hshape.numBits, hshape.numHashes]
  rw [containsHash_eq hshape.sound, hpos, Except.ok.injEq, List.all_eq_true]
  intro p hp
  rw [hbits]
  rcases hin with rfl | hin
  · simp [hp]
  · rw [containsHash_eq h, Except.ok.injEq, List.all_eq_true] at hin
    rw [hin p hp, Bool.true_or]

end Filter

/-! ## The binary format -/

theorem length_flatMap_words (ws : List UInt64) :
    (ws.flatMap fun word => leBytes 8 word.toNat).length = ws.length * 8 := by
  simp [List.length_flatMap]

@[simp] theorem Filter.length_marshalBinary (f : Filter) :
    f.marshalBinary.length = headerSize + f.words.length * 8 := by
  simp only [Filter.marshalBinary, List.length_append, List.length_cons, length_leBytes,
    length_flatMap_words, headerSize]
  omega

/-- Reading words gives the words whose bytes stand there. -/
theorem readWords_eq {data : Bytes} {n ptr : ℕ} (h : ptr + n * 8 ≤ data.length) :
    ∃ ws, Filter.readWords data n ptr = .ok ws ∧ ws.length = n ∧
      (ws.flatMap fun word => leBytes 8 word.toNat) = slice data ptr (n * 8) := by
  induction n generalizing ptr with
  | zero => exact ⟨[], rfl, rfl, by simp [slice]⟩
  | succ n ih =>
    obtain ⟨ws, hread, hlen, hbytes⟩ := ih (show ptr + 8 + n * 8 ≤ data.length by omega)
    have hslice : (slice data ptr 8).length = 8 := length_slice_of_le (by omega)
    refine ⟨UInt64.ofNat (leNat (slice data ptr 8)) :: ws, ?_, by simp [hlen], ?_⟩
    · rw [Filter.readWords, readLEAt_of_le (by omega), ok_bind, hread]
      rfl
    · have hlt : leNat (slice data ptr 8) < 2 ^ 64 := leNat_lt_of_length hslice
      rw [List.flatMap_cons, hbytes, UInt64.toNat_ofNat', Nat.mod_eq_of_lt hlt,
        leBytes_leNat_of_length hslice, Nat.succ_mul, Nat.add_comm (n * 8) 8, slice_add]

theorem flatMap_words_injective {as bs : List UInt64}
    (h : (as.flatMap fun word => leBytes 8 word.toNat) =
      bs.flatMap fun word => leBytes 8 word.toNat) : as = bs := by
  induction as generalizing bs with
  | nil =>
    have hlen := congrArg List.length h
    rw [length_flatMap_words, length_flatMap_words] at hlen
    exact (List.length_eq_zero_iff.mp (by simpa using hlen.symm)).symm
  | cons a as ih =>
    cases bs with
    | nil =>
      have hlen := congrArg List.length h
      simp at hlen
    | cons b bs =>
      rw [List.flatMap_cons, List.flatMap_cons] at h
      obtain ⟨hhead, htail⟩ := List.append_inj h (by simp)
      have hnat := congrArg leNat hhead
      rw [leNat_leBytes_of_lt a.toNat_lt, leNat_leBytes_of_lt b.toNat_lt] at hnat
      rw [UInt64.toNat_inj.mp hnat, ih htail]

/-- The fields of the header stand where `UnmarshalBinary` reads them. -/
theorem marshalBinary_fields (f : Filter) :
    slice f.marshalBinary 0 4 = leBytes 4 magic ∧ f.marshalBinary[4]? = some version ∧
    slice f.marshalBinary 5 8 = leBytes 8 f.numBits.toNat ∧
    slice f.marshalBinary 13 4 = leBytes 4 f.numHashes.toNat ∧
    slice f.marshalBinary 17 8 = leBytes 8 f.seed.toNat ∧
    slice f.marshalBinary headerSize (f.words.length * 8) =
      f.words.flatMap fun word => leBytes 8 word.toNat := by
  set a := leBytes 4 magic with ha
  set b := leBytes 8 f.numBits.toNat
  set c := leBytes 4 f.numHashes.toNat
  set d := leBytes 8 f.seed.toNat
  set e := f.words.flatMap fun word => leBytes 8 word.toNat with he
  have hlen : e.length = f.words.length * 8 := length_flatMap_words f.words
  -- the same bytes, cut at the field that is read
  have hbits : f.marshalBinary = (a ++ [version]) ++ (b ++ (c ++ (d ++ e))) := by
    simp [Filter.marshalBinary, a, b, c, d, e]
  have hhashes : f.marshalBinary = (a ++ [version] ++ b) ++ (c ++ (d ++ e)) := by simp [hbits]
  have hseed : f.marshalBinary = (a ++ [version] ++ b ++ c) ++ (d ++ e) := by simp [hbits]
  have hwords : f.marshalBinary = (a ++ [version] ++ b ++ c ++ d) ++ (e ++ []) := by simp [hbits]
  refine ⟨?_, ?_, ?_, ?_, ?_, ?_⟩
  · exact slice_append_front a _ 4 (by simp [a])
  · show (a ++ _)[4]? = _
    rw [List.getElem?_append_right (by simp [a])]
    simp [a]
  · rw [hbits, slice_append_mid _ _ _ _ _ (by simp [a]) (by simp [b])]
  · rw [hhashes, slice_append_mid _ _ _ _ _ (by simp [a, b]) (by simp [c])]
  · rw [hseed, slice_append_mid _ _ _ _ _ (by simp [a, b, c]) (by simp [d])]
  · rw [hwords, slice_append_mid _ _ _ _ _ (by simp [a, b, c, d, headerSize]) hlen.symm]

theorem lift_ok_bind {α β : Type} (a : α) (k : α → OnFilter β) :
    (OnFilter.lift (.ok a) >>= k) = k a := rfl

/-- A filter is read back from its encoding, whatever the receiver was. -/
theorem Filter.unmarshal_marshalBinary (f₀ : Filter) {f : Filter} (h : f.Sound) :
    f₀.unmarshal f.marshalBinary = (.ok (), f) := by
  obtain ⟨hmagic, hversion, hbits, hhashes, hseed, hwords⟩ := marshalBinary_fields f
  have hlen := f.length_marshalBinary
  have hpos := h.bits_pos
  have hcount : f.numBits.toNat / wordBits = f.words.length := by
    rw [← h.length_words]
    exact Nat.mul_div_cancel _ (by decide)
  have hmod : f.numBits.toNat % wordBits = 0 := by
    rw [← h.length_words]
    exact Nat.mul_mod_left _ _
  have hread : ∀ w i, i + w ≤ headerSize →
      (readLEAt w f.marshalBinary i : Checked BloomError ℕ) =
        .ok (leNat (slice f.marshalBinary i w)) := fun w i hi => readLEAt_of_le (by omega)
  obtain ⟨ws, hws, -, hflat⟩ := readWords_eq
    (show headerSize + f.words.length * 8 ≤ f.marshalBinary.length by omega)
  obtain rfl : ws = f.words := flatMap_words_injective (hflat.trans hwords)
  have hversion' : (elemAt f.marshalBinary 4 : Checked BloomError UInt8) = .ok version := by
    rw [elemAt, hversion]
  rw [unmarshal, unmarshalBinary, if_neg (by omega), hread 4 0 (by decide), hmagic, hversion',
    hread 8 5 (by decide), hbits, hread 4 13 (by decide), hhashes, hread 8 17 (by decide), hseed,
    leNat_leBytes_of_lt (by decide : magic < 256 ^ 4), leNat_leBytes_of_lt f.numBits.toNat_lt,
    leNat_leBytes_of_lt f.numHashes.toNat_lt, leNat_leBytes_of_lt f.seed.toNat_lt]
  have hvalid : ¬(f.numBits.toNat = 0 ∨ f.numBits.toNat % wordBits ≠ 0) := by
    rintro (hzero | hne)
    · omega
    · exact hne hmod
  simp only [lift_ok_bind, ne_eq, not_true_eq_false, if_false, if_neg hvalid,
    if_neg h.hashes_pos.ne', hcount, hlen, hws, UInt64.ofNat_toNat, UInt32.ofNat_toNat]
  rfl

/-- Data of the length of an encoding with `n` words are its fields one after the other. -/
theorem eq_fields {data : Bytes} {n : ℕ} (hlen : data.length = headerSize + n * 8) :
    data = slice data 0 4 ++ (slice data 4 1 ++ (slice data 5 8 ++ (slice data 13 4 ++
      (slice data 17 8 ++ slice data headerSize (n * 8))))) := by
  have hall : data = slice data 0 (4 + (1 + (8 + (4 + (8 + n * 8))))) := by
    rw [slice, List.drop_zero, List.take_of_length_le]
    simp only [headerSize] at hlen
    omega
  conv_lhs => rw [hall]
  simp only [slice_add, headerSize]

/-- What `UnmarshalBinary` accepts is the encoding of the filter it leaves; on failure it leaves the
receiver alone. -/
theorem Filter.unmarshal_cases (f₀ : Filter) (data : Bytes) :
    (∃ e, f₀.unmarshal data = (fail e, f₀)) ∨
      ∃ f : Filter, f₀.unmarshal data = (.ok (), f) ∧ f.Sound ∧ data = f.marshalBinary := by
  by_cases hshort : data.length < headerSize
  · exact Or.inl ⟨.tooShort, by rw [unmarshal, unmarshalBinary, if_pos hshort]; rfl⟩
  -- the header is there, so every read of it succeeds; the checks follow in the order of the source
  have hlen : 25 ≤ data.length := not_lt.mp hshort
  have hfield : ∀ w i, i + w ≤ 25 → (slice data i w).length = w := fun w i hi =>
    length_slice_of_le (by omega)
  have hread : ∀ w i, i + w ≤ 25 →
      (readLEAt w data i : Checked BloomError ℕ) = .ok (leNat (slice data i w)) := fun w i hi =>
    readLEAt_of_le (by omega)
  rw [unmarshal, unmarshalBinary, if_neg hshort, hread 4 0 (by decide),
    elemAt_of_lt (by omega : 4 < data.length), hread 8 5 (by decide), hread 4 13 (by decide),
    hread 8 17 (by decide)]
  simp only [lift_ok_bind]
  by_cases hmagic : leNat (slice data 0 4) = magic
  swap
  · exact Or.inl ⟨_, by rw [if_pos hmagic]; rfl⟩
  by_cases hversion : data[4] = version
  swap
  · exact Or.inl ⟨_, by rw [if_neg (not_not.mpr hmagic), if_pos hversion]; rfl⟩
  set numBits := leNat (slice data 5 8) with hnumBits
  set numHashes := leNat (slice data 13 4) with hnumHashes
  rw [if_neg (not_not.mpr hmagic), if_neg (not_not.mpr hversion)]
  by_cases hbits : numBits = 0 ∨ numBits % wordBits ≠ 0
  · exact Or.inl ⟨_, by rw [if_pos hbits]; rfl⟩
  by_cases hhashes : numHashes = 0
  · exact Or.inl ⟨_, by rw [if_neg hbits, if_pos hhashes]; rfl⟩
  rw [if_neg hbits, if_neg hhashes]
  by_cases hlength : data.length = headerSize + numBits / wordBits * 8
  swap
  · exact Or.inl ⟨_, by rw [if_pos hlength]; rfl⟩
  rw [if_neg (not_not.mpr hlength)]
  have hbitsLt : numBits < 2 ^ 64 := leNat_lt_of_length (hfield 8 5 (by decide))
  have hhashesLt : numHashes < 2 ^ 32 := leNat_lt_of_length (hfield 4 13 (by decide))
  have hseedLt : leNat (slice data 17 8) < 2 ^ 64 := leNat_lt_of_length (hfield 8 17 (by decide))
  obtain ⟨hzero, hmod⟩ := not_or.mp hbits
  obtain ⟨ws, hws, hwsLen, hflat⟩ := readWords_eq
    (show headerSize + numBits / wordBits * 8 ≤ data.length by omega)
  have hdiv : numBits / wordBits * 64 = numBits :=
    Nat.div_mul_cancel (Nat.dvd_of_mod_eq_zero (not_not.mp hmod))
  -- all checks passed: the fields are those of a filter, and writing them gives the bytes
  refine Or.inr ⟨_, by rw [hws]; rfl, ⟨?_, ?_, ?_⟩, ?_⟩
  · rw [UInt64.toNat_ofNat', Nat.mod_eq_of_lt hbitsLt]
    omega
  · rw [UInt64.toNat_ofNat', Nat.mod_eq_of_lt hbitsLt, hwsLen, hdiv]
  · rw [UInt32.toNat_ofNat', Nat.mod_eq_of_lt hhashesLt]
    omega
  · have hone : slice data 4 1 = [version] := by
      rw [slice, List.drop_eq_getElem_cons (by omega : 4 < data.length), List.take_succ_cons,
        List.take_zero, hversion]
    rw [Filter.marshalBinary, hflat, UInt64.toNat_ofNat', UInt64.toNat_ofNat', UInt32.toNat_ofNat',
      Nat.mod_eq_of_lt hbitsLt, Nat.mod_eq_of_lt hhashesLt, Nat.mod_eq_of_lt hseedLt,
      ← hmagic, leBytes_leNat_of_length (hfield 4 0 (by decide)), hnumHashes,
      leBytes_leNat_of_length (hfield 4 13 (by decide)),
      leBytes_leNat_of_length (hfield 8 17 (by decide))]
    conv_lhs => rw [eq_fields hlength, hone]
    rw [hnumBits, leBytes_leNat_of_length (hfield 8 5 (by decide))]
    rfl

/-- What `ReadFilter` accepts is the encoding of the filter it returns. -/
theorem readFilter_cases (data : Bytes) :
    (∃ e, readFilter data = fail e) ∨
      ∃ f : Filter, readFilter data = .ok f ∧ f.Sound ∧ data = f.marshalBinary := by
  rcases Filter.unmarshal_cases ⟨[], 0, 0, 0⟩ data with ⟨e, hfail⟩ | ⟨f, hok, hf⟩
  · exact Or.inl ⟨e, by rw [readFilter, hfail]; rfl⟩
  · exact Or.inr ⟨f, by rw [readFilter, hok], hf⟩

theorem readFilter_marshalBinary {f : Filter} (h : f.Sound) :
    readFilter f.marshalBinary = .ok f := by
  rw [readFilter, Filter.unmarshal_marshalBinary _ h]

end Seol.Bloom
