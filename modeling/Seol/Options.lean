import Mathlib

/-!
# Options and the sizes derived from them

Reference: `Options`, `normalizeOptions` and `memtableArenaSize` in `db.go`. The sizes are signed
64-bit integers, and so is the arithmetic on them.
-/

namespace Seol

/-- The options the store's logic reads. -/
structure Options where
  memtableMaxBytes : Int64
  valueLogSegmentMaxBytes : Int64
  valueThreshold : Int64
deriving DecidableEq

/-- `defaultMemtableMaxBytes`. -/
def defaultMemtableMaxBytes : Int64 := 4 * 2 ^ 20

/-- `minMemtableArenaSize`. -/
def minMemtableArenaSize : Int64 := 2 ^ 20

/-- `defaultValueThreshold`. -/
def defaultValueThreshold : Int64 := 2 * 2 ^ 10

/-- `normalizeOptions`. -/
def normalizeOptions (opts : Options) : Options :=
  { opts with
    memtableMaxBytes :=
      if opts.memtableMaxBytes ≤ 0 then defaultMemtableMaxBytes else opts.memtableMaxBytes
    valueThreshold :=
      if opts.valueThreshold ≤ 0 then defaultValueThreshold else opts.valueThreshold }

/-- `memtableArenaSize`: the doubling wraps. -/
def memtableArenaSize (maxBytes : Int64) : Int64 :=
  let sz := maxBytes * 2
  if sz < minMemtableArenaSize then minMemtableArenaSize else sz

/-- A size as a natural number. -/
def size (n : Int64) : ℕ := n.toInt.toNat

end Seol
