import ReactiveReach.Samples.Tabled

/-!
# Counters

A value is a count that wraps at 2^64. Joining adds counts, so joining a count to itself changes
it: counters are no lattice, and an analysis over them need not come to rest.
-/

namespace ReactiveReach.Samples

/-- A step that multiplies a count and then adds to it. -/
structure Affine where
  factor : UInt64
  summand : UInt64
  deriving DecidableEq

/-- Counts as values, words of 32 bits as predicates. -/
def counter : Carrier UInt64 UInt32 Affine where
  bottom _ := 0
  top := 0xFFFFFFFFFFFFFFFF
  meet a b := min a b
  join a b := a + b
  apply step count := count * step.factor + step.summand
  meaning predicate := predicate.toUInt64
  meets a b := b ≤ a

end ReactiveReach.Samples
