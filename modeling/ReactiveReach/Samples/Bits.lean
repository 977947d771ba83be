import ReactiveReach.Samples.Tabled

/-!
# Sets of flags

A value is a set of 32 flags, one per bit. A sub-machine may remove and add flags, but it does
nothing to a value without any flag, which stands for no configuration at all.
-/

namespace ReactiveReach.Samples

/-- The flags that a step of a sub-machine removes and then adds. -/
structure Remap where
  add : UInt32
  remove : UInt32
  deriving DecidableEq

/-- The flags after a step. -/
def Remap.apply (remap : Remap) (flags : UInt32) : UInt32 :=
  if flags = 0 then 0 else (flags &&& ~~~remap.remove) ||| remap.add

/-- Sets of flags as values and as predicates. -/
def bits : Carrier UInt32 UInt32 Remap where
  bottom _ := 0
  top := 0xFFFFFFFF
  meet a b := a &&& b
  join a b := a ||| b
  apply := Remap.apply
  meaning predicate := predicate
  meets a b := a &&& b != 0

end ReactiveReach.Samples
