import Memero.Basic.Bytes

/-!
# Curve arithmetic through libsodium

`math/group/functional/group.cpp` and the parts of `math/ringct/functional/rctOps.cpp`
that verification uses. The library reports an error for some operands; the wrappers then
log a message and return a local `ec_point` that was never written. A computation on
points therefore depends on the contents of uninitialised memory: `PointM` passes them as
a stream indexed by the number of failed calls so far, and counts those calls.
-/

namespace Memero

/-- What the program uses of libsodium and of the curve and hash code below it. A point
operation that reports an error returns `none` and leaves its output untouched. -/
structure Sodium where
  /-- The order of the main subgroup. -/
  order : Nat
  /-- `crypto_core_ed25519_add`. -/
  add : EcPoint → EcPoint → Option EcPoint
  /-- `crypto_core_ed25519_sub`. -/
  sub : EcPoint → EcPoint → Option EcPoint
  /-- `crypto_scalarmult_ed25519_noclamp`. -/
  scalarmultNoclamp : EcScalar → EcPoint → Option EcPoint
  /-- `crypto_scalarmult_ed25519_base_noclamp`, which always writes its output. -/
  scalarmultBaseNoclamp : EcScalar → EcPoint
  /-- `crypto_core_ed25519_is_valid_point`. -/
  isValidPoint : EcPoint → Bool
  /-- `mult8_fast`. -/
  mult8Fast : EcPoint → EcPoint
  /-- `hash_to_point_via_field`. -/
  hashToPointViaField : CryptoData → EcPoint
  /-- The second generator `rct::H`. -/
  H : EcPoint
  /-- `s_inv_eight`. -/
  invEight : EcScalar
  /-- `hash_dataV`. -/
  hashDataV : List CryptoData → Hash

/-- `crypto::identity`: a first byte of one and zeros. -/
def identity : EcPoint := 2 ^ 248

/-! ## Computations that may read uninitialised memory -/

/-- The contents of uninitialised memory, by the number of earlier failed calls. -/
abbrev Uninit := Nat → EcPoint

/-- A computation on points, with the number of calls that have failed. -/
structure PointM (α : Type) where
  run : Uninit → Nat → α × Nat

namespace PointM

variable {α β : Type}

instance : Monad PointM where
  pure value := ⟨fun _ failures => (value, failures)⟩
  bind first next := ⟨fun uninit failures =>
    (next (first.run uninit failures).1).run uninit (first.run uninit failures).2⟩

/-- The value with no call failed yet. -/
def value (program : PointM α) (uninit : Uninit) : α :=
  (program.run uninit 0).1

/-- The number of calls that fail. -/
def failures (program : PointM α) (uninit : Uninit) : Nat :=
  (program.run uninit 0).2

/-- The result of a library call: on an error, whatever the memory held. -/
def ofResult (result : Option EcPoint) : PointM EcPoint :=
  ⟨fun uninit failures =>
    match result with
    | some point => (point, failures)
    | none => (uninit failures, failures + 1)⟩

end PointM

namespace Sodium

variable (sodium : Sodium)

/-! ## `group.cpp` -/

/-- `crypto::add`. -/
def addPoints (X Y : EcPoint) : PointM EcPoint :=
  PointM.ofResult (sodium.add X Y)

/-- `crypto::sub`. -/
def subPoints (X Y : EcPoint) : PointM EcPoint :=
  PointM.ofResult (sodium.sub X Y)

/-- `crypto::mult`. -/
def mult (a : EcScalar) (X : EcPoint) : PointM EcPoint :=
  if a = 0 then
    pure identity
  else
    PointM.ofResult (sodium.scalarmultNoclamp a X)

/-- Multiplication of scalars. -/
def mulScalars (a b : EcScalar) : EcScalar :=
  a * b % sodium.order

/-- `crypto::reduce`. -/
def reduce (x : EcScalar) : EcScalar :=
  x % sodium.order

/-- `crypto::is_reduced`. -/
def isReduced (x : EcScalar) : Bool :=
  sodium.reduce x == x

/-- `crypto::maybeSafePoint`. -/
def maybeSafePoint (x : EcPoint) : Option EcPoint :=
  if sodium.isValidPoint x then some x else none

/-- `consensus::are_points_safe`. -/
def arePointsSafe (xs : List EcPoint) : Option (List EcPoint) :=
  xs.mapM sodium.maybeSafePoint

/-! ## `rctOps.cpp` -/

/-- `rct::sum`. -/
def sum (points : List EcPoint) : PointM EcPoint :=
  points.foldlM sodium.addPoints identity

/-- `rct::H_`. -/
def multH (a : EcScalar) : PointM EcPoint :=
  sodium.mult a sodium.H

/-- `rct::to_inv8`. -/
def toInv8 (x : EcPoint) : PointM EcPoint :=
  sodium.mult sodium.invEight x

/-- `rct::maybe_from_inv8`. -/
def maybeFromInv8 (x : EcPoint) : Option EcPoint :=
  (sodium.maybeSafePoint x).map sodium.mult8Fast

/-- `rct::dummyCommit`: the commitment to a public amount, with blinding factor one. -/
def dummyCommit (amount : Nat) : PointM EcPoint := do
  let masked ← sodium.multH amount
  sodium.addPoints (sodium.scalarmultBaseNoclamp 1) masked

/-- `rct::hash_dataV_to_scalar`. -/
def hashDataVToScalar (keys : List CryptoData) : EcScalar :=
  sodium.reduce (sodium.hashDataV keys)

end Sodium

/-- A domain separator written at the start of an otherwise zero 32-byte block. -/
def dataOfString (text : String) : CryptoData :=
  text.toList.foldl (fun value char => value * 256 + char.toNat) 0 * 256 ^ (32 - text.length)

end Memero
