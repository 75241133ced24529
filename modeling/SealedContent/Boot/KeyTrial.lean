import SealedContent.Keys.Ring

/-! # Key trials

A boot package does not say which generation its key belongs to. The known keys are tried from the
oldest generation on, until one decrypts the magic.
-/

namespace SealedContent.KeyRing

/-- The known keys of a family with the generations they belong to, the oldest first. -/
def knownGenerations (ring : KeyRing) (family : KeyFamily) : List (Nat × Aes.Block) :=
  (List.range generationCount).filterMap fun generation =>
    (ring.block? family generation).map (generation, ·)

/-- The oldest known key that opens something. Without any key the first one is missing; if none of
    them opens it, the fault tells how many were tried. -/
def oldestOpening (ring : KeyRing) (family : KeyFamily) (opens : Aes.Block → Bool)
    (fault : (tried : Nat) → FormatFault) : Except Error (Nat × Aes.Block) :=
  let keys := ring.knownGenerations family
  match keys.find? fun key => opens key.2 with
  | some key => .ok key
  | none =>
    if keys = [] then .error (.missingKey (Slot.name ⟨family, 0⟩) .common)
    else .error (.format (fault keys.length))

end SealedContent.KeyRing
