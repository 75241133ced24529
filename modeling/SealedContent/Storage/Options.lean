import SealedContent.Validity

/-! # Read options

How the sections of a container are read: with which policy, and through a cache of which shape.
-/

namespace SealedContent

/-- How the sections of a container are read. -/
structure ReadOptions where
  /-- The policy where the caller names none. -/
  policy : Policy := .fail
  /-- The size of a cache block. -/
  cacheBlockSize : Nat := 0x4000
  /-- The number of blocks that a cache keeps. Without any, sections are read uncached. -/
  cacheCapacity : Nat := 4
deriving DecidableEq, Repr, Inhabited

namespace ReadOptions

def withPolicy (options : ReadOptions) (policy : Policy) : ReadOptions := { options with policy }

/-- The options with another size of cache blocks. Blocks hold at least one byte. -/
def withCacheBlockSize (options : ReadOptions) (size : Nat) : ReadOptions :=
  { options with cacheBlockSize := max size 1 }

/-- The options with another number of cache blocks. -/
def withCacheCapacity (options : ReadOptions) (capacity : Nat) : ReadOptions :=
  { options with cacheCapacity := capacity }

end ReadOptions

end SealedContent
