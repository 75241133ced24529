import SealedContent.Proofs.Storage.Holds
import SealedContent.Proofs.Storage.Tiling

/-! # Strings that tables assemble

A table of ranges makes a string piece by piece (`assemble`): `BucketTree.sealGenerations` encrypts every
subsection under its generation, and `BucketTree.relocate` takes every range from where its entry says. The nodes
over a table without gaps hold the data that was encrypted, and the bytes that are relocated:
`Storage.Holds.generations`, `Storage.Holds.indirect`.
-/

namespace SealedContent

/-! ## Assembly -/

section

variable {α : Type} {key : α → Nat} {size start position : Nat} {items early late : List α} {item : α}

/-- A piece for every item, made from the item and the end of its range. -/
def assemble (key : α → Nat) (size : Nat) (piece : α → Nat → Bytes) : List α → Bytes
  | [] => []
  | item :: later => piece item (limit key size later) ++ assemble key size piece later

/-- Something holds of every item and the end of its range. -/
def EachRange (key : α → Nat) (size : Nat) (holds : α → Nat → Prop) : List α → Prop
  | [] => True
  | item :: later => holds item (limit key size later) ∧ EachRange key size holds later

theorem eachRange_iff {holds : α → Nat → Prop} : EachRange key size holds items ↔
    ∀ early item late, items = early ++ item :: late → holds item (limit key size late) := by
  induction items with
  | nil => exact ⟨fun _ early item late split => by simp at split, fun _ => trivial⟩
  | cons first later inductionHypothesis =>
    rw [EachRange, inductionHypothesis]
    constructor
    · rintro ⟨here, rest⟩ early item late split
      obtain ⟨rfl, same⟩ | ⟨early', rfl, same⟩ := List.cons_eq_append_iff.mp split
      · cases same
        exact here
      · exact rest early' item late same
    · intro all
      exact ⟨all [] first later rfl, fun early item late split => all (first :: early) item late (by rw [split]; rfl)⟩

/-- Every piece is as long as the range of its item. -/
def Fitting (key : α → Nat) (size : Nat) (piece : α → Nat → Bytes) : List α → Prop :=
  EachRange key size fun item last => (piece item last).length = last - key item

variable {piece : α → Nat → Bytes}

theorem length_assemble (tiles : Tiles key size start items) (fitting : Fitting key size piece items) :
    (assemble key size piece items).length = size - start := by
  induction items generalizing start with
  | nil =>
    have empty : start = size := tiles
    rw [empty, Nat.sub_self]
    rfl
  | cons item later inductionHypothesis =>
    obtain ⟨same, nonempty, rest⟩ := tiles
    obtain ⟨long, others⟩ := fitting
    have := rest.start_le
    rw [assemble, List.length_append, long, inductionHypothesis rest others, same]
    omega

/-- A position of an assembled string lies in the piece of the item around it. -/
theorem getElem?_assemble (fitting : Fitting key size piece (early ++ item :: late))
    (tiles : Tiles key size start (early ++ item :: late)) (started : key item ≤ position)
    (before : position < limit key size late) :
    (assemble key size piece (early ++ item :: late))[position - start]? =
      (piece item (limit key size late))[position - key item]? := by
  induction early generalizing start with
  | nil =>
    have same : key item = start := tiles.1
    have long := fitting.1
    rw [List.nil_append, assemble, ← same, List.getElem?_append_left (by omega)]
  | cons first early inductionHypothesis =>
    rw [List.cons_append] at tiles fitting ⊢
    obtain ⟨same, nonempty, rest⟩ := tiles
    obtain ⟨long, others⟩ := fitting
    -- the first piece ends where the next item starts, which is not behind the item around the position
    have behind : limit key size (early ++ item :: late) ≤ key item := rest.split.1
    rw [assemble, List.getElem?_append_right (by omega), long, same,
      ← inductionHypothesis others rest]
    congr 1
    omega

end

/-! ## Generations and relocations -/

namespace BucketTree

/-- The range of a subsection under the keystream of its generation, if byte zero of the data lies at `start` in
    the container. -/
def sealedPiece (key : Aes.Block) (upper start : Nat) (data : Bytes) (entry : Subsection) (last : Nat) : Bytes :=
  Aes.ctrAt key (Aes.generationCounter upper entry.generation) (start + entry.offset)
    (data.window entry.offset (last - entry.offset))

/-- Data every subsection of which is encrypted under its generation. -/
def sealGenerations (key : Aes.Block) (upper start : Nat) (table : BucketTree Subsection) (data : Bytes) : Bytes :=
  assemble BucketEntry.offset table.size (sealedPiece key upper start data) table.entries

/-- The range of a relocation, from its source in the base or in the patch. -/
def relocatedPiece (base patch : Bytes) (entry : Relocation) (last : Nat) : Bytes :=
  (if entry.storage = 0 then base else patch).window entry.source (last - entry.offset)

/-- All ranges of a table, each from its source. -/
def relocate (table : BucketTree Relocation) (base patch : Bytes) : Bytes :=
  assemble BucketEntry.offset table.size (relocatedPiece base patch) table.entries

/-- The source of every range lies inside the base or inside the patch. -/
def StaysInside (table : BucketTree Relocation) (base patch : Bytes) : Prop :=
  EachRange BucketEntry.offset table.size (fun entry last =>
    (entry.storage = 0 ∧ entry.source + (last - entry.offset) ≤ base.length) ∨
    (entry.storage = 1 ∧ entry.source + (last - entry.offset) ≤ patch.length)) table.entries

/-! ### Lengths -/

variable {subsections : BucketTree Subsection} {relocations : BucketTree Relocation} {data base patch : Bytes}

theorem fitting_sealedPiece (gapless : subsections.Gapless) (covered : subsections.size = data.length)
    (key : Aes.Block) (upper start : Nat) :
    Fitting BucketEntry.offset subsections.size (sealedPiece key upper start data) subsections.entries := by
  refine eachRange_iff.mpr fun early entry late split => ?_
  have tiles : Tiles BucketEntry.offset subsections.size 0 (early ++ entry :: late) := split ▸ gapless.entries
  obtain ⟨-, -, nonempty, rest⟩ := tiles.split
  have within := rest.start_le
  have starts : limit BucketEntry.offset subsections.size (entry :: late) = entry.offset := rfl
  rw [sealedPiece, Aes.length_ctrAt, Bytes.length_window (by omega)]
  rfl

theorem length_sealGenerations (gapless : subsections.Gapless) (covered : subsections.size = data.length)
    (key : Aes.Block) (upper start : Nat) :
    (sealGenerations key upper start subsections data).length = data.length :=
  (length_assemble gapless.entries (fitting_sealedPiece gapless covered key upper start)).trans covered

theorem StaysInside.fitting (inside : relocations.StaysInside base patch) :
    Fitting BucketEntry.offset relocations.size (relocatedPiece base patch) relocations.entries := by
  refine eachRange_iff.mpr fun early entry late split => ?_
  simp only [relocatedPiece]
  cases eachRange_iff.mp inside early entry late split with
  | inl fromBase =>
    rw [if_pos fromBase.1]
    exact Bytes.length_window fromBase.2
  | inr fromPatch =>
    rw [if_neg (by rw [fromPatch.1]; decide)]
    exact Bytes.length_window fromPatch.2

theorem length_relocate (gapless : relocations.Gapless) (inside : relocations.StaysInside base patch) :
    (relocations.relocate base patch).length = relocations.size :=
  length_assemble gapless.entries inside.fitting

/-! ### Positions -/

/-- The entry that is found at a position is the one whose piece has the byte there. -/
theorem Gapless.assembled {E : Type} [BucketEntry E] {tree : BucketTree E} {piece : E → Nat → Bytes}
    (gapless : tree.Gapless) (fitting : Fitting BucketEntry.offset tree.size piece tree.entries) {position : Nat}
    (below : position < tree.size) :
    ∃ early entry late, tree.entries = early ++ entry :: late ∧ BucketEntry.offset entry ≤ position ∧
      position < limit BucketEntry.offset tree.size late ∧
      tree.find? position = some (entry, limit BucketEntry.offset tree.size late) ∧
      (assemble BucketEntry.offset tree.size piece tree.entries)[position]? =
        (piece entry (limit BucketEntry.offset tree.size late))[position - BucketEntry.offset entry]? := by
  obtain ⟨early, entry, late, split, started, before, found⟩ := gapless.find? below
  refine ⟨early, entry, late, split, started, before, found, ?_⟩
  have tiles := gapless.entries
  rw [split] at fitting tiles ⊢
  exact getElem?_assemble fitting tiles started before

end BucketTree

/-! ## Nodes -/

namespace Storage.Holds

open BucketTree

variable {subsections : BucketTree Subsection} {relocations : BucketTree Relocation}

/-- Subsections are decrypted under their generations. -/
theorem generations {inner : Storage} {data : Bytes} (gapless : subsections.Gapless)
    (covered : subsections.size = data.length) {key : Aes.Block} {upper start : Nat}
    (holds : inner.Holds (sealGenerations key upper start subsections data))
    (fits : start + data.length ≤ UInt64.size) :
    (Storage.decrypt inner (.generations key upper start subsections)).Holds data := by
  have sized : inner.size = data.length := by rw [holds.size, length_sealGenerations gapless covered]
  refine ⟨sized, fun position => ?_, by rwa [← sized] at fits, holds.fits⟩
  simp only [Storage.byte?, ByteMap.decrypted]
  by_cases below : position < subsections.size
  · -- the data was encrypted with the entry that the node looks up
    obtain ⟨early, entry, late, -, started, before, found, piece⟩ :=
      gapless.assembled (fitting_sealedPiece gapless covered key upper start) below
    have here : BucketEntry.offset entry = entry.offset := rfl
    have place : entry.offset + (position - entry.offset) = position := Nat.add_sub_cancel' started
    rw [found, holds.byte, sealGenerations, piece, sealedPiece, Aes.getElem?_ctrAt,
      Bytes.getElem?_window (by omega), here, Nat.add_assoc, place]
    exact Aes.map_xor_map_xor _ _
  · rw [find?_outside (by omega), List.getElem?_eq_none (by omega)]

/-- Ranges are read from where they were relocated to. -/
theorem indirect {base patch : Storage} {original patched : Bytes} (fromBase : base.Holds original)
    (fromPatch : patch.Holds patched) (gapless : relocations.Gapless)
    (inside : relocations.StaysInside original patched) :
    (Storage.indirect base patch relocations).Holds (relocations.relocate original patched) := by
  refine ⟨(length_relocate gapless inside).symm, fun position => ?_, fromBase.fits, fromPatch.fits⟩
  simp only [Storage.byte?, ByteMap.relocated]
  by_cases below : position < relocations.size
  · obtain ⟨early, entry, late, split, started, before, found, piece⟩ := gapless.assembled inside.fitting below
    have here : BucketEntry.offset entry = entry.offset := rfl
    rw [found, relocate, piece, relocatedPiece, Bytes.getElem?_window (by omega), here]
    cases eachRange_iff.mp inside early entry late split with
    | inl zero =>
      simp only [Relocation.choose?, zero.1, Option.bind_some, if_true, fromBase.byte]
    | inr one =>
      simp only [Relocation.choose?, one.1, Option.bind_some, Nat.one_ne_zero, if_false, fromPatch.byte]
  · rw [find?_outside (by omega), List.getElem?_eq_none (by rw [length_relocate gapless inside]; omega)]

end Storage.Holds

end SealedContent
