import SealedContent.Proofs.Session
import SealedContent.Storage.HashTree

/-! # The levels of a hash tree

`LevelChain` says what the levels of a tree are: windows onto the content, one after the other, each
of them checked against the level before. `levelChain_of_make` says that a tree that opens has such
levels below its master hash.
-/

namespace SealedContent

variable {content : Storage} {policy : Policy} {padded : Bool} {session : Session}

/-! ## One level -/

theorem HashLevel.of_make {data hashes : Storage} {check : BlockCheck} {level : HashLevel}
    (made : (HashLevel.make data hashes check).result session = .ok level) :
    level = ⟨session.verdicts.size, check, data, hashes⟩ ∧ 0 < check.blockSize ∧
      (data.size + (check.blockSize - 1)) / check.blockSize * Sha256.size ≤ hashes.size ∧
      (HashLevel.make data hashes check).after session =
        { session with verdicts := session.verdicts.push #[] } := by
  simp only [HashLevel.make] at *
  by_cases zero : check.blockSize = 0
  · simp only [zero, if_true] at made
    cases made
  · by_cases short : hashes.size < (data.size + (check.blockSize - 1)) / check.blockSize * Sha256.size
    · simp only [zero, short, if_true, if_false] at made
      cases made
    · simp only [zero, short, if_false] at made ⊢
      cases made
      exact ⟨rfl, by omega, by omega, rfl⟩

theorem HashLevel.after_make_error {data hashes : Storage} {check : BlockCheck} {error : Error}
    (refused : (HashLevel.make data hashes check).result session = .error error) :
    (HashLevel.make data hashes check).after session = session := by
  simp only [HashLevel.make] at *
  by_cases zero : check.blockSize = 0
  · simp only [zero, if_true]; rfl
  · by_cases short : hashes.size < (data.size + (check.blockSize - 1)) / check.blockSize * Sha256.size
    · simp only [zero, short, if_true, if_false]; rfl
    · simp only [zero, short, if_false] at refused
      cases refused

/-! ## All levels -/

/-- Levels at the given placements, the first of them with this number and over these hashes. -/
inductive LevelChain (content : Storage) (policy : Policy) (padded : Bool) :
    (number : Nat) → (hashes : Storage) → List HashPlacement → List HashLevel → Prop where
  | nil {number hashes} : LevelChain content policy padded number hashes [] []
  | cons {number hashes cell data rest levels} {placement : HashPlacement}
      (windowed : content.window placement.offset placement.size = .ok data)
      (positive : 0 < placement.blockSize)
      (enough : (data.size + (placement.blockSize - 1)) / placement.blockSize * Sha256.size ≤ hashes.size)
      (below : LevelChain content policy padded (number + 1)
        (.verified cell ⟨placement.blockSize, number, policy, padded⟩ data hashes) rest levels) :
      LevelChain content policy padded number hashes (placement :: rest)
        (⟨cell, ⟨placement.blockSize, number, policy, padded⟩, data, hashes⟩ :: levels)

theorem LevelChain.head_hashes {number : Nat} {hashes : Storage} {placements : List HashPlacement}
    {levels : List HashLevel} (chain : LevelChain content policy padded number hashes placements levels) :
    ∀ first, levels.head? = some first → first.hashes = hashes := by
  cases chain with
  | nil => exact nofun
  | cons => rintro first ⟨⟩; rfl

theorem levelChain_of_chain (placements : List HashPlacement) :
    ∀ {number : Nat} {hashes : Storage} {session : Session} {levels : List HashLevel},
    (HashTree.chain content policy padded number hashes placements).result session = .ok levels →
    LevelChain content policy padded number hashes placements levels := by
  induction placements with
  | nil =>
    intro number hashes session levels made
    cases made
    exact .nil
  | cons placement rest inductionHypothesis =>
    intro number hashes session levels made
    simp only [HashTree.chain] at made
    -- the window, the level and the levels below were all made
    obtain ⟨data, windowed, made⟩ := SessionM.bind_eq_ok made
    obtain ⟨level, levelMade, made⟩ := SessionM.bind_eq_ok made
    obtain ⟨others, othersMade, made⟩ := SessionM.bind_eq_ok made
    obtain ⟨rfl, positive, enough, -⟩ := HashLevel.of_make levelMade
    cases made
    exact .cons windowed positive enough (inductionHypothesis othersMade)

theorem levelChain_of_make {master : Bytes} {placements : List HashPlacement} {tree : HashTree}
    (made : (HashTree.make content master placements padded policy).result session = .ok tree) :
    LevelChain content policy padded 1 (.ofBytes master) placements tree.levels := by
  simp only [HashTree.make] at made
  obtain ⟨levels, levelsMade, made⟩ := SessionM.bind_eq_ok made
  have chained := levelChain_of_chain placements levelsMade
  cases levels with
  | nil => cases made
  | cons first rest =>
    by_cases unchecked : policy = .off
    · simp only [unchecked, ne_eq, not_true_eq_false, if_false] at made
      cases made
      exact chained
    · simp only [ne_eq, unchecked, not_false_eq_true, if_true] at made
      obtain ⟨-, -, made⟩ := SessionM.bind_eq_ok made
      cases made
      exact chained

end SealedContent
