import Mathlib.Data.List.Range
import SealedContent.Boot.KeyTrial

/-! # Which key a trial finds

The key that a trial finds belongs to the first generation that opens what is sealed, and there is no other:
`KeyRing.oldestOpening_eq_ok_iff`. A key is missing where none is known: `KeyRing.oldestOpening_eq_missing_iff`.
-/

namespace SealedContent.KeyRing

variable {ring : KeyRing} {family : KeyFamily} {opens : Aes.Block → Bool} {generation : Nat} {key : Aes.Block}

/-- Keys of a family with one slot for each generation belong to a generation. -/
theorem lt_generationCount (slots : family.slotCount = generationCount)
    (known : ring.block? family generation = some key) : generation < generationCount := by
  obtain ⟨value, found, -⟩ := Option.map_eq_some_iff.mp known
  exact slots ▸ (ring.holds _ _ found).1

theorem find?_knownGenerations :
    (ring.knownGenerations family).find? (fun found => opens found.2) = some (generation, key) ↔
      generation < generationCount ∧ ring.block? family generation = some key ∧ opens key = true ∧
        ∀ older < generation, ∀ other, ring.block? family older = some other → opens other = false := by
  rw [knownGenerations, List.find?_filterMap, Option.bind_eq_some_iff]
  simp only [List.find?_range_eq_some, List.mem_range]
  constructor
  · rintro ⟨first, ⟨opened, inside, before⟩, same⟩
    obtain ⟨known, there, pair⟩ := Option.map_eq_some_iff.mp same
    cases pair
    rw [there] at opened
    refine ⟨inside, there, opened, fun older earlier other present => ?_⟩
    have refused := before older earlier
    rw [present] at refused
    simpa using refused
  · rintro ⟨inside, there, opened, before⟩
    refine ⟨generation, ⟨by rw [there]; exact opened, inside, fun older earlier => ?_⟩, by rw [there]; rfl⟩
    cases present : ring.block? family older with
    | none => rfl
    | some other => simpa using before older earlier other present

/-- The key that is found is the one of the first known generation that opens. -/
theorem oldestOpening_eq_ok_iff {fault : (tried : Nat) → FormatFault} :
    ring.oldestOpening family opens fault = .ok (generation, key) ↔
      generation < generationCount ∧ ring.block? family generation = some key ∧ opens key = true ∧
        ∀ older < generation, ∀ other, ring.block? family older = some other → opens other = false := by
  rw [← find?_knownGenerations, oldestOpening]
  cases (ring.knownGenerations family).find? (fun found => opens found.2) with
  | some found => simp
  | none =>
    dsimp only
    split <;> simp

theorem knownGenerations_eq_nil_iff :
    ring.knownGenerations family = [] ↔ ∀ generation < generationCount, ring.block? family generation = none := by
  simp [knownGenerations, List.filterMap_eq_nil_iff]

/-- A trial lacks a key where there was none to try. -/
theorem oldestOpening_eq_missing_iff {fault : (tried : Nat) → FormatFault} {name : String} {kind : KeyKind} :
    ring.oldestOpening family opens fault = .error (.missingKey name kind) ↔
      name = Slot.name ⟨family, 0⟩ ∧ kind = .common ∧
        ∀ generation < generationCount, ring.block? family generation = none := by
  rw [← knownGenerations_eq_nil_iff, oldestOpening]
  cases none : ring.knownGenerations family with
  | nil => simp [eq_comm]
  | cons first rest => split <;> simp

end SealedContent.KeyRing
