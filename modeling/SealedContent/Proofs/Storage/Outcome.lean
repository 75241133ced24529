import Mathlib.Data.List.Forall2
import SealedContent.Storage.HashTree
import SealedContent.Proofs.Session

/-! # Reads without a memory

`Storage.outcome` is a read that looks into no cache and at no recorded verdict: every block is
fetched from below and every hash is compared again. `read_answers` in `Proofs.Storage.Graph` says
that it is the outcome of every read, whatever was read before.
-/

namespace SealedContent

/-! ## Serving a range -/

/-- A range through a cache that holds nothing. -/
def cachedOutcome (blockSize size : Nat) (inner : Fetch (Except Error)) (offset length : Nat) :
    Except Error Bytes := do
  let blocks ← (touchedBlocks blockSize offset length).mapM fun block =>
    inner (block * blockSize) (blockLength size blockSize block)
  return cutRange blockSize offset length blocks

namespace BlockCheck

/-- A block and the verdict on it. -/
def judge (check : BlockCheck) (size : Nat) (data hashes : Fetch (Except Error)) (block : Nat) :
    Except Error (Bytes × Validity) := do
  let bytes ← data (block * check.blockSize) (blockLength size check.blockSize block)
  let hash ← hashes (block * Sha256.size) Sha256.size
  return (bytes, check.verdict bytes hash)

/-- Only the failing policy refuses a block. -/
def refuse (check : BlockCheck) (block : Nat) (verdict : Validity) : Except Error Unit :=
  if verdict = .invalid ∧ check.policy = .fail then .error (.integrity check.level block) else .ok ()

/-- A block as a read takes it. -/
def accept (check : BlockCheck) (size : Nat) (data hashes : Fetch (Except Error)) (block : Nat) :
    Except Error Bytes := do
  let (bytes, verdict) ← check.judge size data hashes block
  check.refuse block verdict
  return bytes

end BlockCheck

/-- A range of verified data of which no block has a verdict. -/
def verifiedOutcome (check : BlockCheck) (size : Nat) (data hashes : Fetch (Except Error))
    (offset length : Nat) : Except Error Bytes :=
  if check.policy = .off then data offset length
  else do
    let blocks ← (touchedBlocks check.blockSize offset length).mapM
      (check.accept size data hashes)
    return cutRange check.blockSize offset length blocks

/-! ## Steps of an outcome -/

section

variable {α β : Type}

/-- Both steps succeed where their composition does. -/
theorem ok_of_bind {outcome : Except Error α} {next : α → Except Error β} {value : β}
    (gives : outcome >>= next = .ok value) : ∃ middle, outcome = .ok middle ∧ next middle = .ok value := by
  cases outcome with
  | error error => cases gives
  | ok middle => exact ⟨middle, rfl, gives⟩

theorem ok_bind (value : α) (next : α → Except Error β) : (Except.ok value >>= next) = next value := rfl

theorem mapM_ok {action : α → Except Error β} {value : α → β} {items : List α}
    (all : ∀ item ∈ items, action item = .ok (value item)) : items.mapM action = .ok (items.map value) := by
  induction items with
  | nil => rfl
  | cons first rest inductionHypothesis =>
    rw [List.mapM_cons, all first (by simp), inductionHypothesis fun item member => all item (by simp [member])]
    rfl

/-- Computations one after the other succeed where each of them does. -/
theorem mapM_eq_ok_iff {action : α → Except Error β} {items : List α} {values : List β} :
    items.mapM action = .ok values ↔ List.Forall₂ (fun item value => action item = .ok value) items values := by
  induction items generalizing values with
  | nil =>
    rw [List.mapM_nil, List.forall₂_nil_left_iff]
    exact ⟨fun gives => by cases gives; rfl, fun none => by rw [none]; rfl⟩
  | cons item rest inductionHypothesis =>
    rw [List.mapM_cons, List.forall₂_cons_left_iff]
    constructor
    · intro gives
      obtain ⟨value, found, gives⟩ := ok_of_bind gives
      obtain ⟨others, later, gives⟩ := ok_of_bind gives
      cases gives
      exact ⟨value, others, found, inductionHypothesis.mp later, rfl⟩
    · rintro ⟨value, others, found, later, rfl⟩
      rw [found, inductionHypothesis.mpr later]
      rfl

theorem mapM_range_ok {action : Nat → Except Error β} {values : List β}
    (each : ∀ i (inside : i < values.length), action i = .ok values[i]) :
    (List.range values.length).mapM action = .ok values := by
  refine mapM_eq_ok_iff.mpr (List.forall₂_iff_get.mpr ⟨List.length_range, fun i _ inside => ?_⟩)
  rw [List.get_eq_getElem, List.getElem_range]
  exact each i inside

theorem exists_mapM_ok {action : α → Except Error β} {items : List α}
    (all : ∀ item ∈ items, ∃ value, action item = .ok value) : ∃ values, items.mapM action = .ok values := by
  induction items with
  | nil => exact ⟨[], rfl⟩
  | cons item rest inductionHypothesis =>
    obtain ⟨value, found⟩ := all item (by simp)
    obtain ⟨values, later⟩ := inductionHypothesis fun item member => all item (by simp [member])
    exact ⟨value :: values, by rw [List.mapM_cons, found, later]; rfl⟩

/-- Computations one after the other fail where the first of them fails. -/
theorem mapM_error {action : α → Except Error β} {items : List α}
    (some : ∃ item ∈ items, ∃ error, action item = .error error) :
    ∃ item ∈ items, ∃ error, action item = .error error ∧ items.mapM action = .error error := by
  induction items with
  | nil => simp at some
  | cons first rest inductionHypothesis =>
    rw [List.mapM_cons]
    cases gives : action first with
    | error error => exact ⟨first, by simp, error, gives, rfl⟩
    | ok value =>
      have later : ∃ item ∈ rest, ∃ error, action item = .error error := by
        obtain ⟨item, member, error, fails⟩ := some
        cases List.mem_cons.mp member with
        | inl same => rw [same, gives] at fails; cases fails
        | inr member => exact ⟨item, member, error, fails⟩
      obtain ⟨item, member, error, fails, whole⟩ := inductionHypothesis later
      exact ⟨item, by simp [member], error, fails, by rw [whole]; rfl⟩

/-- Computations that agree on every item, wherever both succeed, agree on all of them. -/
theorem mapM_agree {first second : α → Except Error β} {items : List α}
    (each : ∀ item ∈ items, ∀ value other,
      first item = .ok value → second item = .ok other → value = other) :
    ∀ {values others : List β}, items.mapM first = .ok values → items.mapM second = .ok others →
      values = others := by
  induction items with
  | nil =>
    rintro values others ⟨⟩ ⟨⟩
    rfl
  | cons item rest inductionHypothesis =>
    intro values others gives givesOther
    rw [List.mapM_cons] at gives givesOther
    obtain ⟨value, found, gives⟩ := ok_of_bind gives
    obtain ⟨other, foundOther, givesOther⟩ := ok_of_bind givesOther
    obtain ⟨restValues, later, gives⟩ := ok_of_bind gives
    obtain ⟨restOthers, laterOther, givesOther⟩ := ok_of_bind givesOther
    cases gives
    cases givesOther
    rw [each item (by simp) value other found foundOther, inductionHypothesis
      (fun item member => each item (by simp [member])) later laterOther]

end

/-! ## Storages -/

namespace Storage

mutual

/-- The bytes of a range, or why they cannot be read. -/
def outcome : Storage → (offset length : Nat) → Except Error Bytes
  | memory bytes, offset, length =>
    ranged bytes.size offset length (pure (bytes.extract offset (offset + length)).toList)
  | stream source, offset, length =>
    ranged source.size offset length (pure (source.extract offset (offset + length)).toList)
  | slice parent start size, offset, length =>
    ranged size offset length (parent.outcome (start + offset) length)
  | cache _ inner blockSize _, offset, length =>
    ranged inner.size offset length
      (cachedOutcome blockSize inner.size (fun o n => inner.outcome o n) offset length)
  | decrypt inner cipher, offset, length =>
    ranged inner.size offset length
      (readDecrypted cipher inner.size (fun o n => inner.outcome o n) offset length)
  | concat segments, offset, length =>
    ranged (sizes segments) offset length (segmentsOutcome segments offset length)
  | indirect base patch table, offset, length =>
    ranged table.size offset length
      (readRelocated table (fun o n => base.outcome o n) (fun o n => patch.outcome o n) offset length)
  | verified _ check data hashes, offset, length =>
    ranged data.size offset length
      (verifiedOutcome check data.size (fun o n => data.outcome o n) (fun o n => hashes.outcome o n)
        offset length)

/-- The bytes of a range of several storages end to end, or why they cannot be read. -/
def segmentsOutcome : List Storage → (offset length : Nat) → Except Error Bytes
  | [], _, _ => pure []
  | segment :: rest, offset, length =>
    if length = 0 then pure []
    else if segment.size ≤ offset then segmentsOutcome rest (offset - segment.size) length
    else do
      let count := min (segment.size - offset) length
      let bytes ← segment.outcome offset count
      let others ← segmentsOutcome rest 0 (length - count)
      return bytes ++ others

end

theorem outcome_outside {node : Storage} {offset length : Nat} (outside : node.size < offset + length) :
    node.outcome offset length = .error (.outOfRange offset length node.size) := by
  cases node <;> simp only [size] at outside <;> simp only [outcome, ranged, if_pos outside, size] <;> rfl

theorem outcome_zero {node : Storage} {offset : Nat} (inside : offset ≤ node.size) :
    node.outcome offset 0 = .ok [] := by
  have inside : ¬ node.size < offset + 0 := by omega
  cases node <;> simp only [size] at inside <;>
    simp only [outcome, ranged, if_neg inside, if_true] <;> rfl

/-- Every read checks its range first. -/
theorem read_eq_ranged (node : Storage) (offset length : Nat) :
    node.read offset length = ranged node.size offset length (node.read offset length) := by
  have twice : ∀ (size : Nat) (body : SessionM Bytes),
      ranged size offset length body = ranged size offset length (ranged size offset length body) := by
    intro size body
    simp only [ranged]
    split
    · rfl
    · split <;> rfl
  cases node <;> simp only [read, size] <;> exact twice _ _

/-- What a read of checked data took, if it succeeds. -/
theorem outcome_verified {cell : Nat} {check : BlockCheck} {data hashes : Storage} {offset length : Nat}
    {bytes : Bytes} (checked : check.policy ≠ .off)
    (read : (verified cell check data hashes).outcome offset length = .ok bytes) :
    offset + length ≤ data.size ∧ ((length = 0 ∧ bytes = []) ∨ (0 < length ∧ ∃ blocks,
      (touchedBlocks check.blockSize offset length).mapM (check.accept data.size data.outcome hashes.outcome) =
        .ok blocks ∧ bytes = cutRange check.blockSize offset length blocks)) := by
  simp only [outcome, ranged] at read
  split at read
  · cases read
  · next inside =>
    refine ⟨by omega, ?_⟩
    split at read
    · next empty =>
      cases read
      exact .inl ⟨empty, rfl⟩
    · next nonempty =>
      simp only [verifiedOutcome, if_neg checked] at read
      obtain ⟨blocks, taken, read⟩ := ok_of_bind read
      cases read
      exact .inr ⟨Nat.pos_of_ne_zero nonempty, blocks, taken, rfl⟩

end Storage

/-! ## Validation -/

/-- The verdicts on all blocks of a level together. -/
def HashLevel.validation (level : HashLevel) : Except Error Validity := do
  return .mergeAll (← (List.range level.blockCount).mapM fun block => do
    return (← level.check.judge level.data.size level.data.outcome level.hashes.outcome block).2)

/-- The verdicts on all blocks of all levels together. -/
def HashTree.validation (tree : HashTree) : Except Error Validity := do
  return .mergeAll (← tree.levels.mapM HashLevel.validation)

end SealedContent
