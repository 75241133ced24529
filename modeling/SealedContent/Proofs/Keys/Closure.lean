import SealedContent.Proofs.Keys.Pipeline

/-! # Derivation solves the rules

All stages together are one stage, `deriveWith_stage`: every slot of the derived ring is what its rules make of it
in that ring. There is only one such ring for a given start (`Stage.unique`), so a second derivation changes
nothing. `Closed` says what this means for each rule.
-/

namespace SealedContent.KeyRing

variable {unwrap : Unwrap} {law : Law} {on : Slot → Prop} {start finish other : KeyRing} {slot : Slot}

/-! ## All stages as one -/

/-- The slot's rule decides if its inputs are known, and the Mariko rule if the slot is unknown after that. -/
def settled (unwrap : Unwrap) : Law := fun ring slot old => filled unwrap ring slot (ruled unwrap ring slot old)

theorem lawful_settled : (settled unwrap).Lawful where
  congr old agree := by
    rw [settled, settled, lawful_ruled.congr old agree, lawful_filled.congr _ agree]
  again ring slot old := by
    simp only [settled, ruled]
    cases rule? unwrap ring slot with
    | some bytes => rfl
    | none => exact lawful_filled.again ring slot old

theorem rule?_of_level (level : slot.level = 0) : rule? unwrap finish slot = none := by
  obtain ⟨family, i⟩ := slot
  cases family <;> first | rfl | cases level

theorem filled_of_family (different : slot.family ≠ .masterKek) (old : Option Bytes) :
    filled unwrap finish slot old = old := by
  obtain ⟨family, i⟩ := slot
  have none : marikoRule? unwrap finish ⟨family, i⟩ = none := by
    cases family with
    | masterKek => exact absurd rfl different
    | _ => rfl
  rw [filled, none]
  exact Option.or_none

theorem level_le (slot : Slot) : slot.level ≤ 10 := by
  obtain ⟨family, i⟩ := slot
  cases family <;> exact Nat.le_of_ble_eq_true rfl

/-- Every slot of the derived ring is what its rules make of it there. -/
theorem deriveWith_stage (unwrap : Unwrap) (ring : KeyRing) :
    Stage (settled unwrap) Slot.Exists ring (ring.deriveWith unwrap) := by
  obtain ⟨keks, full, before, filling, behind⟩ := deriveWith_stages unwrap ring
  -- the master keks are all that is filled, and nothing behind writes a level up to theirs
  have low : AgreeBelow 4 full (ring.deriveWith unwrap) := fun below less =>
    (behind.kept below fun between => by have := between.2.1; omega).symm
  have unfilled : ∀ slot : Slot, slot.family ≠ .masterKek → full.known? slot = keks.known? slot := by
    rintro slot different
    refine filling.kept slot ?_
    rintro ⟨i, -, rfl⟩
    exact different rfl
  have deep : AgreeBelow 3 keks (ring.deriveWith unwrap) := by
    intro below less
    rw [← low below (by omega), unfilled below]
    intro kek
    rw [Slot.level, kek] at less
    exact Nat.lt_irrefl 3 less
  refine ⟨?_, ?_, fun slot exist => ?_, fun slot absent => ?_⟩
  · rw [behind.titleKeys, filling.titleKeys, before.titleKeys]
  · rw [behind.ticketKey, filling.ticketKey, before.ticketKey]
  · have untouched : 4 ≤ slot.level ∨ slot.level = 0 → full.known? slot = ring.known? slot := by
      intro outside
      rw [unfilled slot fun kek => by rw [Slot.level, kek] at outside; exact absurd outside (by decide),
        before.kept slot fun between => by have := between.2; omega]
    obtain zero | ⟨above, below⟩ | late : slot.level = 0 ∨ (1 ≤ slot.level ∧ slot.level ≤ 3) ∨ 4 ≤ slot.level := by
      omega
    · rw [← low slot (by omega), untouched (.inr zero), settled, ruled, rule?_of_level zero,
        filled_of_family fun kek => by rw [Slot.level, kek] at zero; cases zero]
      rfl
    · have written := before.written slot ⟨exist, above, below⟩
      rw [lawful_ruled.congr _ fun deeper less => deep deeper (by omega)] at written
      rw [← low slot (by omega), settled, ← written]
      by_cases kek : slot.family = .masterKek
      · obtain ⟨family, i⟩ := slot
        obtain rfl := kek
        rw [filling.written ⟨.masterKek, i⟩ ⟨i, exist, rfl⟩]
        exact lawful_filled.congr _ fun deeper less => low deeper (Nat.lt_trans less (Nat.lt_succ_self 3))
      · rw [filled_of_family kek, unfilled slot kek]
    · rw [behind.written slot ⟨exist, late, level_le slot⟩, untouched (.inl late), settled,
        filled_of_family fun kek => by rw [Slot.level, kek] at late; exact absurd late (by decide)]
  · have unknown : ∀ holder : KeyRing, holder.known? slot = none := by
      intro holder
      cases found : holder.known? slot with
      | none => rfl
      | some bytes => exact absurd (holder.holds slot bytes found).1 absent
    rw [unknown, unknown]

/-- What no rule writes keeps its value. -/
theorem Stage.input (stage : Stage (settled unwrap) Slot.Exists start finish) (slot : Slot) (level : slot.level = 0) :
    finish.known? slot = start.known? slot := by
  by_cases exist : slot.Exists
  · rw [stage.written slot exist, settled, ruled, rule?_of_level level,
      filled_of_family fun kek => by rw [Slot.level, kek] at level; cases level]
    rfl
  · exact stage.kept slot exist

/-! ## One solution -/

theorem ext_known (titleKeys : start.titleKeys = finish.titleKeys) (ticketKey : start.ticketKey = finish.ticketKey)
    (known : ∀ slot, start.known? slot = finish.known? slot) : start = finish := by
  cases start
  cases finish
  cases titleKeys
  cases ticketKey
  obtain rfl := funext known
  rfl

/-- Lower levels decide higher ones, so a stage has one result. -/
theorem Stage.unique (lawful : law.Lawful) (first : Stage law on start finish) (second : Stage law on start other) :
    finish = other := by
  have levels : ∀ level, AgreeBelow level finish other := by
    intro level
    induction level with
    | zero => exact fun slot less => absurd less (Nat.not_lt_zero _)
    | succ level inductionHypothesis =>
      intro slot less
      by_cases written : on slot
      · have below : AgreeBelow slot.level finish other := fun deeper deep => inductionHypothesis deeper (by omega)
        rw [first.written slot written, second.written slot written, lawful.congr _ below]
      · rw [first.kept slot written, second.kept slot written]
  exact ext_known (first.titleKeys.trans second.titleKeys.symm) (first.ticketKey.trans second.ticketKey.symm)
    fun slot => levels (slot.level + 1) slot (Nat.lt_succ_self _)

/-- The result of a stage is its own result. -/
theorem Stage.again (lawful : law.Lawful) (stage : Stage law on start finish) : Stage law on finish finish where
  titleKeys := rfl
  ticketKey := rfl
  written slot written := by rw [stage.written slot written, lawful.again]
  kept _ _ := rfl

theorem deriveWith_deriveWith (unwrap : Unwrap) (ring : KeyRing) :
    (ring.deriveWith unwrap).deriveWith unwrap = ring.deriveWith unwrap :=
  (deriveWith_stage unwrap (ring.deriveWith unwrap)).unique lawful_settled
    ((deriveWith_stage unwrap ring).again lawful_settled)

/-! ## The rules one by one -/

/-- A ring that derivation leads to. A key of zeros is an unknown key, in the equations as elsewhere. -/
structure Closed (unwrap : Unwrap) (start finish : KeyRing) : Prop where
  titleKeys : finish.titleKeys = start.titleKeys
  ticketKey : finish.ticketKey = start.ticketKey
  /-- What no rule writes is as it was. -/
  kept : ∀ slot, slot.level = 0 → finish.known? slot = start.known? slot
  /-- A rule whose inputs are known gives its slot. Only a master kek of zeros is left to the Mariko rule. -/
  rules : ∀ slot bytes, slot.Exists → rule? unwrap finish slot = some bytes →
    (bytes.isZero = true → marikoRule? unwrap finish slot = none) → finish.bytes? slot = some bytes
  /-- The Mariko rule gives a master kek that is unknown without it. -/
  mariko : ∀ slot bytes, slot.Exists → overwritten (rule? unwrap finish slot) (start.known? slot) = none →
    marikoRule? unwrap finish slot = some bytes → finish.bytes? slot = some bytes
  /-- Without a rule for it a slot is as it was. -/
  left : ∀ slot, slot.Exists → rule? unwrap finish slot = none →
    ((start.known? slot).isSome ∨ marikoRule? unwrap finish slot = none) → finish.known? slot = start.known? slot

theorem bytes?_of_known {bytes : Bytes} (exist : slot.Exists) (long : bytes.length = slot.family.length)
    (known : finish.known? slot = nonzero? bytes) : finish.bytes? slot = some bytes := by
  rw [bytes?, if_pos exist, known, nonzero?]
  split
  · next zero =>
    rw [Option.getD_none, Bytes.zeros, ← long]
    exact congrArg some (List.eq_replicate_iff.mpr ⟨rfl, Bytes.isZero_iff.mp zero⟩).symm
  · rfl

/-- The derived ring is closed under the rules, and a second derivation changes nothing. -/
theorem deriveWith_closed (unwrap : Unwrap) (ring : KeyRing) :
    Closed unwrap ring (ring.deriveWith unwrap) ∧
      (ring.deriveWith unwrap).deriveWith unwrap = ring.deriveWith unwrap := by
  refine ⟨?_, deriveWith_deriveWith unwrap ring⟩
  have stage := deriveWith_stage unwrap ring
  generalize ring.deriveWith unwrap = finish at stage
  refine ⟨stage.titleKeys, stage.ticketKey, stage.input, ?_, ?_, ?_⟩
  · intro slot bytes exist gives unfilled
    refine bytes?_of_known exist (length_rule? bytes gives) ?_
    rw [stage.written slot exist, settled, ruled, gives, overwritten, filled, nonzero?]
    split
    · next zero =>
      rw [unfilled zero]
      rfl
    · rfl
  · intro slot bytes exist unknown gives
    refine bytes?_of_known exist (length_marikoRule? bytes gives) ?_
    rw [stage.written slot exist, settled, ruled, unknown, filled, gives]
    rfl
  · intro slot exist none unfilled
    rw [stage.written slot exist, settled, ruled, none, overwritten, filled]
    obtain known | none := unfilled
    · rw [Option.or_of_isSome known]
    · rw [none]
      exact Option.or_none

end SealedContent.KeyRing
