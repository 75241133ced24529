import SealedContent.Keys.File
import SealedContent.Proofs.Keys.Closure

/-! # Keys imported after a derivation

A derivation from few keys may fill slots that more keys fill otherwise: a master kek from the Mariko kek before a
TSEC root key arrives, a BIS key from another source. If later lines of key files only store keys that were
unknown, none of this is left once the keys are derived again: `deriveWith_early`.

The ring derived at once solves the rules from the ring derived early, too. What a rule gives there does not
depend on the start. Where no rule gives anything, none did before the lines either (`known_mono`), and what the
slot holds is an older key or the Mariko kek's, which is the same in both.
-/

namespace SealedContent.KeyRing

open Aes (Block)

/-! ## Lines -/

/-- The lines store keys other than zeros, in slots that the ring does not know. -/
def Fresh (ring : KeyRing) (lines : List KeyLine) : Prop :=
  ∀ slot value, KeyLine.key slot value ∈ lines → ring.known? slot = none ∧ value.isZero = false

variable {unwrap : Unwrap} {ring other : KeyRing} {lines : List KeyLine} {slot : Slot}

theorem applyLine_kept (ring : KeyRing) (line : KeyLine) :
    (ring.applyLine line).titleKeys = ring.titleKeys ∧ (ring.applyLine line).ticketKey = ring.ticketKey := by
  cases line with
  | key slot value =>
    simp only [applyLine, set]
    split <;> exact ⟨rfl, rfl⟩
  | _ => exact ⟨rfl, rfl⟩

theorem applyLines_kept (lines : List KeyLine) (ring : KeyRing) :
    (lines.foldl applyLine ring).titleKeys = ring.titleKeys ∧
      (lines.foldl applyLine ring).ticketKey = ring.ticketKey := by
  induction lines generalizing ring with
  | nil => exact ⟨rfl, rfl⟩
  | cons line rest inductionHypothesis =>
    obtain ⟨titleKeys, ticketKey⟩ := inductionHypothesis (ring.applyLine line)
    obtain ⟨titleKeys', ticketKey'⟩ := applyLine_kept ring line
    exact ⟨titleKeys.trans titleKeys', ticketKey.trans ticketKey'⟩

/-- A line decides a slot or leaves it alone, in every ring. -/
theorem applyLine_known (line : KeyLine) (slot : Slot)
    (nonzero : ∀ value, line = .key slot value → value.isZero = false) :
    (∃ value, line = .key slot value ∧ ∀ ring : KeyRing, (ring.applyLine line).known? slot = some value) ∨
      ∀ ring : KeyRing, (ring.applyLine line).known? slot = ring.known? slot := by
  cases line with
  | key target value =>
    by_cases fits : target.Exists ∧ value.length = target.family.length
    · by_cases same : slot = target
      · obtain rfl := same
        refine .inl ⟨value, rfl, fun ring => ?_⟩
        rw [applyLine, known?_set fits, if_pos rfl, nonzero?, nonzero value rfl]
        rfl
      · exact .inr fun ring => by rw [applyLine, known?_set fits, if_neg same]
    · exact .inr fun ring => by rw [applyLine, set, dif_neg fits]
  | _ => exact .inr fun _ => rfl

theorem applyLines_known (slot : Slot) (nonzero : ∀ value, KeyLine.key slot value ∈ lines → value.isZero = false) :
    (∃ value, (∃ stored, KeyLine.key slot stored ∈ lines) ∧
        ∀ ring : KeyRing, (lines.foldl applyLine ring).known? slot = some value) ∨
      ∀ ring : KeyRing, (lines.foldl applyLine ring).known? slot = ring.known? slot := by
  induction lines with
  | nil => exact .inr fun _ => rfl
  | cons line rest inductionHypothesis =>
    obtain ⟨value, ⟨stored, among⟩, decided⟩ | alone :=
      inductionHypothesis fun value among => nonzero value (List.mem_cons_of_mem _ among)
    · exact .inl ⟨value, ⟨stored, List.mem_cons_of_mem _ among⟩, fun ring => decided _⟩
    obtain ⟨value, rfl, decided⟩ | before :=
      applyLine_known line slot fun value same => nonzero value (same ▸ List.mem_cons_self ..)
    · exact .inl ⟨value, ⟨value, List.mem_cons_self ..⟩, fun ring => (alone _).trans (decided ring)⟩
    · exact .inr fun ring => (alone _).trans (before ring)

/-- What fresh lines do to a slot: they decide it, and the ring did not know it, or they leave it alone. -/
theorem Fresh.known (fresh : ring.Fresh lines) (slot : Slot) :
    (ring.known? slot = none ∧ ∃ value, ∀ holder : KeyRing, (lines.foldl applyLine holder).known? slot = some value) ∨
      ∀ holder : KeyRing, (lines.foldl applyLine holder).known? slot = holder.known? slot := by
  obtain ⟨value, ⟨stored, among⟩, decided⟩ | alone :=
    applyLines_known slot fun value among => (fresh slot value among).2
  · exact .inl ⟨(fresh slot stored among).1, value, decided⟩
  · exact .inr alone

/-! ## More keys -/

/-- No rule gives a key of zeros. The package1 keys, the input of no rule, may be zeros. -/
def Solid (unwrap : Unwrap) (ring : KeyRing) : Prop :=
  ∀ slot bytes, slot.Exists → slot.family ≠ .package1Key → rule? unwrap ring slot = some bytes → bytes.isZero = false

variable {early full : KeyRing} (fresh : ring.Fresh lines)
  (stage : Stage (settled unwrap) Slot.Exists ring early)
  (after : Stage (settled unwrap) Slot.Exists (lines.foldl applyLine ring) full)

include fresh

/-- What the ring knew, it knows after the lines. -/
theorem known_applyLines {bytes : Bytes} (found : ring.known? slot = some bytes) :
    (lines.foldl applyLine ring).known? slot = some bytes := by
  obtain ⟨unknown, -⟩ | alone := fresh.known slot
  · rw [unknown] at found
    cases found
  · rw [alone, found]

include stage after

/-- The Mariko rule gives the same from more keys. -/
theorem mariko_applyLines {bytes : Bytes} (gives : marikoRule? unwrap early slot = some bytes) :
    marikoRule? unwrap full slot = some bytes := by
  refine marikoRule?_mono (fun below level value found => ?_) gives
  rw [stage.input below level] at found
  rw [after.input below level]
  exact known_applyLines fresh found

/-- Where a rule gives nothing at the end, what the early derivation found is an older key or the Mariko kek's. -/
theorem settled_early (rest : rule? unwrap early slot = none) (exist : slot.Exists)
    {bytes : Bytes} (found : early.known? slot = some bytes) :
    ring.known? slot = some bytes ∨
      (ring.known? slot = none ∧ (marikoRule? unwrap full slot).bind nonzero? = some bytes) := by
  rw [stage.written slot exist, settled, ruled, rest, overwritten, filled] at found
  cases older : ring.known? slot with
  | some value =>
    rw [older, Option.some_or] at found
    exact .inl found
  | none =>
    rw [older, Option.none_or] at found
    obtain ⟨value, gives, nonzero⟩ := Option.bind_eq_some_iff.mp found
    rw [mariko_applyLines fresh stage after gives]
    exact .inr ⟨rfl, nonzero⟩

/-- Whatever the early derivation finds is known at the end, if perhaps with another value. -/
theorem known_mono (solid : Solid unwrap full) (level : Nat) : ∀ slot : Slot, slot.level < level →
    slot.family ≠ .package1Key → (early.known? slot).isSome → (full.known? slot).isSome := by
  induction level with
  | zero => exact fun slot less => absurd less (Nat.not_lt_zero _)
  | succ level inductionHypothesis =>
    intro slot less kept known
    obtain ⟨bytes, found⟩ := Option.isSome_iff_exists.mp known
    have exist := (early.holds slot bytes found).1
    rw [after.written slot exist, settled, ruled]
    cases gives : rule? unwrap full slot with
    | some value =>
      rw [overwritten, nonzero?, solid slot value exist kept gives]
      rfl
    | none =>
      have rest := rule?_eq_none_of_mono (fun below deeper => inductionHypothesis below (by omega)) gives
      rw [overwritten, filled, Option.isSome_or, Bool.or_eq_true]
      obtain older | ⟨-, mariko⟩ := settled_early fresh stage after rest exist found
      · exact .inl (by rw [known_applyLines fresh older]; rfl)
      · exact .inr (by rw [mariko]; rfl)

/-- The ring derived at once solves the rules from the ring derived early. -/
theorem stage_early (solid : Solid unwrap full) :
    Stage (settled unwrap) Slot.Exists (lines.foldl applyLine early) full := by
  obtain ⟨titleKeys, ticketKey⟩ := applyLines_kept lines ring
  obtain ⟨titleKeys', ticketKey'⟩ := applyLines_kept lines early
  refine ⟨?_, ?_, fun slot exist => ?_, fun slot absent => ?_⟩
  · rw [after.titleKeys, titleKeys, titleKeys', stage.titleKeys]
  · rw [after.ticketKey, ticketKey, ticketKey', stage.ticketKey]
  · rw [after.written slot exist]
    obtain ⟨-, value, decided⟩ | alone := fresh.known slot
    · rw [decided, decided]
    rw [alone, alone, settled, settled, ruled, ruled]
    cases gives : rule? unwrap full slot with
    | some value => rfl
    | none =>
      have rest := rule?_eq_none_of_mono
        (fun below _ => known_mono fresh stage after solid (below.level + 1) below (Nat.lt_succ_self _)) gives
      simp only [overwritten, filled]
      cases found : early.known? slot with
      | none =>
        rw [stage.written slot exist, settled, ruled, rest, overwritten, filled, Option.or_eq_none_iff] at found
        rw [found.1]
      | some value =>
        obtain older | ⟨unknown, mariko⟩ := settled_early fresh stage after rest exist found
        · rw [older]
        · rw [unknown, mariko]
          rfl
  · rw [after.kept slot absent]
    obtain ⟨-, value, decided⟩ | alone := fresh.known slot
    · rw [decided, decided]
    · rw [alone, alone, stage.kept slot absent]

omit fresh stage after

/-- A derivation before more keys are imported changes nothing, if no rule gives zeros in the end. -/
theorem deriveWith_early (unwrap : Unwrap) (ring : KeyRing) (lines : List KeyLine) (fresh : ring.Fresh lines)
    (solid : Solid unwrap ((lines.foldl applyLine ring).deriveWith unwrap)) :
    (lines.foldl applyLine (ring.deriveWith unwrap)).deriveWith unwrap =
      (lines.foldl applyLine ring).deriveWith unwrap :=
  (deriveWith_stage unwrap _).unique lawful_settled
    (stage_early fresh (deriveWith_stage unwrap ring) (deriveWith_stage unwrap _) solid)

/-! ## A root key that comes late -/

/-- A key of sixteen equal bytes. -/
def plainKey (byte : UInt8) : Bytes := List.replicate 16 byte

/-- Keys of generation 6: the Mariko kek, its source and the source under a TSEC root key. -/
def marikoRing : KeyRing :=
  ((empty.set ⟨.marikoKek, 0⟩ (plainKey 1)).set ⟨.marikoMasterKekSource, 6⟩ (plainKey 2)).set ⟨.masterKekSource, 6⟩
    (plainKey 3)

/-- The first TSEC root key, which the ring misses. -/
def rootLine : KeyLine := .key ⟨.tsecRootKey, 0⟩ (plainKey 4)

theorem known?_marikoRing (slot : Slot) : marikoRing.known? slot =
    if slot = ⟨.masterKekSource, 6⟩ then some (plainKey 3)
    else if slot = ⟨.marikoMasterKekSource, 6⟩ then some (plainKey 2)
    else if slot = ⟨.marikoKek, 0⟩ then some (plainKey 1) else none := by
  rw [marikoRing, known?_set ⟨by decide, rfl⟩, known?_set ⟨by decide, rfl⟩, known?_set ⟨by decide, rfl⟩]
  rfl

theorem known?_rootRing (slot : Slot) : ([rootLine].foldl applyLine marikoRing).known? slot =
    if slot = ⟨.tsecRootKey, 0⟩ then some (plainKey 4) else marikoRing.known? slot := by
  rw [List.foldl_cons, List.foldl_nil, rootLine, applyLine, known?_set ⟨by decide, rfl⟩]
  rfl

/-- The rule of the master kek is the only one with all inputs in the ring. -/
theorem solid_rootRing :
    Solid Block.xor (([rootLine].foldl applyLine marikoRing).deriveWith Block.xor) := by
  have stage := deriveWith_stage Block.xor ([rootLine].foldl applyLine marikoRing)
  generalize ([rootLine].foldl applyLine marikoRing).deriveWith Block.xor = full at stage
  have input : ∀ family i, KeyFamily.level family = 0 → full.known? ⟨family, i⟩ =
      if (⟨family, i⟩ : Slot) = ⟨.tsecRootKey, 0⟩ then some (plainKey 4) else marikoRing.known? ⟨family, i⟩ :=
    fun family i level => by rw [stage.input ⟨family, i⟩ level, known?_rootRing]
  simp only [known?_marikoRing, Slot.mk.injEq] at input
  have boot := input .secureBootKey 0 rfl
  have sealed := fun i => input .encryptedKeyblob i rfl
  have master := input .masterKeySource 0 rfl
  have console := input .perConsoleKeySource 0 rfl
  have kekSeed := input .aesKekGenerationSource 0 rfl
  have title := input .titleKekSource 0 rfl
  have package := input .package2KeySource 0 rfl
  have root := fun i => input .tsecRootKey i rfl
  have source := fun i => input .masterKekSource i rfl
  simp only [reduceCtorEq, false_and, true_and, if_false]
    at boot sealed master console kekSeed title package root source
  have blob : ∀ i, full.known? ⟨.keyblob, i⟩ = none := by
    intro i
    have none : rule? Block.xor full ⟨.keyblob, i⟩ = none := by simp [rule?, sealed]
    by_cases exist : (⟨.keyblob, i⟩ : Slot).Exists
    · rw [stage.written _ exist, settled, ruled, none, filled_of_family (by simp), known?_rootRing,
        known?_marikoRing]
      simp [overwritten]
    · rw [stage.kept _ exist, known?_rootRing, known?_marikoRing]
      simp
  rintro ⟨family, i⟩ bytes exist kept gives
  cases family with
  | masterKek =>
    simp only [rule?, block?, blob, root, source] at gives
    obtain rfl : i = 6 := by
      by_contra other
      rw [if_neg other] at gives
      split at gives
      · cases gives
      · split at gives <;> cases gives
    obtain rfl : (Block.xor (Block.ofBytes (plainKey 4)) (Block.ofBytes (plainKey 3))).toBytes = bytes :=
      Option.some.inj gives
    decide +kernel
  | _ =>
    simp only [rule?, firstKek?, single?, block?, xtsKey?, boot, master, console, kekSeed, title, package, sealed, blob,
      Option.map_none, Option.bind_eq_bind, Option.bind_none, Option.bind_fun_none, reduceCtorEq] at gives

theorem fresh_rootLine : marikoRing.Fresh [rootLine] := by
  intro slot value among
  obtain ⟨rfl, rfl⟩ : slot = ⟨.tsecRootKey, 0⟩ ∧ value = plainKey 4 := by simpa [rootLine] using among
  exact ⟨by rw [known?_marikoRing]; rfl, by decide⟩

/-- Without the root key the master kek is the Mariko kek's. -/
theorem masterKek_early : (marikoRing.deriveWith Block.xor).known? ⟨.masterKek, 6⟩ = some (plainKey 3) := by
  have stage := deriveWith_stage Block.xor marikoRing
  have root := stage.input ⟨.tsecRootKey, 0⟩ rfl
  have kek := stage.input ⟨.marikoKek, 0⟩ rfl
  have source := stage.input ⟨.marikoMasterKekSource, 6⟩ rfl
  rw [known?_marikoRing] at root kek source
  rw [stage.written ⟨.masterKek, 6⟩ (by decide), settled, ruled, filled, marikoRule?, rule?, known?_marikoRing]
  simp only [block?, single?, keyblobCount, Nat.sub_self, root, kek, source]
  decide

theorem masterKek_root :
    (([rootLine].foldl applyLine marikoRing).deriveWith Block.xor).known? ⟨.masterKek, 6⟩ = some (plainKey 7) := by
  have stage := deriveWith_stage Block.xor ([rootLine].foldl applyLine marikoRing)
  have root := stage.input ⟨.tsecRootKey, 0⟩ rfl
  have source := stage.input ⟨.masterKekSource, 6⟩ rfl
  rw [known?_rootRing] at root source
  rw [known?_marikoRing] at source
  rw [stage.written ⟨.masterKek, 6⟩ (by decide), settled, ruled, filled, rule?]
  simp only [block?, keyblobCount, Nat.sub_self, root, source]
  rfl

/-- The Mariko kek gives a master kek at first. Once the root key is there, nothing is left of it. -/
theorem deriveWith_early_root :
    marikoRing.Fresh [rootLine] ∧
    Solid Block.xor (([rootLine].foldl applyLine marikoRing).deriveWith Block.xor) ∧
    (marikoRing.deriveWith Block.xor).known? ⟨.masterKek, 6⟩ = some (plainKey 3) ∧
    (([rootLine].foldl applyLine marikoRing).deriveWith Block.xor).known? ⟨.masterKek, 6⟩ = some (plainKey 7) ∧
    ([rootLine].foldl applyLine (marikoRing.deriveWith Block.xor)).deriveWith Block.xor =
      ([rootLine].foldl applyLine marikoRing).deriveWith Block.xor :=
  ⟨fresh_rootLine, solid_rootRing, masterKek_early, masterKek_root,
    deriveWith_early _ _ _ fresh_rootLine solid_rootRing⟩

end SealedContent.KeyRing
