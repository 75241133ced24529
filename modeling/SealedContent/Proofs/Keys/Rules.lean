import SealedContent.Keys.Derivation

/-! # The rules of key derivation

`rule?` is the table of the rules: for every slot that derivation writes, the value its rule gives from the
known keys of a ring. Only the Mariko rule stands apart, `marikoRule?`, because it counts only where the
first rule leaves a master kek unknown.

Families have levels, and a rule reads lower levels than its own: `rule?_congr`. Which values it reads does not
decide whether it gives one, only which keys are known: `rule?_mono`.
-/

namespace SealedContent

open Aes (Block)

/-! ## Levels -/

/-- The stage that writes a family. Zero is for what is only read. -/
def KeyFamily.level : KeyFamily → Nat
  | keyblobKey | keyblobMacKey => 1
  | keyblob => 2
  | masterKek | package1Key => 3
  | masterKey => 4
  | deviceKey => 5
  | saveMacKey => 6
  | bisKey => 7
  | keyAreaKey _ | titleKek | package2Key => 8
  | headerKey => 9
  | sdCardKey _ => 10
  | _ => 0

def Slot.level (slot : Slot) : Nat := slot.family.level

namespace KeyRing

/-! ## The table -/

/-- What the rule of a slot gives from the known keys of a ring, if its inputs are among them. -/
def rule? (unwrap : Unwrap) (ring : KeyRing) : Slot → Option Bytes
  | ⟨.keyblobKey, i⟩ => do
    let boot ← ring.single? .secureBootKey
    let tsec ← ring.single? .tsecKey
    let source ← ring.block? .keyblobKeySource i
    pure (unwrap boot (unwrap tsec source)).toBytes
  | ⟨.keyblobMacKey, i⟩ => do
    let boot ← ring.single? .secureBootKey
    let tsec ← ring.single? .tsecKey
    let source ← ring.block? .keyblobKeySource i
    let macSource ← ring.single? .keyblobMacKeySource
    pure (unwrap (unwrap boot (unwrap tsec source)) macSource).toBytes
  -- the key of the authentication code must be known, but the code itself is not consulted
  | ⟨.keyblob, i⟩ => do
    let key ← ring.block? .keyblobKey i
    let _ ← ring.block? .keyblobMacKey i
    let blob ← ring.known? ⟨.encryptedKeyblob, i⟩
    pure (Aes.ctr key (Block.ofBytes (blob.window 0x10 0x10)) (blob.drop 0x20))
  | ⟨.masterKek, i⟩ =>
    if i < keyblobCount then do
      let blob ← ring.known? ⟨.keyblob, i⟩
      pure (blob.window 0 0x10)
    else do
      let root ← ring.block? .tsecRootKey (i - keyblobCount)
      let source ← ring.block? .masterKekSource i
      pure (unwrap root source).toBytes
  | ⟨.package1Key, i⟩ => do
    let blob ← ring.known? ⟨.keyblob, i⟩
    pure (blob.window 0x80 0x10)
  | ⟨.masterKey, i⟩ => do
    let source ← ring.single? .masterKeySource
    let kek ← ring.block? .masterKek i
    pure (unwrap kek source).toBytes
  | ⟨.deviceKey, _⟩ => do
    let source ← ring.single? .perConsoleKeySource
    let key ← ring.block? .keyblobKey 0
    pure (unwrap key source).toBytes
  | ⟨.saveMacKey, _⟩ => do
    let device ← ring.single? .deviceKey
    let kekSeed ← ring.single? .aesKekGenerationSource
    let kekSource ← ring.single? .saveMacKekSource
    let source ← ring.single? .saveMacKeySource
    pure (unwrap (generateKek unwrap device kekSource kekSeed none) source).toBytes
  | ⟨.bisKey, i⟩ => do
    let device ← ring.single? .deviceKey
    let kekSeed ← ring.single? .aesKekGenerationSource
    let kekSource ← ring.single? .bisKekSource
    let keySeed ← ring.single? .aesKeyGenerationSource
    let retail ← ring.single? .retailSpecificAesKeySource
    let source ← if i = 3 then (ring.xtsKey? .bisKeySource 3).or (ring.xtsKey? .bisKeySource 2)
      else ring.xtsKey? .bisKeySource i
    let kek := if i = 0 then unwrap device retail
      else generateKek unwrap device kekSource kekSeed (some keySeed)
    pure (unwrapXts unwrap kek source).toBytes
  | ⟨.keyAreaKey kind, i⟩ => do
    let master ← ring.block? .masterKey i
    let kekSeed ← ring.single? .aesKekGenerationSource
    let keySeed ← ring.single? .aesKeyGenerationSource
    let source ← ring.single? (.keyAreaKeySource kind)
    pure (generateKek unwrap master source kekSeed (some keySeed)).toBytes
  | ⟨.titleKek, i⟩ => do
    let master ← ring.block? .masterKey i
    let source ← ring.single? .titleKekSource
    pure (unwrap master source).toBytes
  | ⟨.package2Key, i⟩ => do
    let master ← ring.block? .masterKey i
    let source ← ring.single? .package2KeySource
    pure (unwrap master source).toBytes
  | ⟨.headerKey, _⟩ => do
    let kek ← ring.firstKek? unwrap .headerKekSource
    let source ← ring.xtsKey? .headerKeySource 0
    pure (unwrapXts unwrap kek source).toBytes
  | ⟨.sdCardKey use, _⟩ => do
    let kek ← ring.firstKek? unwrap .sdCardKekSource
    let seed ← ring.single? .sdSeed
    let source ← ring.xtsKey? (.sdCardKeySource use) 0
    pure (unwrapXts unwrap kek ⟨source.data.xor seed, source.tweak.xor seed⟩).toBytes
  | _ => none

/-- What the Mariko kek and its source give for a master kek. -/
def marikoRule? (unwrap : Unwrap) (ring : KeyRing) : Slot → Option Bytes
  | ⟨.masterKek, i⟩ => do
    let kek ← ring.single? .marikoKek
    let source ← ring.block? .marikoMasterKekSource i
    pure (unwrap kek source).toBytes
  | _ => none

/-! ## What the rules read -/

variable {unwrap : Unwrap} {ring other : KeyRing} {slot : Slot}

theorem rule?_congr (agree : ∀ below : Slot, below.level < slot.level → ring.known? below = other.known? below) :
    rule? unwrap ring slot = rule? unwrap other slot := by
  obtain ⟨family, i⟩ := slot
  have same : ∀ below index, KeyFamily.level below < family.level →
      ring.known? ⟨below, index⟩ = other.known? ⟨below, index⟩ := fun below index => agree ⟨below, index⟩
  clear agree
  cases family <;> (try cases ‹KeyAreaKind›) <;> (try cases ‹SdCardUse›) <;>
    first
    | rfl
    | simp (disch := decide) only [rule?, firstKek?, single?, block?, xtsKey?, same]

theorem isSome_bind_mono {α β γ δ : Type} {first : Option α} {second : Option β} {f : α → Option γ}
    {g : β → Option δ} (start : first.isSome → second.isSome) (rest : ∀ a b, (f a).isSome → (g b).isSome) :
    (first >>= f).isSome → (second >>= g).isSome := by
  intro some
  cases first with
  | none => cases some
  | some a =>
    cases second with
    | none => cases start rfl
    | some b => exact rest a b some

theorem isSome_or_mono {α : Type} {first second first' second' : Option α} (left : first.isSome → first'.isSome)
    (right : second.isSome → second'.isSome) : (first.or second).isSome → (first'.or second').isSome := by
  simp only [Option.isSome_or, Bool.or_eq_true]
  exact Or.imp left right

/-- A rule gives a value wherever its inputs are known. The package1 keys are the input of no rule. -/
theorem rule?_mono (known : ∀ below : Slot, below.level < slot.level → below.family ≠ .package1Key →
      (ring.known? below).isSome → (other.known? below).isSome) :
    (rule? unwrap ring slot).isSome → (rule? unwrap other slot).isSome := by
  obtain ⟨family, i⟩ := slot
  have block : ∀ below index, KeyFamily.level below < family.level → below ≠ .package1Key →
      (ring.block? below index).isSome → (other.block? below index).isSome := by
    intro below index less kept
    simp only [block?, Option.isSome_map]
    exact known ⟨below, index⟩ less kept
  have xts : ∀ below index, KeyFamily.level below < family.level → below ≠ .package1Key →
      (ring.xtsKey? below index).isSome → (other.xtsKey? below index).isSome := by
    intro below index less kept
    simp only [xtsKey?, Option.isSome_map]
    exact known ⟨below, index⟩ less kept
  have blob : ∀ below index, KeyFamily.level below < family.level → below ≠ .package1Key →
      (ring.known? ⟨below, index⟩).isSome → (other.known? ⟨below, index⟩).isSome :=
    fun below index => known ⟨below, index⟩
  clear known
  -- every rule is a chain of reads, with its value at the end
  cases family <;> (try cases ‹KeyAreaKind›) <;> (try cases ‹SdCardUse›) <;>
    simp only [rule?, firstKek?, single?, Option.pure_def] <;> try split
  all_goals
    repeat' with_reducible first
    | exact id
    | exact fun _ => Option.isSome_some
    | exact block _ _ (by decide) (by decide)
    | exact xts _ _ (by decide) (by decide)
    | exact blob _ _ (by decide) (by decide)
    | refine isSome_bind_mono ?_ fun _ _ => ?_
    | refine isSome_or_mono ?_ ?_

theorem marikoRule?_mono (known : ∀ below : Slot, below.level = 0 → ∀ bytes, ring.known? below = some bytes →
      other.known? below = some bytes) {bytes : Bytes} (gives : marikoRule? unwrap ring slot = some bytes) :
    marikoRule? unwrap other slot = some bytes := by
  obtain ⟨family, i⟩ := slot
  cases family with
  | masterKek =>
    simp only [marikoRule?, single?, block?, Option.bind_eq_bind, Option.bind_eq_some_iff,
      Option.map_eq_some_iff] at gives ⊢
    obtain ⟨_, ⟨kek, foundKek, rfl⟩, _, ⟨source, foundSource, rfl⟩, result⟩ := gives
    exact ⟨_, ⟨kek, known _ rfl kek foundKek, rfl⟩, _, ⟨source, known _ rfl source foundSource, rfl⟩, result⟩
  | _ => cases gives

theorem rule?_eq_none_of_mono (known : ∀ below : Slot, below.level < slot.level → below.family ≠ .package1Key →
      (ring.known? below).isSome → (other.known? below).isSome) (none : rule? unwrap other slot = none) :
    rule? unwrap ring slot = Option.none := by
  have mono : (rule? unwrap ring slot).isSome → (rule? unwrap other slot).isSome := rule?_mono known
  rw [none] at mono
  exact Option.not_isSome_iff_eq_none.mp fun some => nomatch mono some

end KeyRing

end SealedContent
