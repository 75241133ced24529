import SealedContent.Proofs.Keys.Stages

/-! # The stages of the pipeline

Every step of `deriveWith` obeys the rules of the families of one level, `stage_each`, or fills unknown master keks.
Only the third level is put together from two steps, which write different generations: `stage_masterKeks`.
-/

namespace SealedContent.KeyRing

open Aes (Block XtsKey)

variable {unwrap : Unwrap}

/-! ## Steps -/

theorem store_eq (ring : KeyRing) (family : KeyFamily) (i : Nat) (key : Option Block) :
    ring.store family i key = ring.put ⟨family, i⟩ (key.map Block.toBytes) := by
  cases key <;> rfl

theorem storeXts_eq (ring : KeyRing) (family : KeyFamily) (i : Nat) (key : Option XtsKey) :
    ring.storeXts family i key = ring.put ⟨family, i⟩ (key.map XtsKey.toBytes) := by
  cases key <;> rfl

theorem map_do {α β γ : Type} (first : Option α) (f : α → Option β) (g : β → γ) :
    (first >>= f).map g = first >>= fun a => (f a).map g :=
  Option.map_bind

theorem toBytes_ofBytes_take {bytes : Bytes} (long : 16 ≤ bytes.length) :
    (Block.ofBytes bytes).toBytes = bytes.take 16 := by
  have same : Block.ofBytes bytes = Block.ofBytes (bytes.take 16) := by
    simp [Block.ofBytes]
  rw [same, Block.toBytes_ofBytes (by simp [long])]

/-- Rules of one level can be evaluated before either of them writes. -/
theorem put_put {ring : KeyRing} {first : Slot} (second : Slot) (exist : first.Exists)
    (level : first.level = second.level) :
    (ring.put first (rule? unwrap ring first)).put second (rule? unwrap ring second) =
      [first, second].foldl (obey unwrap) ring := by
  have same : rule? unwrap ring second = rule? unwrap (ring.obey unwrap first) second := by
    refine rule?_congr fun below less => ((stage_obey exist).kept below ?_).symm
    rintro rfl
    omega
  rw [same]
  rfl

theorem deriveKeyblobKey_eq (ring : KeyRing) (i : Nat) (inside : i < keyblobCount) :
    deriveKeyblobKey unwrap ring i = [⟨.keyblobKey, i⟩, ⟨.keyblobMacKey, i⟩].foldl (obey unwrap) ring := by
  have exist : Slot.Exists ⟨.keyblobKey, i⟩ := inside
  rw [← put_put ⟨.keyblobMacKey, i⟩ exist rfl]
  simp only [deriveKeyblobKey, store_eq, map_do, bind_assoc]
  rfl

theorem decryptKeyblob_eq (ring : KeyRing) (i : Nat) :
    decryptKeyblob ring i = [⟨.keyblob, i⟩].foldl (obey unwrap) ring := by
  simp only [decryptKeyblob, List.foldl_cons, List.foldl_nil, obey, rule?, keyblobInputs?]
  cases ring.block? .keyblobKey i <;> cases ring.block? .keyblobMacKey i <;>
    cases ring.known? ⟨.encryptedKeyblob, i⟩ <;> rfl

theorem openKeyblob_eq (ring : KeyRing) (i : Nat) (inside : i < keyblobCount) :
    openKeyblob ring i = [⟨.masterKek, i⟩, ⟨.package1Key, i⟩].foldl (obey unwrap) ring := by
  have exist : Slot.Exists ⟨.masterKek, i⟩ := Nat.lt_trans inside (show 6 < 32 by decide)
  rw [← put_put ⟨.package1Key, i⟩ exist rfl]
  simp only [openKeyblob, rule?, if_pos inside]
  cases found : ring.known? ⟨.keyblob, i⟩ with
  | none => rfl
  | some blob =>
    have long : blob.length = 0x90 := length_known found
    have kek : (Block.ofBytes blob).toBytes = blob.window 0 0x10 := toBytes_ofBytes_take (by omega)
    have key : (Block.ofBytes (blob.drop 0x80)).toBytes = blob.window 0x80 0x10 :=
      toBytes_ofBytes_take (by rw [List.length_drop]; omega)
    show (ring.set _ _).set _ _ = _
    rw [kek, key]
    rfl

theorem deriveMasterKek_eq (ring : KeyRing) (i : Nat) :
    deriveMasterKek unwrap ring i = [⟨.masterKek, i + keyblobCount⟩].foldl (obey unwrap) ring := by
  have late : ¬ i + keyblobCount < keyblobCount := by omega
  have generation : i + keyblobCount - keyblobCount = i := Nat.add_sub_cancel i keyblobCount
  simp only [deriveMasterKek, store_eq, List.foldl_cons, List.foldl_nil, obey, rule?, if_neg late, generation, map_do]
  rfl

theorem deriveMasterKey_eq (ring : KeyRing) (i : Nat) :
    deriveMasterKey unwrap ring i = [⟨.masterKey, i⟩].foldl (obey unwrap) ring := by
  simp only [deriveMasterKey, store_eq, map_do]
  rfl

theorem deriveDeviceKey_eq (ring : KeyRing) :
    deriveDeviceKey unwrap ring = [⟨.deviceKey, 0⟩].foldl (obey unwrap) ring := by
  simp only [deriveDeviceKey, store_eq, map_do]
  rfl

theorem deriveSaveKey_eq (ring : KeyRing) :
    deriveSaveKey unwrap ring = [⟨.saveMacKey, 0⟩].foldl (obey unwrap) ring := by
  simp only [deriveSaveKey, store_eq, map_do]
  rfl

theorem deriveBisKey_eq (ring : KeyRing) (i : Nat) :
    deriveBisKey unwrap ring i = [⟨.bisKey, i⟩].foldl (obey unwrap) ring := by
  simp only [deriveBisKey, storeXts_eq, map_do, bisSource?, List.foldl_cons, List.foldl_nil, obey, rule?]
  by_cases last : i = 3
  · simp only [if_pos last]
    rfl
  · simp only [if_neg last]
    rfl

theorem deriveKeyAreaKey_eq (ring : KeyRing) (i : Nat) (kind : KeyAreaKind) :
    deriveKeyAreaKey unwrap i ring kind = obey unwrap ring ⟨.keyAreaKey kind, i⟩ := by
  simp only [deriveKeyAreaKey, store_eq, map_do]
  rfl

theorem deriveGeneration_eq (ring : KeyRing) (i : Nat) :
    deriveGeneration unwrap ring i = [⟨.keyAreaKey .application, i⟩, ⟨.keyAreaKey .ocean, i⟩,
      ⟨.keyAreaKey .system, i⟩, ⟨.titleKek, i⟩, ⟨.package2Key, i⟩].foldl (obey unwrap) ring := by
  simp only [deriveGeneration, List.foldl_cons, List.foldl_nil, deriveKeyAreaKey_eq, deriveFromMaster, store_eq, map_do]
  rfl

theorem deriveHeaderKey_eq (ring : KeyRing) :
    deriveHeaderKey unwrap ring = [⟨.headerKey, 0⟩].foldl (obey unwrap) ring := by
  simp only [deriveHeaderKey, storeXts_eq, map_do]
  rfl

theorem deriveSdCardKeys_eq (ring : KeyRing) :
    [SdCardUse.save, .content, .customStorage].foldl (deriveSdCardKey unwrap) ring =
      [⟨.sdCardKey .save, 0⟩, ⟨.sdCardKey .content, 0⟩, ⟨.sdCardKey .customStorage, 0⟩].foldl (obey unwrap) ring := by
  simp only [List.foldl_cons, List.foldl_nil, deriveSdCardKey, storeXts_eq, map_do]
  rfl

/-! ## Levels -/

/-- The rules of some slots of one level make a stage of that level if no other slot of the level has a rule. -/
theorem stage_level {slots : List Slot} (level : Nat) (sound : ∀ slot ∈ slots, Between level level slot)
    (complete : ∀ slot, Between level level slot → slot ∉ slots → ∀ ring, rule? unwrap ring slot = none)
    (ring : KeyRing) : Stage (ruled unwrap) (Between level level) ring (slots.foldl (obey unwrap) ring) := by
  have stage : Stage (ruled unwrap) (· ∈ slots) ring (slots.foldl (obey unwrap) ring) :=
    stage_obeyAll level sound ring
  refine ⟨stage.titleKeys, stage.ticketKey, fun slot between => ?_, fun slot outside => ?_⟩
  · by_cases among : slot ∈ slots
    · exact stage.written slot among
    · rw [stage.kept slot among, ruled, complete slot between among]
      rfl
  · exact stage.kept slot fun among => outside (sound slot among)

theorem forEach_eq {count : Nat} {rule : KeyRing → Nat → KeyRing} {targets : Nat → List Slot}
    (same : ∀ ring i, i < count → rule ring i = (targets i).foldl (obey unwrap) ring) (ring : KeyRing) :
    ring.forEach count rule = ((List.range count).flatMap targets).foldl (obey unwrap) ring := by
  rw [List.foldl_flatMap, forEach]
  exact List.foldl_ext _ _ _ fun ring i among => same ring i (List.mem_range.mp among)

/-- The families of a level. -/
def families : (level : Nat) → List KeyFamily
  | 1 => [.keyblobKey, .keyblobMacKey]
  | 2 => [.keyblob]
  | 3 => [.masterKek, .package1Key]
  | 4 => [.masterKey]
  | 5 => [.deviceKey]
  | 6 => [.saveMacKey]
  | 7 => [.bisKey]
  | 8 => [.keyAreaKey .application, .keyAreaKey .ocean, .keyAreaKey .system, .titleKek, .package2Key]
  | 9 => [.headerKey]
  | 10 => [.sdCardKey .save, .sdCardKey .content, .sdCardKey .customStorage]
  | _ => []

theorem level_of_mem_families : ∀ {level : Nat}, ∀ family ∈ families level, family.level = level
  | 0 | 1 | 2 | 3 | 4 | 5 | 6 | 7 | 8 | 9 | 10 => by decide
  | _ + 11 => fun _ member => nomatch member

theorem mem_families (family : KeyFamily) (written : 0 < family.level) : family ∈ families family.level := by
  cases family <;> (try cases ‹KeyAreaKind›) <;> (try cases ‹SdCardUse›) <;> first | decide | cases written

/-- A stage that obeys the rules of one level, index after index. -/
theorem stage_each (level count : Nat) (written : 0 < level)
    (counted : ∀ family ∈ families level, family.slotCount = count) {rule : KeyRing → Nat → KeyRing}
    (same : ∀ ring i, i < count →
      rule ring i = ((families level).map (Slot.mk · i)).foldl (obey unwrap) ring) (ring : KeyRing) :
    Stage (ruled unwrap) (Between level level) ring (ring.forEach count rule) := by
  have members : ∀ slot, slot ∈ (List.range count).flatMap (fun i => (families level).map (Slot.mk · i)) ↔
      Between level level slot := by
    rintro ⟨family, i⟩
    simp only [List.mem_flatMap, List.mem_range, List.mem_map, Slot.mk.injEq]
    constructor
    · rintro ⟨_, inside, _, member, rfl, rfl⟩
      have flat := level_of_mem_families _ member
      exact ⟨Nat.lt_of_lt_of_eq inside (counted _ member).symm, Nat.le_of_eq flat.symm, Nat.le_of_eq flat⟩
    · rintro ⟨exist, low, high⟩
      obtain rfl : family.level = level := Nat.le_antisymm high low
      have member := mem_families family written
      exact ⟨i, Nat.lt_of_lt_of_eq exist (counted family member), family, member, rfl, rfl⟩
  rw [forEach_eq same]
  exact stage_level level (fun slot => (members slot).mp)
    (fun slot between outside => absurd ((members slot).mpr between) outside) ring

/-- A stage that obeys the rules of one level, whose families have one slot. -/
theorem stage_once (level : Nat) (written : 0 < level) (counted : ∀ family ∈ families level, family.slotCount = 1)
    {step : KeyRing → KeyRing}
    (same : ∀ ring, step ring = ((families level).map (Slot.mk · 0)).foldl (obey unwrap) ring)
    (ring : KeyRing) : Stage (ruled unwrap) (Between level level) ring (step ring) := by
  show Stage _ _ ring (ring.forEach 1 fun ring _ => step ring)
  refine stage_each level 1 written counted (fun ring i inside => ?_) ring
  obtain rfl : i = 0 := Nat.lt_one_iff.mp inside
  exact same ring

variable (ring : KeyRing)

/-- The later generations have no package1 key in a keyblob. -/
theorem stage_masterKeks :
    Stage (ruled unwrap) (Between 3 3) ring
      ((ring.forEach keyblobCount openKeyblob).forEach (generationCount - keyblobCount) (deriveMasterKek unwrap)) := by
  rw [forEach_eq openKeyblob_eq, forEach_eq fun ring i _ => deriveMasterKek_eq ring i, ← List.foldl_append]
  refine stage_level 3 (fun slot member => ?_) (fun slot between outside ring => ?_) ring
  · simp only [List.mem_append, List.mem_flatMap, List.mem_range, List.mem_cons, List.not_mem_nil, or_false] at member
    obtain ⟨i, inside, rfl | rfl⟩ | ⟨i, inside, rfl⟩ := member
    · exact ⟨Nat.lt_trans inside (show 6 < 32 by decide), Nat.le_refl 3, Nat.le_refl 3⟩
    · exact ⟨Nat.lt_trans inside (show 6 < 32 by decide), Nat.le_refl 3, Nat.le_refl 3⟩
    · exact ⟨Nat.add_lt_of_lt_sub inside, Nat.le_refl 3, Nat.le_refl 3⟩
  · obtain ⟨family, i⟩ := slot
    obtain ⟨exist, low, high⟩ := between
    have level : family.level = 3 := Nat.le_antisymm high low
    have member := mem_families family (by omega)
    rw [level] at member
    have opened : ∀ slot ∈ [(⟨.masterKek, i⟩ : Slot), ⟨.package1Key, i⟩], i < 6 →
        slot ∈ (List.range keyblobCount).flatMap fun i => [(⟨.masterKek, i⟩ : Slot), ⟨.package1Key, i⟩] :=
      fun slot among early => List.mem_flatMap.mpr ⟨i, List.mem_range.mpr early, among⟩
    obtain rfl | rfl : family = .masterKek ∨ family = .package1Key := by
      simpa only [families, List.mem_cons, List.not_mem_nil, or_false] using member
    · refine absurd ?_ outside
      obtain early | late := Nat.lt_or_ge i 6
      · exact List.mem_append_left _ (opened _ (List.mem_cons_self ..) early)
      · refine List.mem_append_right _ (List.mem_flatMap.mpr ⟨i - 6, List.mem_range.mpr ?_, ?_⟩)
        · exact Nat.sub_lt_sub_right late exist
        · rw [keyblobCount, Nat.sub_add_cancel late]
          exact List.mem_cons_self ..
    · have late : ¬ i < 6 := fun early =>
        outside (List.mem_append_left _ (opened _ (List.mem_cons_of_mem _ (List.mem_cons_self ..)) early))
      have unknown : ring.known? ⟨.keyblob, i⟩ = none := by
        cases found : ring.known? ⟨.keyblob, i⟩ with
        | none => rfl
        | some blob => exact absurd (ring.holds _ _ found).1 late
      rw [rule?, unknown]
      rfl

/-! ## Unknown master keks -/

theorem deriveMarikoKek_eq (i : Nat) : deriveMarikoKek unwrap ring i = if (ring.known? ⟨.masterKek, i⟩).isSome then ring
    else ring.put ⟨.masterKek, i⟩ (marikoRule? unwrap ring ⟨.masterKek, i⟩) := by
  simp only [deriveMarikoKek, store_eq, map_do, block?, Option.isSome_map]
  rfl

theorem length_marikoRule? {ring : KeyRing} {slot : Slot} :
    ∀ bytes, marikoRule? unwrap ring slot = some bytes → bytes.length = slot.family.length := by
  obtain ⟨family, i⟩ := slot
  cases family with
  | masterKek =>
    refine of_bind fun _ _ => of_bind fun _ _ => ?_
    rintro _ ⟨⟩
    rfl
  | _ => rintro _ ⟨⟩

theorem stage_marikoKek {i : Nat} (inside : i < generationCount) :
    Stage (filled unwrap) (· = ⟨.masterKek, i⟩) ring (deriveMarikoKek unwrap ring i) := by
  rw [deriveMarikoKek_eq]
  cases old : ring.known? ⟨.masterKek, i⟩ with
  | some bytes =>
    refine ⟨rfl, rfl, ?_, fun _ _ => rfl⟩
    rintro slot rfl
    simp only [Option.isSome_some, if_true, old, filled, Option.some_or]
  | none =>
    refine stage_put lawful_filled inside length_marikoRule? ?_
    rw [old, filled, Option.none_or]
    cases marikoRule? unwrap ring ⟨.masterKek, i⟩ <;> rfl

theorem stage_marikoKeks : Stage (filled unwrap) (fun slot => ∃ i < generationCount, slot = ⟨.masterKek, i⟩) ring
    (ring.forEach generationCount (deriveMarikoKek unwrap)) := by
  have stage : Stage (filled unwrap) (fun slot => ∃ i ∈ List.range generationCount, slot = ⟨.masterKek, i⟩) ring
      (ring.forEach generationCount (deriveMarikoKek unwrap)) :=
    .foldl lawful_filled 3 (fun ring i among => stage_marikoKek ring (List.mem_range.mp among))
      (fun i _ slot same => by rw [same]; rfl) ring
  exact stage.congr fun slot => by simp only [List.mem_range]

variable (unwrap) in
/-- The stages of a derivation: the rules before the master keks are filled, the filling, the rules behind it. -/
theorem deriveWith_stages : ∃ keks full, Stage (ruled unwrap) (Between 1 3) ring keks ∧
    Stage (filled unwrap) (fun slot => ∃ i < generationCount, slot = ⟨.masterKek, i⟩) keks full ∧
    Stage (ruled unwrap) (Between 4 10) full (ring.deriveWith unwrap) := by
  have before : Stage (ruled unwrap) (Between 1 3) ring _ :=
    ((stage_each 1 keyblobCount (by decide) (by decide) deriveKeyblobKey_eq ring).join
      (stage_each 2 keyblobCount (by decide) (by decide) (fun ring i _ => decryptKeyblob_eq ring i) _) (by decide)
      (by decide)).join (stage_masterKeks _) (by decide) (by decide)
  have console : ∀ full : KeyRing, Stage (ruled unwrap) (Between 4 7) full _ := fun full =>
    (((stage_each 4 generationCount (by decide) (by decide) (fun ring i _ => deriveMasterKey_eq ring i) full).join
      (stage_once 5 (by decide) (by decide) deriveDeviceKey_eq _) (by decide) (by decide)).join
      (stage_once 6 (by decide) (by decide) deriveSaveKey_eq _) (by decide) (by decide)).join
      (stage_each 7 4 (by decide) (by decide) (fun ring i _ => deriveBisKey_eq ring i) _) (by decide) (by decide)
  have generations : ∀ full : KeyRing, Stage (ruled unwrap) (Between 8 10) full _ := fun full =>
    ((stage_each 8 generationCount (by decide) (by decide) (fun ring i _ => deriveGeneration_eq ring i) full).join
      (stage_once 9 (by decide) (by decide) deriveHeaderKey_eq _) (by decide) (by decide)).join
      (stage_once 10 (by decide) (by decide) deriveSdCardKeys_eq _) (by decide) (by decide)
  exact ⟨_, _, before, stage_marikoKeks _, (console _).join (generations _) (by decide) (by decide)⟩

end SealedContent.KeyRing
