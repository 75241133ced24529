import SealedContent.Proofs.Aes.Positions
import SealedContent.Proofs.Keys.Rules

/-! # Stages of key derivation

A stage writes some slots of a ring, each by its rule, and nothing that an earlier stage read (`Stage.append`).
So a rule that was obeyed once is obeyed at the end, whatever the stages after it write.
-/

namespace SealedContent.KeyRing

open Aes (Block XtsKey)

/-! ## Writing slots -/

/-- A key of zeros counts as unknown. -/
def nonzero? (bytes : Bytes) : Option Bytes := if bytes.isZero then none else some bytes

theorem known?_set {ring : KeyRing} {slot : Slot} {bytes : Bytes}
    (fits : slot.Exists ∧ bytes.length = slot.family.length) (other : Slot) :
    (ring.set slot bytes).known? other = if other = slot then nonzero? bytes else ring.known? other := by
  rw [set, dif_pos fits]
  rfl

theorem block?_setBlock {ring : KeyRing} {family : KeyFamily} {index : Nat} {key : Aes.Block}
    (fits : (⟨family, index⟩ : Slot).Exists ∧ key.toBytes.length = family.length) (nonzero : key.toBytes.isZero = false)
    (other : Nat) : (ring.setBlock family index key).block? family other =
      if other = index then some key else ring.block? family other := by
  rw [block?, setBlock, known?_set fits, nonzero?, nonzero]
  simp only [Slot.mk.injEq, true_and]
  split
  · exact congrArg some (Aes.Block.ofBytes_toBytes key)
  · rfl

/-- What a slot holds after a value for it, if there is one. -/
def overwritten (value : Option Bytes) (old : Option Bytes) : Option Bytes :=
  match value with
  | some bytes => nonzero? bytes
  | none => old

theorem overwritten_again (value old : Option Bytes) :
    overwritten value (overwritten value old) = overwritten value old := by
  cases value <;> rfl

/-- The ring with a slot overwritten if there is a value. -/
def put (ring : KeyRing) (slot : Slot) (value : Option Bytes) : KeyRing :=
  match value with
  | some bytes => ring.set slot bytes
  | none => ring

/-! ## Laws -/

/-- What a stage makes of a slot: from the ring at its end and the value before it. -/
abbrev Law := KeyRing → Slot → Option Bytes → Option Bytes

/-- The slot's rule decides if its inputs are known. -/
def ruled (unwrap : Unwrap) : Law := fun ring slot old => overwritten (rule? unwrap ring slot) old

/-- The Mariko rule decides if the slot is unknown. -/
def filled (unwrap : Unwrap) : Law := fun ring slot old => old.or ((marikoRule? unwrap ring slot).bind nonzero?)

/-- Both rings know the same keys of the levels below one. -/
def AgreeBelow (level : Nat) (ring other : KeyRing) : Prop :=
  ∀ slot : Slot, slot.level < level → ring.known? slot = other.known? slot

/-- The law of a slot reads lower levels only, and it makes nothing else of what it made. -/
structure Law.Lawful (law : Law) : Prop where
  congr : ∀ {ring other slot} old, AgreeBelow slot.level ring other → law ring slot old = law other slot old
  again : ∀ ring slot old, law ring slot (law ring slot old) = law ring slot old

variable {unwrap : Unwrap} {law : Law} {on later : Slot → Prop} {start middle finish : KeyRing}

theorem lawful_ruled : (ruled unwrap).Lawful where
  congr old agree := by rw [ruled, ruled, rule?_congr agree]
  again ring slot := overwritten_again (rule? unwrap ring slot)

theorem marikoRule?_congr {ring other : KeyRing} {slot : Slot} (agree : AgreeBelow slot.level ring other) :
    marikoRule? unwrap ring slot = marikoRule? unwrap other slot := by
  obtain ⟨family, i⟩ := slot
  cases family with
  | masterKek =>
    simp only [marikoRule?, single?, block?, agree ⟨.marikoKek, 0⟩ (by decide : 0 < 3),
      agree ⟨.marikoMasterKekSource, i⟩ (by decide : 0 < 3)]
  | _ => rfl

theorem lawful_filled : (filled unwrap).Lawful where
  congr old agree := by rw [filled, filled, marikoRule?_congr agree]
  again ring slot old := by
    simp only [filled]
    cases old with
    | some bytes => rfl
    | none => rw [Option.none_or, Option.or_self]

/-! ## Stages -/

/-- A stage gives its slots what a law says and changes nothing else. -/
structure Stage (law : Law) (on : Slot → Prop) (start finish : KeyRing) : Prop where
  titleKeys : finish.titleKeys = start.titleKeys
  ticketKey : finish.ticketKey = start.ticketKey
  written : ∀ slot, on slot → finish.known? slot = law finish slot (start.known? slot)
  kept : ∀ slot, ¬ on slot → finish.known? slot = start.known? slot

namespace Stage

theorem refl (law : Law) (ring : KeyRing) : Stage law (fun _ => False) ring ring :=
  ⟨rfl, rfl, fun _ never => never.elim, fun _ _ => rfl⟩

theorem congr (same : ∀ slot, on slot ↔ later slot) (stage : Stage law on start finish) :
    Stage law later start finish :=
  ⟨stage.titleKeys, stage.ticketKey, fun slot written => stage.written slot ((same slot).mpr written),
    fun slot kept => stage.kept slot fun written => kept ((same slot).mp written)⟩

/-- The second of two stages writes nothing that the first one read. -/
theorem append (lawful : law.Lawful) (first : Stage law on start middle) (second : Stage law later middle finish)
    (ordered : ∀ slot after, on slot → later after → slot.level ≤ after.level) :
    Stage law (fun slot => on slot ∨ later slot) start finish := by
  have settled : ∀ slot, on slot → ∀ old, law middle slot old = law finish slot old := by
    intro slot written old
    refine lawful.congr old fun below less => (second.kept below fun after => ?_).symm
    exact Nat.not_le_of_lt less (ordered slot below written after)
  refine ⟨second.titleKeys.trans first.titleKeys, second.ticketKey.trans first.ticketKey, ?_, ?_⟩
  · intro slot written
    by_cases early : on slot
    · have before := first.written slot early
      rw [settled slot early] at before
      by_cases late : later slot
      · rw [second.written slot late, before, lawful.again]
      · rw [second.kept slot late, before]
    · obtain early' | late := written
      · exact absurd early' early
      · rw [second.written slot late, first.kept slot early]
  · intro slot kept
    rw [second.kept slot fun late => kept (.inr late), first.kept slot fun early => kept (.inl early)]

/-- Steps that all write one level make a stage. -/
theorem foldl {α : Type} (lawful : law.Lawful) {change : KeyRing → α → KeyRing} {on : α → Slot → Prop} (level : Nat) :
    ∀ {items : List α}, (∀ ring, ∀ item ∈ items, Stage law (on item) ring (change ring item)) →
      (∀ item ∈ items, ∀ slot, on item slot → slot.level = level) → ∀ start,
      Stage law (fun slot => ∃ item ∈ items, on item slot) start (items.foldl change start)
  | [], _, _, start => (refl law start).congr fun slot => by simp
  | item :: rest, each, flat, start => by
    have first := each start item (List.mem_cons_self ..)
    have second := foldl lawful level (fun ring item among => each ring item (List.mem_cons_of_mem _ among))
      (fun item among => flat item (List.mem_cons_of_mem _ among)) (change start item)
    refine (first.append lawful second ?_).congr fun slot => by simp
    rintro slot after written ⟨item, among, late⟩
    exact Nat.le_of_eq ((flat _ (List.mem_cons_self ..) slot written).trans
      (flat item (List.mem_cons_of_mem _ among) after late).symm)

end Stage

/-- One slot that gets a value from lower levels. -/
theorem stage_put {slot : Slot} {value : Option Bytes} (lawful : law.Lawful) (exist : slot.Exists)
    (long : ∀ bytes, value = some bytes → bytes.length = slot.family.length)
    (gives : law start slot (start.known? slot) = overwritten value (start.known? slot)) :
    Stage law (· = slot) start (start.put slot value) := by
  cases value with
  | none =>
    refine ⟨rfl, rfl, fun other written => ?_, fun _ _ => rfl⟩
    rw [written]
    exact gives.symm
  | some bytes =>
    have known := @known?_set start slot bytes ⟨exist, long bytes rfl⟩
    refine ⟨?_, ?_, fun other written => ?_, fun other different => ?_⟩
    · rw [put, set, dif_pos ⟨exist, long bytes rfl⟩]
    · rw [put, set, dif_pos ⟨exist, long bytes rfl⟩]
    · have agree : AgreeBelow slot.level start (start.put slot (some bytes)) := by
        intro below less
        rw [put, known, if_neg fun same => by rw [same] at less; exact Nat.lt_irrefl _ less]
      rw [written, ← lawful.congr _ agree, gives, put, known, if_pos rfl, overwritten]
    · rw [put, known, if_neg different]

/-! ## Rules as stages -/

theorem of_bind {α β : Type} {first : Option α} {f : α → Option β} {property : β → Prop}
    (rest : ∀ a, first = some a → ∀ b, f a = some b → property b) : ∀ b, (first >>= f) = some b → property b := by
  intro b gives
  obtain ⟨a, found, gives⟩ := Option.bind_eq_some_iff.mp gives
  exact rest a found b gives

theorem length_known {ring : KeyRing} {family : KeyFamily} {i : Nat} {bytes : Bytes}
    (found : ring.known? ⟨family, i⟩ = some bytes) : bytes.length = family.length :=
  (ring.holds _ _ found).2.1

/-- A rule gives as many bytes as its slot has. -/
theorem length_rule? {ring : KeyRing} {slot : Slot} :
    ∀ bytes, rule? unwrap ring slot = some bytes → bytes.length = slot.family.length := by
  obtain ⟨family, i⟩ := slot
  have ctr : ∀ (key counter : Block) (data : Bytes), (Aes.ctr key counter data).length = data.length :=
    fun key counter data => Aes.length_ctrAt key counter 0 data
  cases family <;> simp only [rule?, Option.pure_def] <;> try split
  case keyblob =>
    refine of_bind fun key _ => of_bind fun mac _ => of_bind fun blob found => ?_
    rintro _ ⟨⟩
    rw [ctr, List.length_drop, length_known found]
    rfl
  case masterKek.isTrue =>
    refine of_bind fun blob found => ?_
    rintro _ ⟨⟩
    exact Bytes.length_window (by rw [length_known found]; decide)
  case package1Key =>
    refine of_bind fun blob found => ?_
    rintro _ ⟨⟩
    exact Bytes.length_window (by rw [length_known found]; decide)
  -- the others end in a key or have no rule
  all_goals
    repeat' with_reducible refine of_bind fun _ _ => ?_
    rintro _ ⟨⟩ <;> rfl

/-- The ring after the rule of one slot. -/
def obey (unwrap : Unwrap) (ring : KeyRing) (slot : Slot) : KeyRing := ring.put slot (rule? unwrap ring slot)

theorem stage_obey {ring : KeyRing} {slot : Slot} (exist : slot.Exists) :
    Stage (ruled unwrap) (· = slot) ring (ring.obey unwrap slot) :=
  stage_put lawful_ruled exist length_rule? rfl

/-- The slots of some levels. -/
def Between (first last : Nat) (slot : Slot) : Prop := slot.Exists ∧ first ≤ slot.level ∧ slot.level ≤ last

theorem stage_obeyAll {slots : List Slot} (level : Nat) (sound : ∀ slot ∈ slots, Between level level slot)
    (ring : KeyRing) : Stage (ruled unwrap) (· ∈ slots) ring (slots.foldl (obey unwrap) ring) := by
  have flat : ∀ target ∈ slots, ∀ slot, slot = target → slot.level = level := by
    rintro _ among slot rfl
    obtain ⟨-, low, high⟩ := sound slot among
    exact Nat.le_antisymm high low
  have each : Stage (ruled unwrap) (fun slot => ∃ target ∈ slots, slot = target) ring
      (slots.foldl (obey unwrap) ring) :=
    .foldl lawful_ruled level (fun ring target among => stage_obey (sound target among).1) flat ring
  exact each.congr fun slot => by simp

theorem Stage.join {first last next : Nat} (early : Stage (ruled unwrap) (Between first last) start middle)
    (late : Stage (ruled unwrap) (Between (last + 1) next) middle finish) (order : first ≤ last + 1)
    (onward : last ≤ next) :
    Stage (ruled unwrap) (Between first next) start finish := by
  have ordered : ∀ slot after, Between first last slot → Between (last + 1) next after → slot.level ≤ after.level :=
    fun slot after before behind => Nat.le_of_lt (Nat.lt_of_le_of_lt before.2.2 behind.2.1)
  refine (early.append lawful_ruled late ordered).congr fun slot => ?_
  simp only [Between]
  constructor
  · rintro (⟨exist, low, high⟩ | ⟨exist, low, high⟩)
    · exact ⟨exist, low, Nat.le_trans high onward⟩
    · exact ⟨exist, Nat.le_trans order low, high⟩
  · rintro ⟨exist, low, high⟩
    obtain before | behind := Nat.lt_or_ge last slot.level
    · exact .inr ⟨exist, before, high⟩
    · exact .inl ⟨exist, low, behind⟩

end SealedContent.KeyRing
