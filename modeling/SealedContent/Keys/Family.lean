import SealedContent.Text.Blank
import SealedContent.Text.Hex
import SealedContent.Error

/-! # Key families

Every key that can be known, as a family with a fixed number of slots:

* `KeyFamily` with its `name`, `purpose`, `count` and `length`, and `KeyFamily.all` in the order of
  key files.
* `Slot` — one slot of a family, and `Slot.name`, its name in key files.
* `Slot.ofName?` — the slot that a text names, whatever its case and the blanks around it.
-/

namespace SealedContent

/-- The content that a key area key serves. -/
inductive KeyAreaKind where
  | application
  | ocean
  | system
deriving DecidableEq, Repr, Inhabited

/-- The stem of the content kind in key names. -/
def KeyAreaKind.name : KeyAreaKind → String
  | application => "application"
  | ocean => "ocean"
  | system => "system"

/-- The content kind with a given number in container headers. -/
def KeyAreaKind.ofNumber : Nat → Except Error KeyAreaKind
  | 0 => .ok application
  | 1 => .ok ocean
  | 2 => .ok system
  | index => .error (.format (.keyAreaIndex index))

/-- What a key protects on an SD card. -/
inductive SdCardUse where
  | save
  | content
  | customStorage
deriving DecidableEq, Repr, Inhabited

/-- What the keys of a family are for. -/
inductive KeyPurpose where
  /-- Secret material that a console supplies. -/
  | seed
  /-- A constant that a parent key unwraps. -/
  | source
  /-- A key that only unwraps another. -/
  | kek
  /-- A working key that derivation produces. -/
  | derived
  /-- A key of one console, left out of exports unless asked for. -/
  | deviceUnique
deriving DecidableEq, Repr

def generationCount : Nat := 32

/-- The number of generations, counted from the first, whose keys come in keyblobs. -/
def keyblobCount : Nat := 6

/-- A family of keys: a single slot, or one slot for each generation or index. -/
inductive KeyFamily where
  | secureBootKey
  | tsecKey
  | sdSeed
  | deviceKey
  | keyblobKeySource
  | keyblobKey
  | keyblobMacKeySource
  | keyblobMacKey
  | encryptedKeyblob
  | keyblob
  | tsecRootKey
  | masterKekSource
  | marikoKek
  | marikoMasterKekSource
  | masterKek
  | masterKeySource
  | masterKey
  | package1Key
  | package2KeySource
  | package2Key
  | perConsoleKeySource
  | retailSpecificAesKeySource
  | aesKekGenerationSource
  | aesKeyGenerationSource
  | keyAreaKeySource (kind : KeyAreaKind)
  | keyAreaKey (kind : KeyAreaKind)
  | titleKekSource
  | titleKek
  | headerKekSource
  | headerKeySource
  | headerKey
  | sdCardKekSource
  | sdCardKeySource (use : SdCardUse)
  | sdCardKey (use : SdCardUse)
  | saveMacKekSource
  | saveMacKeySource
  | saveMacKey
  | bisKekSource
  | bisKeySource
  | bisKey
  | gameCardHeaderKey
  | contentHeaderModulus
  | acidModulus
  | package2Modulus
deriving DecidableEq, Repr, Inhabited

namespace KeyFamily

/-! ## The families -/

/-- The name in key files, without a slot number. -/
def name : KeyFamily → String
  | secureBootKey => "secure_boot_key"
  | tsecKey => "tsec_key"
  | sdSeed => "sd_seed"
  | deviceKey => "device_key"
  | keyblobKeySource => "keyblob_key_source"
  | keyblobKey => "keyblob_key"
  | keyblobMacKeySource => "keyblob_mac_key_source"
  | keyblobMacKey => "keyblob_mac_key"
  | encryptedKeyblob => "encrypted_keyblob"
  | keyblob => "keyblob"
  | tsecRootKey => "tsec_root_key"
  | masterKekSource => "master_kek_source"
  | marikoKek => "mariko_kek"
  | marikoMasterKekSource => "mariko_master_kek_source"
  | masterKek => "master_kek"
  | masterKeySource => "master_key_source"
  | masterKey => "master_key"
  | package1Key => "package1_key"
  | package2KeySource => "package2_key_source"
  | package2Key => "package2_key"
  | perConsoleKeySource => "per_console_key_source"
  | retailSpecificAesKeySource => "retail_specific_aes_key_source"
  | aesKekGenerationSource => "aes_kek_generation_source"
  | aesKeyGenerationSource => "aes_key_generation_source"
  | keyAreaKeySource .application => "key_area_key_application_source"
  | keyAreaKeySource .ocean => "key_area_key_ocean_source"
  | keyAreaKeySource .system => "key_area_key_system_source"
  | keyAreaKey .application => "key_area_key_application"
  | keyAreaKey .ocean => "key_area_key_ocean"
  | keyAreaKey .system => "key_area_key_system"
  | titleKekSource => "titlekek_source"
  | titleKek => "titlekek"
  | headerKekSource => "header_kek_source"
  | headerKeySource => "header_key_source"
  | headerKey => "header_key"
  | sdCardKekSource => "sd_card_kek_source"
  | sdCardKeySource .save => "sd_card_save_key_source"
  | sdCardKeySource .content => "sd_card_nca_key_source"
  | sdCardKeySource .customStorage => "sd_card_custom_storage_key_source"
  | sdCardKey .save => "sd_card_save_key"
  | sdCardKey .content => "sd_card_nca_key"
  | sdCardKey .customStorage => "sd_card_custom_storage_key"
  | saveMacKekSource => "save_mac_kek_source"
  | saveMacKeySource => "save_mac_key_source"
  | saveMacKey => "save_mac_key"
  | bisKekSource => "bis_kek_source"
  | bisKeySource => "bis_key_source"
  | bisKey => "bis_key"
  | gameCardHeaderKey => "xci_header_key"
  | contentHeaderModulus => "nca_hdr_fixed_key_modulus"
  | acidModulus => "acid_fixed_key_modulus"
  | package2Modulus => "package2_fixed_key_modulus"

/-- What the keys of a family are for. -/
def purpose : KeyFamily → KeyPurpose
  | secureBootKey | tsecKey | sdSeed | deviceKey | keyblobKey | keyblobMacKey | encryptedKeyblob
  | sdCardKey _ | saveMacKey | bisKey => .deviceUnique
  | keyblobKeySource | keyblobMacKeySource | masterKekSource | marikoMasterKekSource
  | masterKeySource | package2KeySource | perConsoleKeySource | retailSpecificAesKeySource
  | aesKekGenerationSource | aesKeyGenerationSource | keyAreaKeySource _ | titleKekSource
  | headerKekSource | headerKeySource | sdCardKekSource | sdCardKeySource _ | saveMacKekSource
  | saveMacKeySource | bisKekSource | bisKeySource => .source
  | keyblob | masterKey | package1Key | package2Key | keyAreaKey _ | headerKey => .derived
  | marikoKek | masterKek | titleKek => .kek
  | tsecRootKey | gameCardHeaderKey | contentHeaderModulus | acidModulus | package2Modulus => .seed

/-- The number of slots of a numbered family; other families have a single slot without a number. -/
def count? : KeyFamily → Option Nat
  | keyblobKeySource | keyblobKey | keyblobMacKey | encryptedKeyblob | keyblob => some keyblobCount
  | tsecRootKey => some (generationCount - keyblobCount)
  | masterKekSource | marikoMasterKekSource | masterKek | masterKey | package1Key | package2Key
  | keyAreaKey _ | titleKek => some generationCount
  | bisKeySource | bisKey => some 4
  | contentHeaderModulus | acidModulus => some 2
  | _ => none

def length : KeyFamily → Nat
  | encryptedKeyblob => 0xB0
  | keyblob => 0x90
  | headerKeySource | headerKey | sdCardKeySource _ | sdCardKey _ | bisKeySource | bisKey => 0x20
  | contentHeaderModulus | acidModulus | package2Modulus => 0x100
  | _ => 0x10

/-- Every family, in the order of key files. -/
def all : List KeyFamily := [
  secureBootKey, tsecKey, sdSeed, deviceKey,
  keyblobKeySource, keyblobKey, keyblobMacKeySource, keyblobMacKey, encryptedKeyblob, keyblob,
  tsecRootKey, masterKekSource, marikoKek, marikoMasterKekSource, masterKek,
  masterKeySource, masterKey, package1Key, package2KeySource, package2Key,
  perConsoleKeySource, retailSpecificAesKeySource, aesKekGenerationSource, aesKeyGenerationSource,
  keyAreaKeySource .application, keyAreaKeySource .ocean, keyAreaKeySource .system,
  keyAreaKey .application, keyAreaKey .ocean, keyAreaKey .system,
  titleKekSource, titleKek, headerKekSource, headerKeySource, headerKey,
  sdCardKekSource, sdCardKeySource .save, sdCardKeySource .content, sdCardKeySource .customStorage,
  sdCardKey .save, sdCardKey .content, sdCardKey .customStorage,
  saveMacKekSource, saveMacKeySource, saveMacKey, bisKekSource, bisKeySource, bisKey,
  gameCardHeaderKey, contentHeaderModulus, acidModulus, package2Modulus]

theorem mem_all (family : KeyFamily) : family ∈ all := by
  cases family with
  | keyAreaKeySource kind => cases kind <;> decide
  | keyAreaKey kind => cases kind <;> decide
  | sdCardKeySource use => cases use <;> decide
  | sdCardKey use => cases use <;> decide
  | _ => decide

def slotCount (family : KeyFamily) : Nat := family.count?.getD 1

end KeyFamily

/-! ## Slots -/

/-- One slot of a family. Slots of single families have index zero. -/
structure Slot where
  family : KeyFamily
  index : Nat
deriving DecidableEq, Repr

namespace Slot

/-- The slot exists in its family. -/
def Exists (slot : Slot) : Prop := slot.index < slot.family.slotCount

instance (slot : Slot) : Decidable slot.Exists :=
  inferInstanceAs (Decidable (slot.index < slot.family.slotCount))

/-- The name in key files: two digits follow the name of a numbered family. -/
def name (slot : Slot) : String :=
  match slot.family.count? with
  | some _ => slot.family.name ++ "_" ++ Hex.twoDigits slot.index
  | none => slot.family.name

/-- The number written in exactly two characters: two digits, or one digit behind a plus sign. -/
def number? : List Char → Option Nat
  | ['+', low] => Hex.digit? low
  | [high, low] => do
    let h ← Hex.digit? high
    let l ← Hex.digit? low
    pure (h * 16 + l)
  | _ => none

/-- The slot of one family that a text names. -/
def ofNameIn? (family : KeyFamily) (text : List Char) : Option Slot :=
  match family.count? with
  | none =>
    if Text.sameIgnoringCase text family.name.toList then some ⟨family, 0⟩ else none
  | some count => do
    match ← Text.dropStart? family.name.toList text with
    | '_' :: digits =>
      let index ← number? digits
      if index < count then some ⟨family, index⟩ else none
    | _ => none

/-- The slot that a text names, up to case and the blanks around it. -/
def ofName? (text : List Char) : Option Slot :=
  KeyFamily.all.findSome? fun family => ofNameIn? family (Text.trim text)

end Slot

end SealedContent
