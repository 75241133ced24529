import SealedContent.Text.Hex
import SealedContent.Validity

/-! # Errors and warnings

Every way in which opening or reading sealed content fails, as a cause with the facts that belong
to it. The wording of a cause is in one function each: `FormatFault.message`, `LayoutFault.message`,
`CryptoFault.message`, `TitleKeyFault.message`, `Warning.message` and `Error.message`.
-/

namespace SealedContent

/-! ## Values that a format does not allow -/

/-- A field, or a relation between fields, that its format rules out. -/
inductive FormatFault where
  -- hash trees
  | zeroHashBlock
  | fewHashes (level hashBytes blocks : Nat)
  | emptyHashTree
  -- bucket trees and what they map
  | negativeNodeField
  | bucketCount (listed expected : Nat)
  | bucketOverfull
  | entryCount (held expected : Nat)
  | bucketRange (bucket first last limit : Nat)
  | entryOutsideBucket (offset bucket : Nat)
  | entriesNotIncreasing
  | notRelocated (offset : Nat)
  | relocationSource (index : Nat)
  | relocationEnd (last offset : Nat)
  | relocationOverflow
  | notInSubsection (offset : Nat)
  | subsectionEnd (last offset : Nat)
  -- containers
  | shortContainer (size : Nat)
  | headerMagic
  | decryptedHeaderMagic
  | keyAreaIndex (index : Nat)
  | sectionReversed
  | sectionHeaderHash (index : Nat)
  | levelMagic
  | levelCount (count : Nat)
  | levelBlockSize
  | levelsAbsent
  | patchMagic
  | sectionAbsent (index : Nat)
  | patchAbsent (index : Nat)
  | patchTableOrder
  | fileAbsent (path : String)
  -- archives, tickets and content meta
  | romHeaderSize (size : Nat)
  | romEntryRepeated (offset : Nat)
  | romTooDeep (limit : Nat)
  | metaNotPartition
  | metaAbsent
  | ticketSignature (code : Nat)
  | titleKeyKind (code : Nat)
  | titleKeyLength (length : Nat)
  -- game cards
  | partitionAbsent (name : String)
  | partitionFileAbsent (name : String)
  -- boot packages
  | firstStageSize (size : Nat)
  | firstStageKeys (tried : Nat)
  | firstStageSection (index : Nat)
  | kernelKeys (tried : Nat)
  | kernelTooLong
  | kernelSection (index : Nat)
deriving DecidableEq, Repr

open Hex (numeral) in
def FormatFault.message : FormatFault → String
  | zeroHashBlock => "hash block size is zero"
  | fewHashes level hashBytes blocks =>
    s!"hash level {level} has {numeral hashBytes} bytes of hashes for {blocks} blocks"
  | emptyHashTree => "hash tree without levels"
  | negativeNodeField => "negative bucket tree node field"
  | bucketCount listed expected =>
    s!"bucket tree L1 node lists {listed} buckets, expected {expected}"
  | bucketOverfull => "bucket holds more entries than fit in a node"
  | entryCount held expected => s!"bucket tree holds {held} entries, header says {expected}"
  | bucketRange bucket first last limit =>
    s!"bucket {bucket} range {numeral first}..{numeral last} does not fit before {numeral limit}"
  | entryOutsideBucket offset bucket =>
    s!"bucket tree entry at {numeral offset} lies outside bucket {bucket}"
  | entriesNotIncreasing => "bucket tree entries are not strictly increasing"
  | notRelocated offset => s!"offset {numeral offset} is not covered by the relocation table"
  | relocationSource index => s!"relocation entry names storage {index}"
  | relocationEnd last offset =>
    s!"relocation entry ends at {numeral last}, before {numeral offset}"
  | relocationOverflow => "relocated offset overflows"
  | notInSubsection offset => s!"offset {numeral offset} is not covered by the subsection table"
  | subsectionEnd last offset => s!"subsection ends at {numeral last}, before {numeral offset}"
  | shortContainer size => s!"NCA of {numeral size} bytes is shorter than its header"
  | headerMagic => "invalid NCA magic"
  | decryptedHeaderMagic => "invalid NCA magic after header decryption"
  | keyAreaIndex index => s!"invalid key area key index {index}"
  | sectionReversed => "section ends before it starts"
  | sectionHeaderHash index => s!"FsHeader {index} does not match its hash"
  | levelMagic => "IVFC descriptor has a bad magic"
  | levelCount count => s!"IVFC descriptor has {count} levels"
  | levelBlockSize => "IVFC block size out of range"
  | levelsAbsent => "IVFC descriptor without levels"
  | patchMagic => "patch info has a bad BKTR magic"
  | sectionAbsent index => s!"section {index} is not present"
  | patchAbsent index => s!"section {index} is CTR-Ex without patch info"
  | patchTableOrder => "subsection table precedes the relocation table"
  | fileAbsent path => s!"no file {path} in section"
  | romHeaderSize size => s!"RomFS header size {numeral size}"
  | romEntryRepeated offset => s!"RomFS entry {numeral offset} is linked twice"
  | romTooDeep limit => s!"RomFS directories nest deeper than {limit}"
  | metaNotPartition => "meta NCA section 0 is not a PartitionFS"
  | metaAbsent => "meta NCA holds no .cnmt file"
  | ticketSignature code => s!"unknown ticket signature type {numeral code}"
  | titleKeyKind code => s!"unknown title key type {code}"
  | titleKeyLength length => s!"personalized title key is {length} bytes"
  | partitionAbsent name => s!"XCI has no {name} partition"
  | partitionFileAbsent name => s!"partition has no file {name}"
  | firstStageSize size => s!"PK11 blob of {numeral size} bytes"
  | firstStageKeys tried => s!"none of {tried} package1 keys decrypts the PK11 blob"
  | firstStageSection index => s!"PK11 section {index} runs past the blob"
  | kernelKeys tried => s!"none of {tried} package2 keys decrypts the header"
  | kernelTooLong => "package2 sections run past the image"
  | kernelSection index => s!"package2 has no section {index}"

/-! ## Layouts that are not handled -/

/-- A combination of fields that is well formed but not handled. -/
inductive LayoutFault where
  | oldHeader (magic : String)
  | oldEncryptedHeader
  | partialUnit (cipher : String) (size unit : Nat)
  | deepBucketTree (entries : Nat)
  | encryption (index code : Nat)
  | xtsTitleKey
  | unalignedPatchTable (offset : Nat)
  | noHashTree (index : Nat)
  | fileSystem (index code : Nat)
deriving DecidableEq, Repr

open Hex (numeral) in
def LayoutFault.message : LayoutFault → String
  | oldHeader magic => s!"{magic} headers are not supported"
  | oldEncryptedHeader => "NCA0/NCA1 headers are not supported"
  | partialUnit cipher size unit =>
    s!"{cipher} storage of {numeral size} bytes is not a whole number of {numeral unit}-byte units"
  | deepBucketTree entries => s!"bucket tree with {entries} entries needs an L2 level"
  | encryption index code => s!"section {index} has encryption type Unknown({code})"
  | xtsTitleKey => "XTS sections cannot use a title key"
  | unalignedPatchTable offset => s!"relocation table at unaligned offset {numeral offset}"
  | noHashTree index => s!"section {index} has no hash tree"
  | fileSystem index code => s!"section {index} has fs type {code}"

/-! ## Ciphers and signatures -/

/-- Input that a cipher or signature primitive refuses. -/
inductive CryptoFault where
  | partialBlock
  | partialSector
  | rsaModulus
  | rsaRange
  | rsaInconsistent
  | oaep
deriving DecidableEq, Repr

def CryptoFault.message : CryptoFault → String
  | partialBlock => "buffer is not a multiple of the AES block size"
  | partialSector => "buffer is not a whole number of XTS sectors"
  | rsaModulus => "invalid RSA modulus"
  | rsaRange => "RSA parameters out of range"
  | rsaInconsistent => "recovered RSA parameters are inconsistent"
  | oaep => "RSA-OAEP decryption failed"

/-! ## Missing keys -/

/-- What a missing key belongs to. -/
inductive KeyKind where
  /-- Every console holds the key. -/
  | common
  /-- One console holds the key. -/
  | deviceUnique
  /-- The key belongs to one title. -/
  | title
deriving DecidableEq, Repr

def KeyKind.name : KeyKind → String
  | common => "common"
  | deviceUnique => "device-unique"
  | title => "title"

/-! ## Errors -/

/-- Why an operation failed. -/
inductive Error where
  /-- A magic field holds something else. -/
  | badMagic
  /-- A field breaks its format. -/
  | format (fault : FormatFault)
  /-- The input ends before a field of variable length does. -/
  | truncated
  /-- A name has no terminator within its table. -/
  | unterminatedName
  /-- A range lies outside a storage. -/
  | outOfRange (offset length size : Nat)
  /-- A key that is needed is unknown. -/
  | missingKey (name : String) (kind : KeyKind)
  /-- A block does not match its hash. -/
  | integrity (level block : Nat)
  /-- A layout is not handled. -/
  | layout (fault : LayoutFault)
  /-- No witness revealed a factor of an RSA modulus. -/
  | factorization
  /-- A patch section has no container to patch. -/
  | missingBase (index : Nat)
  /-- A primitive refused its input. -/
  | crypto (fault : CryptoFault)
  /-- A reader met the end before a field of fixed length did. -/
  | endOfReader
  /-- A line of a text file is not UTF-8. -/
  | notUtf8
  /-- A seek aimed before the start. -/
  | seekBeforeStart
  /-- A storage error that reached its caller through a reader. -/
  | reader (cause : Error)
  /-- A sum that nobody checks has more than 64 bits. This is no error that a caller can handle: the
      program stops. -/
  | overflow
deriving DecidableEq, Repr

namespace Error

open Hex (numeral) in
def message : Error → String
  | badMagic => "bad magic value"
  | format fault => s!"invalid format: {fault.message}"
  | truncated => "unexpected end of file"
  | unterminatedName => "unterminated string"
  | outOfRange offset length size =>
    s!"read of {numeral length} bytes at {numeral offset} exceeds storage size {numeral size}"
  | missingKey name kind => s!"missing {kind.name} key: {name}"
  | integrity level block => s!"integrity violation in level {level}, block {block}"
  | layout fault => s!"unsupported layout: {fault.message}"
  | factorization => "RSA factorization failed"
  | missingBase index => s!"section {index} is a patch and needs a base container"
  | crypto fault => s!"crypto error: {fault.message}"
  | endOfReader => "I/O error: failed to fill whole buffer"
  | notUtf8 => "I/O error: stream did not contain valid UTF-8"
  | seekBeforeStart => "I/O error: seek before start"
  | reader cause => s!"I/O error: {cause.message}"
  | overflow => "arithmetic overflow"

/-- Reader errors, and storage errors that came through a reader. -/
def isReaderError : Error → Bool
  | endOfReader | notUtf8 | seekBeforeStart | reader _ => true
  | _ => false

/-- A storage error as a reader reports it. Errors of readers pass unchanged, and a reader stops with its storage. -/
def throughReader (e : Error) : Error := if e.isReaderError || e == .overflow then e else .reader e

end Error

/-! ## Rejected lines and warnings -/

/-- Why a line of a title-key file is rejected. -/
inductive TitleKeyFault where
  | noSeparator
  | rightsId (text : String)
  | key (text : String)
deriving DecidableEq, Repr

def TitleKeyFault.message : TitleKeyFault → String
  | noSeparator => "missing separator between rights ID and title key"
  | rightsId text => s!"rights ID `{text}` is not 16 bytes of hex"
  | key text => s!"title key `{text}` is not 16 bytes of hex"

/-- What is reported beside a result that still stands. -/
inductive Warning where
  /-- No witness revealed a factor. -/
  | recoveryGaveUp (witnesses : Nat)
  /-- A keyblob is used although its authentication code differs. -/
  | keyblobMac (generation : Nat)
  /-- A line of a key file has no separator. -/
  | lineSeparator (line : String)
  /-- A key file names no known slot. -/
  | unknownKey (name : String)
  /-- A key file gives a value that does not fit its slot. -/
  | keyLength (name : String) (expected : Nat)
  /-- A line of a title-key file is rejected. -/
  | titleKeyLine (line : Nat) (fault : TitleKeyFault)
  /-- A block does not match its hash and is returned anyway. -/
  | hashMismatch (level block : Nat)
  /-- The levels of a section's hash tree do not all hold. -/
  | sectionInvalid (index : Nat) (levels : List Validity)
  /-- The covered part of a file does not match its hash. -/
  | fileHash (name : String)
  /-- A section of a boot package does not match its hash. -/
  | packageHash (index : Nat)
deriving DecidableEq, Repr

def Warning.message : Warning → String
  | recoveryGaveUp witnesses => s!"RSA key recovery gave up after {witnesses} witnesses"
  | keyblobMac _ => "keyblob MAC mismatch, using decrypted keyblob anyway"
  | lineSeparator _ => "key file line has no separator"
  | unknownKey _ => "unknown key"
  | keyLength _ _ => "key has the wrong length"
  | titleKeyLine _ fault => fault.message
  | hashMismatch _ _ => "hash mismatch"
  | sectionInvalid _ _ => "section failed verification"
  | fileHash _ => "HFS0 entry hash mismatch"
  | packageHash _ => "package2 section hash mismatch"

end SealedContent
