import SealedContent.Container.Header
import SealedContent.Storage.Options

/-! # Containers

A container holds up to four sections, each encrypted and hashed in its own way. A patch is a
container whose sections refer to those of another one.

* `Container.ofStorage` reads the header and resolves the content keys; a key that is missing only matters
  when a section needs it.
* `Patched` — a container with those that it patches, the nearest first.
* `Patched.openDecrypted`, `Patched.openVerified`, `Patched.openSection` — a section in plain text,
  its hash tree, and its data under a policy.
* `Patched.verifySection` — the check of a whole section.
-/

namespace SealedContent

/-! ## Content keys -/

/-- The content keys of a container, or why they cannot be used. -/
structure ContentKeys where
  xts : Except Error Aes.XtsKey
  ctr : Except Error Aes.Block

/-- The content keys of a header: the title key if there is a rights ID, or else those of the key
    area, of which the first two are the XTS key and the third is the CTR key. -/
def ContentKeys.resolve (header : ContainerHeader) (ring : KeyRing) : ContentKeys :=
  if header.hasRightsId then ⟨.error (.layout .xtsTitleKey), header.titleKey ring⟩
  else
    let area := header.keyAreaKeys ring
    { xts := area.map fun keys => ⟨keys.getD 0 .zero, keys.getD 1 .zero⟩
      ctr := area.map fun keys => keys.getD 2 .zero }

/-! ## Containers -/

/-- An opened container. -/
structure Container where
  storage : Storage
  header : ContainerHeader
  keys : ContentKeys
  options : ReadOptions

namespace Container

def ofStorage (ring : KeyRing) (storage : Storage) (options : ReadOptions) : SessionM Container := do
  let header ← ContainerHeader.read ring storage
  return ⟨storage, header, .resolve header ring, options⟩

def sectionAt (container : Container) (index : Nat) : Except Error (UnitRange × SectionHeader) :=
  match container.header.section? index with
  | some found => .ok found
  | none => .error (.format (.sectionAbsent index))

/-- The bytes of a section as stored. -/
def openRaw (container : Container) (index : Nat) : Except Error Storage := do
  let (range, _) ← container.sectionAt index
  container.storage.window range.start range.size

/-- A cache in front of a section, if the options ask for one. -/
def cached (container : Container) (storage : Storage) : SessionM Storage :=
  if container.options.cacheCapacity = 0 then return storage
  else storage.cached container.options.cacheBlockSize container.options.cacheCapacity

end Container

/-! ## Patched containers -/

/-- The data and the relocations of a patch section that starts at `start`. What stands before the
    relocation table has the generations of the subsections; the rest, which holds the tables, is
    plain CTR. -/
def SectionHeader.patchData (header : SectionHeader) (index : Nat) (key : Aes.Block) (start : Nat)
    (raw : Storage) : SessionM (Storage × BucketTree Relocation) := do
  let some patch := header.patch | throw (.format (.patchAbsent index))
  let relocations := patch.relocations.region
  let subsections := patch.subsections.region
  if relocations.offset % Aes.blockSize ≠ 0 then
    throw (.layout (.unalignedPatchTable relocations.offset))
  if subsections.offset < relocations.offset then throw (.format .patchTableOrder)
  -- The tables have counters of their own, so their region starts on a whole block.
  let counter := Aes.sectionCounter header.counter (start + relocations.offset)
  let tables := Storage.decrypt
    (← raw.window relocations.offset (raw.size - relocations.offset)) (.ctr key counter)
  let relocationBytes ← tables.read 0 relocations.size
  let subsectionBytes ←
    tables.read (subsections.offset - relocations.offset) subsections.size
  let relocationTree ← BucketTree.decode relocationBytes patch.relocations.entries
  let subsectionTree ← BucketTree.decode subsectionBytes patch.subsections.entries
  let data := Storage.decrypt (← raw.window 0 relocations.offset)
    (.generations key header.counter start subsectionTree)
  return (.concat [data, tables], relocationTree)

/-- A container with those that it patches, the nearest first. -/
structure Patched where
  top : Container
  bases : List Container := []

/-- Every key and container that a section needs is at hand. -/
def Container.canOpen (index : Nat) : (container : Container) → (bases : List Container) → Bool
  | container, bases =>
    match container.header.section? index with
    | none => false
    | some (_, header) =>
      match header.cipher with
      | .plain => true
      | .xts => container.keys.xts.isOk
      | .ctr => container.keys.ctr.isOk
      | .generations =>
        match bases with
        | [] => false
        | base :: rest => container.keys.ctr.isOk && canOpen index base rest
      | .unknown _ => false

def Container.openDecrypted (index : Nat) :
    (container : Container) → (bases : List Container) → SessionM Storage
  | container, bases => do
    let (range, header) ← container.sectionAt index
    let raw ← container.openRaw index
    match header.cipher with
    | .plain => return raw
    | .ctr =>
      let counter := Aes.sectionCounter header.counter range.start
      container.cached (.decrypt raw (.ctr (← container.keys.ctr) counter))
    | .xts => container.cached (.decrypt raw (.xts (← container.keys.xts) Envelope.sectorSize 0))
    | .generations =>
      let key ← container.keys.ctr
      match bases with
      | [] => throw (.missingBase index)
      | base :: rest =>
        -- The patch's own tables are read before anything of the base is opened.
        let (patch, relocations) ← header.patchData index key range.start raw
        let patched ← openDecrypted index base rest
        container.cached (.indirect patched patch relocations)
    | .unknown code => throw (.layout (.encryption index code))

namespace Patched

/-- A container with another one, and what that one patches, below it. -/
def withBase (patched base : Patched) : Patched :=
  { patched with bases := base.top :: base.bases }

/-- A section is present. -/
def hasSection (patched : Patched) (index : Nat) : Bool :=
  (patched.top.header.section? index).isSome

/-- Every key and container that a section needs is at hand. -/
def canOpen (patched : Patched) (index : Nat) : Bool := patched.top.canOpen index patched.bases

def openDecrypted (patched : Patched) (index : Nat) : SessionM Storage :=
  patched.top.openDecrypted index patched.bases

def openVerified (patched : Patched) (index : Nat) (policy : Policy) : SessionM HashTree := do
  let (_, header) ← patched.top.sectionAt index
  let content ← patched.openDecrypted index
  match header.hashes with
  | some (.table layout) =>
    HashTree.ofTable content layout.master layout.table layout.data layout.blockSize policy
  | some (.levels layout) =>
    HashTree.ofLevels content layout.master (layout.levels.map LevelLayout.placement) policy
  | none => throw (.layout (.noHashTree index))

/-- The data of a section without regard to its hashes. -/
def openUnverified (patched : Patched) (index : Nat) : SessionM Storage := do
  let (_, header) ← patched.top.sectionAt index
  let content ← patched.openDecrypted index
  match header.hashes with
  | none => return content
  | some (.table layout) => content.regionWindow layout.data
  | some (.levels layout) =>
    match layout.levels.getLast? with
    | some level => content.window level.offset level.size
    | none => throw (.format .levelsAbsent)

def openSection (patched : Patched) (index : Nat) (policy : Policy) : SessionM Storage := do
  let (_, header) ← patched.top.sectionAt index
  if header.hashes.isNone ∨ policy = .off then patched.openUnverified index
  else return (← patched.openVerified index policy).storage

/-- The data of a section under the policy of the options. -/
def openDefault (patched : Patched) (index : Nat) : SessionM Storage :=
  patched.openSection index patched.top.options.policy

/-- Checks every block of a section. A failure is a warning too. -/
def verifySection (patched : Patched) (index : Nat) : SessionM Validity := do
  let (_, header) ← patched.top.sectionAt index
  if header.hashes.isNone then return .unchecked
  let tree ← patched.openVerified index .ignore
  let outcome ← tree.validate
  if outcome = .invalid then
    SessionM.warn (.sectionInvalid index (tree.levelValidity (← get)))
  return outcome

end Patched

end SealedContent
