import SealedContent.Proofs.Aes.Closed
import SealedContent.Proofs.Aes.RoundTrips
import SealedContent.Proofs.Container.Layout

/-! # Sealed headers

Encryption and decryption of headers are inverse to each other: the version, which numbers the sectors of
the section headers, is the same on both sides, since the sectors in front of them do not depend on it.
A header says the same however it was stored: `envelope_inverse`.
-/

namespace SealedContent

open Aes (XtsKey xtsEncrypt xtsDecrypt)

namespace Envelope

/-! ## Section headers -/

theorem mapSections_eq (f : Nat → Bytes → Except Error Bytes) (version : ContainerVersion) (header : Bytes) :
    mapSections f version header = ((List.range 4).mapM fun index =>
      f (version.sector index) (Bytes.window (header.drop sectionsOffset) (index * sectorSize) sectorSize)) >>=
        fun sections => .ok sections.flatten := by
  simp only [mapSections, Bytes.window, List.drop_drop]
  rfl

/-- What one function does to every section header the other one undoes. -/
theorem mapSections_mapSections {f g : Nat → Bytes → Except Error Bytes} {version : ContainerVersion}
    {header front output : Bytes} (long : header.length = size) (frontLong : front.length = sectionsOffset)
    (inverts : ∀ sector piece image, f sector piece = .ok image →
      image.length = piece.length ∧ g sector image = .ok piece)
    (gives : mapSections f version header = .ok output) :
    output.length = 4 * sectorSize ∧
      mapSections g version (front ++ output) = .ok (header.drop sectionsOffset) := by
  have rest : (header.drop sectionsOffset).length = 4 * sectorSize := by rw [List.length_drop, long]; rfl
  rw [mapSections_eq] at gives
  obtain ⟨sections, each, same⟩ := ok_of_bind gives
  cases same
  obtain ⟨four, images⟩ := List.forall₂_iff_get.mp (mapM_eq_ok_iff.mp each)
  rw [List.length_range] at four
  simp only [List.get_eq_getElem, List.getElem_range] at images
  have whole : ∀ image ∈ sections, image.length = sectorSize := by
    intro image member
    obtain ⟨index, inside, rfl⟩ := List.getElem_of_mem member
    obtain ⟨kept, -⟩ := inverts _ _ _ (images index (by simpa [four] using inside) inside)
    rw [kept, Bytes.length_window]
    rw [rest]
    simp only [sectorSize]
    omega
  have long := length_flatten_pieces sectorSize whole
  rw [← four] at long
  refine ⟨long, ?_⟩
  have undone : ∀ index ∈ List.range 4,
      g (version.sector index) (Bytes.window sections.flatten (index * sectorSize) sectorSize) =
        .ok (Bytes.window (header.drop sectionsOffset) (index * sectorSize) sectorSize) := by
    intro index member
    have inside : index < sections.length := by rw [← four]; exact List.mem_range.mp member
    rw [Bytes.window_flatten whole index inside]
    exact (inverts _ _ _ (images index (by simpa using member) inside)).2
  rw [mapSections_eq, List.drop_left' frontLong, mapM_ok undone]
  exact congrArg Except.ok (Bytes.flatten_windows 4 rest)

theorem mapSections_ok {f : Nat → Bytes → Except Error Bytes} {header : Bytes} (long : header.length = size)
    (total : ∀ sector piece, piece.length = sectorSize → ∃ image, f sector piece = .ok image)
    (version : ContainerVersion) : ∃ output, mapSections f version header = .ok output := by
  have each : ∀ index ∈ List.range 4, ∃ image, f (version.sector index)
      (Bytes.window (header.drop sectionsOffset) (index * sectorSize) sectorSize) = .ok image := by
    intro index member
    apply total
    apply Bytes.length_window
    have := List.mem_range.mp member
    rw [List.length_drop, long]
    simp only [sectionsOffset, size, sectorSize]
    omega
  obtain ⟨sections, found⟩ := exists_mapM_ok each
  exact ⟨sections.flatten, by rw [mapSections_eq, found]; rfl⟩

theorem magic_append {front rest : Bytes} (long : front.length = sectionsOffset) :
    magic (front ++ rest) = magic front :=
  Bytes.window_append_left (by rw [long]; decide)

theorem magic_take (header : Bytes) : magic (header.take sectionsOffset) = magic header :=
  Bytes.window_take (by decide)

end Envelope

open Envelope

/-! ## Headers -/

variable {key : XtsKey} {plain sealed : Bytes}

theorem encryptHeader_eq_ok_iff : encryptHeader key plain = .ok sealed ↔ ∃ version front rest,
    ContainerVersion.ofMagic? (magic plain) = some version ∧
    xtsEncrypt key 0 sectorSize (plain.take sectionsOffset) = .ok front ∧
    mapSections (xtsEncrypt key · sectorSize) version plain = .ok rest ∧ sealed = front ++ rest := by
  simp only [encryptHeader]
  cases ContainerVersion.ofMagic? (magic plain) with
  | none => simp [throw, throwThe, MonadExceptOf.throw]
  | some version =>
    constructor
    · intro gives
      obtain ⟨front, first, gives⟩ := ok_of_bind gives
      obtain ⟨rest, second, gives⟩ := ok_of_bind gives
      cases gives
      exact ⟨version, front, rest, rfl, first, second, rfl⟩
    · rintro ⟨_, front, rest, ⟨⟩, first, second, rfl⟩
      dsimp only
      rw [first, second]
      rfl

theorem decryptHeader_eq_ok_iff : decryptHeader key sealed = .ok plain ↔ ∃ version front rest,
    xtsDecrypt key 0 sectorSize (sealed.take sectionsOffset) = .ok front ∧
    ContainerVersion.ofMagic? (magic front) = some version ∧
    mapSections (xtsDecrypt key · sectorSize) version sealed = .ok rest ∧ plain = front ++ rest := by
  simp only [decryptHeader]
  constructor
  · intro gives
    obtain ⟨front, first, gives⟩ := ok_of_bind gives
    split at gives
    · next version known =>
      obtain ⟨rest, second, gives⟩ := ok_of_bind gives
      cases gives
      exact ⟨version, front, rest, first, known, second, rfl⟩
    · split at gives <;> cases gives
  · rintro ⟨version, front, rest, first, known, second, rfl⟩
    simp only [first, known, second, ok_bind]
    rfl

theorem exists_encryptHeader (key : XtsKey) (long : plain.length = size)
    (known : (ContainerVersion.ofMagic? (magic plain)).isSome) : ∃ sealed, encryptHeader key plain = .ok sealed := by
  obtain ⟨version, known⟩ := Option.isSome_iff_exists.mp known
  have half : (plain.take sectionsOffset).length = sectionsOffset := by rw [List.length_take, long]; rfl
  obtain ⟨front, first, -⟩ := Aes.xtsEncrypt_ok key 0 (show 0 < sectorSize by decide) (by decide)
    (show sectorSize ∣ (plain.take sectionsOffset).length by rw [half]; decide)
  obtain ⟨rest, second⟩ := mapSections_ok long (fun sector piece whole => by
    obtain ⟨image, gives, -⟩ := Aes.xtsEncrypt_ok key sector (show 0 < sectorSize by decide) (by decide)
      (show sectorSize ∣ piece.length from whole ▸ Nat.dvd_refl _)
    exact ⟨image, gives⟩) version
  exact ⟨_, encryptHeader_eq_ok_iff.mpr ⟨version, front, rest, known, first, second, rfl⟩⟩

theorem decryptHeader_encryptHeader (long : plain.length = size) (gives : encryptHeader key plain = .ok sealed) :
    sealed.length = size ∧ decryptHeader key sealed = .ok plain := by
  obtain ⟨version, front, rest, known, first, second, rfl⟩ := encryptHeader_eq_ok_iff.mp gives
  have half : (plain.take sectionsOffset).length = sectionsOffset := by rw [List.length_take, long]; rfl
  have frontLong : front.length = sectionsOffset := (Aes.length_xtsSectors first).trans half
  obtain ⟨restLong, undone⟩ := mapSections_mapSections (g := (xtsDecrypt key · sectorSize)) long frontLong
    (fun _ _ _ gives => ⟨Aes.length_xtsSectors gives, Aes.xtsDecrypt_xtsEncrypt gives⟩) second
  refine ⟨by rw [List.length_append, frontLong, restLong]; rfl, decryptHeader_eq_ok_iff.mpr ?_⟩
  -- the magic lies in front of the sections, so the version is known again before they are decrypted
  refine ⟨version, plain.take sectionsOffset, plain.drop sectionsOffset, ?_, ?_, undone, ?_⟩
  · rw [List.take_left' frontLong]
    exact Aes.xtsDecrypt_xtsEncrypt first
  · rw [magic_take, known]
  · rw [List.take_append_drop]

theorem encryptHeader_decryptHeader (long : sealed.length = size) (gives : decryptHeader key sealed = .ok plain) :
    plain.length = size ∧ encryptHeader key plain = .ok sealed := by
  obtain ⟨version, front, rest, first, known, second, rfl⟩ := decryptHeader_eq_ok_iff.mp gives
  have half : (sealed.take sectionsOffset).length = sectionsOffset := by rw [List.length_take, long]; rfl
  have frontLong : front.length = sectionsOffset := (Aes.length_xtsSectors first).trans half
  obtain ⟨restLong, undone⟩ := mapSections_mapSections (g := (xtsEncrypt key · sectorSize)) long frontLong
    (fun _ _ _ gives => ⟨Aes.length_xtsSectors gives, Aes.xtsEncrypt_xtsDecrypt gives⟩) second
  refine ⟨by rw [List.length_append, frontLong, restLong]; rfl, encryptHeader_eq_ok_iff.mpr ?_⟩
  refine ⟨version, sealed.take sectionsOffset, sealed.drop sectionsOffset, ?_, ?_, undone, ?_⟩
  · rw [magic_append frontLong, known]
  · rw [List.take_left' frontLong]
    exact Aes.xtsEncrypt_xtsDecrypt first
  · rw [List.take_append_drop]

/-- The block with the magic is the first one of the second sector. -/
theorem window_sealed (long : plain.length = size) (gives : encryptHeader key plain = .ok sealed) :
    sealed.window magicOffset Aes.blockSize =
      ((Aes.encryptBlock key.data ((Aes.Block.ofBytes (plain.window magicOffset Aes.blockSize)).xor
        (Aes.encryptBlock key.tweak (.ofNat 1)))).xor (Aes.encryptBlock key.tweak (.ofNat 1))).toBytes := by
  obtain ⟨version, front, rest, -, first, -, rfl⟩ := encryptHeader_eq_ok_iff.mp gives
  have half : (plain.take sectionsOffset).length = sectionsOffset := by rw [List.length_take, long]; rfl
  have frontLong : front.length = sectionsOffset := (Aes.length_xtsSectors first).trans half
  have sector := Aes.window_xtsSectors first (i := 1) (by rw [half]; decide)
  have taken : (Bytes.window (plain.take sectionsOffset) (1 * sectorSize) sectorSize).window 0 Aes.blockSize =
      plain.window magicOffset Aes.blockSize := by
    rw [Bytes.window_take (by decide)]
    exact Bytes.window_window (by decide)
  have nonempty : Bytes.window (plain.take sectionsOffset) (1 * sectorSize) sectorSize ≠ [] := by
    intro none
    have sized := Bytes.length_window (show 1 * sectorSize + sectorSize ≤ (plain.take sectionsOffset).length by
      rw [half]; decide)
    rw [none] at sized
    cases sized
  calc (front ++ rest).window magicOffset Aes.blockSize
      = front.window magicOffset Aes.blockSize := Bytes.window_append_left (by rw [frontLong]; decide)
    _ = (front.window (1 * sectorSize) sectorSize).window 0 Aes.blockSize :=
        (Bytes.window_window (show 0 + Aes.blockSize ≤ sectorSize by decide)).symm
    _ = _ := by
        rw [sector, Aes.window_xtsSector _ _ _ nonempty, ← taken]
        rfl

/-! ## Reading -/

namespace ContainerHeader

variable {ring : KeyRing} {content : Storage} {session : Session}

theorem ofStorage_result {header : Bytes} (long : header.length = size) (encrypted : Bool) (session : Session) :
    (ofStorage (.ofBytes header) encrypted).result session = parse header encrypted ∧
      (ofStorage (.ofBytes header) encrypted).after session = session :=
  @ofStorage_answers (· = session) header long encrypted session rfl

/-- A header with a magic in plain text is taken as it is. -/
theorem read_plain (enough : size ≤ content.size) (long : plain.length = size)
    (gives : (content.read 0 size).result session = .ok plain)
    (known : (ContainerVersion.ofMagic? (magic plain)).isSome) :
    (read ring content).result session = parse plain false ∧
      (read ring content).after session = (content.read 0 size).after session := by
  obtain ⟨result, after⟩ := ofStorage_result long false ((content.read 0 size).after session)
  simp only [read, if_neg (show ¬ content.size < size by omega)]
  rw [SessionM.result_bind_ok gives, SessionM.after_bind_ok gives, if_pos known]
  exact ⟨result, after⟩

theorem read_sealed (enough : size ≤ content.size) (long : sealed.length = size)
    (gives : (content.read 0 size).result session = .ok sealed)
    (unmarked : ContainerVersion.ofMagic? (magic sealed) = none) (known : ring.headerKey = .ok key)
    (decrypts : decryptHeader key sealed = .ok plain) :
    (read ring content).result session = parse plain true ∧
      (read ring content).after session = (content.read 0 size).after session := by
  obtain ⟨plainLong, -⟩ := encryptHeader_decryptHeader long decrypts
  obtain ⟨result, after⟩ := ofStorage_result plainLong true ((content.read 0 size).after session)
  simp only [read, if_neg (show ¬ content.size < size by omega)]
  rw [SessionM.result_bind_ok gives, SessionM.after_bind_ok gives, unmarked, known]
  rw [if_neg (by simp), SessionM.lift_ok_bind, decrypts, SessionM.lift_ok_bind]
  exact ⟨result, after⟩

end ContainerHeader

/-- Encryption and decryption of headers undo each other. A header that is stored encrypted and one that
    is stored in plain text are read as the same header, or both are refused. -/
theorem envelope_inverse (key : XtsKey) :
    (∀ plain, plain.length = size → (ContainerVersion.ofMagic? (magic plain)).isSome →
      ∃ sealed, encryptHeader key plain = .ok sealed ∧ sealed.length = size ∧
        decryptHeader key sealed = .ok plain) ∧
    (∀ sealed plain, sealed.length = size → decryptHeader key sealed = .ok plain →
      plain.length = size ∧ encryptHeader key plain = .ok sealed) ∧
    ∀ plain sealed, plain.length = size → encryptHeader key plain = .ok sealed →
      ContainerVersion.ofMagic? (magic sealed) = none →
      ∀ ring other : KeyRing, ring.headerKey = .ok key →
      ∀ (stored : Storage) (session : Session), size ≤ stored.size →
        (stored.read 0 size).result session = .ok sealed →
      ∀ (opened : Storage) (openedSession : Session), size ≤ opened.size →
        (opened.read 0 size).result openedSession = .ok plain →
      (ContainerHeader.read ring stored).result session =
        ((ContainerHeader.read other opened).result openedSession).map
          (fun header => { header with encrypted := true }) ∧
      ∀ header, (ContainerHeader.read other opened).result openedSession = .ok header →
        header.encrypted = false ∧ header.storage = .ofBytes plain := by
  refine ⟨fun plain long known => ?_, fun sealed plain long => encryptHeader_decryptHeader long, ?_⟩
  · obtain ⟨sealed, gives⟩ := exists_encryptHeader key long known
    exact ⟨sealed, gives, decryptHeader_encryptHeader long gives⟩
  · intro plain sealed long seals unmarked ring other known stored session enough first opened openedSession
      openedEnough second
    obtain ⟨sealedLong, decrypts⟩ := decryptHeader_encryptHeader long seals
    obtain ⟨version, _, _, marked, -⟩ := encryptHeader_eq_ok_iff.mp seals
    have sealedRead := (ContainerHeader.read_sealed enough sealedLong first unmarked known decrypts).1
    have plainRead := (@ContainerHeader.read_plain _ other _ _ openedEnough long second (by rw [marked]; rfl)).1
    rw [sealedRead, plainRead]
    refine ⟨ContainerHeader.parse_encrypted plain, fun header parsed => ?_⟩
    obtain ⟨_, _, _, _, -, -, -, -, rfl⟩ := ContainerHeader.parse_eq_ok_iff.mp parsed
    exact ⟨rfl, rfl⟩

/-! ### An encrypted header -/

/-- A ring that knows a header key. -/
def KeyRing.withHeaderKey (key : XtsKey) : KeyRing := KeyRing.empty.set ⟨.headerKey, 0⟩ key.toBytes

theorem KeyRing.headerKey_withHeaderKey (nonzero : key.toBytes.isZero = false) :
    (KeyRing.withHeaderKey key).headerKey = .ok key := by
  have fits : (⟨.headerKey, 0⟩ : Slot).Exists ∧ key.toBytes.length = KeyFamily.headerKey.length :=
    ⟨by decide, rfl⟩
  simp only [withHeaderKey, headerKey, xtsKey?, set, dif_pos fits, if_true, nonzero]
  rfl

def sampleKey : XtsKey := ⟨.ofNat 1, .ofNat 2⟩

/-- The first block behind the signatures of a header that says nothing but its version. -/
def sampleBlock : Bytes := .ofAscii "NCA3" ++ Bytes.zeros 12

def samplePlain : Bytes := Bytes.zeros 0x200 ++ (sampleBlock ++ Bytes.zeros 0x9F0)

/-- Under the sample key that block carries no magic. -/
theorem unmarked_of_block (long : plain.length = size) (first : plain.window magicOffset Aes.blockSize = sampleBlock)
    (gives : encryptHeader sampleKey plain = .ok sealed) : ContainerVersion.ofMagic? (magic sealed) = none := by
  have block := window_sealed long gives
  have inside : magic sealed = (sealed.window magicOffset Aes.blockSize).window 0 4 :=
    (Bytes.window_window (show 0 + 4 ≤ Aes.blockSize by decide)).symm
  rw [inside, block, first, Aes.encryptBlock_eq_by, Aes.encryptBlock_eq_by]
  decide +kernel

theorem envelope_inverse_sample : ∃ sealed, encryptHeader sampleKey samplePlain = .ok sealed ∧
    sealed.length = size ∧ decryptHeader sampleKey sealed = .ok samplePlain ∧
    encryptHeader sampleKey samplePlain = .ok sealed ∧ ContainerVersion.ofMagic? (magic sealed) = none ∧
    (KeyRing.withHeaderKey sampleKey).headerKey = .ok sampleKey ∧
    (ContainerHeader.read (.withHeaderKey sampleKey) (.ofBytes sealed)).result {} =
      ((ContainerHeader.read .empty (.ofBytes samplePlain)).result {}).map
        (fun header => { header with encrypted := true }) ∧
    ((ContainerHeader.read .empty (.ofBytes samplePlain)).result {}).isOk := by
  obtain ⟨seals, unseals, alike⟩ := envelope_inverse sampleKey
  obtain ⟨long, block, known, parses⟩ : samplePlain.length = size ∧
      samplePlain.window magicOffset Aes.blockSize = sampleBlock ∧
      (ContainerVersion.ofMagic? (magic samplePlain)).isSome ∧ (ContainerHeader.parse samplePlain false).isOk := by
    decide +kernel
  obtain ⟨sealed, gives, sealedLong, decrypts⟩ := seals samplePlain long known
  obtain ⟨-, again⟩ := unseals sealed samplePlain sealedLong decrypts
  have unmarked := unmarked_of_block long block gives
  have held : (KeyRing.withHeaderKey sampleKey).headerKey = .ok sampleKey :=
    KeyRing.headerKey_withHeaderKey (by decide)
  have served : ∀ header : Bytes, header.length = size →
      size ≤ (Storage.ofBytes header).size ∧ ((Storage.ofBytes header).read 0 size).result {} = .ok header := by
    intro header whole
    have all := (@answers_memory (fun _ => True) header 0 size
      (Nat.le_of_eq (by rw [whole, Nat.zero_add])) {} trivial).1
    rw [← whole, Bytes.window_all, whole] at all
    exact ⟨Nat.le_of_eq whole.symm, all⟩
  obtain ⟨enough, first⟩ := served sealed sealedLong
  obtain ⟨plainEnough, second⟩ := served samplePlain long
  have parsed := (@ContainerHeader.read_plain _ .empty _ _ plainEnough long second known).1
  exact ⟨sealed, gives, sealedLong, decrypts, again, unmarked, held,
    (alike samplePlain sealed long gives unmarked _ .empty held _ {} enough first _ {} plainEnough second).1,
    by rw [parsed]; exact parses⟩

end SealedContent
