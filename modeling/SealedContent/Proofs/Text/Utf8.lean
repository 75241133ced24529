import SealedContent.Text.Utf8

/-! # Encoded text is decoded again

The bytes of a character are scanned as that character, whatever follows them (`scan_utf8EncodeChar`), so
that both decoders give an encoded text back. Nothing else is scanned as a character (`utf8EncodeChar_of_lead`),
so that the strict decoder takes the encodings of texts alone (`decode?_eq_some_iff`). A byte below `0x80` only
ever stands for the character with its number.
-/

namespace SealedContent.Utf8

/-! ## One character -/

/-- A leading byte, and what its continuation gives. -/
theorem scan_lead {b : Nat} (short : b < 256) {lead : Lead} (opens : lead? b = some lead)
    {following rest : Bytes} {c : Char} (continues :
      continuation lead.trail lead.low lead.high lead.bits following = (some c.toNat, rest)) :
    scan (UInt8.ofNat b :: following) = some c :: scan rest := by
  have value : (UInt8.ofNat b).toNat = b := UInt8.toNat_ofNat_of_lt' short
  rw [scan, value, opens]
  simp only [continues, Option.map_some, Char.ofNat_toNat]

/-- A continuation byte adds six bits. -/
theorem continuation_byte {n low high bits b : Nat} (short : b < 256) (inside : low ≤ b ∧ b ≤ high)
    (rest : Bytes) : continuation (n + 1) low high bits (UInt8.ofNat b :: rest) =
      continuation n 0x80 0xBF (bits * 64 + (b - 0x80)) rest := by
  have value : (UInt8.ofNat b).toNat = b := UInt8.toNat_ofNat_of_lt' short
  rw [continuation, value, if_pos inside]

/-- The bytes of a character are scanned as the character. -/
theorem scan_utf8EncodeChar (c : Char) (rest : Bytes) :
    scan (String.utf8EncodeChar c ++ rest) = some c :: scan rest := by
  have valid : c.toNat < 0xD800 ∨ 0xDFFF < c.toNat ∧ c.toNat < 0x110000 := c.valid
  simp only [String.utf8EncodeChar]
  rw [show c.val.toNat = c.toNat from rfl]
  generalize number : c.toNat = v at valid
  -- one case for each length of the sequence
  split
  · next one =>
    have opens : lead? v = some ⟨0, 0, 0, v⟩ := by rw [lead?, if_pos (by omega)]
    exact scan_lead (by omega) opens (by rw [number]; rfl)
  · split
    · next two =>
      have opens : lead? (v / 64 % 32 + 192) = some ⟨1, 0x80, 0xBF, v / 64 % 32 + 192 - 0xC0⟩ := by
        rw [lead?, if_neg (by omega), if_neg (by omega), if_pos (by omega)]
      have sum : (v / 64 % 32 + 192 - 0xC0) * 64 + (v % 64 + 128 - 0x80) = v := by omega
      rw [List.cons_append, scan_lead (by omega) opens]
      dsimp only [List.cons_append, List.nil_append]
      rw [continuation_byte (by omega) (by omega), continuation, sum, number]
    · split
      · next three =>
        have opens : lead? (v / 4096 % 16 + 224) = some ⟨2, if v / 4096 % 16 + 224 = 0xE0 then 0xA0 else 0x80,
            if v / 4096 % 16 + 224 = 0xED then 0x9F else 0xBF, v / 4096 % 16 + 224 - 0xE0⟩ := by
          rw [lead?, if_neg (by omega), if_neg (by omega), if_neg (by omega), if_pos (by omega)]
        have sum : ((v / 4096 % 16 + 224 - 0xE0) * 64 + (v / 64 % 64 + 128 - 0x80)) * 64 +
            (v % 64 + 128 - 0x80) = v := by omega
        rw [List.cons_append, scan_lead (by omega) opens]
        dsimp only [List.cons_append, List.nil_append]
        rw [continuation_byte (by omega) (by split <;> split <;> omega), continuation_byte (by omega) (by omega),
          continuation, sum, number]
      · next four =>
        have opens : lead? (v / 262144 % 8 + 240) = some ⟨3, if v / 262144 % 8 + 240 = 0xF0 then 0x90 else 0x80,
            if v / 262144 % 8 + 240 = 0xF4 then 0x8F else 0xBF, v / 262144 % 8 + 240 - 0xF0⟩ := by
          rw [lead?, if_neg (by omega), if_neg (by omega), if_neg (by omega), if_neg (by omega),
            if_pos (by omega)]
        have sum : (((v / 262144 % 8 + 240 - 0xF0) * 64 + (v / 4096 % 64 + 128 - 0x80)) * 64 +
            (v / 64 % 64 + 128 - 0x80)) * 64 + (v % 64 + 128 - 0x80) = v := by omega
        rw [List.cons_append, scan_lead (by omega) opens]
        dsimp only [List.cons_append, List.nil_append]
        rw [continuation_byte (by omega) (by split <;> split <;> omega), continuation_byte (by omega) (by omega),
          continuation_byte (by omega) (by omega), continuation, sum, number]

/-- A byte below `0x80` in the bytes of a character is the number of the character. -/
theorem toNat_of_mem_utf8EncodeChar {c : Char} {b : UInt8} (member : b ∈ String.utf8EncodeChar c)
    (single : b.toNat < 0x80) : c.toNat = b.toNat := by
  simp only [String.utf8EncodeChar] at member
  rw [show c.val.toNat = c.toNat from rfl] at member
  generalize c.toNat = v at member
  split at member
  · next one =>
    rw [List.mem_singleton.mp member]
    exact (UInt8.toNat_ofNat_of_lt' (show v < 256 by omega)).symm
  -- every byte of a longer sequence is at least `0x80`
  · exfalso
    split at member
    · simp only [List.mem_cons, List.not_mem_nil, or_false] at member
      obtain rfl | rfl := member
      all_goals rw [UInt8.toNat_ofNat'] at single; omega
    · split at member
      · simp only [List.mem_cons, List.not_mem_nil, or_false] at member
        obtain rfl | rfl | rfl := member
        all_goals rw [UInt8.toNat_ofNat'] at single; omega
      · simp only [List.mem_cons, List.not_mem_nil, or_false] at member
        obtain rfl | rfl | rfl | rfl := member
        all_goals rw [UInt8.toNat_ofNat'] at single; omega

/-! ### The bytes that are scanned as a character -/

theorem continuation_zero {low high bits value : Nat} {bytes after : Bytes}
    (continues : continuation 0 low high bits bytes = (some value, after)) : value = bits ∧ bytes = after := by
  cases continues
  exact ⟨rfl, rfl⟩

/-- A continuation byte in its range. -/
theorem continuation_succ {n low high bits value : Nat} {bytes after : Bytes}
    (continues : continuation (n + 1) low high bits bytes = (some value, after)) :
    ∃ b more, bytes = b :: more ∧ low ≤ b.toNat ∧ b.toNat ≤ high ∧
      continuation n 0x80 0xBF (bits * 64 + (b.toNat - 0x80)) more = (some value, after) := by
  cases bytes with
  | nil => cases continues
  | cons b more =>
    rw [continuation] at continues
    split at continues
    · next inside => exact ⟨b, more, rfl, inside.1, inside.2, continues⟩
    · cases continues

theorem toNat_ofNat {v : Nat} (valid : v < 0xD800 ∨ 0xDFFF < v ∧ v < 0x110000) : (Char.ofNat v).val.toNat = v := by
  rw [Char.ofNat, dif_pos valid]
  rfl

/-- A sequence that is scanned as a character is the encoding of the character. -/
theorem utf8EncodeChar_of_lead {b : UInt8} {lead : Lead} {bytes after : Bytes} {value : Nat}
    (opens : lead? b.toNat = some lead)
    (continues : continuation lead.trail lead.low lead.high lead.bits bytes = (some value, after)) :
    b :: bytes = String.utf8EncodeChar (Char.ofNat value) ++ after := by
  have same {number : Nat} {byte : UInt8} (equal : number = byte.toNat) : UInt8.ofNat number = byte := by
    rw [equal, UInt8.ofNat_toNat]
  simp only [lead?] at opens
  -- one case for each length of the sequence
  split at opens
  · next one =>
    cases opens
    obtain ⟨rfl, rfl⟩ := continuation_zero continues
    simp only [String.utf8EncodeChar]
    rw [toNat_ofNat (by omega), if_pos (by omega)]
    exact congrArg (· :: bytes) (same rfl).symm
  · split at opens
    · cases opens
    · split at opens
      · next two =>
        cases opens
        dsimp only at continues
        obtain ⟨first, more, rfl, firstLow, firstHigh, continues⟩ := continuation_succ continues
        obtain ⟨number, rfl⟩ := continuation_zero continues
        simp only [String.utf8EncodeChar]
        rw [toNat_ofNat (by omega), if_neg (by omega), if_pos (by omega), same (show _ = b.toNat by omega),
          same (show _ = first.toNat by omega)]
        rfl
      · split at opens
        · next three =>
          cases opens
          dsimp only at continues
          obtain ⟨first, more, rfl, firstLow, firstHigh, continues⟩ := continuation_succ continues
          obtain ⟨second, more, rfl, secondLow, secondHigh, continues⟩ := continuation_succ continues
          obtain ⟨number, rfl⟩ := continuation_zero continues
          -- the range of the first byte leaves out what is overlong and the surrogates
          have bounds : (0x80 ≤ first.toNat ∧ first.toNat ≤ 0xBF) ∧ 0x800 ≤ value ∧
              (value < 0xD800 ∨ 0xDFFF < value ∧ value < 0x10000) := by
            split at firstLow <;> split at firstHigh <;> omega
          simp only [String.utf8EncodeChar]
          rw [toNat_ofNat (by omega), if_neg (by omega), if_neg (by omega), if_pos (by omega),
            same (show _ = b.toNat by omega), same (show _ = first.toNat by omega),
            same (show _ = second.toNat by omega)]
          rfl
        · split at opens
          · next four =>
            cases opens
            dsimp only at continues
            obtain ⟨first, more, rfl, firstLow, firstHigh, continues⟩ := continuation_succ continues
            obtain ⟨second, more, rfl, secondLow, secondHigh, continues⟩ := continuation_succ continues
            obtain ⟨third, more, rfl, thirdLow, thirdHigh, continues⟩ := continuation_succ continues
            obtain ⟨number, rfl⟩ := continuation_zero continues
            -- the range of the first byte leaves out what is overlong and what is beyond the last character
            have bounds : (0x80 ≤ first.toNat ∧ first.toNat ≤ 0xBF) ∧ 0x10000 ≤ value ∧ value < 0x110000 := by
              split at firstLow <;> split at firstHigh <;> omega
            simp only [String.utf8EncodeChar]
            rw [toNat_ofNat (by omega), if_neg (by omega), if_neg (by omega), if_neg (by omega),
              same (show _ = b.toNat by omega), same (show _ = first.toNat by omega),
              same (show _ = second.toNat by omega), same (show _ = third.toNat by omega)]
            rfl
          · cases opens

/-! ## Texts -/

theorem scan_flatMap (text : List Char) : scan (text.flatMap String.utf8EncodeChar) = text.map some := by
  induction text with
  | nil => rw [List.flatMap_nil, scan]; rfl
  | cons c rest inductionHypothesis =>
    rw [List.flatMap_cons, scan_utf8EncodeChar, inductionHypothesis, List.map_cons]

/-- Nothing is missing among items where they are a text. -/
theorem mapM_id_eq_some_iff {items : List (Option Char)} {text : List Char} :
    items.mapM id = some text ↔ items = text.map some := by
  induction items generalizing text with
  | nil =>
    rw [List.mapM_nil]
    exact ⟨fun same => by cases same; rfl, fun same => by rw [List.map_eq_nil_iff.mp same.symm]; rfl⟩
  | cons item rest inductionHypothesis =>
    rw [List.mapM_cons]
    constructor
    · intro all
      obtain ⟨c, there, all⟩ := Option.bind_eq_some_iff.mp all
      obtain ⟨others, later, same⟩ := Option.bind_eq_some_iff.mp all
      cases same
      rw [inductionHypothesis.mp later, show item = some c from there]
      rfl
    · intro same
      obtain ⟨c, others, rfl, rfl, later⟩ := List.map_eq_cons_iff.mp same.symm
      rw [inductionHypothesis.mpr later.symm]
      rfl

theorem decode?_encode (text : String) : decode? (encode text) = some text.toList := by
  rw [decode?, encode, scan_flatMap]
  exact mapM_id_eq_some_iff.mpr rfl

theorem scan_eq_map_some {bytes : Bytes} {text : List Char} (scanned : scan bytes = text.map some) :
    bytes = text.flatMap String.utf8EncodeChar := by
  fun_induction scan bytes generalizing text with
  | case1 =>
    obtain rfl := List.map_eq_nil_iff.mp scanned.symm
    rfl
  | case2 b rest refused inductionHypothesis =>
    obtain ⟨c, others, rfl, same, -⟩ := List.map_eq_cons_iff.mp scanned.symm
    cases same
  | case3 b rest lead opens step =>
    -- the case has no name for its hypothesis behind the local step
    rename_i inductionHypothesis
    obtain ⟨c, others, rfl, same, later⟩ := List.map_eq_cons_iff.mp scanned.symm
    obtain ⟨value, continues, rfl⟩ := Option.map_eq_some_iff.mp same.symm
    rw [List.flatMap_cons, ← inductionHypothesis later.symm]
    exact utf8EncodeChar_of_lead opens (Prod.ext continues rfl)

/-- What is decoded are the encodings of texts. -/
theorem decode?_eq_some_iff {bytes : Bytes} {text : List Char} :
    decode? bytes = some text ↔ bytes = encode (String.ofList text) := by
  constructor
  · intro decodes
    rw [encode, String.toList_ofList]
    exact scan_eq_map_some (mapM_id_eq_some_iff.mp decodes)
  · rintro rfl
    rw [decode?_encode, String.toList_ofList]

theorem decodeLossy_encode (text : String) : decodeLossy (encode text) = text := by
  rw [decodeLossy, encode, scan_flatMap, List.map_map]
  exact (congrArg String.ofList (List.map_id _)).trans String.ofList_toList

/-- The byte of an ASCII character stands in the bytes of a text only for the character. -/
theorem not_mem_encode {text : String} {c : Char} (single : c.toNat < 0x80) (absent : c ∉ text.toList) :
    UInt8.ofNat c.toNat ∉ encode text := by
  intro member
  obtain ⟨found, among, byte⟩ := List.mem_flatMap.mp member
  have value : (UInt8.ofNat c.toNat).toNat = c.toNat := UInt8.toNat_ofNat_of_lt' (show c.toNat < 256 by omega)
  have number := toNat_of_mem_utf8EncodeChar byte (by omega)
  have same : found = c := by rw [← Char.ofNat_toNat found, number, value, Char.ofNat_toNat]
  exact absent (same ▸ among)

end SealedContent.Utf8
