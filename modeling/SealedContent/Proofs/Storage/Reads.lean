import SealedContent.Proofs.Storage.Scanning
import SealedContent.Proofs.Storage.Stopping
import SealedContent.Proofs.Storage.Workspace
import SealedContent.Proofs.Windows

/-! # Reads give the bytes of a storage

Every node of a graph serves its `Storage.byte?`, by induction over its construction. In a workspace that
was reached step by step this is what reads do, whatever was made and read on the way, up to the sums of a
decryption that stop where they leave the 64 bits: `read_bytes`.
-/

namespace SealedContent

open ByteMap (length_of_window?)

/-! ## Nodes -/

variable {nodes : List Storage}

theorem Coherent.size_lt (graph : Coherent nodes) : ∀ node ∈ nodes, node.size < UInt64.size
  | .memory bytes, member => graph.wellMade _ member
  | .stream source, member => graph.wellMade _ member
  | .slice parent start length, member => by
    have inside : start + length ≤ parent.size := graph.wellMade _ member
    have below := graph.size_lt parent (graph.closed _ member _ (by simp [Storage.children]))
    simp only [Storage.size]
    omega
  | .cache table inner blockSize capacity, member => by
    simp only [Storage.size]
    exact graph.size_lt inner (graph.closed _ member _ (by simp [Storage.children]))
  | .decrypt inner cipher, member => by
    simp only [Storage.size]
    exact graph.size_lt inner (graph.closed _ member _ (by simp [Storage.children]))
  | .concat segments, member => graph.wellMade _ member
  | .indirect base patch table, member => (graph.wellMade _ member).2
  | .verified cell check data hashes, member => by
    simp only [Storage.size]
    exact graph.size_lt data (graph.closed _ member _ (by simp [Storage.children]))

open Storage (children segmentsOutcome segmentsByte? sizes)

theorem serves_extract (bytes : Array UInt8) {body : Fetch (Except Error)} {stops : Prop}
    (extracts : ∀ offset length, body offset length = pure (bytes.extract offset (offset + length)).toList) :
    Serves stops (fun offset length => ranged bytes.size offset length (body offset length))
      (fun position => bytes[position]?) bytes.size := by
  apply serves_ranged
  · intro position outside
    exact Array.getElem?_eq_none outside
  · intro offset length nonempty inside
    rw [extracts]
    refine .of_eq (Eq.symm ?_)
    refine ByteMap.window?_eq_some_iff.mpr ⟨?_, fun i before => ?_⟩
    · simp only [Array.length_toList, Array.size_extract]; omega
    · rw [Array.getElem?_toList, Array.getElem?_extract, if_pos (by omega)]

theorem segmentsByte?_first {segment : Storage} {rest : List Storage} {position : Nat}
    (before : position < segment.size) : segmentsByte? (segment :: rest) position = segment.byte? position := by
  conv_lhs => unfold segmentsByte?
  exact if_pos before

theorem segmentsByte?_rest (segment : Storage) (rest : List Storage) (position : Nat) :
    segmentsByte? (segment :: rest) (segment.size + position) = segmentsByte? rest position := by
  conv_lhs => unfold segmentsByte?
  rw [if_neg (by omega), Nat.add_sub_cancel_left]

mutual

/-- Every node of a graph serves its bytes. One whose ciphers fit never stops at a sum. -/
theorem Storage.serves (graph : Coherent nodes) {stops : Prop} : ∀ node ∈ nodes, (stops ∨ node.Fits) →
    Serves stops node.outcome node.byte? node.size
  | .memory bytes, _, _ => serves_extract bytes fun _ _ => rfl
  | .stream source, _, _ => serves_extract source fun _ _ => rfl
  | .slice parent start length, member, reach => by
    have fits : start + length ≤ parent.size := graph.wellMade _ member
    have below := parent.serves graph (graph.closed _ member _ (by simp [children])) reach
    -- named, since the rule looks for the range in the parent's offsets otherwise
    show Serves _ (fun offset count => ranged length offset count (parent.outcome (start + offset) count)) _ _
    apply serves_ranged
    · intro position outside
      exact if_neg (by omega)
    · intro offset count nonempty inside
      have same : (Storage.slice parent start length).byte?.window? offset count =
          parent.byte?.window? (start + offset) count := by
        apply ByteMap.window?_congr
        intro i before
        rw [Nat.add_assoc]
        exact if_pos (by omega)
      rw [same]
      exact below.served nonempty
  | .cache table inner blockSize capacity, member, reach => by
    have below := inner.serves graph (graph.closed _ member _ (by simp [children])) reach
    apply serves_ranged
    · intro position outside
      show (if _ then _ else _) = none
      rw [below.outside position outside, ite_self]
    · exact fun nonempty inside => cachedOutcome_bytes below (graph.wellMade _ member) nonempty inside
  | .decrypt inner cipher, member, reach => by
    have innerMember := graph.closed _ member inner (by simp [children])
    have below := inner.serves graph innerMember (reach.imp_right And.right)
    apply serves_ranged (decrypted_outside below (graph.wellMade _ member))
    exact fun nonempty inside => readDecrypted_bytes below (graph.size_lt inner innerMember)
      (graph.wellMade _ member) (reach.imp_right And.left) nonempty inside
  | .concat segments, member, reach => by
    have below := segments_serve graph segments (graph.closed _ member) reach
    apply serves_ranged below.1
    exact fun _ inside => below.2 _ _ inside
  | .indirect base patch table, member, reach => by
    have baseMember := graph.closed _ member base (by simp [children])
    have patchMember := graph.closed _ member patch (by simp [children])
    apply serves_ranged
    · intro position outside
      show (match table.find? position with | some (entry, _) => _ | none => none) = none
      rw [BucketTree.find?_outside outside]
    · exact fun _ _ => readRelocated_bytes (graph.wellMade _ member).1
        (base.serves graph baseMember (reach.imp_right And.left))
        (patch.serves graph patchMember (reach.imp_right And.right))
        (graph.size_lt base baseMember) (graph.size_lt patch patchMember) _ _
  | .verified cell check data hashes, member, reach => by
    have fromData := data.serves graph (graph.closed _ member _ (by simp [children])) (reach.imp_right And.left)
    have fromHashes := hashes.serves graph (graph.closed _ member _ (by simp [children])) (reach.imp_right And.right)
    apply serves_ranged
    · intro position outside
      show (if _ then _ else if _ then _ else _) = none
      rw [fromData.outside position outside, ite_self, ite_self]
    · exact fun nonempty inside =>
        verifiedOutcome_bytes check fromData fromHashes (graph.wellMade _ member).1 nonempty inside

theorem segments_serve (graph : Coherent nodes) {stops : Prop} : ∀ segments : List Storage,
    (∀ segment ∈ segments, segment ∈ nodes) → (stops ∨ Storage.allFit segments) →
    (∀ position, sizes segments ≤ position → segmentsByte? segments position = none) ∧
    ∀ offset length, offset + length ≤ sizes segments →
      Finds stops (segmentsOutcome segments offset length) ((segmentsByte? segments).window? offset length)
  | [], _, _ => by
    refine ⟨fun _ _ => rfl, fun offset length inside => ?_⟩
    simp only [sizes] at inside
    rw [show length = 0 by omega]
    exact .of_eq rfl
  | segment :: rest, members, reach => by
    have first := segment.serves graph (members segment (by simp)) (reach.imp_right And.left)
    obtain ⟨restOutside, restServed⟩ := segments_serve graph rest
      (fun other member => members other (by simp [member])) (reach.imp_right And.right)
    constructor
    · intro position outside
      simp only [sizes] at outside
      obtain ⟨further, rfl⟩ : ∃ further, position = segment.size + further :=
        ⟨position - segment.size, by omega⟩
      rw [segmentsByte?_rest]
      exact restOutside further (by omega)
    · intro offset length inside
      simp only [sizes] at inside
      unfold segmentsOutcome
      split
      · next empty => rw [empty]; exact .of_eq rfl
      · split
        · have later : (segmentsByte? (segment :: rest)).window? offset length =
              (segmentsByte? rest).window? (offset - segment.size) length := by
            apply ByteMap.window?_congr
            intro i before
            rw [← segmentsByte?_rest segment rest]
            congr 1
            omega
          rw [later]
          exact restServed _ _ (by omega)
        -- the range starts here, and what is left of it at the start of the rest
        · have taken : min (segment.size - offset) length + (length - min (segment.size - offset) length) =
              length := by omega
          have here : (segmentsByte? (segment :: rest)).window? offset (min (segment.size - offset) length) =
              segment.byte?.window? offset (min (segment.size - offset) length) := by
            apply ByteMap.window?_congr
            exact fun i before => segmentsByte?_first (by omega)
          have others : (segmentsByte? (segment :: rest)).window?
              (offset + min (segment.size - offset) length) (length - min (segment.size - offset) length) =
              (segmentsByte? rest).window? 0 (length - min (segment.size - offset) length) := by
            apply ByteMap.window?_congr
            intro i before
            rw [← segmentsByte?_rest segment rest]
            congr 1
            omega
          conv => rhs; rw [← taken, ByteMap.window?_add, here, others]
          refine (first.served (by omega)).bind fun bytes _ _ => ?_
          exact (restServed _ _ (by omega)).map (bytes ++ ·)

end

/-! ## Reads -/

/-- A window has the bytes of what it was made from, also where that is a window itself. -/
theorem byte?_window {parent window : Storage} {start size : Nat}
    (made : parent.window start size = .ok window) (position : Nat) :
    window.byte? position = if position < size then parent.byte? (start + position) else none := by
  simp only [Storage.window] at made
  split at made
  · cases made
  · next inside =>
    split at made
    -- the offsets of both windows add up
    · next grandparent above length =>
      cases made
      simp only [Storage.size] at inside
      conv_rhs => unfold Storage.byte?
      split
      · next before =>
        rw [if_pos (by omega), ← Nat.add_assoc]
        exact if_pos before
      · next beyond => exact if_neg beyond
    · cases made
      rfl

theorem window?_window {parent window : Storage} {start size offset length : Nat}
    (made : parent.window start size = .ok window) (inside : offset + length ≤ size) :
    window.byte?.window? offset length = parent.byte?.window? (start + offset) length := by
  apply ByteMap.window?_congr
  intro i before
  rw [byte?_window made, if_pos (by omega), Nat.add_assoc]

theorem size_window {parent window : Storage} {start size : Nat}
    (made : parent.window start size = .ok window) : window.size = size ∧ start + size ≤ parent.size := by
  simp only [Storage.window] at made
  split at made
  · cases made
  · next inside =>
    split at made
    all_goals cases made; exact ⟨rfl, by omega⟩

theorem window_ok {parent : Storage} {start size : Nat} (inside : start + size ≤ parent.size) :
    ∃ window, parent.window start size = .ok window := by
  simp only [Storage.window]
  rw [if_neg (by omega)]
  split
  all_goals exact ⟨_, rfl⟩

/-- Where the sum has 64 bits, the window starts there. -/
theorem windowBehind_eq {parent : Storage} {start offset size : Nat} (small : start + offset < UInt64.size) :
    parent.windowBehind start offset size = parent.window (start + offset) size := if_neg (Nat.not_le_of_lt small)

/-- A longer sum is not formed. -/
theorem windowBehind_overflow {parent : Storage} {start offset size : Nat} (long : UInt64.size ≤ start + offset) :
    parent.windowBehind start offset size = .error .overflow := if_pos long

/-- What was opened starts at the sum. -/
theorem window_of_windowBehind {parent node : Storage} {start offset size : Nat}
    (made : parent.windowBehind start offset size = .ok node) : parent.window (start + offset) size = .ok node := by
  by_cases small : start + offset < UInt64.size
  · rwa [windowBehind_eq small] at made
  · rw [windowBehind_overflow (Nat.le_of_not_lt small)] at made
    cases made

/-- Behind its end a node has no bytes. -/
theorem byte?_outside (graph : Coherent nodes) {node : Storage} (member : node ∈ nodes) :
    ∀ position, node.size ≤ position → node.byte? position = none :=
  have serves : Serves True node.outcome node.byte? node.size := node.serves graph member (.inl trivial)
  serves.outside

/-- What is read are the bytes of the node. -/
theorem outcome_bytes (graph : Coherent nodes) {node : Storage} (member : node ∈ nodes) {offset length : Nat}
    {bytes : Bytes} (gives : node.outcome offset length = .ok bytes) :
    node.byte?.window? offset length = some bytes := by
  by_cases empty : length = 0
  · subst empty
    by_cases inside : offset ≤ node.size
    · rw [Storage.outcome_zero inside] at gives
      cases gives
      rfl
    · rw [Storage.outcome_outside (by omega)] at gives
      cases gives
  · have serves : Serves True node.outcome node.byte? node.size := node.serves graph member (.inl trivial)
    exact (serves.served (Nat.pos_of_ne_zero empty)).sound gives

/-- What is there is read, unless the read stops at a sum. -/
theorem outcome_there (graph : Coherent nodes) {node : Storage} (member : node ∈ nodes) {stops : Prop}
    (reach : stops ∨ node.Fits) {offset length : Nat} {bytes : Bytes} (inside : offset + length ≤ node.size)
    (there : node.byte?.window? offset length = some bytes) :
    node.outcome offset length = .ok bytes ∨ stops ∧ node.outcome offset length = .error .overflow := by
  by_cases empty : length = 0
  · subst empty
    cases there
    exact .inl (Storage.outcome_zero (by omega))
  · have served : Finds stops (node.outcome offset length) _ :=
      (node.serves graph member reach).served (Nat.pos_of_ne_zero empty)
    exact served.complete there

/-- Where all sums have 64 bits, the reads are the ranges that are there. -/
theorem outcome_eq_ok_iff (graph : Coherent nodes) {node : Storage} (member : node ∈ nodes) (fits : node.Fits)
    {offset length : Nat} {bytes : Bytes} (inside : offset + length ≤ node.size) :
    node.outcome offset length = .ok bytes ↔ node.byte?.window? offset length = some bytes :=
  ⟨outcome_bytes graph member, fun there =>
    have reach : False ∨ node.Fits := .inr fits
    (outcome_there graph member reach inside there).resolve_right And.left⟩

/-- The bytes of a window onto a storage all of which can be read. -/
theorem outcome_window (graph : Coherent nodes) {content data : Storage} {bytes : Bytes} {start size : Nat}
    (member : content ∈ nodes) (dataMember : data ∈ nodes) (contentFits : content.Fits)
    (readable : content.outcome 0 content.size = .ok bytes) (made : content.window start size = .ok data) :
    bytes.length = content.size ∧ data.size = size ∧ start + size ≤ content.size ∧
      ∀ offset length, offset + length ≤ size →
        data.outcome offset length = .ok ((bytes.window start size).window offset length) := by
  obtain ⟨sized, inside⟩ := size_window made
  have whole := outcome_bytes graph member readable
  refine ⟨length_of_window? whole, sized, inside, fun offset length fits => ?_⟩
  have found : content.byte?.window? (0 + (start + offset)) length = _ := ByteMap.window?_inside whole (by omega)
  have dataFits := (Storage.fits_window made).mpr contentFits
  rw [Bytes.window_window fits, outcome_eq_ok_iff graph dataMember dataFits (by omega), window?_window made fits,
    ← found, Nat.zero_add]

/-- A decrypting node stops where its cipher does. -/
theorem outcome_stops (graph : Coherent nodes) {inner : Storage} {cipher : StorageCipher}
    (member : .decrypt inner cipher ∈ nodes) {offset length : Nat} (nonempty : 0 < length)
    (inside : offset + length ≤ inner.size) :
    (UInt64.size ≤ cipher.unitEnd offset length →
      (Storage.decrypt inner cipher).outcome offset length = .error .overflow) ∧
    ∀ data,
      inner.outcome (cipher.unitStart offset) (cipher.unitEnd offset length - cipher.unitStart offset) = .ok data →
      ((Storage.decrypt inner cipher).outcome offset length = .error .overflow ↔ cipher.Overflows offset length) := by
  have innerMember := graph.closed _ member inner (by simp [children])
  have short := graph.size_lt inner innerMember
  have served : (Storage.decrypt inner cipher).outcome offset length =
      readDecrypted cipher inner.size inner.outcome offset length := by
    show ranged _ _ _ _ = _
    rw [ranged, if_neg (by omega), if_neg (by omega)]
  rw [served]
  refine ⟨readDecrypted_far (by omega), fun data fetched => ?_⟩
  have long := length_of_window? (outcome_bytes graph innerMember fetched)
  have within : cipher.unitStart offset + (cipher.unitEnd offset length - cipher.unitStart offset) ≤ inner.size := by
    by_contra outside
    rw [Storage.outcome_outside (by omega)] at fetched
    cases fetched
  exact readDecrypted_eq_overflow_iff (graph.wellMade _ member) short fetched (by omega) long

/-- Whatever was made and read before, a read of a node fails outside its size and gives nothing for an empty range.
    What it gives otherwise are the bytes of the node at the positions of the range. If all of them are there, they are
    read, unless a place in a container or the number of a sector has more than 64 bits, where the read stops: not at
    all if the ciphers of the node fit, and with the ciphertext at hand exactly where the cipher of a node says. -/
theorem read_bytes {admits : StorageCipher → Nat → Prop} {w : Workspace} (reached : Workspace.StepsOf admits {} w)
    {node : Storage} (member : node ∈ w.nodes) (offset length : Nat) :
    (node.size < offset + length →
      (node.read offset length).result w.session = .error (.outOfRange offset length node.size)) ∧
    (offset ≤ node.size → length = 0 → (node.read offset length).result w.session = .ok []) ∧
    (∀ bytes, (node.read offset length).result w.session = .ok bytes →
      bytes.length = length ∧ ∀ i < length, bytes[i]? = node.byte? (offset + i)) ∧
    (offset + length ≤ node.size → (∀ i < length, (node.byte? (offset + i)).isSome) →
      (∃ bytes, (node.read offset length).result w.session = .ok bytes) ∨
      (node.read offset length).result w.session = .error .overflow) ∧
    (node.Fits → offset + length ≤ node.size →
      ((∃ bytes, (node.read offset length).result w.session = .ok bytes) ↔
        ∀ i < length, (node.byte? (offset + i)).isSome)) ∧
    (∀ inner cipher, node = .decrypt inner cipher → 0 < length → offset + length ≤ node.size →
      (UInt64.size ≤ cipher.unitEnd offset length →
        (node.read offset length).result w.session = .error .overflow) ∧
      ∀ data, (inner.read (cipher.unitStart offset)
          (cipher.unitEnd offset length - cipher.unitStart offset)).result w.session = .ok data →
        ((node.read offset length).result w.session = .error .overflow ↔ cipher.Overflows offset length)) ∧
    ∀ start size window, node.window start size = .ok window → ∀ position,
      window.byte? position = if position < size then node.byte? (start + position) else none := by
  have sound := Workspace.sound_of_steps reached
  have gives : ∀ {other : Storage} (_ : other ∈ w.nodes) (offset length : Nat),
      (other.read offset length).result w.session = other.outcome offset length := fun {other} among offset length =>
    (other.read_answers sound.graph among offset length w.session sound.remembers).1
  -- from here on the session plays no part
  rw [gives member]
  have bytes := fun bytes (found : node.outcome offset length = .ok bytes) =>
    ByteMap.window?_eq_some_iff.mp (outcome_bytes sound.graph member found)
  refine ⟨Storage.outcome_outside, ?_, fun read found => ?_, fun inside there => ?_,
    fun fits inside => ⟨?_, fun there => ?_⟩, ?_, fun _ _ _ => byte?_window⟩
  · rintro inside rfl
    exact Storage.outcome_zero inside
  · obtain ⟨long, all⟩ := bytes read found
    exact ⟨long, fun i before => (all i before).symm⟩
  · obtain ⟨read, found⟩ := Option.isSome_iff_exists.mp (ByteMap.isSome_window?_iff.mpr there)
    exact (outcome_there sound.graph member (.inl trivial) inside found).imp (⟨read, ·⟩) And.right
  · rintro ⟨read, found⟩ i before
    obtain ⟨long, all⟩ := bytes read found
    rw [all i before, List.getElem?_eq_getElem (by omega)]
    rfl
  · obtain ⟨read, found⟩ := Option.isSome_iff_exists.mp (ByteMap.isSome_window?_iff.mpr there)
    exact ⟨read, (outcome_eq_ok_iff sound.graph member fits inside).mpr found⟩
  · rintro inner cipher rfl nonempty inside
    have innerMember := sound.graph.closed _ member inner (by simp [children])
    rw [gives innerMember]
    exact outcome_stops sound.graph member nonempty inside

/-- A cache with blocks of two bytes in front of five bytes. -/
def cacheOfFive : Storage := .cache 0 (.memory #[1, 2, 3, 4, 5]) 2 1

/-- One subsection of two blocks. -/
def twoBlocks : BucketTree Subsection := ⟨[⟨0, 32, [⟨0, 2⟩]⟩], 32⟩

/-- Two blocks the second of which has a place of more than 64 bits. -/
def farBlocks : Storage :=
  .decrypt (.memory (Array.replicate 32 7)) (.generations (Aes.Block.ofNat 9) 0x700000002 (2 ^ 64 - 16) twoBlocks)

/-- What is left when the last of five bytes was read through a cache, beside two blocks that are far away. -/
def workspaceOfFive : Workspace :=
  ((((Workspace.add {} (.memory #[1, 2, 3, 4, 5])).left (Storage.cached (.memory #[1, 2, 3, 4, 5]) 2 1)).add
    cacheOfFive).left (cacheOfFive.read 4 1)).add (.memory (Array.replicate 32 7)) |>.add farBlocks

theorem twoBlocks_wellLaid : twoBlocks.WellLaid := rfl

theorem workspaceOfFive_reached : Workspace.StepsOf (fun _ _ => True) {} workspaceOfFive :=
  have stored : Workspace.StepsOf (fun _ _ => True) {} (Workspace.add {} (.memory #[1, 2, 3, 4, 5])) :=
    .step .refl (.memory (by decide))
  .step (.step (.step (.step stored (.cache (.head _) rfl)) (.read (.head _) 4 1)) (.memory (by decide)))
    (.decrypt (.head _) twoBlocks_wellLaid trivial)

/-- The read of the cache takes two blocks, while its table holds a third one. The two blocks that are far away are
    read from the start, but not from the second of them on. -/
theorem read_bytes_workspaceOfFive :
    let w := workspaceOfFive
    Workspace.StepsOf (fun _ _ => True) {} w ∧ cacheOfFive ∈ w.nodes ∧ farBlocks ∈ w.nodes ∧
    (cacheOfFive.read 1 3).result w.session = .ok [2, 3, 4] ∧
    (∃ bytes, (farBlocks.read 0 32).result w.session = .ok bytes) ∧
    (farBlocks.read 16 4).result w.session = .error .overflow := by
  intro w
  have reached : Workspace.StepsOf (fun _ _ => True) {} w := workspaceOfFive_reached
  have member : cacheOfFive ∈ w.nodes := .tail _ (.tail _ (.head _))
  have farMember : farBlocks ∈ w.nodes := .head _
  obtain ⟨-, -, gives, -, succeeds, -⟩ := read_bytes reached member 1 3
  obtain ⟨bytes, found⟩ := (succeeds trivial (by decide)).mpr (by decide)
  obtain ⟨long, all⟩ := gives bytes found
  have same : bytes = [2, 3, 4] := by
    apply List.ext_getElem?
    intro i
    by_cases before : i < 3
    · rw [all i before]
      match i, before with
      | 0, _ | 1, _ | 2, _ => rfl
    · rw [List.getElem?_eq_none (by omega), List.getElem?_eq_none (by simp; omega)]
  -- a scan of the entries finds what the search does, and can be evaluated
  have scan := twoBlocks_wellLaid.looksUp.scan
  obtain ⟨-, -, -, there, -, whole, -⟩ := read_bytes reached farMember 0 32
  obtain ⟨-, -, -, -, -, part, -⟩ := read_bytes reached farMember 16 4
  have runs : ¬(farBlocks.read 0 32).result w.session = .error .overflow := by
    rw [((whole _ _ rfl (by decide) (by decide)).2 _ rfl)]
    simp only [StorageCipher.Overflows, BucketTree.Overflows, scan]
    decide
  have stopped : (farBlocks.read 16 4).result w.session = .error .overflow := by
    rw [((part _ _ rfl (by decide) (by decide)).2 _ rfl)]
    simp only [StorageCipher.Overflows, BucketTree.Overflows, scan]
    decide
  have covered : ∀ i < 32, (farBlocks.byte? (0 + i)).isSome := by
    simp only [farBlocks, Storage.byte?, ByteMap.decrypted, scan]
    decide
  exact ⟨reached, member, farMember, by rw [found, same], (there (by decide) covered).resolve_right runs, stopped⟩

end SealedContent
