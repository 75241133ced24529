import SealedContent.Proofs.Storage.Outcome

/-! # What reads do not fail for

A read fails because of what is stored, never because a key or a container is missing: `Storage.read_supplied`.
`Supplied` says so of an outcome and `Supplies` of a computation in any session. Both are closed under composition.
-/

namespace SealedContent

variable {α β : Type}

/-- Something that belongs to a container is not at hand: a key, or the container that it patches. -/
def Error.isMissing : Error → Bool
  | missingKey .. | missingBase _ => true
  | _ => false

/-! ## Outcomes -/

/-- The outcome is not the failure of something missing. -/
def Supplied (outcome : Except Error α) : Prop := ∀ error, outcome = .error error → error.isMissing = false

namespace Supplied

theorem ok (value : α) : Supplied (.ok value) := nofun

theorem error {error : Error} (other : error.isMissing = false) : Supplied (.error error : Except Error α) := by
  rintro _ ⟨⟩
  exact other

theorem of_isOk {outcome : Except Error α} (succeeds : outcome.isOk = true) : Supplied outcome := by
  rintro error rfl
  cases succeeds

theorem bind {outcome : Except Error α} {next : α → Except Error β} (first : Supplied outcome)
    (rest : ∀ value, outcome = .ok value → Supplied (next value)) : Supplied (outcome >>= next) := by
  cases outcome with
  | ok value => exact rest value rfl
  | error failure => exact error (first failure rfl)

section
variable {error : Error} {outcome : Except Error α} {next : α → Except Error β} (missing : error.isMissing = true)
include missing

/-- Something is missing behind a step that lacks nothing. -/
theorem bind_eq_error_iff (first : Supplied outcome) :
    outcome >>= next = .error error ↔ ∃ value, outcome = .ok value ∧ next value = .error error := by
  cases outcome with
  | ok value => exact ⟨fun fails => ⟨value, rfl, fails⟩, fun ⟨_, same, fails⟩ => by cases same; exact fails⟩
  | error failure =>
    refine ⟨fun fails => ?_, fun ⟨_, same, _⟩ => by cases same⟩
    cases fails
    exact absurd ((first error rfl).symm.trans missing) nofun

/-- Something is missing in a step behind which nothing is. -/
theorem bind_eq_error_iff_first (rest : ∀ value, Supplied (next value)) :
    outcome >>= next = .error error ↔ outcome = .error error := by
  cases outcome with
  | ok value => exact ⟨fun fails => absurd ((rest value error fails).symm.trans missing) nofun, nofun⟩
  | error failure => exact ⟨fun fails => by cases fails; rfl, fun fails => by cases fails; rfl⟩

end

theorem mapM {action : α → Except Error β} {items : List α} (each : ∀ item ∈ items, Supplied (action item)) :
    Supplied (items.mapM action) := by
  intro error fails
  by_cases some : ∃ item ∈ items, ∃ failure, action item = .error failure
  · obtain ⟨item, member, failure, failed, whole⟩ := mapM_error some
    cases whole.symm.trans fails
    exact each item member _ failed
  · have all : ∀ item ∈ items, ∃ value, action item = .ok value := by
      intro item member
      cases gives : action item with
      | ok value => exact ⟨value, rfl⟩
      | error failure => exact absurd ⟨item, member, failure, gives⟩ some
    obtain ⟨values, whole⟩ := exists_mapM_ok all
    cases whole.symm.trans fails

end Supplied

/-! ## Computations -/

/-- Whatever was done before, the computation does not fail because something is missing. -/
def Supplies (action : SessionM α) : Prop := ∀ session, Supplied (action.result session)

namespace Supplies

theorem pure (value : α) : Supplies (Pure.pure value) := fun _ => .ok value

theorem throw {error : Error} (other : error.isMissing = false) :
    Supplies (MonadExcept.throw error : SessionM α) := fun _ => .error other

theorem throw_bind {error : Error} (other : error.isMissing = false) (next : α → SessionM β) :
    Supplies ((MonadExcept.throw error : SessionM α) >>= next) := fun _ => .error other

theorem lift {outcome : Except Error α} (supplied : Supplied outcome) : Supplies (liftM outcome) := fun _ => supplied

theorem ofExcept {outcome : Except Error α} (supplied : Supplied outcome) :
    Supplies (MonadExcept.ofExcept outcome) := by
  cases outcome with
  | ok value => exact pure value
  | error failure => exact throw (supplied failure rfl)

theorem modify (change : Session → Session) : Supplies (modify change) := fun _ => .ok ()

theorem get : Supplies (get : SessionM Session) := fun session => .ok session

theorem bind {action : SessionM α} {next : α → SessionM β} (first : Supplies action)
    (rest : ∀ value, Supplies (next value)) : Supplies (action >>= next) := by
  intro session
  cases gives : action.result session with
  | ok value =>
    rw [SessionM.result_bind_ok gives]
    exact rest value _
  | error failure =>
    rw [SessionM.result_bind_error gives]
    exact .error (first session failure gives)

theorem mapM {action : α → SessionM β} {items : List α} (each : ∀ item ∈ items, Supplies (action item)) :
    Supplies (items.mapM action) := by
  induction items with
  | nil => exact pure []
  | cons item rest inductionHypothesis =>
    rw [List.mapM_cons]
    refine bind (each item (by simp)) fun value => ?_
    exact bind (inductionHypothesis fun other member => each other (by simp [member])) fun values => pure _

end Supplies

/-! ## Serving a range -/

theorem ranged_supplied {size offset length : Nat} {body : SessionM Bytes} (supplies : Supplies body) :
    Supplies (ranged size offset length body) := by
  simp only [ranged]
  split
  · exact .throw rfl
  · split
    · exact .pure []
    · exact supplies

theorem decryptGenerations_supplied (key : Aes.Block) (upper start : Nat) (table : BucketTree Subsection)
    (position : Nat) (data : Bytes) : Supplied (decryptGenerations key upper start table position data) := by
  fun_induction decryptGenerations with
  | case1 => exact .ok []
  | case2 => exact .error rfl
  | case3 => exact .error rfl
  | case4 => exact .error rfl
  | case5 => exact .ok _
  | case6 position data nonempty entry last found late fits count failure fails inductionHypothesis =>
    exact .error (inductionHypothesis failure fails)

section
variable {inner data hashes : Fetch SessionM} (supplies : ∀ offset length, Supplies (inner offset length))
include supplies

theorem readUnits_supplied {decrypt : (start : Nat) → Bytes → Except Error Bytes}
    (decrypts : ∀ start bytes, Supplied (decrypt start bytes)) (name : String) (unit size offset length : Nat) :
    Supplies (readUnits name unit size inner decrypt offset length) := by
  simp only [readUnits]
  split
  · exact .throw rfl
  · split
    · exact .throw rfl
    · exact .bind (supplies _ _) fun bytes => .bind (.ofExcept (decrypts _ bytes)) fun plain => .pure _

theorem readDecrypted_supplied (cipher : StorageCipher) (size offset length : Nat) :
    Supplies (readDecrypted cipher size inner offset length) := by
  cases cipher with
  | ctr key counter => exact .bind (supplies _ _) fun bytes => .pure _
  | generations key upper start table =>
    exact .bind (supplies _ _) fun bytes => .ofExcept (decryptGenerations_supplied _ _ _ _ _ _)
  | xts key sectorSize first =>
    refine readUnits_supplied supplies (fun start bytes => ?_) _ _ _ _ _
    simp only [decryptSectors, Aes.xtsDecrypt, Aes.xtsSectors]
    split
    · exact .error rfl
    · split
      · exact .error rfl
      · exact .ok _
  | ecb key =>
    refine readUnits_supplied supplies (fun start bytes => ?_) _ _ _ _ _
    simp only [Aes.ecbDecrypt, Aes.wholeBlocks]
    split
    · exact .ok _
    · exact .error rfl

theorem readCached_supplied (table blockSize capacity size offset length : Nat) :
    Supplies (readCached table blockSize capacity size inner offset length) := by
  refine .bind (.mapM fun block _ => .bind .get fun session => ?_) fun blocks => .pure _
  split
  · exact .bind (.modify _) fun _ => .pure _
  · exact .bind (supplies _ _) fun bytes => .bind (.modify _) fun _ => .pure _

end

theorem readRelocated_supplied {base patch : Fetch SessionM}
    (fromBase : ∀ offset length, Supplies (base offset length))
    (fromPatch : ∀ offset length, Supplies (patch offset length)) (table : BucketTree Relocation)
    (offset length : Nat) : Supplies (readRelocated table base patch offset length) := by
  fun_induction readRelocated with
  | case1 => exact .pure []
  | case2 => exact .throw rfl
  | case3 => exact .throw rfl
  | case4 => exact .throw rfl
  | case5 => exact .throw rfl
  | case6 offset length nonempty entry last found source chosen late count position small inductionHypothesis =>
    refine .bind ?_ fun bytes => .bind inductionHypothesis fun rest => .pure _
    -- the source of an entry is one of the two
    simp only [Relocation.choose?] at chosen
    split at chosen
    · cases chosen
      exact fromBase _ _
    · cases chosen
      exact fromPatch _ _
    · cases chosen

theorem readVerified_supplied {data hashes : Fetch SessionM}
    (fromData : ∀ offset length, Supplies (data offset length))
    (fromHashes : ∀ offset length, Supplies (hashes offset length)) (cell : Nat) (check : BlockCheck)
    (size offset length : Nat) : Supplies (readVerified cell check size data hashes offset length) := by
  simp only [readVerified]
  split
  · exact fromData _ _
  · refine .bind (.mapM fun block _ => .bind ?_ fun judged => .bind ?_ fun _ => .pure _) fun blocks => .pure _
    · refine .bind (fromData _ _) fun bytes => .bind .get fun session => ?_
      dsimp only
      split
      · exact .pure _
      · exact .bind (fromHashes _ _) fun hash => .bind (.modify _) fun _ => .bind .get fun after => .pure _
    · simp only [BlockCheck.enforce]
      split
      · split
        · exact .throw rfl
        · exact .modify _
        · exact .pure ()
        · exact .pure ()
      · exact .pure ()

/-! ## Storages -/

namespace Storage

mutual

/-- A read fails for no key and for no container. -/
theorem read_supplied : ∀ (node : Storage) (offset length : Nat), Supplies (node.read offset length)
  | .memory _, _, _ => ranged_supplied (.pure _)
  | .stream _, _, _ => ranged_supplied (.pure _)
  | .slice parent _ _, _, _ => ranged_supplied (parent.read_supplied _ _)
  | .cache _ inner _ _, _, _ => ranged_supplied (readCached_supplied inner.read_supplied _ _ _ _ _ _)
  | .decrypt inner _, _, _ => ranged_supplied (readDecrypted_supplied inner.read_supplied _ _ _ _)
  | .concat segments, _, _ => ranged_supplied (readSegments_supplied segments _ _)
  | .indirect base patch _, _, _ =>
    ranged_supplied (readRelocated_supplied base.read_supplied patch.read_supplied _ _ _)
  | .verified _ _ data hashes, _, _ =>
    ranged_supplied (readVerified_supplied data.read_supplied hashes.read_supplied _ _ _ _ _)

theorem readSegments_supplied : ∀ (segments : List Storage) (offset length : Nat),
    Supplies (readSegments segments offset length)
  | [], _, _ => .pure []
  | segment :: rest, offset, length => by
    unfold readSegments
    split
    · exact .pure []
    · split
      · exact readSegments_supplied rest _ _
      · exact .bind (segment.read_supplied _ _) fun bytes =>
          .bind (readSegments_supplied rest _ _) fun others => .pure _

end

theorem window_supplied (parent : Storage) (offset length : Nat) : Supplied (parent.window offset length) := by
  simp only [window]
  split
  · exact .error rfl
  · split
    all_goals exact .ok _

end Storage

/-! ## Tables -/

theorem Bytes.bytesAt_supplied (bytes : Bytes) (offset width : Nat) : Supplied (bytes.bytesAt offset width) := by
  simp only [bytesAt]
  split
  · exact .ok _
  · exact .error rfl

theorem Bytes.numberAt_supplied (bytes : Bytes) (offset width : Nat) : Supplied (bytes.numberAt offset width) :=
  Supplied.bind (bytes.bytesAt_supplied offset width) fun _ _ => .ok _

namespace BucketTree

variable {E : Type} [BucketEntry E]

theorem nodeHeader_supplied (table : Bytes) (offset : Nat) : Supplied (nodeHeader table offset) := by
  refine .bind (table.numberAt_supplied _ _) fun count _ => .bind (table.numberAt_supplied _ _) fun last _ => ?_
  split
  · exact .bind (.error rfl) nofun
  · exact .ok _

theorem decodeBucket_supplied (table : Bytes) (index : Nat) : Supplied (decodeBucket (E := E) table index) := by
  refine .bind (table.numberAt_supplied _ _) fun first _ => .bind (nodeHeader_supplied _ _) fun found _ => ?_
  dsimp only
  split
  · exact .bind (.error rfl) nofun
  · refine .bind (.mapM fun j _ => ?_) fun entries _ => .ok _
    exact .bind (table.bytesAt_supplied _ _) fun _ _ => .ok _

theorem checkEntries_supplied (index : Nat) (bucket : Bucket E) (entries : List E) (previous : Option Nat) :
    Supplied (checkEntries index bucket previous entries) := by
  induction entries generalizing previous with
  | nil => exact .ok _
  | cons entry rest inductionHypothesis =>
    simp only [checkEntries]
    split
    · exact .error rfl
    · split
      · exact .error rfl
      · exact inductionHypothesis _

theorem checkBuckets_supplied (size : Nat) (buckets : List (Bucket E)) (index : Nat) (previous : Option Nat) :
    Supplied (checkBuckets size index previous buckets) := by
  induction buckets generalizing index previous with
  | nil => exact .ok ()
  | cons bucket rest inductionHypothesis =>
    simp only [checkBuckets]
    split
    · exact .error rfl
    · split
      · exact inductionHypothesis _ _
      · next failure fails => exact .error (checkEntries_supplied _ _ _ _ failure fails)

/-- A table that cannot be decoded is malformed. -/
theorem decode_supplied (table : Bytes) (count : Nat) : Supplied (decode (E := E) table count) := by
  simp only [decode]
  split
  · exact .bind (.error rfl) nofun
  · split
    · exact .ok _
    · refine .bind (nodeHeader_supplied _ _) fun found _ => ?_
      split
      · exact .bind (.error rfl) nofun
      · refine .bind (.mapM fun index _ => decodeBucket_supplied table index) fun buckets _ => ?_
        split
        · exact .bind (.error rfl) nofun
        · exact .bind (checkBuckets_supplied _ _ _ _) fun _ _ => .ok _

end BucketTree

end SealedContent
