import SealedContent.Proofs.Aes.Positions
import SealedContent.Proofs.Session
import SealedContent.Storage.Basic

/-! # Lengths of reads

No read gives more bytes than it was asked for, whatever the session remembers: `Storage.read_yields`. A cache with
too long or too short blocks in its table gives wrong bytes, but never too many.
-/

namespace SealedContent

open Storage (sizes)

variable {α : Type} {length count size offset : Nat}

/-- From every session the computation gives at most so many bytes, or fails. -/
def Yields (length : Nat) (action : SessionM Bytes) : Prop :=
  ∀ session bytes, action.result session = .ok bytes → bytes.length ≤ length

namespace Yields

theorem pure {bytes : Bytes} (short : bytes.length ≤ length) : Yields length (Pure.pure bytes) := by
  intro session same gives
  cases gives
  exact short

theorem throw (error : Error) : Yields length (MonadExcept.throw error) := fun _ _ gives => by cases gives

theorem ofExcept {outcome : Except Error Bytes} (short : ∀ bytes, outcome = .ok bytes → bytes.length ≤ length) :
    Yields length (MonadExcept.ofExcept outcome) := by
  cases outcome with
  | ok bytes => exact pure (short bytes rfl)
  | error error => exact throw error

/-- Only the last of several computations counts. -/
theorem bind {action : SessionM α} {next : α → SessionM Bytes} (rest : ∀ value, Yields length (next value)) :
    Yields length (action >>= next) := by
  intro session bytes gives
  obtain ⟨value, -, gives⟩ := SessionM.bind_eq_ok gives
  exact rest value _ bytes gives

/-- What is made of fetched bytes is as long as they are. -/
theorem fetched {action : SessionM Bytes} {next : Bytes → SessionM Bytes} (yields : Yields length action)
    (rest : ∀ bytes, bytes.length ≤ length → Yields length (next bytes)) : Yields length (action >>= next) := by
  intro session bytes gives
  obtain ⟨first, found, gives⟩ := SessionM.bind_eq_ok gives
  exact rest first (yields session first found) _ bytes gives

theorem append {action rest : SessionM Bytes} {second : Nat} (first : Yields count action) (others : Yields second rest)
    (within : count + second ≤ length) :
    Yields length (do let bytes ← action; let more ← rest; return bytes ++ more) := by
  intro session bytes gives
  obtain ⟨front, frontFound, gives⟩ := SessionM.bind_eq_ok gives
  obtain ⟨back, backFound, gives⟩ := SessionM.bind_eq_ok gives
  cases gives
  have frontShort := first _ _ frontFound
  have backShort := others _ _ backFound
  simp only [List.length_append]
  omega

end Yields

/-! ## Serving a range -/

theorem length_window_le (bytes : Bytes) (offset length : Nat) : (bytes.window offset length).length ≤ length := by
  simp only [Bytes.window, List.length_take]
  exact Nat.min_le_left _ _

theorem ranged_yields {body : SessionM Bytes} (yields : Yields length body) :
    Yields length (ranged size offset length body) := by
  simp only [ranged]
  split
  · exact .throw _
  · split
    · exact .pure (Nat.zero_le _)
    · exact yields

theorem length_decryptGenerations {key : Aes.Block} {upper start : Nat} {table : BucketTree Subsection}
    {position : Nat} {data plain : Bytes} (gives : decryptGenerations key upper start table position data = .ok plain) :
    plain.length = data.length := by
  fun_induction decryptGenerations key upper start table position data generalizing plain with
  | case1 => cases gives; rfl
  | case2 => cases gives
  | case3 => cases gives
  | case4 => cases gives
  | case5 position data nonempty entry last found late fits count piece rest decrypted =>
    -- the case has no name for its hypothesis behind the local piece
    rename_i inductionHypothesis
    cases gives
    have restLength := inductionHypothesis decrypted
    simp only [List.length_drop] at restLength
    simp only [piece, List.length_append, Aes.length_ctrAt, List.length_take]
    omega
  | case6 => cases gives

theorem readUnits_yields {inner : Fetch SessionM} (name : String) (unit : Nat)
    (decrypt : (start : Nat) → Bytes → Except Error Bytes) :
    Yields length (readUnits name unit size inner decrypt offset length) := by
  simp only [readUnits]
  split
  · exact .throw _
  · split
    · exact .throw _
    · exact .bind fun _ => .bind fun _ => .pure (length_window_le _ _ _)

theorem readDecrypted_yields {inner : Fetch SessionM} (yields : ∀ offset length, Yields length (inner offset length))
    (cipher : StorageCipher) : Yields length (readDecrypted cipher size inner offset length) := by
  cases cipher with
  | ctr key counter =>
    exact .fetched (yields _ _) fun bytes short => .pure (by rw [Aes.length_ctrAt]; exact short)
  | generations key upper start table =>
    refine .fetched (yields _ _) fun bytes short => .ofExcept fun plain decrypted => ?_
    rw [length_decryptGenerations decrypted]
    exact short
  | xts key sectorSize first => exact readUnits_yields _ _ _
  | ecb key => exact readUnits_yields _ _ _

theorem readCached_yields {inner : Fetch SessionM} (table blockSize capacity : Nat) :
    Yields length (readCached table blockSize capacity size inner offset length) :=
  .bind fun _ => .pure (length_window_le _ _ _)

theorem readRelocated_yields {base patch : Fetch SessionM}
    (fromBase : ∀ offset length, Yields length (base offset length))
    (fromPatch : ∀ offset length, Yields length (patch offset length)) (table : BucketTree Relocation) :
    Yields length (readRelocated table base patch offset length) := by
  fun_induction readRelocated with
  | case1 => exact .pure (Nat.zero_le _)
  | case2 => exact .throw _
  | case3 => exact .throw _
  | case4 => exact .throw _
  | case5 => exact .throw _
  | case6 offset length nonempty entry last found source chosen late count position small inductionHypothesis =>
    have within : count + (length - count) ≤ length := by omega
    refine .append ?_ inductionHypothesis within
    -- the source of an entry is one of the two
    simp only [Relocation.choose?] at chosen
    split at chosen
    · cases chosen
      exact fromBase _ _
    · cases chosen
      exact fromPatch _ _
    · cases chosen

theorem readVerified_yields {data hashes : Fetch SessionM}
    (fromData : ∀ offset length, Yields length (data offset length)) (cell : Nat) (check : BlockCheck) : Yields length (readVerified cell check size data hashes offset length) := by
  simp only [readVerified]
  split
  · exact fromData _ _
  · exact .bind fun _ => .pure (length_window_le _ _ _)

/-! ## Storages -/

theorem extract_yields (bytes : Array UInt8) : Yields length (pure (bytes.extract offset (offset + length)).toList) :=
  .pure (by simp only [Array.length_toList, Array.size_extract]; omega)

namespace Storage

mutual

theorem read_yields : ∀ (node : Storage) (offset length : Nat), Yields length (node.read offset length)
  | .memory bytes, _, _ => ranged_yields (extract_yields bytes)
  | .stream source, _, _ => ranged_yields (extract_yields source)
  | .slice parent _ _, _, _ => ranged_yields (parent.read_yields _ _)
  | .cache _ _ _ _, _, _ => ranged_yields (readCached_yields _ _ _)
  | .decrypt inner cipher, _, _ => ranged_yields (readDecrypted_yields (fun _ _ => inner.read_yields _ _) cipher)
  | .concat segments, _, _ => ranged_yields (readSegments_yields segments _ _)
  | .indirect base patch table, _, _ =>
    ranged_yields (readRelocated_yields (fun _ _ => base.read_yields _ _) (fun _ _ => patch.read_yields _ _) table)
  | .verified _ _ data _, _, _ => ranged_yields (readVerified_yields (fun _ _ => data.read_yields _ _) _ _)

theorem readSegments_yields : ∀ (segments : List Storage) (offset length : Nat),
    Yields length (readSegments segments offset length)
  | [], _, _ => .pure (Nat.zero_le _)
  | segment :: rest, offset, length => by
    simp only [readSegments]
    split
    · exact .pure (Nat.zero_le _)
    · split
      · exact readSegments_yields rest _ _
      · exact .append (segment.read_yields _ _) (readSegments_yields rest _ _) (by omega)

end

end Storage

end SealedContent
