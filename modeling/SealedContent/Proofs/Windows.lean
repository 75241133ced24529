import Mathlib.Data.List.Basic
import SealedContent.Bytes.EndianLemmas
import SealedContent.Bytes.Fields

/-! # Windows

Where the windows of a byte string lie when the string is itself a window, is put together from two
strings, or is cut into pieces of one size. `Bytes.fieldAt` is the number in a window.
-/

namespace SealedContent.Bytes

variable {bytes before after : Bytes} {start size offset length : Nat}

/-- The little-endian number in the bytes of a range. -/
def fieldAt (bytes : Bytes) (offset width : Nat) : Nat := LittleEndian.decode (bytes.window offset width)

theorem window_window (inside : offset + length ≤ size) :
    (bytes.window start size).window offset length = bytes.window (start + offset) length := by
  simp only [window]
  rw [List.drop_take, List.take_take, List.drop_drop, Nat.min_eq_left (by omega)]

theorem fieldAt_window (inside : offset + length ≤ size) :
    (bytes.window start size).fieldAt offset length = bytes.fieldAt (start + offset) length := by
  rw [fieldAt, window_window inside, fieldAt]

theorem window_take (inside : offset + length ≤ size) :
    window (bytes.take size) offset length = bytes.window offset length := by
  have whole := @window_window bytes 0 size offset length inside
  rwa [Nat.zero_add] at whole

theorem window_append_left (inside : offset + length ≤ before.length) :
    (before ++ after).window offset length = before.window offset length := by
  simp only [window]
  rw [List.drop_append_of_le_length (by omega), List.take_append_of_le_length (by rw [List.length_drop]; omega)]

theorem window_append_right (before after : Bytes) (offset length : Nat) :
    (before ++ after).window (before.length + offset) length = after.window offset length := by
  simp only [window]
  rw [List.drop_append, List.drop_eq_nil_of_le (by omega), Nat.add_sub_cancel_left, List.nil_append]

theorem window_append_of_le (behind : before.length ≤ offset) :
    (before ++ after).window offset length = after.window (offset - before.length) length := by
  have same := window_append_right before after (offset - before.length) length
  rwa [Nat.add_sub_cancel' behind] at same

theorem window_all (bytes : Bytes) : bytes.window 0 bytes.length = bytes := by
  simp [window]

theorem window_eq_self (long : bytes.length = length) : bytes.window 0 length = bytes := by
  rw [← long, window_all]

theorem window_append_first (after : Bytes) (long : before.length = length) :
    (before ++ after).window 0 length = before := by
  rw [window_append_left (by omega), window_eq_self long]

theorem window_add (bytes : Bytes) (start size length : Nat) :
    bytes.window start (size + length) = bytes.window start size ++ bytes.window (start + size) length := by
  rw [window, List.take_add, List.drop_drop, ← window, ← window]

theorem length_window_eq (bytes : Bytes) (offset length : Nat) :
    (bytes.window offset length).length = min length (bytes.length - offset) := by
  rw [window, List.length_take, List.length_drop]

/-- A window stops where the string ends. -/
theorem window_min (bytes : Bytes) (offset length : Nat) :
    bytes.window offset (min length (bytes.length - offset)) = bytes.window offset length := by
  rw [window, window, ← List.length_drop, ← List.take_eq_take_min]

/-- A piece that stands between others. -/
theorem window_between (before piece after : Bytes) :
    (before ++ piece ++ after).window before.length piece.length = piece := by
  rw [List.append_assoc, window_append_of_le (Nat.le_refl _), Nat.sub_self, window_append_first _ rfl]

theorem length_between (before piece after : Bytes) :
    before.length + piece.length ≤ (before ++ piece ++ after).length := by
  rw [List.length_append, List.length_append]
  exact Nat.le_add_right _ _

theorem window_succ_mul (first : Bytes) (rest : Bytes) (long : first.length = size) (i : Nat) :
    (first ++ rest).window ((i + 1) * size) size = rest.window (i * size) size := by
  rw [Nat.succ_mul, Nat.add_comm, ← long]
  exact window_append_right first rest _ _

/-! ## Numbers -/

theorem bytesAt_eq (inside : offset + length ≤ bytes.length) :
    bytes.bytesAt offset length = .ok (bytes.window offset length) := by
  rw [bytesAt, window?, if_pos inside]

theorem numberAt_eq (inside : offset + length ≤ bytes.length) :
    bytes.numberAt offset length = .ok (bytes.fieldAt offset length) := by
  rw [numberAt, bytesAt_eq inside]
  rfl

theorem bytesAt_eq_ok_iff {field : Bytes} :
    bytes.bytesAt offset length = .ok field ↔ offset + length ≤ bytes.length ∧ field = bytes.window offset length := by
  rw [bytesAt, window?]
  split <;> simp_all [eq_comm]

theorem length_of_bytesAt {field : Bytes} (found : bytes.bytesAt offset length = .ok field) :
    field.length = length := by
  obtain ⟨inside, rfl⟩ := bytesAt_eq_ok_iff.mp found
  exact length_window inside

theorem numberAt_eq_ok_iff {n : Nat} :
    bytes.numberAt offset length = .ok n ↔ offset + length ≤ bytes.length ∧ n = bytes.fieldAt offset length := by
  rw [numberAt, bytesAt, window?]
  split <;> simp_all [Except.map, fieldAt, eq_comm]

theorem fieldAt_append_left (inside : offset + length ≤ before.length) :
    (before ++ after).fieldAt offset length = before.fieldAt offset length := by
  rw [fieldAt, window_append_left inside, fieldAt]

theorem fieldAt_append_of_le (behind : before.length ≤ offset) :
    (before ++ after).fieldAt offset length = after.fieldAt (offset - before.length) length := by
  rw [fieldAt, window_append_of_le behind, fieldAt]

theorem encode_fieldAt (inside : offset + length ≤ bytes.length) :
    LittleEndian.encode length (bytes.fieldAt offset length) = bytes.window offset length := by
  have same := LittleEndian.encode_decode (bytes.window offset length)
  rwa [length_window inside] at same

/-- A field that ends early is no larger than a whole one. -/
theorem fieldAt_lt (bytes : Bytes) (offset length : Nat) : bytes.fieldAt offset length < 256 ^ length := by
  refine Nat.lt_of_lt_of_le (LittleEndian.decode_lt _) (Nat.pow_le_pow_right (by decide) ?_)
  rw [length_window_eq]
  exact Nat.min_le_left _ _

theorem fieldAt_encode (width n : Nat) (after : Bytes) :
    (LittleEndian.encode width n ++ after).fieldAt 0 width = n % 256 ^ width := by
  rw [fieldAt, window_append_first after (LittleEndian.length_encode width n), LittleEndian.decode_encode]

theorem fieldAt_zeros (count offset length : Nat) : (zeros count).fieldAt offset length = 0 := by
  have all : ∀ n, LittleEndian.decode (List.replicate n 0) = 0 := by
    intro n
    induction n with
    | zero => rfl
    | succ n inductionHypothesis =>
      rw [List.replicate_succ, LittleEndian.decode, inductionHypothesis]
      rfl
  rw [fieldAt, window, zeros, List.drop_replicate, List.take_replicate]
  exact all _

/-! ## Pieces -/

/-- Each piece is a window. -/
theorem window_flatten {pieces : List Bytes} (whole : ∀ piece ∈ pieces, piece.length = size) :
    ∀ i (inside : i < pieces.length), window pieces.flatten (i * size) size = pieces[i] := by
  induction pieces with
  | nil => exact fun i inside => absurd inside (Nat.not_lt_zero i)
  | cons first rest inductionHypothesis =>
    have long := whole first (by simp)
    intro i inside
    cases i with
    | zero => rw [Nat.zero_mul, List.flatten_cons, window_append_left (by omega), ← long, window_all]; rfl
    | succ i =>
      rw [List.flatten_cons, window_succ_mul first _ long]
      exact inductionHypothesis (fun piece member => whole piece (by simp [member])) i (by simpa using inside)

/-- A piece of a string that is cut into pieces is a window too, the last one a short window. -/
theorem getElem?_chunks (positive : 0 < size) (i : Nat) :
    (bytes.chunks size)[i]? = if i * size < bytes.length then some (bytes.window (i * size) size) else none := by
  fun_induction chunks size bytes generalizing i with
  | case1 bytes none =>
    have empty : bytes = [] := none.resolve_left (by omega)
    simp [empty]
  | case2 bytes some inductionHypothesis =>
    have nonempty : 0 < bytes.length := List.length_pos_iff.mpr fun empty => some (.inr empty)
    cases i with
    | zero => simp [window, nonempty]
    | succ i =>
      rw [List.getElem?_cons_succ, inductionHypothesis, List.length_drop, window, List.drop_drop, ← window,
        Nat.succ_mul, Nat.add_comm size]
      by_cases inside : i * size + size < bytes.length
      · rw [if_pos inside, if_pos (by omega)]
      · rw [if_neg inside, if_neg (by omega)]

theorem lt_length_chunks_iff (positive : 0 < size) {i : Nat} :
    i < (bytes.chunks size).length ↔ i * size < bytes.length := by
  rw [← not_iff_not, Nat.not_lt, ← List.getElem?_eq_none_iff, getElem?_chunks positive]
  split <;> simp [*]

/-- The windows of a string one after the other. -/
theorem flatten_windows (count : Nat) : ∀ {bytes : Bytes}, bytes.length = count * size →
    ((List.range count).map fun i => bytes.window (i * size) size).flatten = bytes := by
  induction count with
  | zero =>
    intro bytes empty
    rw [Nat.zero_mul, List.length_eq_zero_iff] at empty
    simp [empty]
  | succ count inductionHypothesis =>
    intro bytes long
    rw [Nat.succ_mul] at long
    have first : (bytes.take size).length = size := by rw [List.length_take]; omega
    have rest := @inductionHypothesis (bytes.drop size) (by rw [List.length_drop]; omega)
    conv_rhs => rw [← List.take_append_drop size bytes, ← rest]
    rw [List.range_succ_eq_map, List.map_cons, List.map_map, List.flatten_cons, Nat.zero_mul]
    congr 1
    congr 1
    apply List.map_congr_left
    intro i _
    conv_lhs => rw [← List.take_append_drop size bytes]
    exact window_succ_mul _ _ first i

end SealedContent.Bytes
