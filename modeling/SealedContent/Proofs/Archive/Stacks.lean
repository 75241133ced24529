import SealedContent.Archive.Table
import SealedContent.Proofs.Windows

/-! # Items one behind the other

The writers of archives place entries, names and data one behind the other (`Stacked`, `stacked_placed`). Each piece of
a stack is a window of the whole at the offset that it was given: `Stacked.stands`, `Stacked.stands_flatMap`.
-/

namespace SealedContent

variable {α β : Type} {offset size : α → Nat} {start : Nat} {a : α} {before rest items : List α}

/-- Items that stand one behind the other from `start` on. -/
def Stacked (offset size : α → Nat) : (start : Nat) → List α → Prop
  | _, [] => True
  | start, a :: rest => offset a = start ∧ Stacked offset size (start + size a) rest

theorem stacked_placed (size : α → Nat) (start : Nat) (items : List α) :
    Stacked (fun item : α × Nat => item.2) (fun item => size item.1) start (placed size start items) := by
  induction items generalizing start with
  | nil => trivial
  | cons a rest inductionHypothesis => exact ⟨rfl, inductionHypothesis _⟩

theorem map_placed (size : α → Nat) (start : Nat) (items : List α) :
    (placed size start items).map Prod.fst = items := by
  induction items generalizing start with
  | nil => rfl
  | cons a rest inductionHypothesis => rw [placed, List.map_cons, inductionHypothesis]

/-- Items that are placed in two ways are stacked in both. -/
theorem stacked_zipWith_placed {item : β → α} {first second : β → Nat} (firstSize secondSize : α → Nat)
    (make : α → Nat → Nat → β)
    (made : ∀ a m n, item (make a m n) = a ∧ first (make a m n) = m ∧ second (make a m n) = n)
    (firstStart secondStart : Nat) (items : List α) :
    let rows := (placed firstSize firstStart items).zipWith (fun (a, m) (_, n) => make a m n)
      (placed secondSize secondStart items)
    Stacked first (fun row => firstSize (item row)) firstStart rows ∧
      Stacked second (fun row => secondSize (item row)) secondStart rows ∧ rows.map item = items := by
  induction items generalizing firstStart secondStart with
  | nil => exact ⟨trivial, trivial, rfl⟩
  | cons a rest inductionHypothesis =>
    obtain ⟨sameItem, sameFirst, sameSecond⟩ := made a firstStart secondStart
    obtain ⟨firsts, seconds, same⟩ := inductionHypothesis (firstStart + firstSize a) (secondStart + secondSize a)
    refine ⟨⟨sameFirst, ?_⟩, ⟨sameSecond, ?_⟩, congrArg₂ List.cons sameItem same⟩
    · show Stacked _ _ (firstStart + firstSize (item (make a firstStart secondStart))) _
      rw [sameItem]
      exact firsts
    · show Stacked _ _ (secondStart + secondSize (item (make a firstStart secondStart))) _
      rw [sameItem]
      exact seconds

theorem Stacked.le (stacked : Stacked offset size start items) : ∀ a ∈ items, start ≤ offset a := by
  induction items generalizing start with
  | nil => exact fun a member => absurd member List.not_mem_nil
  | cons a rest inductionHypothesis =>
    obtain ⟨rfl, stacked⟩ := stacked
    refine List.forall_mem_cons.mpr ⟨Nat.le_refl _, fun b member => ?_⟩
    have behind := inductionHypothesis stacked b member
    omega

theorem Stacked.nodup (positive : ∀ a, 0 < size a) (stacked : Stacked offset size start items) :
    (items.map offset).Nodup := by
  induction items generalizing start with
  | nil => exact List.nodup_nil
  | cons a rest inductionHypothesis =>
    obtain ⟨rfl, stacked⟩ := stacked
    rw [List.map_cons, List.nodup_cons]
    refine ⟨fun member => ?_, inductionHypothesis stacked⟩
    obtain ⟨b, member, same⟩ := List.mem_map.mp member
    have behind := stacked.le b member
    have some := positive a
    omega

/-- Each piece of a stack is a window of the whole. The bytes of an item may depend on what stands behind it. -/
theorem Stacked.window (bytes : List α → Bytes) (piece : α → List α → Bytes)
    (cons : ∀ a rest, bytes (a :: rest) = piece a rest ++ bytes rest)
    (sized : ∀ a rest, (piece a rest).length = size a) (stacked : Stacked offset size start (before ++ a :: rest)) :
    ∃ distance, offset a = start + distance ∧ distance + size a ≤ (bytes (before ++ a :: rest)).length ∧
      (bytes (before ++ a :: rest)).window distance (size a) = piece a rest := by
  induction before generalizing start with
  | nil =>
    obtain ⟨rfl, -⟩ := stacked
    refine ⟨0, rfl, ?_, ?_⟩
    · rw [List.nil_append, cons, List.length_append, sized]
      omega
    · rw [List.nil_append, cons, Bytes.window_append_first _ (sized a rest)]
  | cons b before inductionHypothesis =>
    obtain ⟨-, stacked⟩ := stacked
    obtain ⟨distance, place, inside, same⟩ := inductionHypothesis stacked
    refine ⟨size b + distance, by rw [place, Nat.add_assoc], ?_, ?_⟩
    · rw [List.cons_append, cons, List.length_append, sized]
      omega
    · rw [List.cons_append, cons, ← sized b (before ++ a :: rest), Bytes.window_append_right, same]

theorem Stacked.stands (bytes : List α → Bytes) (piece : α → List α → Bytes)
    (cons : ∀ a rest, bytes (a :: rest) = piece a rest ++ bytes rest)
    (sized : ∀ a rest, (piece a rest).length = size a) (stacked : Stacked offset size 0 items)
    (split : items = before ++ a :: rest) :
    offset a + size a ≤ (bytes items).length ∧ (bytes items).window (offset a) (size a) = piece a rest := by
  subst split
  obtain ⟨distance, place, inside, same⟩ := stacked.window bytes piece cons sized
  rw [place, Nat.zero_add]
  exact ⟨inside, same⟩

/-- Where the bytes of an item do not depend on what stands behind it. -/
theorem Stacked.stands_flatMap (stacked : Stacked offset size 0 items) (piece : α → Bytes)
    (sized : ∀ a, (piece a).length = size a) (member : a ∈ items) :
    offset a + size a ≤ (items.flatMap piece).length ∧
      Bytes.window (items.flatMap piece) (offset a) (size a) = piece a := by
  obtain ⟨before, rest, split⟩ := List.append_of_mem member
  exact stacked.stands (fun items => items.flatMap piece) (fun a _ => piece a) (fun _ _ => List.flatMap_cons)
    (fun a _ => sized a) split

end SealedContent
