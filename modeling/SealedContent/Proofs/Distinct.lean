import Mathlib.Data.List.Nodup

/-! # Lists with each item once

`List.eraseDups` keeps the first of several items that are the same. It can be done from the back, where an item is
dropped when it turns up in front (`eraseDups_cons_filter`), so that no item is left twice: `nodup_eraseDups`.
-/

namespace SealedContent

variable {α : Type} [BEq α] [LawfulBEq α]

theorem eraseDups_filter (keeps : α → Bool) : ∀ items : List α,
    (items.filter keeps).eraseDups = items.eraseDups.filter keeps
  | [] => rfl
  | item :: others => by
    -- the items behind the first one, other than it
    have shorter := eraseDups_filter keeps (others.filter fun other => !other == item)
    rw [List.filter_filter] at shorter
    cases kept : keeps item with
    | true =>
      rw [List.filter_cons_of_pos kept, List.eraseDups_cons, List.eraseDups_cons, List.filter_cons_of_pos kept,
        List.filter_filter, ← shorter]
      simp only [Bool.and_comm]
    | false =>
      have same : others.filter keeps = others.filter fun other => keeps other && !other == item := by
        refine List.filter_congr fun other _ => ?_
        cases first : other == item with
        | true => rw [eq_of_beq first, kept]; rfl
        | false => simp
      rw [List.filter_cons_of_neg (by simp [kept]), List.eraseDups_cons, List.filter_cons_of_neg (by simp [kept]), same,
        shorter]
termination_by items => items.length
decreasing_by
  have := List.length_filter_le (fun other => !other == item) others
  simp only [List.length_cons]
  omega

theorem eraseDups_cons_filter (item : α) (others : List α) :
    (item :: others).eraseDups = item :: others.eraseDups.filter (· != item) := by
  rw [List.eraseDups_cons, eraseDups_filter]
  rfl

theorem nodup_eraseDups (items : List α) : items.eraseDups.Nodup := by
  induction items with
  | nil => exact .nil
  | cons item others inductionHypothesis =>
    rw [eraseDups_cons_filter]
    exact List.nodup_cons.mpr ⟨by simp, inductionHypothesis.filter _⟩

end SealedContent
