import SealedContent.Aes.Block

/-! # Title keys

`TitleKeys` is a dictionary from rights IDs to encrypted title keys. Its entries are kept in strictly
increasing order of rights IDs, so that two dictionaries with the same entries are equal, however
they were filled.
-/

namespace SealedContent

/-- The sixteen bytes that bind a container to its title key. -/
abbrev RightsId := Aes.Block

/-- Encrypted title keys by rights ID, in increasing order. -/
structure TitleKeys where
  entries : List (RightsId × Aes.Block)
  sorted : entries.Pairwise fun a b => a.1.toNat < b.1.toNat

namespace TitleKeys

/-- No title key at all. -/
def empty : TitleKeys := ⟨[], .nil⟩

/-- A sorted list with an entry added, or replaced if its rights ID is there. -/
def insertEntry (id : RightsId) (key : Aes.Block) :
    List (RightsId × Aes.Block) → List (RightsId × Aes.Block)
  | [] => [(id, key)]
  | entry :: rest =>
    if id.toNat < entry.1.toNat then (id, key) :: entry :: rest
    else if id.toNat = entry.1.toNat then (id, key) :: rest
    else entry :: insertEntry id key rest

theorem mem_insertEntry {id : RightsId} {key : Aes.Block} {entries : List (RightsId × Aes.Block)}
    {x : RightsId × Aes.Block} (h : x ∈ insertEntry id key entries) :
    x = (id, key) ∨ x ∈ entries := by
  induction entries with
  | nil => simpa [insertEntry] using h
  | cons entry rest ih =>
    unfold insertEntry at h
    split at h
    · simpa using h
    · split at h
      · rcases List.mem_cons.mp h with h | h
        · exact .inl h
        · exact .inr (List.mem_cons_of_mem _ h)
      · rcases List.mem_cons.mp h with h | h
        · exact .inr (h ▸ List.mem_cons_self)
        · exact (ih h).imp_right (List.mem_cons_of_mem _)

theorem sorted_insertEntry (id : RightsId) (key : Aes.Block)
    {entries : List (RightsId × Aes.Block)}
    (h : entries.Pairwise fun a b => a.1.toNat < b.1.toNat) :
    (insertEntry id key entries).Pairwise fun a b => a.1.toNat < b.1.toNat := by
  induction entries with
  | nil => simp [insertEntry]
  | cons entry rest ih =>
    obtain ⟨hentry, hrest⟩ := List.pairwise_cons.mp h
    unfold insertEntry
    split
    · next hlt =>
      refine List.pairwise_cons.mpr ⟨fun x hx => ?_, h⟩
      rcases List.mem_cons.mp hx with rfl | hx
      · exact hlt
      · exact Nat.lt_trans hlt (hentry x hx)
    · split
      · next heq =>
        exact List.pairwise_cons.mpr ⟨fun x hx => Nat.lt_of_le_of_lt (Nat.le_of_eq heq) (hentry x hx), hrest⟩
      · next hnlt hne =>
        refine List.pairwise_cons.mpr ⟨fun x hx => ?_, ih hrest⟩
        rcases mem_insertEntry hx with rfl | hx
        · exact Nat.lt_of_le_of_ne (Nat.le_of_not_lt hnlt) (Ne.symm hne)
        · exact hentry x hx

/-- The dictionary with an entry added or replaced. -/
def insert (keys : TitleKeys) (id : RightsId) (key : Aes.Block) : TitleKeys :=
  ⟨insertEntry id key keys.entries, sorted_insertEntry id key keys.sorted⟩

def get? (keys : TitleKeys) (id : RightsId) : Option Aes.Block :=
  (keys.entries.find? fun entry => entry.1 == id).map (·.2)

def size (keys : TitleKeys) : Nat := keys.entries.length

end TitleKeys

end SealedContent
