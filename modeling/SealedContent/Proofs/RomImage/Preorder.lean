import Mathlib.Data.List.Infix
import Mathlib.Data.List.Nodup
import Mathlib.Data.List.Perm.Basic
import SealedContent.Proofs.Distinct
import SealedContent.Archive.RomImage.Writer

/-! # Directories in depth-first order

The directories of an image stand in the order in which paths mention them, and a walk enters them depth first.
`preorder` is that order of a set of paths that has the directories above each of its paths: it has the same
paths, each once (`preorder_perm`). What is grouped by distinct keys is the same as before but for its order
(`perm_grouped`), so a walk finds what stands in the tables.
-/

namespace SealedContent

/-! ## Grouping -/

/-- Of what is grouped by distinct keys, one group belongs to a key of the list. -/
theorem flatMap_split {α κ : Type} {keys : List κ} {k : κ} (group : κ → List α) (member : k ∈ keys)
    (distinct : keys.Nodup) : ∃ before after, keys = before ++ k :: after ∧ k ∉ before ∧ k ∉ after ∧
      keys.flatMap group = before.flatMap group ++ group k ++ after.flatMap group := by
  obtain ⟨before, after, rfl⟩ := List.append_of_mem member
  obtain ⟨-, behind, apart⟩ := List.nodup_append.mp distinct
  refine ⟨before, after, rfl, fun again => apart k again k (.head _) rfl, (List.nodup_cons.mp behind).1, ?_⟩
  simp

section
variable {α κ : Type} [BEq κ] [LawfulBEq κ] {key : α → κ} {keys : List κ} {items : List α}

/-- Grouping by distinct keys keeps every item. -/
theorem perm_grouped (distinct : keys.Nodup) (covered : ∀ item ∈ items, key item ∈ keys) :
    (keys.flatMap fun k => items.filter (key · == k)).Perm items := by
  induction items with
  | nil => simp
  | cons item items inductionHypothesis =>
    obtain ⟨first, others⟩ := List.forall_mem_cons.mp covered
    have rest := inductionHypothesis others
    obtain ⟨before, after, rfl, earlier, later, -⟩ := flatMap_split (fun _ => items) first distinct
    -- the item joins the group of its key, and no other one
    have same : ∀ {part : List κ}, key item ∉ part →
        (part.flatMap fun k => (item :: items).filter (key · == k)) = part.flatMap fun k => items.filter (key · == k) := by
      intro part absent
      apply List.flatMap_congr
      intro k member
      have other : key item ≠ k := fun same => absent (same ▸ member)
      simp [other]
    rw [List.flatMap_append, List.flatMap_cons] at rest ⊢
    rw [same earlier, same later, List.filter_cons_of_pos (by simp), List.cons_append]
    exact List.perm_middle.trans (rest.cons item)

/-- The items with one key stand in their own group, in the order that they had. -/
theorem filter_grouped (distinct : keys.Nodup) {k : κ} (member : k ∈ keys) :
    (keys.flatMap fun k => items.filter (key · == k)).filter (key · == k) = items.filter (key · == k) := by
  obtain ⟨before, after, -, earlier, later, split⟩ :=
    flatMap_split (fun k => items.filter (key · == k)) member distinct
  have none : ∀ {part : List κ}, k ∉ part →
      (part.flatMap fun k => items.filter (key · == k)).filter (key · == k) = [] := by
    intro part absent
    rw [List.filter_eq_nil_iff]
    intro item found
    obtain ⟨other, member, found⟩ := List.mem_flatMap.mp found
    simp only [List.mem_filter, beq_iff_eq] at found ⊢
    rintro same
    exact absent (same ▸ found.2 ▸ member)
  rw [split, List.filter_append, List.filter_append, none earlier, none later, List.filter_filter]
  simp

end

/-! ## The directories of some files -/

namespace RomImage

theorem leadingParts_eq {α : Type} (path : List α) : leadingParts path = path.inits := by
  induction path with
  | nil => rfl
  | cons a path inductionHypothesis => rw [leadingParts, inductionHypothesis, List.inits_cons]

theorem mem_sourceDirectories {sources : List RomSource} {path : List String} :
    path ∈ sourceDirectories sources ↔ path = [] ∨ ∃ source ∈ sources, path <+: source.directory := by
  simp [sourceDirectories, leadingParts_eq]

theorem nodup_sourceDirectories (sources : List RomSource) : (sourceDirectories sources).Nodup :=
  nodup_eraseDups _

/-- The root comes first. -/
theorem exists_sourceDirectories (sources : List RomSource) : ∃ rest, sourceDirectories sources = [] :: rest :=
  ⟨_, List.eraseDups_cons⟩

/-- A set of paths that has what is above each of them. -/
structure Rooted (paths : List (List String)) : Prop where
  distinct : paths.Nodup
  root : [] ∈ paths
  above : ∀ {path above}, path ∈ paths → above <+: path → above ∈ paths

theorem rooted_sourceDirectories (sources : List RomSource) : Rooted (sourceDirectories sources) where
  distinct := nodup_sourceDirectories sources
  root := mem_sourceDirectories.mpr (.inl rfl)
  above member leads := by
    obtain rfl | ⟨source, member, below⟩ := mem_sourceDirectories.mp member
    · exact mem_sourceDirectories.mpr (.inl (List.prefix_nil.mp leads))
    · exact mem_sourceDirectories.mpr (.inr ⟨source, member, leads.trans below⟩)

/-! ## Depth-first order -/

/-- The paths right below a path. -/
def childPaths (paths : List (List String)) (path : List String) : List (List String) :=
  paths.filter fun child => child != [] && child.dropLast == path

/-- A path and the paths below it through a number of levels. -/
def preorder (paths : List (List String)) : Nat → List String → List (List String)
  | 0, path => [path]
  | levels + 1, path => path :: (childPaths paths path).flatMap (preorder paths levels)

variable {paths : List (List String)} {path child : List String} {levels : Nat}

theorem mem_childPaths : child ∈ childPaths paths path ↔ child ∈ paths ∧ ∃ name, child = path ++ [name] := by
  simp only [childPaths, List.mem_filter, Bool.and_eq_true, bne_iff_ne, ne_eq, beq_iff_eq]
  refine and_congr_right fun _ => ⟨?_, ?_⟩
  · rintro ⟨present, rfl⟩
    exact ⟨child.getLast present, (List.dropLast_append_getLast present).symm⟩
  · rintro ⟨name, rfl⟩
    simp

theorem mem_preorder (rooted : Rooted paths) (present : path ∈ paths) {found : List String} :
    found ∈ preorder paths levels path ↔ found ∈ paths ∧ path <+: found ∧ found.length ≤ path.length + levels := by
  induction levels generalizing path with
  | zero =>
    rw [preorder, List.mem_singleton]
    constructor
    · rintro rfl
      exact ⟨present, List.prefix_rfl, Nat.le_refl _⟩
    · rintro ⟨-, leads, short⟩
      exact (leads.eq_of_length_le short).symm
  | succ levels inductionHypothesis =>
    rw [preorder, List.mem_cons, List.mem_flatMap]
    constructor
    · rintro (rfl | ⟨child, member, below⟩)
      · exact ⟨present, List.prefix_rfl, Nat.le_add_right _ _⟩
      · obtain ⟨there, name, rfl⟩ := mem_childPaths.mp member
        obtain ⟨found, leads, short⟩ := (inductionHypothesis there).mp below
        rw [List.length_append, List.length_singleton] at short
        exact ⟨found, (List.prefix_append _ _).trans leads, by omega⟩
    · rintro ⟨there, ⟨more, rfl⟩, short⟩
      cases more with
      | nil => exact .inl (List.append_nil _)
      | cons name more =>
        have leads : path ++ [name] <+: path ++ name :: more := ⟨more, by simp⟩
        have between := rooted.above there leads
        refine .inr ⟨path ++ [name], mem_childPaths.mpr ⟨between, name, rfl⟩, ?_⟩
        refine (inductionHypothesis between).mpr ⟨there, leads, ?_⟩
        simp only [List.length_append, List.length_cons, List.length_nil] at short ⊢
        omega

theorem nodup_preorder (rooted : Rooted paths) (present : path ∈ paths) : (preorder paths levels path).Nodup := by
  induction levels generalizing path with
  | zero => exact List.nodup_singleton _
  | succ levels inductionHypothesis =>
    rw [preorder, List.nodup_cons, List.nodup_flatMap]
    refine ⟨?_, ?_, ?_⟩
    · intro member
      obtain ⟨child, member, below⟩ := List.mem_flatMap.mp member
      obtain ⟨there, name, rfl⟩ := mem_childPaths.mp member
      have longer := ((mem_preorder rooted there).mp below).2.1.length_le
      rw [List.length_append, List.length_singleton] at longer
      omega
    · intro child member
      exact inductionHypothesis (mem_childPaths.mp member).1
    · refine (rooted.distinct.filter _).imp_of_mem ?_
      intro first second firstMember secondMember different found below other
      obtain ⟨there, name, rfl⟩ := mem_childPaths.mp firstMember
      obtain ⟨otherThere, otherName, rfl⟩ := mem_childPaths.mp secondMember
      -- both children would be the part of one length in front of the same path
      have leads := ((mem_preorder rooted there).mp below).2.1
      have otherLeads := ((mem_preorder rooted otherThere).mp other).2.1
      exact different (List.prefix_of_prefix_length_le leads otherLeads (by simp) |>.eq_of_length (by simp))

/-- Every directory comes once. -/
theorem preorder_perm (rooted : Rooted paths) (shallow : ∀ path ∈ paths, path.length ≤ levels) :
    (preorder paths levels []).Perm paths := by
  rw [List.perm_ext_iff_of_nodup (nodup_preorder rooted rooted.root) rooted.distinct]
  intro path
  rw [mem_preorder rooted rooted.root]
  exact ⟨fun found => found.1, fun member => ⟨member, List.nil_prefix, by simpa using shallow path member⟩⟩

end RomImage

end SealedContent
