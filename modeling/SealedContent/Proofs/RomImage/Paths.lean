import Mathlib.Data.List.DropRight
import Mathlib.Data.List.Infix
import SealedContent.Archive.RomImage.Writer
import SealedContent.Proofs.RomImage.Walk

/-! # Paths of files

A path is cut into parts at its slashes, and the names of a listed path are joined behind slashes. Names without
slashes are recovered from the joined path: `joined_injective`. So a file is listed under its own path, whatever
stands between its slashes, and its directories are the parts of that path that end before a slash.
-/

namespace SealedContent

open RomTables (joined)

/-! ## Parts -/

theorem pathParts_ne_nil (text : List Char) : pathParts text ≠ [] := by
  cases text with
  | nil => exact List.cons_ne_nil _ _
  | cons c rest =>
    rw [pathParts]
    split
    · exact List.cons_ne_nil _ _
    · split <;> exact List.cons_ne_nil _ _

theorem pathParts_cons {c : Char} (other : c ≠ '/') (rest : List Char) :
    ∃ part parts, pathParts rest = part :: parts ∧ pathParts (c :: rest) = (c :: part) :: parts := by
  obtain ⟨part, parts, split⟩ := List.exists_cons_of_ne_nil (pathParts_ne_nil rest)
  exact ⟨part, parts, split, by rw [pathParts, if_neg other, split]⟩

theorem pathParts_slash (rest : List Char) : pathParts ('/' :: rest) = [] :: pathParts rest := by
  rw [pathParts, if_pos rfl]

/-- The parts behind slashes are the text behind a slash. -/
theorem flatMap_pathParts (text : List Char) : (pathParts text).flatMap ('/' :: ·) = '/' :: text := by
  induction text with
  | nil => rfl
  | cons c rest inductionHypothesis =>
    by_cases slash : c = '/'
    · subst slash
      rw [pathParts_slash, List.flatMap_cons, inductionHypothesis]
      rfl
    · obtain ⟨part, parts, split, whole⟩ := pathParts_cons slash rest
      rw [split, List.flatMap_cons, List.cons_append, List.cons.injEq] at inductionHypothesis
      rw [whole, List.flatMap_cons, List.cons_append, List.cons_append, inductionHypothesis.2]

theorem slash_notMem_pathParts {text part : List Char} (member : part ∈ pathParts text) : '/' ∉ part := by
  induction text generalizing part with
  | nil => simp_all [pathParts]
  | cons c rest inductionHypothesis =>
    by_cases slash : c = '/'
    · subst slash
      rw [pathParts_slash] at member
      obtain rfl | member := List.mem_cons.mp member
      · exact List.not_mem_nil
      · exact inductionHypothesis member
    · obtain ⟨first, parts, split, whole⟩ := pathParts_cons slash rest
      rw [whole] at member
      rw [split] at inductionHypothesis
      obtain rfl | member := List.mem_cons.mp member
      · have clean := inductionHypothesis (.head parts)
        simp [clean, Ne.symm slash]
      · exact inductionHypothesis (.tail _ member)

/-- A slash ends a part. -/
theorem pathParts_append (before after : List Char) :
    pathParts (before ++ '/' :: after) = pathParts before ++ pathParts after := by
  induction before with
  | nil => exact pathParts_slash after
  | cons c before inductionHypothesis =>
    by_cases slash : c = '/'
    · subst slash
      rw [List.cons_append, pathParts_slash, pathParts_slash, inductionHypothesis, List.cons_append]
    · obtain ⟨part, parts, split, whole⟩ := pathParts_cons slash before
      obtain ⟨_, _, other, longer⟩ := pathParts_cons slash (before ++ '/' :: after)
      rw [inductionHypothesis, split, List.cons_append, List.cons.injEq] at other
      rw [whole, List.cons_append, List.cons_append, longer, other.1, other.2]

theorem length_pathParts (text : List Char) : (pathParts text).length = text.count '/' + 1 := by
  induction text with
  | nil => rfl
  | cons c rest inductionHypothesis =>
    by_cases slash : c = '/'
    · subst slash
      rw [pathParts_slash, List.length_cons, inductionHypothesis, List.count_cons_self]
    · obtain ⟨part, parts, split, whole⟩ := pathParts_cons slash rest
      rw [split] at inductionHypothesis
      rw [whole, List.count_cons_of_ne slash, ← inductionHypothesis]
      rfl

theorem pathParts_of_notMem {text : List Char} (clean : '/' ∉ text) : pathParts text = [text] := by
  induction text with
  | nil => rfl
  | cons c rest inductionHypothesis =>
    rw [List.mem_cons, not_or] at clean
    rw [pathParts, if_neg (Ne.symm clean.1), inductionHypothesis clean.2]

/-! ## Joined names -/

variable {names others : List String}

theorem toList_joined (names : List String) :
    (joined names).toList = names.flatMap fun name => '/' :: name.toList := by
  induction names with
  | nil => rfl
  | cons name names inductionHypothesis =>
    simp only [joined] at inductionHypothesis ⊢
    simp [String.join_cons, inductionHypothesis]

/-- No name has a slash in it. -/
def SlashFree (names : List String) : Prop := ∀ name ∈ names, '/' ∉ name.toList

theorem pathParts_flatMap {name : String} (clean : SlashFree (name :: names)) :
    pathParts (name.toList ++ (joined names).toList) = (name :: names).map String.toList := by
  induction names generalizing name with
  | nil =>
    rw [toList_joined, List.flatMap_nil, List.append_nil]
    exact pathParts_of_notMem (clean name (.head _))
  | cons next names inductionHypothesis =>
    obtain ⟨first, rest⟩ := List.forall_mem_cons.mp clean
    have behind := inductionHypothesis rest
    rw [toList_joined] at behind ⊢
    rw [List.flatMap_cons, List.cons_append, pathParts_append, behind, pathParts_of_notMem first]
    rfl

/-- Names without slashes are the parts of their path. -/
theorem joined_injective (clean : SlashFree names) (otherClean : SlashFree others)
    (same : joined names = joined others) :
    names = others := by
  have texts : names.flatMap (fun name => '/' :: name.toList) = others.flatMap fun name => '/' :: name.toList := by
    rw [← toList_joined, ← toList_joined, same]
  cases names with
  | nil =>
    cases others with
    | nil => rfl
    | cons name others => cases texts
  | cons name names =>
    cases others with
    | nil => cases texts
    | cons other others =>
      rw [List.flatMap_cons, List.flatMap_cons, List.cons_append, List.cons_append, List.cons.injEq,
        ← toList_joined, ← toList_joined] at texts
      have parts := pathParts_flatMap clean
      rw [texts.2, pathParts_flatMap otherClean] at parts
      exact (List.map_injective_iff.mpr (fun _ _ => String.toList_inj.mp) parts).symm

/-! ## Sources -/

namespace RomSource

/-- A path without the slashes in front. -/
def stripped (path : String) : List Char := path.toList.dropWhile (· == '/')

/-- The path that a file is listed under. -/
def listedPath (path : String) : String := "/" ++ String.ofList (stripped path)

/-- What comes before the name of a file, up to the last slash. -/
def folder (path : String) : String := String.ofList ((listedPath path).toList.rdropWhile (· != '/'))

variable {path : String} {contents : Bytes}

theorem toList_listedPath (path : String) : (listedPath path).toList = '/' :: stripped path := by
  simp [listedPath]

/-- The directories and the name of a file are the parts of its path. -/
theorem parts_ofPath (path : String) (contents : Bytes) : (ofPath path contents).directory ++
    [(ofPath path contents).name] = (pathParts (stripped path)).map String.ofList := by
  have present : (pathParts (stripped path)).map String.ofList ≠ [] := by
    rw [ne_eq, List.map_eq_nil_iff]
    exact pathParts_ne_nil _
  rw [stripped] at present ⊢
  simp only [ofPath, List.getLastD_eq_getLast?, List.getLast?_eq_some_getLast present, Option.getD_some]
  exact List.dropLast_append_getLast present

theorem slashFree_ofPath (path : String) (contents : Bytes) :
    SlashFree ((ofPath path contents).directory ++ [(ofPath path contents).name]) := by
  rw [parts_ofPath]
  intro name member
  obtain ⟨part, found, rfl⟩ := List.mem_map.mp member
  rw [String.toList_ofList]
  exact slash_notMem_pathParts found

theorem joined_ofPath (path : String) (contents : Bytes) :
    joined ((ofPath path contents).directory ++ [(ofPath path contents).name]) = listedPath path := by
  rw [← String.toList_inj, parts_ofPath, toList_joined, List.flatMap_map, toList_listedPath]
  simp only [String.toList_ofList]
  exact flatMap_pathParts _

theorem length_directory (path : String) (contents : Bytes) :
    (ofPath path contents).directory.length = (stripped path).count '/' := by
  have parts := congrArg List.length (parts_ofPath path contents)
  rw [List.length_append, List.length_map, length_pathParts] at parts
  simpa using parts

theorem slashFree_directory (path : String) (contents : Bytes) : SlashFree (ofPath path contents).directory :=
  fun name member => slashFree_ofPath path contents name (List.mem_append_left _ member)

/-- The directories of a file are the parts of its path that end before a slash. -/
theorem exists_prefix_iff {directory : String} : (∃ names ≠ [], names <+: (ofPath path contents).directory ∧
      directory = joined names) ↔ directory ≠ "" ∧ ∃ rest, listedPath path = directory ++ "/" ++ rest := by
  have parts := parts_ofPath path contents
  constructor
  · rintro ⟨names, present, ⟨more, whole⟩, rfl⟩
    constructor
    · intro empty
      obtain ⟨name, names, rfl⟩ := List.exists_cons_of_ne_nil present
      have text := congrArg String.toList empty
      rw [toList_joined] at text
      cases text
    · -- behind the leading directories come the others, or the name
      obtain ⟨next, rest, tail⟩ := List.exists_cons_of_ne_nil
        (show more ++ [(ofPath path contents).name] ≠ [] by simp)
      refine ⟨next ++ joined rest, ?_⟩
      rw [← joined_ofPath path contents, ← whole, List.append_assoc, tail]
      simp [joined, String.join_append, String.join_cons, String.append_assoc]
  · rintro ⟨present, rest, whole⟩
    have text : '/' :: stripped path = directory.toList ++ '/' :: rest.toList := by
      rw [← toList_listedPath, whole]
      simp
    obtain ⟨c, front, split⟩ := List.exists_cons_of_ne_nil (show directory.toList ≠ [] by
      rwa [ne_eq, String.toList_eq_nil_iff])
    rw [split, List.cons_append, List.cons.injEq] at text
    obtain ⟨rfl, text⟩ := text
    rw [text, pathParts_append, List.map_append] at parts
    have behind : (pathParts rest.toList).map String.ofList ≠ [] := by
      rw [ne_eq, List.map_eq_nil_iff]
      exact pathParts_ne_nil _
    refine ⟨(pathParts front).map String.ofList, ?_, ?_, ?_⟩
    · rw [ne_eq, List.map_eq_nil_iff]
      exact pathParts_ne_nil _
    · rw [← List.dropLast_append_getLast behind, ← List.append_assoc] at parts
      obtain ⟨same, -⟩ := List.append_inj' parts rfl
      exact ⟨_, same.symm⟩
    · rw [← String.toList_inj, split, toList_joined, List.flatMap_map]
      simp only [String.toList_ofList]
      exact (flatMap_pathParts front).symm

theorem folder_eq (path : String) (contents : Bytes) :
    folder path = joined (ofPath path contents).directory ++ "/" := by
  have clean : '/' ∉ (ofPath path contents).name.toList :=
    slashFree_ofPath path contents _ (List.mem_append_right _ (.head _))
  have text : (listedPath path).toList =
      ((joined (ofPath path contents).directory).toList ++ ['/']) ++ (ofPath path contents).name.toList := by
    rw [← joined_ofPath path contents, toList_joined, List.flatMap_append, ← toList_joined]
    simp
  rw [folder, ← String.toList_inj, String.toList_ofList, text]
  -- the name goes, and the slash in front of it stays
  have dropped : ∀ (front name : List Char), '/' ∉ name →
      (front ++ ['/'] ++ name).rdropWhile (· != '/') = front ++ ['/'] := by
    intro front name clean
    induction name using List.reverseRecOn with
    | nil => rw [List.append_nil, List.rdropWhile_concat_neg _ _ _ (by simp)]
    | append_singleton name c inductionHypothesis =>
      simp only [List.mem_append, List.mem_singleton, not_or] at clean
      rw [← List.append_assoc, List.rdropWhile_concat_pos _ _ _ (by simpa using Ne.symm clean.2)]
      exact inductionHypothesis clean.1
  rw [dropped _ _ clean]
  simp

theorem folder_eq_iff {other : String} {otherContents : Bytes} : folder path = folder other ↔
    (ofPath path contents).directory = (ofPath other otherContents).directory := by
  rw [folder_eq path contents, folder_eq other otherContents]
  constructor
  · intro same
    have texts := congrArg String.toList same
    simp only [String.toList_append] at texts
    have joint := String.toList_inj.mp (List.append_inj' texts rfl).1
    exact joined_injective (slashFree_directory _ _) (slashFree_directory _ _) joint
  · rintro same
    rw [same]

end RomSource

end SealedContent
