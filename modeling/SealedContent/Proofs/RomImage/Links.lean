import Mathlib.Data.Fintype.Card
import Mathlib.Data.Set.Finite.Basic
import Mathlib.Logic.Relation
import SealedContent.Archive.RomImage.Tree
import SealedContent.Proofs.Windows

/-! # The links of a directory tree

What the tables of an image describe, read off their fields alone. Entries hold links to other entries.
Following links from the root reaches some entries; in `RomTables.WellLinked` tables one link leads to each of
them, so they form a tree.

`RomTables.Visits` is the depth-first order in which links lead to entries, and a `RomTables.Tour` is such an
order for the links of the root in which nothing comes twice. Tables are well linked exactly when they have a
tour: `wellLinked_iff`.
-/

namespace SealedContent

open Relation (ReflTransGen TransGen)

/-- An entry of one of the two tables. -/
inductive RomEntry where
  | directory (offset : Nat)
  | file (offset : Nat)
deriving DecidableEq

/-- A link of the entry at an offset: a directory's first directory or file, or what stands behind an entry. -/
inductive RomLink where
  | firstDirectory (offset : Nat)
  | firstFile (offset : Nat)
  | nextDirectory (offset : Nat)
  | nextFile (offset : Nat)
deriving DecidableEq

/-- The entry that holds a link. -/
def RomLink.holder : RomLink → RomEntry
  | firstDirectory offset | firstFile offset | nextDirectory offset => .directory offset
  | nextFile offset => .file offset

/-- The link of an entry to the one behind it. -/
def RomEntry.next : RomEntry → RomLink
  | directory offset => .nextDirectory offset
  | file offset => .nextFile offset

/-- A link in a list of the directory with the given names. -/
structure RomCursor where
  link : RomLink
  names : List String

/-- An entry and the names from the root down to it. -/
abbrev RomVisit := RomEntry × List String

namespace RomTables

variable (tables : RomTables)

/-- The entry at an offset, unless the offset ends a list. -/
def entryAt? (entry : Nat → RomEntry) (offset : Nat) : Option RomEntry :=
  if offset = listEnd then none else some (entry offset)

/-- Where a link leads. -/
def target? : RomLink → Option RomEntry
  | .firstDirectory offset => entryAt? .directory (tables.directories.fieldAt (offset + 0x8) 4)
  | .firstFile offset => entryAt? .file (tables.directories.fieldAt (offset + 0xC) 4)
  | .nextDirectory offset => entryAt? .directory (tables.directories.fieldAt (offset + 0x4) 4)
  | .nextFile offset => entryAt? .file (tables.files.fieldAt (offset + 0x4) 4)

/-- An entry below the root lies in its table together with its name. -/
def Holds : RomEntry → Prop
  | .directory offset =>
    offset + directoryEntrySize + tables.directories.fieldAt (offset + 0x14) 4 ≤ tables.directories.length
  | .file offset => offset + fileEntrySize + tables.files.fieldAt (offset + 0x1C) 4 ≤ tables.files.length

def nameOf : RomEntry → String
  | .directory offset => Utf8.decodeLossy
    (tables.directories.window (offset + directoryEntrySize) (tables.directories.fieldAt (offset + 0x14) 4))
  | .file offset => Utf8.decodeLossy
    (tables.files.window (offset + fileEntrySize) (tables.files.fieldAt (offset + 0x1C) 4))

/-- The links to the files and to the directories of a directory. -/
def linksBelow (offset : Nat) (names : List String) : List RomCursor :=
  [⟨.firstFile offset, names⟩, ⟨.firstDirectory offset, names⟩]

/-- The links to what an entry holds that stands in the directory with the given names. -/
def heldBy (entry : RomEntry) (names : List String) : List RomCursor :=
  match entry with
  | .directory offset => linksBelow offset (names ++ [tables.nameOf entry])
  | .file _ => []

def linksOf (entry : RomEntry) (names : List String) : List RomCursor :=
  tables.heldBy entry names ++ [⟨entry.next, names⟩]

/-- After a link come those of the entry it leads to. -/
def Leads (cursor next : RomCursor) : Prop :=
  ∃ entry, tables.target? cursor.link = some entry ∧ next ∈ tables.linksOf entry cursor.names

/-- The links that are followed from the root, whose own siblings are left alone. -/
def Followed (cursor : RomCursor) : Prop :=
  ∃ start ∈ linksBelow 0 [], ReflTransGen tables.Leads start cursor

/-- The entries below the root that are reached, with the names from the root down. -/
def Reaches (entry : RomEntry) (names : List String) : Prop :=
  ∃ cursor, tables.Followed cursor ∧ tables.target? cursor.link = some entry ∧
    names = cursor.names ++ [tables.nameOf entry]

/-- Following links from the root never leaves the tables, never reaches an entry a second time and never
    nests too deep. -/
structure WellLinked : Prop where
  root : 0x10 ≤ tables.directories.length
  inside : ∀ {cursor entry}, tables.Followed cursor → tables.target? cursor.link = some entry → tables.Holds entry
  once : ∀ {first second entry}, tables.Followed first → tables.Followed second →
    tables.target? first.link = some entry → tables.target? second.link = some entry → first.link = second.link
  rootOnce : ∀ {cursor}, tables.Followed cursor → tables.target? cursor.link ≠ some (.directory 0)
  shallow : ∀ {offset names}, tables.Followed ⟨.firstDirectory offset, names⟩ → names.length = maxDepth →
    tables.target? (.firstDirectory offset) = none

/-- What some links lead to in depth-first order: behind an entry come what it holds, its files before its
    directories, then the entries behind it in its list. -/
inductive Visits : List RomCursor → List RomVisit → Prop
  | done : Visits [] []
  | skip {cursor rest visits} : tables.target? cursor.link = none → Visits rest visits → Visits (cursor :: rest) visits
  | visit {cursor rest visits entry} : tables.target? cursor.link = some entry → tables.Holds entry →
      Visits (tables.linksOf entry cursor.names ++ rest) visits →
      Visits (cursor :: rest) ((entry, cursor.names ++ [tables.nameOf entry]) :: visits)

/-- The order of everything below the root, in which no entry comes twice and no directory is too deep. -/
structure Tour (visits : List RomVisit) : Prop where
  root : 0x10 ≤ tables.directories.length
  order : tables.Visits (linksBelow 0 []) visits
  once : (visits.map Prod.fst).Nodup
  rootOnce : .directory 0 ∉ visits.map Prod.fst
  shallow : ∀ {offset names}, (.directory offset, names) ∈ visits → names.length ≤ maxDepth

variable {tables} {cursor next first second start : RomCursor} {entry : RomEntry} {names others path : List String}
  {pending rest : List RomCursor} {visits : List RomVisit}

/-! ## Links of entries -/

theorem mem_linksBelow {offset : Nat} : cursor ∈ linksBelow offset names ↔
    cursor = ⟨.firstFile offset, names⟩ ∨ cursor = ⟨.firstDirectory offset, names⟩ := by
  simp [linksBelow]

theorem holder_of_mem_linksBelow {offset : Nat} (member : cursor ∈ linksBelow offset names) :
    cursor.link.holder = .directory offset := by
  obtain rfl | rfl := mem_linksBelow.mp member <;> rfl

theorem mem_linksOf : next ∈ tables.linksOf entry names ↔ next = ⟨entry.next, names⟩ ∨
    ∃ offset, entry = .directory offset ∧ next ∈ linksBelow offset (names ++ [tables.nameOf entry]) := by
  cases entry <;> simp [linksOf, heldBy, or_comm]

theorem holder_of_mem_linksOf (member : next ∈ tables.linksOf entry names) : next.link.holder = entry := by
  obtain rfl | ⟨offset, rfl, below⟩ := mem_linksOf.mp member
  · cases entry <;> rfl
  · exact holder_of_mem_linksBelow below

/-- The names in front of a link follow from the link and the names behind it. -/
theorem linksOf_names (member : next ∈ tables.linksOf entry names) (again : next ∈ tables.linksOf entry others) :
    names = others := by
  cases entry <;> simp only [mem_linksOf, mem_linksBelow, RomEntry.next, RomEntry.directory.injEq, reduceCtorEq,
    exists_eq_left', false_and, exists_false, or_false] at member again
  · obtain rfl | rfl | rfl := member <;> simpa using again
  · subst member
    simpa using again

theorem linksOf_unique (member : first ∈ tables.linksOf entry names) (again : second ∈ tables.linksOf entry names)
    (same : first.link = second.link) : first = second := by
  cases entry <;> simp only [mem_linksOf, mem_linksBelow, RomEntry.next, RomEntry.directory.injEq, reduceCtorEq,
    exists_eq_left', false_and, exists_false, or_false] at member again
  · obtain rfl | rfl | rfl := member <;> obtain rfl | rfl | rfl := again <;> first | rfl | cases same
  · rw [member, again]

theorem nodup_linksOf (tables : RomTables) (entry : RomEntry) (names : List String) :
    (tables.linksOf entry names).Nodup := by
  cases entry <;> simp [linksOf, heldBy, linksBelow, RomEntry.next]

theorem target?_of_leads (leads : tables.Leads cursor next) :
    tables.target? cursor.link = some next.link.holder := by
  obtain ⟨entry, found, member⟩ := leads
  rw [found, holder_of_mem_linksOf member]

theorem mem_linksOf_of_leads (leads : tables.Leads cursor next) :
    next ∈ tables.linksOf next.link.holder cursor.names := by
  obtain ⟨entry, -, member⟩ := leads
  rwa [holder_of_mem_linksOf member]

/-! ## Orders of visits -/

/-- Nothing follows from a link that ends its list. -/
theorem follows_of_none (ends : tables.target? cursor.link = none) (leads : tables.target? next.link = some entry)
    (follows : ∃ start ∈ cursor :: rest, ReflTransGen tables.Leads start next) :
    ∃ start ∈ rest, ReflTransGen tables.Leads start next := by
  obtain ⟨start, member, follows⟩ := follows
  obtain rfl | member := List.mem_cons.mp member
  · obtain rfl | ⟨_, step, -⟩ := follows.cases_head
    · cases ends.symm.trans leads
    · cases ends.symm.trans (target?_of_leads step)
  · exact ⟨start, member, follows⟩

/-- What follows from the first of some links are the link itself and what follows from the entry behind it. -/
theorem follows_cons (found : tables.target? cursor.link = some entry) :
    (∃ start ∈ cursor :: rest, ReflTransGen tables.Leads start next) ↔ next = cursor ∨
      ∃ start ∈ tables.linksOf entry cursor.names ++ rest, ReflTransGen tables.Leads start next := by
  simp only [List.exists_mem_cons_iff, List.mem_append]
  constructor
  · rintro (follows | ⟨start, member, follows⟩)
    · obtain rfl | ⟨first, ⟨other, same, member⟩, follows⟩ := follows.cases_head
      · exact .inl rfl
      · cases found.symm.trans same
        exact .inr ⟨first, .inl member, follows⟩
    · exact .inr ⟨start, .inr member, follows⟩
  · rintro (rfl | ⟨start, member | member, follows⟩)
    · exact .inl .refl
    · exact .inl (follows.head ⟨entry, found, member⟩)
    · exact .inr ⟨start, member, follows⟩

/-- The entries in an order are those to which the links lead that follow. -/
theorem Visits.mem_iff (order : tables.Visits pending visits) : (entry, path) ∈ visits ↔
    ∃ cursor, (∃ start ∈ pending, ReflTransGen tables.Leads start cursor) ∧
      tables.target? cursor.link = some entry ∧ path = cursor.names ++ [tables.nameOf entry] := by
  induction order with
  | done => simp
  | @skip cursor rest visits ends _ inductionHypothesis =>
    rw [inductionHypothesis]
    refine exists_congr fun next => and_congr_left ?_
    rintro ⟨leads, -⟩
    exact ⟨fun ⟨start, member, follows⟩ => ⟨start, .tail _ member, follows⟩, follows_of_none ends leads⟩
  | @visit cursor rest visits head found _ _ inductionHypothesis =>
    rw [List.mem_cons, inductionHypothesis]
    simp only [follows_cons found, or_and_right, exists_or, exists_eq_left]
    refine or_congr ⟨?_, ?_⟩ Iff.rfl
    · rintro ⟨⟩
      exact ⟨found, rfl⟩
    · rintro ⟨same, rfl⟩
      cases found.symm.trans same
      rfl

theorem Visits.mem_entries_iff (order : tables.Visits pending visits) : entry ∈ visits.map Prod.fst ↔
    ∃ cursor, (∃ start ∈ pending, ReflTransGen tables.Leads start cursor) ∧
      tables.target? cursor.link = some entry := by
  constructor
  · intro member
    obtain ⟨⟨head, path⟩, member, same⟩ := List.mem_map.mp member
    obtain ⟨next, follows, leads, -⟩ := order.mem_iff.mp member
    exact ⟨next, follows, same ▸ leads⟩
  · rintro ⟨next, follows, leads⟩
    exact List.mem_map.mpr ⟨_, order.mem_iff.mpr ⟨next, follows, leads, rfl⟩, rfl⟩

theorem Visits.holds (order : tables.Visits pending visits) : ∀ visit ∈ visits, tables.Holds visit.1 := by
  induction order with
  | done => exact fun visit member => absurd member List.not_mem_nil
  | skip _ _ inductionHypothesis => exact inductionHypothesis
  | visit _ holds _ inductionHypothesis => exact List.forall_mem_cons.mpr ⟨holds, inductionHypothesis⟩

/-- Where the order mentions no entry twice, one link leads to each. -/
theorem Visits.unique (order : tables.Visits pending visits) (distinct : (visits.map Prod.fst).Nodup)
    (follows : ∃ start ∈ pending, ReflTransGen tables.Leads start first)
    (again : ∃ start ∈ pending, ReflTransGen tables.Leads start second)
    (leads : tables.target? first.link = some entry) (same : tables.target? second.link = some entry) :
    first = second := by
  induction order with
  | done =>
    obtain ⟨_, member, -⟩ := follows
    exact absurd member List.not_mem_nil
  | @skip cursor rest visits ends _ inductionHypothesis =>
    exact inductionHypothesis distinct (follows_of_none ends leads follows) (follows_of_none ends same again)
  | @visit cursor rest visits head found _ order inductionHypothesis =>
    rw [List.map_cons, List.nodup_cons] at distinct
    obtain ⟨fresh, distinct⟩ := distinct
    obtain rfl | follows := (follows_cons found).mp follows <;> obtain rfl | again := (follows_cons found).mp again
    · rfl
    · cases found.symm.trans leads
      exact absurd (order.mem_entries_iff.mpr ⟨_, again, same⟩) fresh
    · cases found.symm.trans same
      exact absurd (order.mem_entries_iff.mpr ⟨_, follows, leads⟩) fresh
    · exact inductionHypothesis distinct follows again

theorem Visits.append {after : List RomVisit} (order : tables.Visits pending visits)
    (behind : tables.Visits rest after) : tables.Visits (pending ++ rest) (visits ++ after) := by
  induction order with
  | done => exact behind
  | skip ends _ inductionHypothesis => exact .skip ends inductionHypothesis
  | visit found holds _ inductionHypothesis =>
    rw [List.append_assoc] at inductionHypothesis
    exact .visit found holds inductionHypothesis

theorem Visits.split (order : tables.Visits (pending ++ rest) visits) : ∃ before after,
    tables.Visits pending before ∧ tables.Visits rest after ∧ visits = before ++ after := by
  generalize together : pending ++ rest = all at order
  induction order generalizing pending with
  | done =>
    obtain ⟨rfl, rfl⟩ := List.append_eq_nil_iff.mp together
    exact ⟨[], [], .done, .done, rfl⟩
  | @skip cursor more visits ends order inductionHypothesis =>
    cases pending with
    | nil =>
      cases together
      exact ⟨[], _, .done, .skip ends order, rfl⟩
    | cons head pending =>
      cases together
      obtain ⟨before, after, first, second, rfl⟩ := inductionHypothesis rfl
      exact ⟨before, after, .skip ends first, second, rfl⟩
  | @visit cursor more visits entry found holds order inductionHypothesis =>
    cases pending with
    | nil =>
      cases together
      exact ⟨[], _, .done, .visit found holds order, rfl⟩
    | cons head pending =>
      cases together
      obtain ⟨before, after, first, second, rfl⟩ := inductionHypothesis (List.append_assoc _ _ _)
      exact ⟨_ :: before, after, .visit found holds first, second, rfl⟩

/-! ## Well linked tables -/

theorem Followed.step (followed : tables.Followed cursor) (leads : tables.Leads cursor next) :
    tables.Followed next := by
  obtain ⟨start, root, follows⟩ := followed
  exact ⟨start, root, follows.tail leads⟩

theorem Followed.trans (followed : tables.Followed cursor) (follows : ReflTransGen tables.Leads cursor next) :
    tables.Followed next := by
  obtain ⟨start, root, first⟩ := followed
  exact ⟨start, root, first.trans follows⟩

theorem Followed.cases_tail (followed : tables.Followed cursor) :
    cursor ∈ linksBelow 0 [] ∨ ∃ last, tables.Followed last ∧ tables.Leads last cursor := by
  obtain ⟨start, root, follows⟩ := followed
  obtain rfl | ⟨last, follows, step⟩ := follows.cases_tail
  · exact .inl root
  · exact .inr ⟨last, ⟨start, root, follows⟩, step⟩

namespace WellLinked

variable (wellLinked : tables.WellLinked)
include wellLinked

/-- No link leads back to the root, so nothing comes in front of its links. -/
theorem not_leads_root (root : next.link.holder = .directory 0) (followed : tables.Followed cursor) :
    ¬ tables.Leads cursor next := fun leads =>
  wellLinked.rootOnce followed (root ▸ target?_of_leads leads)

theorem last_unique (followed : tables.Followed first) (again : tables.Followed second)
    (leads : tables.Leads first next) (same : tables.Leads second next) : first = second := by
  have link := wellLinked.once followed again (target?_of_leads leads) (target?_of_leads same)
  have names := linksOf_names (mem_linksOf_of_leads leads) (mem_linksOf_of_leads same)
  obtain ⟨firstLink, firstNames⟩ := first
  cases link
  cases names
  rfl

/-- A link is followed in one directory only. -/
theorem cursor_unique (followed : tables.Followed first) (again : tables.Followed second)
    (same : first.link = second.link) : first = second := by
  obtain ⟨start, root, follows⟩ := followed
  induction follows generalizing second with
  | refl =>
    obtain other | ⟨last, followed, leads⟩ := again.cases_tail
    · obtain rfl | rfl := mem_linksBelow.mp root <;> obtain rfl | rfl := mem_linksBelow.mp other <;>
        first | rfl | cases same
    · exact absurd leads (wellLinked.not_leads_root (same ▸ holder_of_mem_linksBelow root) followed)
  | @tail before first follows leads inductionHypothesis =>
    obtain other | ⟨last, followed, step⟩ := again.cases_tail
    · exact absurd leads
        (wellLinked.not_leads_root (same.symm ▸ holder_of_mem_linksBelow other) ⟨start, root, follows⟩)
    · have link := wellLinked.once ⟨start, root, follows⟩ followed (target?_of_leads leads)
        (same ▸ target?_of_leads step)
      obtain rfl := inductionHypothesis followed link
      have member := mem_linksOf_of_leads step
      rw [← same] at member
      exact linksOf_unique (mem_linksOf_of_leads leads) member same

theorem acyclic (followed : tables.Followed cursor) : ¬ TransGen tables.Leads cursor cursor := by
  obtain ⟨start, root, follows⟩ := followed
  induction follows with
  | refl =>
    intro cycle
    obtain ⟨last, follows, leads⟩ := TransGen.tail'_iff.mp cycle
    exact wellLinked.not_leads_root (holder_of_mem_linksBelow root) ⟨start, root, follows⟩ leads
  | @tail before cursor follows leads inductionHypothesis =>
    intro cycle
    obtain ⟨last, back, step⟩ := TransGen.tail'_iff.mp cycle
    have followed : tables.Followed before := ⟨start, root, follows⟩
    obtain rfl := wellLinked.last_unique followed ((followed.step leads).trans back) leads step
    exact inductionHypothesis (TransGen.head' leads back)

/-- Of two links that come in front of a third, one comes in front of the other. -/
theorem comparable (followed : tables.Followed first) (again : tables.Followed second)
    (follows : ReflTransGen tables.Leads first next) (meets : ReflTransGen tables.Leads second next) :
    ReflTransGen tables.Leads first second ∨ ReflTransGen tables.Leads second first := by
  induction follows with
  | refl => exact .inr meets
  | @tail before next follows leads inductionHypothesis =>
    obtain rfl | ⟨last, back, step⟩ := meets.cases_tail
    · exact .inl (follows.tail leads)
    · obtain rfl := wellLinked.last_unique (followed.trans follows) (again.trans back) leads step
      exact inductionHypothesis back

end WellLinked

/-- Nothing follows from both of two links. -/
def Apart (tables : RomTables) (first second : RomCursor) : Prop :=
  ∀ {cursor}, ReflTransGen tables.Leads first cursor → ¬ ReflTransGen tables.Leads second cursor

namespace WellLinked

variable (wellLinked : tables.WellLinked)
include wellLinked

/-- What follows from one link of an entry does not follow from another one. -/
theorem apart_of_leads (followed : tables.Followed cursor) (leads : tables.Leads cursor first)
    (other : tables.Leads cursor second) (distinct : first ≠ second) : tables.Apart first second := by
  have separate : ∀ {first second}, tables.Leads cursor first → tables.Leads cursor second → first ≠ second →
      ¬ ReflTransGen tables.Leads first second := by
    intro first second leads other distinct follows
    obtain rfl | ⟨last, follows, step⟩ := follows.cases_tail
    · exact distinct rfl
    · obtain rfl := wellLinked.last_unique followed ((followed.step leads).trans follows) other step
      exact wellLinked.acyclic followed (TransGen.head' leads follows)
  intro next follows meets
  obtain below | below := wellLinked.comparable (followed.step leads) (followed.step other) follows meets
  · exact separate leads other distinct below
  · exact separate other leads distinct.symm below

theorem pairwise_apart (followed : tables.Followed cursor) (found : tables.target? cursor.link = some entry) :
    (tables.linksOf entry cursor.names).Pairwise tables.Apart :=
  List.Pairwise.imp_of_mem (fun first second distinct => wellLinked.apart_of_leads followed ⟨entry, found, first⟩
    ⟨entry, found, second⟩ distinct) (nodup_linksOf tables entry cursor.names)

theorem root_apart : (linksBelow 0 []).Pairwise tables.Apart := by
  have separate : ∀ {first second}, first ∈ linksBelow 0 [] → second ∈ linksBelow 0 [] → first ≠ second →
      ¬ ReflTransGen tables.Leads first second := by
    intro first second root other distinct follows
    obtain rfl | ⟨last, follows, step⟩ := follows.cases_tail
    · exact distinct rfl
    · exact wellLinked.not_leads_root (holder_of_mem_linksBelow other) ⟨first, root, follows⟩ step
  refine List.Pairwise.imp_of_mem ?_ (show (linksBelow 0 []).Nodup by simp [linksBelow])
  intro first second root other distinct cursor follows meets
  obtain below | below := wellLinked.comparable ⟨first, root, .refl⟩ ⟨second, other, .refl⟩ follows meets
  · exact separate root other distinct below
  · exact separate other root distinct.symm below

/-- The invariant of an order of visits: nothing follows from two pending links. -/
theorem nodup_visits (order : tables.Visits pending visits) (followed : ∀ cursor ∈ pending, tables.Followed cursor)
    (apart : pending.Pairwise tables.Apart) : (visits.map Prod.fst).Nodup := by
  induction order with
  | done => exact List.nodup_nil
  | skip _ _ inductionHypothesis =>
    exact inductionHypothesis (List.forall_mem_cons.mp followed).2 (List.pairwise_cons.mp apart).2
  | @visit cursor rest visits entry found _ order inductionHypothesis =>
    obtain ⟨first, others⟩ := List.forall_mem_cons.mp followed
    obtain ⟨aside, apart⟩ := List.pairwise_cons.mp apart
    have leads : ∀ next ∈ tables.linksOf entry cursor.names, tables.Leads cursor next :=
      fun next member => ⟨entry, found, member⟩
    rw [List.map_cons, List.nodup_cons]
    constructor
    · intro member
      obtain ⟨last, ⟨start, pends, follows⟩, same⟩ := order.mem_entries_iff.mp member
      have startFollowed : tables.Followed start := by
        obtain own | behind := List.mem_append.mp pends
        · exact first.step (leads start own)
        · exact others start behind
      obtain rfl := wellLinked.cursor_unique (startFollowed.trans follows) first
        (wellLinked.once (startFollowed.trans follows) first same found)
      obtain own | behind := List.mem_append.mp pends
      · exact wellLinked.acyclic first (TransGen.head' (leads start own) follows)
      · exact aside start behind .refl follows
    · refine inductionHypothesis (List.forall_mem_append.mpr ⟨fun next own => first.step (leads next own), others⟩) ?_
      refine List.pairwise_append.mpr ⟨wellLinked.pairwise_apart first found, apart, ?_⟩
      intro next own other behind last follows
      exact aside other behind (follows.head (leads next own))

theorem finite_followed : Finite {cursor // tables.Followed cursor} := by
  let below := {offset | offset < tables.directories.length}
  let links : Set RomLink := RomLink.firstFile '' below ∪ RomLink.firstDirectory '' below ∪
    RomLink.nextDirectory '' below ∪ RomLink.nextFile '' {offset | offset < tables.files.length}
  have finite : links.Finite := by
    have below : below.Finite := Set.finite_lt_nat _
    exact (((below.image _).union (below.image _)).union (below.image _)).union ((Set.finite_lt_nat _).image _)
  -- every link is held by an entry inside its table
  have held : ∀ cursor, tables.Followed cursor → cursor.link ∈ links := by
    rintro ⟨link, names⟩ followed
    have inside : tables.Holds link.holder ∨ link.holder = .directory 0 := by
      obtain root | ⟨last, followed, leads⟩ := followed.cases_tail
      · exact .inr (holder_of_mem_linksBelow root)
      · exact .inl (wellLinked.inside followed (target?_of_leads leads))
    have root := wellLinked.root
    cases link <;> simp only [RomLink.holder, Holds, directoryEntrySize, fileEntrySize, RomEntry.directory.injEq,
      reduceCtorEq, or_false] at inside <;> simp [links, below] <;> omega
  have := finite.to_subtype
  refine Finite.of_injective (fun cursor : {cursor // tables.Followed cursor} =>
    (⟨cursor.1.link, held cursor.1 cursor.2⟩ : links)) ?_
  intro first second same
  exact Subtype.ext (wellLinked.cursor_unique first.2 second.2 (congrArg Subtype.val same))

/-- Going on from link to link ends, so every link that is followed has an order of visits. -/
theorem exists_visits (followed : tables.Followed cursor) : ∃ visits, tables.Visits [cursor] visits := by
  let Behind := fun next cursor : {cursor // tables.Followed cursor} => TransGen tables.Leads cursor.1 next.1
  have := wellLinked.finite_followed
  have : IsTrans {cursor // tables.Followed cursor} Behind := ⟨fun _ _ _ first second => second.trans first⟩
  have : Std.Irrefl Behind := ⟨fun cursor => wellLinked.acyclic cursor.2⟩
  have ends : WellFounded Behind := Finite.wellFounded_of_trans_of_irrefl Behind
  let start : {cursor // tables.Followed cursor} := ⟨cursor, followed⟩
  change ∃ visits, tables.Visits [start.1] visits
  induction start using ends.induction with
  | _ cursor inductionHypothesis =>
  obtain ⟨cursor, followed⟩ := cursor
  cases found : tables.target? cursor.link with
  | none => exact ⟨[], .skip found .done⟩
  | some entry =>
    have each : ∀ pending, (∀ next ∈ pending, tables.Leads cursor next) → ∃ visits, tables.Visits pending visits := by
      intro pending leads
      induction pending with
      | nil => exact ⟨[], .done⟩
      | cons next rest restHypothesis =>
        obtain ⟨first, others⟩ := List.forall_mem_cons.mp leads
        obtain ⟨before, order⟩ := inductionHypothesis ⟨next, followed.step first⟩ (.single first)
        obtain ⟨after, behind⟩ := restHypothesis others
        exact ⟨before ++ after, order.append behind⟩
    obtain ⟨visits, order⟩ := each (tables.linksOf entry cursor.names) fun next member => ⟨entry, found, member⟩
    exact ⟨_, .visit found (wellLinked.inside followed found) (by rwa [List.append_nil])⟩

/-- A directory that holds a directory is less deep than the limit. -/
theorem depth_lt (followed : tables.Followed cursor) : cursor.names.length ≤ maxDepth ∧
    ∀ offset, tables.target? cursor.link = some (.directory offset) → cursor.names.length < maxDepth := by
  obtain ⟨start, root, follows⟩ := followed
  induction follows with
  | refl =>
    obtain rfl | rfl := mem_linksBelow.mp root <;> exact ⟨Nat.zero_le _, fun _ _ => by decide⟩
  | @tail before cursor follows leads inductionHypothesis =>
    obtain ⟨shallow, deeper⟩ := inductionHypothesis
    have followed : tables.Followed cursor := ⟨start, root, follows.tail leads⟩
    obtain ⟨entry, found, member⟩ := leads
    cases entry with
    | file offset =>
      obtain rfl : cursor = ⟨.nextFile offset, before.names⟩ := by simpa [mem_linksOf, RomEntry.next] using member
      refine ⟨shallow, fun offset leads => ?_⟩
      simp [target?, entryAt?] at leads
    | directory offset =>
      have deep := deeper offset found
      simp only [mem_linksOf, mem_linksBelow, RomEntry.directory.injEq, exists_eq_left'] at member
      obtain rfl | rfl | rfl := member
      · exact ⟨shallow, fun _ _ => deep⟩
      · simp only [List.length_append, List.length_singleton]
        refine ⟨deep, fun offset leads => ?_⟩
        simp [target?, entryAt?] at leads
      · simp only [List.length_append, List.length_singleton]
        refine ⟨deep, fun next leads => lt_of_le_of_ne deep fun full => ?_⟩
        rw [wellLinked.shallow followed (by simpa using full)] at leads
        cases leads

theorem tour (order : tables.Visits (linksBelow 0 []) visits) : tables.Tour visits where
  root := wellLinked.root
  order := order
  once := wellLinked.nodup_visits order (fun start root => ⟨start, root, .refl⟩) wellLinked.root_apart
  rootOnce member := by
    obtain ⟨cursor, followed, leads⟩ := order.mem_entries_iff.mp member
    exact wellLinked.rootOnce followed leads
  shallow member := by
    obtain ⟨cursor, followed, leads, rfl⟩ := order.mem_iff.mp member
    rw [List.length_append]
    exact (wellLinked.depth_lt followed).2 _ leads

end WellLinked

/-- Following links goes well exactly when everything below the root can be put in order. -/
theorem wellLinked_iff : tables.WellLinked ↔ ∃ visits, tables.Tour visits := by
  constructor
  · intro wellLinked
    obtain ⟨files, first⟩ := wellLinked.exists_visits ⟨⟨.firstFile 0, []⟩, .head _, .refl⟩
    obtain ⟨below, second⟩ := wellLinked.exists_visits ⟨⟨.firstDirectory 0, []⟩, .tail _ (.head _), .refl⟩
    exact ⟨files ++ below, wellLinked.tour (first.append second)⟩
  · rintro ⟨visits, root, order, once, rootOnce, shallow⟩
    refine ⟨root, ?_, ?_, ?_, ?_⟩
    · intro cursor entry followed leads
      exact order.holds _ (order.mem_iff.mpr ⟨cursor, followed, leads, rfl⟩)
    · intro first second entry followed again leads same
      exact congrArg RomCursor.link (order.unique once followed again leads same)
    · intro cursor followed leads
      exact rootOnce (order.mem_entries_iff.mpr ⟨cursor, followed, leads⟩)
    · intro offset names followed full
      by_contra found
      obtain ⟨entry, found⟩ := Option.ne_none_iff_exists'.mp found
      cases entry with
      | file offset => simp [target?, entryAt?] at found
      | directory below =>
        have deep := shallow (order.mem_iff.mpr ⟨_, followed, found, rfl⟩)
        rw [List.length_append, full] at deep
        exact absurd deep (Nat.not_succ_le_self _)

end RomTables

end SealedContent
