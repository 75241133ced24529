import SealedContent.Proofs.Aes.Positions
import SealedContent.Proofs.Storage.EntryFormat
import SealedContent.Proofs.Storage.TreeLayout

/-! # Tables of bucket trees

A tree is written as a root node, which lists the starts of its buckets, and one node for each bucket:
`BucketTree.image`. Some bytes of an image say nothing (`TableSlack`): the index field of each node, what stands in
a node behind its content, and reserved bytes of entries. A tree is read exactly from its images, however these
bytes are filled, and only if it keeps the rules of the format (`BucketTree.Conforms`): `BucketTree.decode_images`.
-/

namespace SealedContent

/-! ## Filled ranges -/

namespace Bytes

variable {bytes : Bytes} {offset : Nat}

/-- The bytes of a range, zeros behind the end of the string. -/
def filled (bytes : Bytes) (offset length : Nat) : Bytes :=
  (List.range length).map fun i => (bytes[offset + i]?).getD 0

theorem length_filled {length : Nat} : (bytes.filled offset length).length = length := by
  simp [filled]

theorem filled_add (bytes : Bytes) (offset size length : Nat) :
    bytes.filled offset (size + length) = bytes.filled offset size ++ bytes.filled (offset + size) length := by
  simp only [filled, List.range_add, List.map_append, List.map_map, Function.comp_def, Nat.add_assoc]

theorem filled_eq_window {length : Nat} (inside : offset + length ≤ bytes.length) :
    bytes.filled offset length = bytes.window offset length := by
  refine List.ext_getElem (by rw [length_filled, length_window inside]) fun i there within => ?_
  rw [length_filled] at there
  have same := @getElem?_window bytes offset _ _ there
  rw [List.getElem?_eq_getElem within] at same
  simp only [filled, List.getElem_map, List.getElem_range, ← same, Option.getD_some]

theorem flatten_eq_filled {pieces : List Bytes} {start size : Nat}
    (each : ∀ i (inside : i < pieces.length), pieces[i] = bytes.filled (start + i * size) size) :
    pieces.flatten = bytes.filled start (pieces.length * size) := by
  induction pieces generalizing start with
  | nil => simp [filled]
  | cons first rest inductionHypothesis =>
    have here : first = bytes.filled start size := by simpa using each 0 (Nat.succ_pos _)
    rw [List.flatten_cons, here, List.length_cons, Nat.succ_mul, Nat.add_comm _ size, filled_add]
    congr 1
    refine inductionHypothesis fun i inside => ?_
    have later := each (i + 1) (Nat.succ_lt_succ inside)
    rwa [List.getElem_cons_succ, Nat.succ_mul, Nat.add_comm (i * size), ← Nat.add_assoc] at later

theorem exists_prefix_filled (bytes : Bytes) (length : Nat) :
    ∃ trailing, bytes <+: bytes.filled 0 length ++ trailing := by
  by_cases short : bytes.length ≤ length
  · have whole : bytes.filled 0 bytes.length = bytes := by rw [filled_eq_window (by omega), window_all]
    refine ⟨[], bytes.filled (0 + bytes.length) (length - bytes.length), ?_⟩
    conv_rhs => rw [List.append_nil, ← Nat.add_sub_cancel' short, filled_add, whole]
  · refine ⟨bytes.drop length, [], ?_⟩
    rw [List.append_nil, filled_eq_window (by omega), window, List.drop_zero, List.take_append_drop]

end Bytes

/-! ## Images -/

/-- The bytes of an image that say nothing, by the number of a node, which is zero for the root, and by the numbers
    of a bucket and of an entry in it. -/
structure TableSlack where
  index : Nat → Bytes
  unused : Nat → Bytes
  reserved : Nat → Nat → Bytes

def TableSlack.node (slack : TableSlack) (number count last : Nat) (content : Bytes) : Bytes :=
  slack.index number ++ (LittleEndian.encode 4 count ++ (LittleEndian.encode 8 last ++
    (content ++ slack.unused number)))

namespace BucketTree

variable {E : Type} [BucketEntry E] [EntryFormat E]

/-- What the root node lists. -/
def firsts (buckets : List (Bucket E)) : List Bytes := buckets.map fun bucket => LittleEndian.encode 8 bucket.first

/-- What the node of a bucket lists. -/
def rows (reserved : Nat → Bytes) (entries : List E) : List Bytes :=
  entries.mapIdx fun j entry => EntryFormat.encode entry (reserved j)

def nodes (tree : BucketTree E) (slack : TableSlack) : List Bytes :=
  slack.node 0 tree.buckets.length tree.size (firsts tree.buckets).flatten :: tree.buckets.mapIdx fun i bucket =>
    slack.node (i + 1) bucket.entries.length bucket.last (rows (slack.reserved i) bucket.entries).flatten

/-- The root and the nodes of the buckets, one behind the other. -/
def image (tree : BucketTree E) (slack : TableSlack) : Bytes := (tree.nodes slack).flatten

/-- How much of a node says something behind its header. -/
def contentSize (tree : BucketTree E) : (number : Nat) → Nat
  | 0 => tree.buckets.length * 8
  | i + 1 => (tree.buckets[i]?.map fun bucket => bucket.entries.length).getD 0 * BucketEntry.size E

/-- Any bytes, as many as the image of a tree needs. -/
structure Slack (tree : BucketTree E) (slack : TableSlack) : Prop where
  index : ∀ number, (slack.index number).length = 4
  unused : ∀ number, (slack.unused number).length = nodeSize - (nodeHeaderSize + tree.contentSize number)
  reserved : ∀ i j, (slack.reserved i j).length = EntryFormat.reservedSize E

/-- The rules of the format: the tree is laid out in order, its buckets are as few as hold its entries, root and
    buckets fit their nodes, and all numbers fit their fields. Ends of ranges are signed. -/
structure Conforms (tree : BucketTree E) : Prop where
  arranged : tree.Arranged
  nonempty : tree.buckets ≠ []
  few : ∀ bucket ∈ tree.buckets, bucket.entries.length ≤ entriesPerNode E
  least : tree.buckets.length = (tree.entries.length + (entriesPerNode E - 1)) / entriesPerNode E
  fitting : tree.buckets.length ≤ bucketsPerRoot
  positive : tree.size < 0x8000000000000000
  small : ∀ entry ∈ tree.entries, EntryFormat.Fits entry

/-- A table reaches as far as the last entry of every bucket. -/
def ReachedBy (tree : BucketTree E) (table : Bytes) : Prop :=
  ∀ i (inside : i < tree.buckets.length), nodeSize * (i + 1) + nodeHeaderSize +
    tree.buckets[i].entries.length * BucketEntry.size E ≤ table.length

/-! ## Nodes -/

section

variable {tree : BucketTree E} {slack : TableSlack} {number count last : Nat} {content : Bytes}

theorem length_node (fits : tree.Slack slack) : (slack.node number count last content).length =
    nodeHeaderSize + content.length + (nodeSize - (nodeHeaderSize + tree.contentSize number)) := by
  simp only [TableSlack.node, List.length_append, LittleEndian.length_encode, fits.index, fits.unused, nodeHeaderSize]
  omega

theorem node_fields (fits : tree.Slack slack) (number count last : Nat) (content : Bytes) :
    (slack.node number count last content).fieldAt 4 4 = count % 256 ^ 4 ∧
      (slack.node number count last content).fieldAt 8 8 = last % 256 ^ 8 := by
  simp [TableSlack.node, Bytes.fieldAt_append_of_le, Bytes.fieldAt_encode, fits.index]

theorem node_piece (fits : tree.Slack slack) {pieces : List Bytes} {size : Nat}
    (whole : ∀ piece ∈ pieces, piece.length = size) {j : Nat} (inside : j < pieces.length) :
    (slack.node number count last pieces.flatten).window (nodeHeaderSize + j * size) size = pieces[j] := by
  have header : (slack.index number ++ (LittleEndian.encode 4 count ++ LittleEndian.encode 8 last)).length =
      nodeHeaderSize := by
    simp only [List.length_append, LittleEndian.length_encode, fits.index, nodeHeaderSize]
  -- the pieces lie between the header and the unused bytes
  have shape : slack.node number count last pieces.flatten = (slack.index number ++ (LittleEndian.encode 4 count ++
      LittleEndian.encode 8 last)) ++ (pieces.flatten ++ slack.unused number) := by
    simp only [TableSlack.node, List.append_assoc]
  have within : j * size + size ≤ pieces.flatten.length := by
    rw [length_flatten_pieces _ whole, ← Nat.succ_mul]
    exact Nat.mul_le_mul_right _ inside
  rw [shape, ← header, Bytes.window_append_right, Bytes.window_append_left within, Bytes.window_flatten whole j inside]

omit [BucketEntry E] [EntryFormat E] in
theorem length_of_mem_firsts {buckets : List (Bucket E)} : ∀ piece ∈ firsts buckets, piece.length = 8 := by
  intro piece member
  obtain ⟨bucket, -, rfl⟩ := List.mem_map.mp member
  exact LittleEndian.length_encode 8 bucket.first

theorem length_of_mem_rows {reserved : Nat → Bytes} (long : ∀ j, (reserved j).length = EntryFormat.reservedSize E)
    {entries : List E} : ∀ piece ∈ rows reserved entries, piece.length = BucketEntry.size E := by
  intro piece member
  obtain ⟨j, -, rfl⟩ := List.mem_mapIdx.mp member
  exact EntryFormat.length_encode _ (long j)

omit [EntryFormat E] in
theorem length_firsts : (firsts tree.buckets).flatten.length = tree.contentSize 0 := by
  rw [length_flatten_pieces _ length_of_mem_firsts, firsts, List.length_map, contentSize]

omit [EntryFormat E] in
theorem contentSize_succ {i : Nat} (inside : i < tree.buckets.length) :
    tree.contentSize (i + 1) = tree.buckets[i].entries.length * BucketEntry.size E := by
  rw [contentSize, List.getElem?_eq_getElem inside]
  rfl

theorem length_rows (fits : tree.Slack slack) {i : Nat} (inside : i < tree.buckets.length) :
    (rows (slack.reserved i) tree.buckets[i].entries).flatten.length = tree.contentSize (i + 1) := by
  rw [length_flatten_pieces _ (length_of_mem_rows (fits.reserved i)), rows, List.length_mapIdx,
    contentSize_succ inside]

omit [EntryFormat E] in
/-- The content of a node fits it. -/
theorem contentSize_le (number : Nat) (fitting : tree.buckets.length ≤ bucketsPerRoot)
    (few : ∀ bucket ∈ tree.buckets, bucket.entries.length ≤ entriesPerNode E) :
    nodeHeaderSize + tree.contentSize number ≤ nodeSize := by
  have header : nodeHeaderSize ≤ nodeSize := by decide
  suffices tree.contentSize number ≤ nodeSize - nodeHeaderSize by omega
  cases number with
  | zero => exact Nat.le_trans (Nat.mul_le_mul_right 8 fitting) (Nat.div_mul_le_self _ _)
  | succ i =>
    refine Nat.le_trans (Nat.mul_le_mul_right _ ?_) (Nat.div_mul_le_self _ (BucketEntry.size E))
    cases there : tree.buckets[i]? with
    | none => exact Nat.zero_le _
    | some bucket => exact few bucket (List.mem_of_getElem? there)

theorem Conforms.length_of_mem_nodes (conforms : tree.Conforms) (fits : tree.Slack slack) :
    ∀ node ∈ tree.nodes slack, node.length = nodeSize := by
  have room := fun number => contentSize_le number conforms.fitting conforms.few
  intro node member
  obtain rfl | member := List.mem_cons.mp member
  · have := room 0
    rw [length_node fits, length_firsts]
    omega
  · obtain ⟨i, inside, rfl⟩ := List.mem_mapIdx.mp member
    have := room (i + 1)
    rw [length_node fits, length_rows fits inside]
    omega

/-! ## From images to trees -/

variable {table trailing : Bytes}

theorem Conforms.length_image (conforms : tree.Conforms) (fits : tree.Slack slack) :
    (tree.image slack).length = nodeSize * (tree.buckets.length + 1) := by
  rw [image, length_flatten_pieces _ (conforms.length_of_mem_nodes fits), nodes, List.length_cons, List.length_mapIdx,
    Nat.mul_comm]

/-- A range of a table that lies in one node. -/
theorem Conforms.window_node (conforms : tree.Conforms) (fits : tree.Slack slack)
    (starts : table <+: tree.image slack ++ trailing) {node : Bytes} (there : (tree.nodes slack)[number]? = some node)
    {offset length : Nat} (room : nodeSize * number + offset + length ≤ table.length)
    (within : offset + length ≤ nodeSize) :
    table.window (nodeSize * number + offset) length = node.window offset length := by
  obtain ⟨inside, rfl⟩ := List.getElem?_eq_some_iff.mp there
  have whole := conforms.length_of_mem_nodes fits
  have reach : nodeSize * number + offset + length ≤ (tree.image slack).length := by
    have below := Nat.mul_le_mul_left nodeSize (Nat.succ_le_of_lt inside)
    rw [image, length_flatten_pieces _ whole, Nat.mul_comm _ nodeSize]
    rw [Nat.mul_succ] at below
    omega
  rw [List.prefix_iff_eq_take.mp starts, Bytes.window_take room, Bytes.window_append_left reach,
    ← Bytes.window_window within, Nat.mul_comm nodeSize, image, Bytes.window_flatten whole number inside]

theorem Conforms.last_le (conforms : tree.Conforms) : ∀ bucket ∈ tree.buckets, bucket.last ≤ tree.size :=
  fun bucket member => ((checkBuckets_ordered (wellLaid_iff.mpr conforms.arranged).buckets).2 bucket member).2

/-- A table states what the nodes of an image say. -/
theorem Conforms.stated (conforms : tree.Conforms) (fits : tree.Slack slack)
    (starts : table <+: tree.image slack ++ trailing) {pieces : List Bytes}
    (there : (tree.nodes slack)[number]? = some (slack.node number count last pieces.flatten))
    {size : Nat} (whole : ∀ piece ∈ pieces, piece.length = size)
    (room : nodeSize * number + nodeHeaderSize + pieces.length * size ≤ table.length)
    (within : nodeHeaderSize + pieces.length * size ≤ nodeSize) :
    table.fieldAt (nodeSize * number + 4) 4 = count % 256 ^ 4 ∧
    table.fieldAt (nodeSize * number + 8) 8 = last % 256 ^ 8 ∧
    ∀ j (inside : j < pieces.length),
      table.window (nodeSize * number + (nodeHeaderSize + j * size)) size = pieces[j] := by
  obtain ⟨counted, ended⟩ := node_fields fits number count last pieces.flatten
  have header : nodeHeaderSize = 8 + 8 := rfl
  refine ⟨?_, ?_, fun j inside => ?_⟩
  · rw [Bytes.fieldAt, conforms.window_node fits starts there (by omega) (by decide), ← Bytes.fieldAt, counted]
  · rw [Bytes.fieldAt, conforms.window_node fits starts there (by omega) (by decide), ← Bytes.fieldAt, ended]
  · have reach : (j + 1) * size ≤ pieces.length * size := Nat.mul_le_mul_right _ inside
    rw [Nat.succ_mul] at reach
    rw [conforms.window_node fits starts there (by omega) (by omega), node_piece fits whole inside]

theorem Conforms.writtenBucket (conforms : tree.Conforms) (fits : tree.Slack slack) (reached : tree.ReachedBy table)
    (starts : table <+: tree.image slack ++ trailing) {i : Nat} (inside : i < tree.buckets.length)
    (first : table.fieldAt (nodeHeaderSize + i * 8) 8 = tree.buckets[i].first) :
    WrittenBucket table i tree.buckets[i] := by
  have member := List.getElem_mem inside
  have few := conforms.few _ member
  have least := entriesPerNode_le E
  have last := conforms.last_le _ member
  have positive := conforms.positive
  have within := contentSize_le (i + 1) conforms.fitting conforms.few
  rw [contentSize_succ inside] at within
  have long : (rows (slack.reserved i) tree.buckets[i].entries).length = tree.buckets[i].entries.length :=
    List.length_mapIdx
  have there : (tree.nodes slack)[i + 1]? = some (slack.node (i + 1) tree.buckets[i].entries.length
      tree.buckets[i].last (rows (slack.reserved i) tree.buckets[i].entries).flatten) := by
    simp [nodes, inside]
  obtain ⟨counted, ended, entry⟩ := conforms.stated fits starts there (length_of_mem_rows (fits.reserved i))
    (by rw [long]; exact reached i inside) (by rwa [long])
  -- the numbers fit their fields, so that nothing of them was cut off
  constructor
  case first => exact first
  case count => rw [counted, Nat.mod_eq_of_lt (by omega)]
  case last => rw [ended, Nat.mod_eq_of_lt (by omega)]
  case fitting => exact few
  case room => exact reached i inside
  case entry =>
    intro j among
    have small := conforms.small _ (List.mem_flatMap.mpr ⟨_, member, List.getElem_mem among⟩)
    rw [Nat.add_assoc, entry j (by rwa [long])]
    simp only [rows, List.getElem_mapIdx]
    exact EntryFormat.decode_encode small (fits.reserved i j)

/-- There are entries, as there are buckets but no more than needed. -/
theorem Conforms.entries_pos (conforms : tree.Conforms) : 0 < tree.entries.length := by
  by_contra none
  have nonempty := List.length_pos_iff.mpr conforms.nonempty
  have least : tree.buckets.length = (entriesPerNode E - 1) / entriesPerNode E := by
    rw [conforms.least, Nat.eq_zero_of_not_pos none, Nat.zero_add]
  cases size : entriesPerNode E with
  | zero => rw [size, Nat.div_zero] at least; omega
  | succ few => rw [size, Nat.div_eq_of_lt (by omega)] at least; omega

/-- An image states its tree. -/
theorem Conforms.written (conforms : tree.Conforms) (fits : tree.Slack slack) (reached : tree.ReachedBy table)
    (starts : table <+: tree.image slack ++ trailing) : tree.WrittenIn table := by
  have positive := conforms.positive
  have fitting := conforms.fitting
  have within := contentSize_le 0 conforms.fitting conforms.few
  -- the node of the first bucket stands behind the root, so that the table reaches over the root
  have room : nodeSize ≤ table.length := by
    have first := reached 0 (List.length_pos_iff.mpr conforms.nonempty)
    omega
  have long : (firsts tree.buckets).length = tree.buckets.length := List.length_map _
  have there : (tree.nodes slack)[0]? =
      some (slack.node 0 tree.buckets.length tree.size (firsts tree.buckets).flatten) := rfl
  obtain ⟨listed, size, first⟩ := conforms.stated fits starts there length_of_mem_firsts
    (by rw [long]; simp only [contentSize] at within; omega) (by rwa [long])
  rw [Nat.mul_zero, Nat.zero_add] at listed size
  simp only [bucketsPerRoot, nodeSize, nodeHeaderSize] at fitting
  constructor
  case room => simp only [contentSize] at within; omega
  case listed => rwa [Nat.mod_eq_of_lt (by omega)] at listed
  case size => rwa [Nat.mod_eq_of_lt (by omega)] at size
  case positive => exact positive
  case least => exact conforms.least
  case fitting => exact conforms.fitting
  case buckets =>
    intro i inside
    refine conforms.writtenBucket fits reached starts inside ?_
    have found := first i (by rwa [long])
    have nonempty := conforms.arranged.nonempty _ (List.getElem_mem inside)
    have last := conforms.last_le _ (List.getElem_mem inside)
    rw [Nat.mul_zero, Nat.zero_add] at found
    simp only [Bytes.fieldAt, found, firsts, List.getElem_map, LittleEndian.decode_encode]
    exact Nat.mod_eq_of_lt (by omega)

/-! ## From tables to images -/

theorem WellLaid.conforms (laid : tree.WellLaid) (written : tree.WrittenIn table) (some : 0 < tree.entries.length) :
    tree.Conforms where
  arranged := laid.arranged
  nonempty none := by simp [entries, none] at some
  few bucket member := by
    obtain ⟨i, inside, rfl⟩ := List.getElem_of_mem member
    exact (written.buckets i inside).fitting
  least := written.least
  fitting := written.fitting
  positive := written.positive
  small entry member := by
    obtain ⟨bucket, there, among⟩ := List.mem_flatMap.mp member
    obtain ⟨i, inside, rfl⟩ := List.getElem_of_mem there
    obtain ⟨j, held, rfl⟩ := List.getElem_of_mem among
    have room := (written.buckets i inside).room
    have reach := Nat.mul_le_mul_right (BucketEntry.size E) (Nat.succ_le_of_lt held)
    rw [Nat.succ_mul] at reach
    rw [← (written.buckets i inside).entry j held]
    exact EntryFormat.fits_decode (Bytes.length_window (by omega))

/-- The bytes of a table that say nothing about a tree, zeros behind the end of the table. -/
def slackIn (tree : BucketTree E) (table : Bytes) : TableSlack where
  index number := table.filled (nodeSize * number) 4
  unused number := table.filled (nodeSize * number + 4 + 4 + 8 + tree.contentSize number)
    (nodeSize - (nodeHeaderSize + tree.contentSize number))
  reserved i j := EntryFormat.reserved E
    (table.filled (nodeSize * (i + 1) + nodeHeaderSize + j * BucketEntry.size E) (BucketEntry.size E))

theorem slackIn_slack (tree : BucketTree E) (table : Bytes) : tree.Slack (tree.slackIn table) where
  index _ := Bytes.length_filled
  unused _ := Bytes.length_filled
  reserved _ _ := EntryFormat.length_reserved Bytes.length_filled

/-- With what stands around its fields and its content a node is the range of the table that it was read from. -/
theorem node_slackIn (room : nodeSize * number + nodeHeaderSize ≤ table.length)
    (counted : table.fieldAt (nodeSize * number + 4) 4 = count)
    (ended : table.fieldAt (nodeSize * number + 8) 8 = last)
    (listed : content = table.filled (nodeSize * number + nodeHeaderSize) (tree.contentSize number))
    (within : nodeHeaderSize + tree.contentSize number ≤ nodeSize) :
    (tree.slackIn table).node number count last content = table.filled (nodeSize * number) nodeSize := by
  have header : nodeHeaderSize = 4 + 4 + 8 := rfl
  have size : 4 + (4 + (8 + (tree.contentSize number + (nodeSize - (nodeHeaderSize + tree.contentSize number))))) =
      nodeSize := by omega
  have parts := table.filled_add (nodeSize * number) 4
    (4 + (8 + (tree.contentSize number + (nodeSize - (nodeHeaderSize + tree.contentSize number)))))
  rw [size, Bytes.filled_add, Bytes.filled_add, Bytes.filled_add] at parts
  rw [parts, TableSlack.node, ← counted, ← ended, listed, Bytes.encode_fieldAt (by omega),
    Bytes.encode_fieldAt (by omega), ← Bytes.filled_eq_window (by omega), ← Bytes.filled_eq_window (by omega)]
  rfl

omit [EntryFormat E] in
theorem WrittenIn.firsts (written : tree.WrittenIn table) :
    (firsts tree.buckets).flatten = table.filled nodeHeaderSize (tree.contentSize 0) := by
  have room := written.room
  have long : (BucketTree.firsts tree.buckets).length = tree.buckets.length := List.length_map _
  rw [contentSize, ← long]
  refine Bytes.flatten_eq_filled fun i inside => ?_
  rw [long] at inside
  simp only [BucketTree.firsts, List.getElem_map]
  rw [← (written.buckets i inside).first, Bytes.encode_fieldAt (by omega), Bytes.filled_eq_window (by omega)]

theorem WrittenIn.rows (written : tree.WrittenIn table) {i : Nat} (inside : i < tree.buckets.length) :
    (rows ((tree.slackIn table).reserved i) tree.buckets[i].entries).flatten =
      table.filled (nodeSize * (i + 1) + nodeHeaderSize) (tree.contentSize (i + 1)) := by
  have room := (written.buckets i inside).room
  have long : (BucketTree.rows ((tree.slackIn table).reserved i) tree.buckets[i].entries).length =
    tree.buckets[i].entries.length := List.length_mapIdx
  rw [contentSize_succ inside, ← long]
  refine Bytes.flatten_eq_filled fun j held => ?_
  rw [long] at held
  have reach := Nat.mul_le_mul_right (BucketEntry.size E) (Nat.succ_le_of_lt held)
  rw [Nat.succ_mul] at reach
  simp only [BucketTree.rows, List.getElem_mapIdx, slackIn]
  rw [← (written.buckets i inside).entry j held, Bytes.filled_eq_window (by omega)]
  exact EntryFormat.encode_decode (Bytes.length_window (by omega))

/-- A table starts with an image of the tree that it states. -/
theorem WrittenIn.image (written : tree.WrittenIn table) (conforms : tree.Conforms) :
    tree.image (tree.slackIn table) = table.filled 0 (nodeSize * (tree.buckets.length + 1)) := by
  have within := fun number => contentSize_le number conforms.fitting conforms.few
  have room := written.room
  have long : (tree.nodes (tree.slackIn table)).length = tree.buckets.length + 1 := by
    rw [nodes, List.length_cons, List.length_mapIdx]
  rw [BucketTree.image, ← long, Nat.mul_comm]
  -- node by node, each with what the table has around its fields
  refine Bytes.flatten_eq_filled fun number inside => ?_
  rw [Nat.zero_add, Nat.mul_comm]
  cases number with
  | zero =>
    refine node_slackIn (by omega) ?_ ?_ ?_ (within 0)
    · rw [Nat.mul_zero, Nat.zero_add, written.listed]
    · rw [Nat.mul_zero, Nat.zero_add, written.size]
    · rw [Nat.mul_zero, Nat.zero_add, written.firsts]
  | succ i =>
    rw [long] at inside
    have here : i < tree.buckets.length := Nat.lt_of_succ_lt_succ inside
    simp only [nodes, List.getElem_cons_succ, List.getElem_mapIdx]
    exact node_slackIn (Nat.le_trans (Nat.le_add_right _ _) (written.buckets i here).room)
      (written.buckets i here).count (written.buckets i here).last (written.rows here) (within _)

/-! ## Trees and tables -/

/-- A tree that keeps the rules is read from each of its images, whatever comes behind. A tree with entries is only
    read from what its images start with, or start, as far as its entries reach, and only if it keeps the rules. -/
theorem decode_images (tree : BucketTree E) :
    (tree.Conforms → ∀ slack, tree.Slack slack → ∀ trailing,
      decode (tree.image slack ++ trailing) tree.entries.length = .ok tree) ∧
    ∀ table count, 0 < count → (decode table count = .ok tree ↔
      tree.Conforms ∧ tree.entries.length = count ∧ tree.ReachedBy table ∧
        ∃ slack trailing, tree.Slack slack ∧ table <+: tree.image slack ++ trailing) := by
  have read : ∀ {table : Bytes} {slack trailing}, tree.Conforms → tree.Slack slack → tree.ReachedBy table →
      table <+: tree.image slack ++ trailing → decode table tree.entries.length = .ok tree := by
    intro table slack trailing conforms fits reached starts
    exact (decode_eq_ok_iff_written conforms.entries_pos).mpr
      ⟨wellLaid_iff.mpr conforms.arranged, rfl, conforms.written fits reached starts⟩
  refine ⟨fun conforms slack fits trailing => read conforms fits ?_ (List.prefix_refl _), fun table count some => ?_⟩
  -- an image reaches over all of its nodes
  · intro i inside
    have within := contentSize_le (i + 1) conforms.fitting conforms.few
    rw [contentSize_succ inside] at within
    have below : nodeSize * (i + 1 + 1) ≤ nodeSize * (tree.buckets.length + 1) :=
      Nat.mul_le_mul_left nodeSize (by omega)
    rw [List.length_append, conforms.length_image fits]
    rw [Nat.mul_succ] at below
    omega
  · refine ⟨fun decoded => ?_, ?_⟩
    · obtain ⟨laid, rfl, written⟩ := (decode_eq_ok_iff_written some).mp decoded
      have conforms := laid.conforms written some
      obtain ⟨trailing, starts⟩ := table.exists_prefix_filled (nodeSize * (tree.buckets.length + 1))
      exact ⟨conforms, rfl, fun i inside => (written.buckets i inside).room, tree.slackIn table, trailing,
        tree.slackIn_slack table, written.image conforms ▸ starts⟩
    · rintro ⟨conforms, rfl, reached, slack, trailing, fits, starts⟩
      exact read conforms fits reached starts

end

/-! ## A tree of one bucket -/

def pairTree : BucketTree Subsection := ⟨[⟨0x10, 0x40, [⟨0x10, 1⟩, ⟨0x20, 2⟩]⟩], 0x50⟩

def pairSlack : TableSlack where
  index number := LittleEndian.encode 4 (number + 5)
  unused number := List.replicate (nodeSize - (nodeHeaderSize + pairTree.contentSize number)) 0xFF
  reserved _ _ := [1, 2, 3, 4]

theorem decode_images_pair : pairTree.Conforms ∧ pairTree.Slack pairSlack ∧
    decode (pairTree.image pairSlack ++ [1, 2, 3]) 2 = .ok pairTree ∧
    decode ((pairTree.image pairSlack).take 0x4030) 2 = .ok pairTree := by
  have conforms : pairTree.Conforms := by
    constructor
    case arranged => constructor <;> simp [pairTree, entries, BucketEntry.offset]
    case nonempty => simp [pairTree]
    case few => simp [pairTree, entriesPerNode, nodeSize, nodeHeaderSize, BucketEntry.size]
    case least => rfl
    case fitting => decide
    case positive => decide
    case small => simp [pairTree, entries, EntryFormat.Fits]
  have slack : pairTree.Slack pairSlack :=
    ⟨fun _ => LittleEndian.length_encode _ _, fun _ => List.length_replicate, fun _ _ => rfl⟩
  have reached : pairTree.ReachedBy ((pairTree.image pairSlack).take 0x4030) := by
    intro i inside
    obtain rfl : i = 0 := Nat.lt_one_iff.mp inside
    rw [List.length_take, conforms.length_image slack]
    show 0x4030 ≤ min 0x4030 (nodeSize * 2)
    decide
  exact ⟨conforms, slack, (decode_images pairTree).1 conforms pairSlack slack [1, 2, 3],
    ((decode_images pairTree).2 _ 2 (by decide)).mpr
      ⟨conforms, rfl, reached, pairSlack, [], slack, by rw [List.append_nil]; exact List.take_prefix _ _⟩⟩

end BucketTree

end SealedContent
