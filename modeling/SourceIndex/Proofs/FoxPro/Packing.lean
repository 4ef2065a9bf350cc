import Mathlib.Data.List.Basic
import SourceIndex.Idiom.FoxPro.Form
import SourceIndex.Proofs.Octets
import SourceIndex.Proofs.Text.Utf8

/-!
# Packing forms

The layout of a packed form, written out: the size of the table, the table with its header, its five
column descriptions and its rows, and a heap of memos in blocks of 64 octets.  Reading undoes
packing: every row comes back as the control that it stores.

The heap grows only at its end, and always by whole blocks.  So the number of the block where a memo
starts stays right whatever is stored later.
-/

namespace SourceIndex.Idiom.FoxPro.Form

open SourceIndex.Octets (ofNatBig ofNatLittle)

/-- A control as a form stores it. -/
structure Row where
  isDeleted : Bool
  name : String
  parent : String
  classLocation : String
  methods : String

namespace Row

/-- The texts that go into the heap, in the order of their columns. -/
def texts (r : Row) : List String :=
  [r.name, r.parent, r.classLocation, r.methods]

/-- The control that a row stores. -/
def toControl (r : Row) (index : Nat) : Control :=
  { index
    isDeleted := r.isDeleted
    platform := "WINDOWS"
    name := r.name
    parent := r.parent
    classLocation := r.classLocation
    methods := r.methods }

end Row

/-- The octets of a text. -/
def octets (text : String) : List UInt8 :=
  Text.Utf8.encode text.toList

/-- A heap without memos: a header of 512 octets that tells the size of a block. -/
def emptyHeap : List UInt8 :=
  List.replicate 6 0 ++ (ofNatBig 2 64 ++ List.replicate 504 0)

/-- A memo with its type and its size before it, filled up to whole blocks. -/
def memo (content : List UInt8) : List UInt8 :=
  ofNatBig 4 1 ++ (ofNatBig 4 content.length ++
    (content ++ List.replicate ((64 - (content.length + 8) % 64) % 64) 0))

/-- The block where a text is stored, and the heap after that; an empty text needs no block. -/
def store (heap : List UInt8) (text : String) : Nat × List UInt8 :=
  if text.isEmpty then (0, heap) else (heap.length / 64, heap ++ memo (octets text))

/-- The blocks where some texts are stored, and the heap after that. -/
def storeAll (heap : List UInt8) : List String → List Nat × List UInt8
  | [] => ([], heap)
  | text :: rest =>
      let (block, heap) := store heap text
      let (blocks, heap) := storeAll heap rest
      (block :: blocks, heap)

/-- The octets of a row: the mark of deletion, the platform, and the blocks of its texts. -/
def rowOctets (isDeleted : Bool) (blocks : List Nat) : List UInt8 :=
  (if isDeleted then '*'.toUInt8 else ' '.toUInt8) ::
    (octets "WINDOWS " ++ blocks.flatMap (ofNatLittle 4))

/-- The octets of some rows, and the heap after their texts are stored. -/
def packRows (heap : List UInt8) : List Row → List (List UInt8) × List UInt8
  | [] => ([], heap)
  | r :: rest =>
      let (blocks, heap) := storeAll heap r.texts
      let (rows, heap) := packRows heap rest
      (rowOctets r.isDeleted blocks :: rows, heap)

/-- The columns of the table: one short text and four memos. -/
def layout : List Column :=
  [⟨"PLATFORM", 'C'.toUInt8, 1, 8⟩, ⟨"OBJNAME", 'M'.toUInt8, 9, 4⟩, ⟨"PARENT", 'M'.toUInt8, 13, 4⟩,
    ⟨"CLASSLOC", 'M'.toUInt8, 17, 4⟩, ⟨"METHODS", 'M'.toUInt8, 21, 4⟩]

/-- The description of a column. -/
def describe (c : Column) : List UInt8 :=
  octets c.name ++ (List.replicate (11 - (octets c.name).length) 0 ++
    (c.kind :: (ofNatLittle 4 c.offset ++ (c.size.toUInt8 :: List.replicate 15 0))))

/-- Size of the header with the descriptions and the mark that ends them. -/
def headerSize : Nat :=
  193

/-- Size of a row. -/
def rowSize : Nat :=
  25

/-- The descriptions of the columns, up to the mark that ends them. -/
def descriptions : List UInt8 :=
  layout.flatMap describe ++ [0x0D]

/-- The header of a table of so many rows. -/
def header (count : Nat) : List UInt8 :=
  [0x30, 0, 0, 0] ++ (ofNatLittle 4 count ++ (ofNatLittle 2 headerSize ++
    (ofNatLittle 2 rowSize ++ List.replicate 20 0)))

/-- The table of some rows. -/
def table (rows : List Row) : List UInt8 :=
  header rows.length ++ (descriptions ++ (packRows emptyHeap rows).1.flatten)

/-- The heap of some rows. -/
def heap (rows : List Row) : List UInt8 :=
  (packRows emptyHeap rows).2

/-- The packed form of some rows. -/
def pack (rows : List Row) : List UInt8 :=
  ofNatBig 4 (table rows).length ++ (table rows ++ heap rows)

/-! ## The heap -/

/-- A heap that begins with the header and consists of whole blocks. -/
structure IsHeap (heap : List UInt8) : Prop where
  header : emptyHeap <+: heap
  blocks : heap.length % 64 = 0

theorem length_emptyHeap : emptyHeap.length = 512 := by
  simp only [emptyHeap, List.length_append, List.length_replicate, Octets.length_ofNatBig]

theorem isHeap_emptyHeap : IsHeap emptyHeap :=
  ⟨List.prefix_refl _, by rw [length_emptyHeap]⟩

theorem IsHeap.length {heap : List UInt8} (h : IsHeap heap) : 512 ≤ heap.length := by
  have hle := h.header.length_le
  rwa [length_emptyHeap] at hle

theorem length_memo_mod (content : List UInt8) : (memo content).length % 64 = 0 := by
  simp only [memo, List.length_append, Octets.length_ofNatBig, List.length_replicate]
  omega

theorem prefix_store (heap : List UInt8) (text : String) : heap <+: (store heap text).2 := by
  unfold store
  split
  · exact List.prefix_refl _
  · exact List.prefix_append _ _

theorem IsHeap.store {heap : List UInt8} (h : IsHeap heap) (text : String) :
    IsHeap (store heap text).2 := by
  refine ⟨h.header.trans (prefix_store heap text), ?_⟩
  unfold Form.store
  split
  · exact h.blocks
  · have hheap := h.blocks
    have hmemo := length_memo_mod (octets text)
    simp only [List.length_append]
    omega

theorem prefix_storeAll (heap : List UInt8) (texts : List String) :
    heap <+: (storeAll heap texts).2 := by
  induction texts generalizing heap with
  | nil => exact List.prefix_refl _
  | cons text texts ih => exact (prefix_store heap text).trans (ih _)

theorem IsHeap.storeAll {heap : List UInt8} (h : IsHeap heap) (texts : List String) :
    IsHeap (storeAll heap texts).2 := by
  induction texts generalizing heap with
  | nil => exact h
  | cons text texts ih => exact ih (h.store text)

theorem prefix_packRows (heap : List UInt8) (rows : List Row) :
    heap <+: (packRows heap rows).2 := by
  induction rows generalizing heap with
  | nil => exact List.prefix_refl _
  | cons r rows ih => exact (prefix_storeAll heap r.texts).trans (ih _)

/-- A heap with its header tells the size of its blocks. -/
theorem blockSize_of_prefix {heap : Heap} (h : emptyHeap <+: heap.bytes) : heap.blockSize = 64 := by
  obtain ⟨rest, hrest⟩ := h
  have hbytes : heap.bytes = List.replicate 6 0 ++
      (ofNatBig 2 64 ++ (List.replicate 504 0 ++ rest)) := by
    rw [← hrest, emptyHeap]
    simp only [List.append_assoc]
  have hsize : Octets.bigAt? heap.bytes 6 2 = some 64 :=
    Octets.bigAt?_of_append hbytes rfl (by decide)
  rw [Heap.blockSize, hsize]
  rfl

/-- A text can be read back: it is no longer than memos may be, and it does not start with a byte
order mark. -/
structure IsReadable (limits : Limits) (text : String) : Prop where
  size : (octets text).length ≤ limits.memoSize.toNat
  start : text.toList.head? ≠ some '\uFEFF'

/-- The memo of a text is read from the block where it was stored, whatever was stored later. -/
theorem memo?_append {maxMemo : Nat} {heap content rest : List UInt8} (hheap : IsHeap heap)
    (hlength : content.length < 2 ^ 32) (hcontent : content ≠ []) (hmax : content.length ≤ maxMemo) :
    Heap.memo? ⟨heap ++ (memo content ++ rest), maxMemo⟩ (heap.length / 64) = some content := by
  set padding := List.replicate ((64 - (content.length + 8) % 64) % 64) (0 : UInt8) with hpadding
  have hblockSize : Heap.blockSize ⟨heap ++ (memo content ++ rest), maxMemo⟩ = 64 :=
    blockSize_of_prefix (hheap.header.trans (List.prefix_append _ _))
  have hoffset : heap.length / 64 * 64 = heap.length := by
    have := hheap.blocks
    omega
  have hblock : heap.length / 64 ≠ 0 := by
    have := hheap.length
    omega
  -- A memo is its type, its size and its content, each at a fixed distance from its start.
  have hsize : Octets.bigAt? (heap ++ (memo content ++ rest)) (heap.length + 4) 4 =
      some content.length := by
    have hbytes : heap ++ (memo content ++ rest) = (heap ++ ofNatBig 4 1) ++
        (ofNatBig 4 content.length ++ (content ++ (padding ++ rest))) := by
      simp only [memo, ← hpadding, List.append_assoc]
    exact Octets.bigAt?_of_append hbytes
      (by rw [List.length_append, Octets.length_ofNatBig]) hlength
  have hslice : Octets.slice? (heap ++ (memo content ++ rest)) (heap.length + 8) content.length =
      some content := by
    have hbytes : heap ++ (memo content ++ rest) =
        (heap ++ (ofNatBig 4 1 ++ ofNatBig 4 content.length)) ++ (content ++ (padding ++ rest)) := by
      simp only [memo, ← hpadding, List.append_assoc]
    exact Octets.slice?_of_append hbytes
      (by simp only [List.length_append, Octets.length_ofNatBig]) rfl
  have hnonzero : content.length ≠ 0 := fun h => hcontent (List.length_eq_zero_iff.1 h)
  have haccepted : (heap.length / 64 != 0 && content.length != 0 &&
      decide (content.length ≤ maxMemo)) = true := by
    simp only [Bool.and_eq_true, bne_iff_ne, ne_eq, decide_eq_true_eq]
    exact ⟨⟨hblock, hnonzero⟩, hmax⟩
  simp only [Heap.memo?, hblockSize, hoffset, hsize, Option.filter_some, haccepted, if_true,
    Option.bind_eq_bind, Option.bind_some, hslice]

/-- The first block holds no memo. -/
theorem text_zero (heap : Heap) : heap.text 0 = "" := by
  have hnone : heap.memo? 0 = none := by
    simp only [Heap.memo?]
    cases Octets.bigAt? heap.bytes (0 * heap.blockSize + 4) 4 <;> rfl
  rw [Heap.text, hnone]
  rfl

/-- A text is read from the block where it was stored, whatever was stored later. -/
theorem text_store {limits : Limits} {heap whole : List UInt8} {text : String} (hheap : IsHeap heap)
    (hwhole : (store heap text).2 <+: whole) (hsize : whole.length < 2 ^ 32)
    (htext : IsReadable limits text) :
    Heap.text ⟨whole, limits.memoSize.toNat⟩ (store heap text).1 = text := by
  by_cases hempty : text.isEmpty = true
  · have hstore : store heap text = (0, heap) := by simp only [store, if_pos hempty]
    rw [hstore, text_zero]
    exact (String.isEmpty_iff.1 hempty).symm
  · have hstore : store heap text = (heap.length / 64, heap ++ memo (octets text)) := by
      simp only [store, if_neg hempty]
    rw [hstore] at hwhole ⊢
    obtain ⟨rest, rfl⟩ := hwhole
    have hlength : (octets text).length < 2 ^ 32 := by
      simp only [memo, List.length_append] at hsize
      omega
    -- A memo without content would read as the empty text, but so few octets are no other text.
    have hoctets : octets text ≠ [] := by
      intro hnil
      have hdecode := Text.Utf8.decode_encode text.toList
      rw [show Text.Utf8.encode text.toList = [] from hnil] at hdecode
      exact hempty (String.isEmpty_iff.2 (String.toList_eq_nil_iff.1 hdecode.symm))
    rw [List.append_assoc, Heap.text, memo?_append hheap hlength hoctets htext.size, Option.map_some,
      Option.getD_some, octets, Text.decodeUnknown_encode htext.start, String.ofList_toList]

/-- All texts are read from the blocks where they were stored. -/
theorem text_storeAll {limits : Limits} {whole : List UInt8} (hsize : whole.length < 2 ^ 32) :
    ∀ {heap : List UInt8} {texts : List String}, IsHeap heap →
      (storeAll heap texts).2 <+: whole → (∀ t ∈ texts, IsReadable limits t) →
      (storeAll heap texts).1.map (Heap.text ⟨whole, limits.memoSize.toNat⟩) = texts
  | _, [], _, _, _ => rfl
  | heap, text :: texts, hheap, hwhole, htexts => by
      -- The whole heap goes on from the heap after all texts, and so from that after the first.
      have hstore : (store heap text).2 <+: whole := (prefix_storeAll _ texts).trans hwhole
      show Heap.text _ (store heap text).1 :: (storeAll (store heap text).2 texts).1.map _ =
        text :: texts
      rw [text_store hheap hstore hsize (htexts text List.mem_cons_self),
        text_storeAll hsize (hheap.store text) hwhole
          fun t ht => htexts t (List.mem_cons_of_mem _ ht)]

theorem block_store_le (heap : List UInt8) (text : String) :
    (store heap text).1 ≤ (store heap text).2.length := by
  unfold store
  split
  · exact Nat.zero_le _
  · simp only [List.length_append]
    omega

theorem block_storeAll_le {heap : List UInt8} {texts : List String} {block : Nat}
    (h : block ∈ (storeAll heap texts).1) : block ≤ (storeAll heap texts).2.length := by
  induction texts generalizing heap with
  | nil => cases h
  | cons text texts ih =>
      rcases List.mem_cons.1 h with rfl | h
      · exact (block_store_le heap text).trans (prefix_storeAll _ texts).length_le
      · exact ih h

/-! ## Rows -/

/-- The row of a control with its four blocks. -/
theorem rowOctets_eq (isDeleted : Bool) (a b c e : Nat) :
    rowOctets isDeleted [a, b, c, e] =
      (if isDeleted then '*'.toUInt8 else ' '.toUInt8) ::
        (octets "WINDOWS " ++ (ofNatLittle 4 a ++ (ofNatLittle 4 b ++ (ofNatLittle 4 c ++
          ofNatLittle 4 e)))) := by
  simp only [rowOctets, List.flatMap_cons, List.flatMap_nil, List.append_nil]

/-- A block in a row is found by the column of its text. -/
theorem longText_layout {heap : Heap} {row before after : List UInt8} {name : String} {c : Column}
    {block : Nat} (husable : heap.isUsable = true) (hcolumn : column? layout name = some c)
    (hkind : c.kind = 'M'.toUInt8) (hrow : row = before ++ (ofNatLittle 4 block ++ after))
    (hoffset : before.length = c.offset) (hblock : block < 2 ^ 32) :
    longText layout heap row name = heap.text block := by
  have hat : Octets.littleAt? row c.offset 4 = some block :=
    Octets.littleAt?_of_append hrow hoffset hblock
  simp only [longText, husable, if_true, hcolumn, Option.filter_some, hkind, beq_self_eq_true,
    Option.bind_some, hat, Option.map_some, Option.getD_some]

/-- The platform is read from its column. -/
theorem shortText_layout (mark : UInt8) (rest : List UInt8) :
    shortText layout (mark :: (octets "WINDOWS " ++ rest)) "PLATFORM" = "WINDOWS" := by
  have hcolumn : column? layout "PLATFORM" = some ⟨"PLATFORM", 'C'.toUInt8, 1, 8⟩ := rfl
  have hslice : Octets.slice? (mark :: (octets "WINDOWS " ++ rest)) 1 8 =
      some (octets "WINDOWS ") :=
    Octets.slice?_of_append (List.singleton_append.symm) rfl rfl
  have hdecode : Text.Utf8.decode (octets "WINDOWS ") = "WINDOWS ".toList :=
    Text.Utf8.decode_encode _
  simp only [shortText, hcolumn, Option.bind_some, hslice, Option.map_some, Option.getD_some,
    hdecode, String.ofList_toList]
  decide +kernel

/-- A row with four blocks is read as a control with the texts of these blocks. -/
theorem control_layout {heap : Heap} (husable : heap.isUsable = true) (index : Nat)
    (isDeleted : Bool) {a b c e : Nat} (ha : a < 2 ^ 32) (hb : b < 2 ^ 32) (hc : c < 2 ^ 32)
    (he : e < 2 ^ 32) :
    control layout heap index (rowOctets isDeleted [a, b, c, e]) =
      { index
        isDeleted
        platform := "WINDOWS"
        name := heap.text a
        parent := heap.text b
        classLocation := heap.text c
        methods := heap.text e } := by
  rw [rowOctets_eq]
  set mark := if isDeleted then '*'.toUInt8 else ' '.toUInt8 with hmark
  set row := mark :: (octets "WINDOWS " ++ (ofNatLittle 4 a ++ (ofNatLittle 4 b ++
    (ofNatLittle 4 c ++ ofNatLittle 4 e)))) with hrow
  set before := mark :: octets "WINDOWS " with hbefore
  have hnine : before.length = 9 := rfl
  -- The row once for each block, taken apart before and behind it.
  have hat1 : row = before ++ (ofNatLittle 4 a ++ (ofNatLittle 4 b ++
      (ofNatLittle 4 c ++ ofNatLittle 4 e))) := rfl
  have hat2 : row = (before ++ ofNatLittle 4 a) ++ (ofNatLittle 4 b ++
      (ofNatLittle 4 c ++ ofNatLittle 4 e)) := by
    rw [hat1, List.append_assoc]
  have hat3 : row = (before ++ ofNatLittle 4 a ++ ofNatLittle 4 b) ++
      (ofNatLittle 4 c ++ ofNatLittle 4 e) := by
    rw [hat2, List.append_assoc _ (ofNatLittle 4 b)]
  have hat4 : row = (before ++ ofNatLittle 4 a ++ ofNatLittle 4 b ++ ofNatLittle 4 c) ++
      (ofNatLittle 4 e ++ []) := by
    rw [hat3, List.append_nil, List.append_assoc _ (ofNatLittle 4 c)]
  have hlengths : ∀ n, (ofNatLittle 4 n).length = 4 := Octets.length_ofNatLittle 4
  have hdeleted : (row.head? == some '*'.toUInt8) = isDeleted := by
    cases hd : isDeleted <;> simp only [hrow, hmark, hd, List.head?_cons] <;> decide
  unfold control
  rw [hdeleted, shortText_layout,
    longText_layout husable (c := ⟨"OBJNAME", 'M'.toUInt8, 9, 4⟩) rfl rfl hat1 hnine ha,
    longText_layout husable (c := ⟨"PARENT", 'M'.toUInt8, 13, 4⟩) rfl rfl hat2
      (by simp only [List.length_append, hlengths, hnine]) hb,
    longText_layout husable (c := ⟨"CLASSLOC", 'M'.toUInt8, 17, 4⟩) rfl rfl hat3
      (by simp only [List.length_append, hlengths, hnine]) hc,
    longText_layout husable (c := ⟨"METHODS", 'M'.toUInt8, 21, 4⟩) rfl rfl hat4
      (by simp only [List.length_append, hlengths, hnine]) he]

/-- A row is read as the control that it stores. -/
theorem control_rowOctets {limits : Limits} {heap whole : List UInt8} {r : Row} (index : Nat)
    (hheap : IsHeap heap) (hwhole : (storeAll heap r.texts).2 <+: whole)
    (hsize : whole.length < 2 ^ 32) (htexts : ∀ t ∈ r.texts, IsReadable limits t) :
    control layout ⟨whole, limits.memoSize.toNat⟩ index
      (rowOctets r.isDeleted (storeAll heap r.texts).1) = r.toControl index := by
  have hread := text_storeAll hsize hheap hwhole htexts
  have hblocks : ∀ block ∈ (storeAll heap r.texts).1, block < 2 ^ 32 := fun block hblock =>
    ((block_storeAll_le hblock).trans hwhole.length_le).trans_lt hsize
  have husable : Heap.isUsable ⟨whole, limits.memoSize.toNat⟩ = true := by
    have hlong := (hheap.storeAll r.texts).length.trans hwhole.length_le
    simpa only [Heap.isUsable, decide_eq_true_eq] using hlong
  -- There are as many blocks as texts, four.
  generalize (storeAll heap r.texts).1 = blocks at hread hblocks
  obtain ⟨a, b, c, e, rfl⟩ : ∃ a b c e, blocks = [a, b, c, e] := by
    have hlength := congrArg List.length hread
    simp only [List.length_map, Row.texts, List.length_cons, List.length_nil] at hlength
    match blocks, hlength with
    | [a, b, c, e], _ => exact ⟨a, b, c, e, rfl⟩
  simp only [List.map_cons, List.map_nil, Row.texts, List.cons.injEq, and_true] at hread
  obtain ⟨hname, hparent, hlocation, hmethods⟩ := hread
  rw [control_layout husable index r.isDeleted (hblocks a (by simp)) (hblocks b (by simp))
    (hblocks c (by simp)) (hblocks e (by simp)), hname, hparent, hlocation, hmethods]
  rfl

/-- The rows of a table are read as the controls that they store, in their order. -/
theorem controls_packRows {limits : Limits} {whole : List UInt8} (hsize : whole.length < 2 ^ 32) :
    ∀ {heap : List UInt8} {rows : List Row} (first : Nat), IsHeap heap →
      (packRows heap rows).2 <+: whole → (∀ r ∈ rows, ∀ t ∈ r.texts, IsReadable limits t) →
      ((packRows heap rows).1.zipIdx first).map
          (fun (row, index) => control layout ⟨whole, limits.memoSize.toNat⟩ index row) =
        (rows.zipIdx first).map fun (r, index) => r.toControl index
  | _, [], _, _, _, _ => rfl
  | heap, r :: rows, first, hheap, hwhole, hrows => by
      have hstore : (storeAll heap r.texts).2 <+: whole := (prefix_packRows _ rows).trans hwhole
      have hrest := controls_packRows hsize (first + 1) (hheap.storeAll r.texts) hwhole
        fun r' hr' => hrows r' (List.mem_cons_of_mem _ hr')
      simp only [packRows, List.zipIdx_cons, List.map_cons, hrest]
      rw [control_rowOctets first hheap hstore hsize (hrows r List.mem_cons_self)]

theorem length_storeAll (heap : List UInt8) (texts : List String) :
    (storeAll heap texts).1.length = texts.length := by
  induction texts generalizing heap with
  | nil => rfl
  | cons text texts ih => exact congrArg (· + 1) (ih _)

theorem length_rowOctets (isDeleted : Bool) (blocks : List Nat) :
    (rowOctets isDeleted blocks).length = 9 + 4 * blocks.length := by
  have hblocks : (blocks.flatMap (ofNatLittle 4)).length = 4 * blocks.length := by
    induction blocks with
    | nil => rfl
    | cons block blocks ih =>
        rw [List.flatMap_cons, List.length_append, ih, Octets.length_ofNatLittle, List.length_cons]
        omega
  have hplatform : (octets "WINDOWS ").length = 8 := rfl
  rw [rowOctets, List.length_cons, List.length_append, hblocks, hplatform]
  omega

theorem length_packRows (heap : List UInt8) (rows : List Row) :
    (packRows heap rows).1.length = rows.length := by
  induction rows generalizing heap with
  | nil => rfl
  | cons r rows ih => exact congrArg (· + 1) (ih _)

theorem length_of_mem_packRows {heap : List UInt8} {rows : List Row} {row : List UInt8}
    (h : row ∈ (packRows heap rows).1) : row.length = rowSize := by
  induction rows generalizing heap with
  | nil => cases h
  | cons r rows ih =>
      simp only [packRows, List.mem_cons] at h
      rcases h with rfl | h
      · rw [length_rowOctets, length_storeAll]
        rfl
      · exact ih h

/-! ## The table -/

/-- Parts of one size are taken apart again. -/
theorem parts_flatten {size : Nat} :
    ∀ {rows : List (List UInt8)}, (∀ row ∈ rows, row.length = size) →
      parts size rows.length rows.flatten = rows
  | [], _ => rfl
  | row :: rows, h => by
      have hrow := h row List.mem_cons_self
      have hslice : Octets.slice? (row ++ rows.flatten) 0 size = some row :=
        Octets.slice?_of_append (List.nil_append _).symm rfl hrow
      have hdrop : (row ++ rows.flatten).drop size = rows.flatten := by
        rw [← hrow, List.drop_left]
      rw [List.length_cons, List.flatten_cons, parts, hslice, hdrop,
        parts_flatten fun row' hrow' => h row' (List.mem_cons_of_mem _ hrow')]

theorem length_header (count : Nat) : (header count).length = 32 := by
  simp only [header, List.length_append, Octets.length_ofNatLittle, List.length_replicate,
    List.length_cons, List.length_nil]

theorem length_descriptions : descriptions.length = 161 := by
  decide +kernel

/-- The columns are read from their descriptions. -/
theorem columns_header (count : Nat) : columns (header count ++ descriptions) rowSize = layout := by
  have hlength : (header count ++ descriptions).length = 193 := by
    rw [List.length_append, length_header, length_descriptions]
  have hdrop : (header count ++ descriptions).drop headerUnit = descriptions := by
    rw [headerUnit, ← length_header count, List.drop_left]
  have hparts : parts headerUnit 193 descriptions = layout.map describe := by decide +kernel
  have hbeforeEnd : ((layout.map describe).takeWhile fun b => b.head? != some 0x0D) =
      layout.map describe := by decide +kernel
  have hcolumns : (layout.map describe).map Column.ofBytes = layout := by decide +kernel
  have hinside : (layout.filter fun c => c.offset < rowSize) = layout := by decide +kernel
  simp only [columns, hlength, hdrop, hparts, hbeforeEnd, hcolumns, hinside]

/-- A number in the header is read where it was written. -/
theorem little_take_drop {bytes before after : List UInt8} {offset size n : Nat}
    (h : bytes = before ++ (ofNatLittle size n ++ after)) (hoffset : before.length = offset)
    (hn : n < 0x100 ^ size) : Octets.little ((bytes.drop offset).take size) = n := by
  have htake : (ofNatLittle size n ++ after).take size = ofNatLittle size n :=
    List.take_left' (Octets.length_ofNatLittle size n)
  subst h hoffset
  rw [List.drop_left, htake, Octets.little_ofNatLittle hn]

/-- A table with the numbers of its header in sight. -/
theorem table_eq (rows : List Row) :
    table rows = [0x30, 0, 0, 0] ++ (ofNatLittle 4 rows.length ++ (ofNatLittle 2 headerSize ++
      (ofNatLittle 2 rowSize ++ (List.replicate 20 0 ++ (descriptions ++
        (packRows emptyHeap rows).1.flatten))))) := by
  simp only [table, header, List.append_assoc]

theorem count_table {rows : List Row} (h : rows.length < 2 ^ 32) :
    Octets.little (((table rows).drop 4).take 4) = rows.length :=
  little_take_drop (table_eq rows) rfl h

theorem headerSize_table (rows : List Row) :
    Octets.little (((table rows).drop 8).take 2) = headerSize := by
  have htable := table_eq rows
  rw [← List.append_assoc] at htable
  refine little_take_drop htable ?_ (by decide)
  simp only [List.length_append, Octets.length_ofNatLittle, List.length_cons, List.length_nil]

theorem rowSize_table (rows : List Row) :
    Octets.little (((table rows).drop 10).take 2) = rowSize := by
  have htable := table_eq rows
  rw [← List.append_assoc, ← List.append_assoc] at htable
  refine little_take_drop htable ?_ (by decide)
  simp only [List.length_append, Octets.length_ofNatLittle, List.length_cons, List.length_nil]

/-- The size of the header takes a table apart before its rows. -/
theorem split_table (rows : List Row) :
    (table rows).take headerSize = header rows.length ++ descriptions ∧
      (table rows).drop headerSize = (packRows emptyHeap rows).1.flatten := by
  have hlength : (header rows.length ++ descriptions).length = headerSize := by
    rw [List.length_append, length_header, length_descriptions]
    rfl
  rw [table, ← List.append_assoc, ← hlength]
  exact ⟨List.take_left, List.drop_left⟩

/-- Reading a table with its heap gives the controls that its rows store. -/
theorem controls_table {limits : Limits} {rows : List Row}
    (hcount : rows.length ≤ limits.formRecords.toNat) (hnumber : rows.length < 2 ^ 32)
    (hheap : (heap rows).length < 2 ^ 32)
    (htexts : ∀ r ∈ rows, ∀ t ∈ r.texts, IsReadable limits t) :
    controls limits (table rows) (heap rows) =
      .ok (rows.zipIdx.map fun (r, index) => r.toControl index) := by
  have hlong : ¬ (table rows).length < headerUnit := by
    rw [table, List.length_append, length_header, headerUnit]
    omega
  have hversion : (table rows).headD 0 = 0x30 := by
    rw [table_eq]
    rfl
  have hmin : min rows.length limits.formRecords.toNat = (packRows emptyHeap rows).1.length := by
    rw [length_packRows]
    omega
  obtain ⟨htake, hdrop⟩ := split_table rows
  have hread := controls_packRows hheap 0 isHeap_emptyHeap (List.prefix_refl _) htexts
  unfold controls
  rw [if_neg hlong]
  simp only [hversion, count_table hnumber, headerSize_table, rowSize_table, htake, hdrop,
    columns_header, hmin]
  rw [parts_flatten fun row hrow => length_of_mem_packRows hrow]
  exact congrArg Except.ok hread

/-- A table has more octets than rows, so its size bounds their number. -/
theorem length_le_table (rows : List Row) : rows.length ≤ (table rows).length := by
  have hflatten : ∀ parts : List (List UInt8), (∀ part ∈ parts, part.length = rowSize) →
      parts.length ≤ parts.flatten.length := by
    intro parts
    induction parts with
    | nil => exact fun _ => Nat.le_refl _
    | cons part parts ih =>
        intro hparts
        have hpart : part.length = 25 := hparts part List.mem_cons_self
        have hrest := ih fun part' hpart' => hparts part' (List.mem_cons_of_mem _ hpart')
        rw [List.flatten_cons, List.length_append, List.length_cons]
        omega
  have hrows := hflatten (packRows emptyHeap rows).1 fun row hrow => length_of_mem_packRows hrow
  rw [length_packRows] at hrows
  rw [table, List.length_append, List.length_append]
  omega

/-- Unpacking takes the table and the heap apart again. -/
theorem unpack_pack {rows : List Row} (h : (table rows).length < 2 ^ 32) :
    unpack (pack rows) = (table rows, heap rows) := by
  have hsize : Octets.bigAt? (pack rows) 0 4 = some (table rows).length :=
    Octets.bigAt?_of_append (List.nil_append _).symm rfl h
  have hdrop : (pack rows).drop 4 = table rows ++ heap rows :=
    List.drop_left' (Octets.length_ofNatBig 4 (table rows).length)
  simp only [unpack, hsize, hdrop, List.splitAt_eq, List.take_left, List.drop_left]

/-- Reading undoes packing: every row comes back as the control that it stores, in its place. -/
theorem controls_unpack_pack (limits : Limits) (rows : List Row)
    (hcount : rows.length ≤ limits.formRecords.toNat)
    (hmemos : ∀ r ∈ rows, ∀ t ∈ r.texts, (octets t).length ≤ limits.memoSize.toNat)
    (hmarks : ∀ r ∈ rows, ∀ t ∈ r.texts, t.toList.head? ≠ some '\uFEFF')
    (htable : (table rows).length < 2 ^ 32) (hheap : (heap rows).length < 2 ^ 32) :
    controls limits (unpack (pack rows)).1 (unpack (pack rows)).2 =
      .ok (rows.zipIdx.map fun (r, index) => r.toControl index) := by
  have hnumber : rows.length < 2 ^ 32 := (length_le_table rows).trans_lt htable
  rw [unpack_pack htable]
  exact controls_table hcount hnumber hheap
    fun r hr t ht => ⟨hmemos r hr t ht, hmarks r hr t ht⟩

/-- Two controls: a form with a method, and a deleted button in it without one. -/
def formWithButton : List Row :=
  [⟨false, "frm", "", "base.vcx", "PROCEDURE Init\nENDPROC"⟩, ⟨true, "cmd", "frm", "", ""⟩]

theorem controls_formWithButton :
    controls {} (unpack (pack formWithButton)).1 (unpack (pack formWithButton)).2 =
      .ok [⟨0, false, "WINDOWS", "frm", "", "base.vcx", "PROCEDURE Init\nENDPROC"⟩,
        ⟨1, true, "WINDOWS", "cmd", "frm", "", ""⟩] := by
  have hlength : (table formWithButton).length < 2 ^ 32 ∧ (heap formWithButton).length < 2 ^ 32 := by
    decide +kernel
  exact controls_unpack_pack {} formWithButton (by decide) (by decide +kernel) (by decide +kernel)
    hlength.1 hlength.2

end SourceIndex.Idiom.FoxPro.Form
