import SourceIndex.Proofs.FoxPro.Packing

/-!
# Reading forms from any octets

The octets of a form need not be what a form packs: the number of rows, the sizes of the header and
of a row, the places of columns, the numbers of blocks and the sizes of memos are all read off them.
A table is refused by its first twelve octets alone.  Of any other one as many whole rows are read
as it has behind its header, up to the number that it tells and up to the limit, and whatever a
control is made of stands inside the table and inside the heap.
-/

namespace SourceIndex.Idiom.FoxPro.Form

open SourceIndex.Octets (IsAt)

/-! ## What the header of a table tells -/

/-- The number of rows that a table tells. -/
def toldCount (table : List UInt8) : Nat :=
  Octets.little ((table.drop 4).take 4)

/-- The size of the header that a table tells. -/
def toldHeaderSize (table : List UInt8) : Nat :=
  Octets.little ((table.drop 8).take 2)

/-- The size of a row that a table tells. -/
def toldRowSize (table : List UInt8) : Nat :=
  Octets.little ((table.drop 10).take 2)

/-- Is a table refused: too short for a header, of an unknown version, or with rows of no size or a
header that is too small? -/
def IsRefused (table : List UInt8) : Prop :=
  table.length < headerUnit ∨ table.headD 0 ∉ versions ∨ toldRowSize table = 0 ∨
    toldHeaderSize table < headerUnit

/-- Number of rows that are read: no more than the table tells, than the limit allows, and than
there are whole rows behind the header.  Behind a header that is longer than the table there are
none. -/
def rowTotal (limits : Limits) (table : List UInt8) : Nat :=
  min (min (toldCount table) limits.formRecords.toNat)
    ((table.length - toldHeaderSize table) / toldRowSize table)

/-- The row of a table at a position. -/
def rowAt (table : List UInt8) (index : Nat) : List UInt8 :=
  (table.drop (toldHeaderSize table + index * toldRowSize table)).take (toldRowSize table)

/-- The columns that a table describes. -/
def toldColumns (table : List UInt8) : List Column :=
  columns (table.take (toldHeaderSize table)) (toldRowSize table)

/-- The control in the row of a table at a position. -/
def controlAt (limits : Limits) (table heap : List UInt8) (index : Nat) : Control :=
  control (toldColumns table) ⟨heap, limits.memoSize.toNat⟩ index (rowAt table index)

/-! ## The rows that are read -/

section

variable {limits : Limits} {table heap row bytes : List UInt8} {all : List Column} {size : Nat}

/-- As many whole parts are taken as there are, each from where it stands. -/
theorem parts_eq (hsize : 0 < size) (count : Nat) (bytes : List UInt8) :
    parts size count bytes =
      (List.range (min count (bytes.length / size))).map fun i =>
        (bytes.drop (i * size)).take size := by
  induction count generalizing bytes with
  | zero => rw [Nat.zero_min]; rfl
  | succ count ih =>
      rw [parts]
      by_cases hwhole : size ≤ bytes.length
      · have hslice : Octets.slice? bytes 0 size = some ((bytes.drop 0).take size) :=
          Octets.slice?_eq_some_iff.2 (Octets.isAt_take_drop (by rwa [Nat.zero_add]))
        have htotal : min (count + 1) (bytes.length / size) =
            min count ((bytes.length - size) / size) + 1 := by
          rw [Nat.div_eq_sub_div hsize hwhole]
          omega
        rw [hslice, ih, List.length_drop, htotal, List.range_succ_eq_map, List.map_cons,
          List.map_map]
        refine congrArg₂ List.cons (by simp) (List.map_congr_left fun i _ => ?_)
        rw [Function.comp_apply, List.drop_drop, Nat.succ_mul, Nat.add_comm]
      · have hslice : Octets.slice? bytes 0 size = none := by
          rw [Option.eq_none_iff_forall_ne_some]
          intro part hpart
          obtain ⟨hat, rfl⟩ := Octets.slice?_eq_some_iff.1 hpart
          exact hwhole (by simpa using hat.1)
        rw [hslice, Nat.div_eq_of_lt (Nat.lt_of_not_le hwhole), Nat.min_zero]
        rfl

theorem controls_of_isRefused (limits : Limits) (heap : List UInt8) (h : IsRefused table) :
    ∃ e, controls limits table heap = .error e := by
  unfold controls
  by_cases hshort : table.length < headerUnit
  · exact ⟨_, if_pos hshort⟩
  rw [if_neg hshort]
  by_cases hversion : (!versions.contains (table.headD 0)) = true
  · exact ⟨_, if_pos hversion⟩
  rw [if_neg hversion]
  have hlayout : toldRowSize table = 0 ∨ toldHeaderSize table < headerUnit := by
    have hknown : table.headD 0 ∈ versions := by simpa using hversion
    rcases h with h | h | h
    · exact absurd h hshort
    · exact absurd hknown h
    · exact h
  exact ⟨_, if_pos hlayout⟩

/-- A table that is not refused gives the controls in its whole rows. -/
theorem controls_of_not_isRefused (limits : Limits) (heap : List UInt8) (h : ¬ IsRefused table) :
    controls limits table heap =
      .ok ((List.range (rowTotal limits table)).map (controlAt limits table heap)) := by
  simp only [IsRefused, not_or, not_not] at h
  obtain ⟨hlong, hversion, hrow, hheader⟩ := h
  have hknown : ¬ (!versions.contains (table.headD 0)) = true := by simpa using hversion
  have hlayout : ¬ (toldRowSize table = 0 ∨ toldHeaderSize table < headerUnit) :=
    not_or.2 ⟨hrow, hheader⟩
  have hrows : (parts (toldRowSize table) (min (toldCount table) limits.formRecords.toNat)
        (table.drop (toldHeaderSize table))).zipIdx =
      (List.range (rowTotal limits table)).map fun i => (rowAt table i, i) := by
    rw [parts_eq (Nat.pos_of_ne_zero hrow), List.length_drop, ← rowTotal]
    refine List.ext_getElem (by simp) fun i _ _ => ?_
    simp [rowAt, List.drop_drop]
  unfold controls
  rw [if_neg hlong]
  refine (if_neg hknown).trans ((if_neg hlayout).trans (congrArg Except.ok ?_))
  exact (congrArg (List.map _) hrows).trans (List.map_map ..)

theorem isRefused_iff (limits : Limits) (table heap : List UInt8) :
    (∃ e, controls limits table heap = .error e) ↔ IsRefused table := by
  constructor
  · rintro ⟨e, he⟩
    by_contra hread
    rw [controls_of_not_isRefused limits heap hread] at he
    cases he
  · exact controls_of_isRefused limits heap

theorem eq_of_controls {found : List Control} (h : controls limits table heap = .ok found) :
    ¬ IsRefused table ∧
      found = (List.range (rowTotal limits table)).map (controlAt limits table heap) := by
  have hread : ¬ IsRefused table := by
    rw [← isRefused_iff limits table heap, h]
    rintro ⟨e, he⟩
    cases he
  rw [controls_of_not_isRefused limits heap hread] at h
  exact ⟨hread, (Except.ok.inj h).symm⟩

/-- Controls are numbered by their positions. -/
theorem zipIdx_of_controls {found : List Control} (h : controls limits table heap = .ok found) :
    found.zipIdx = found.map fun c => (c, c.index) := by
  obtain ⟨-, rfl⟩ := eq_of_controls h
  refine List.ext_getElem (by simp) fun i _ _ => ?_
  simp [controlAt, control]

theorem toldRowSize_pos {index : Nat} (h : index < rowTotal limits table) :
    0 < toldRowSize table := by
  refine Nat.pos_of_ne_zero fun hzero => ?_
  rw [rowTotal, hzero, Nat.div_zero, Nat.min_zero] at h
  exact Nat.not_lt_zero _ h

/-- The rows that are read are whole ones of the table. -/
theorem isAt_rowAt {index : Nat} (h : index < rowTotal limits table) :
    IsAt (rowAt table index) table (toldHeaderSize table + index * toldRowSize table) ∧
      (rowAt table index).length = toldRowSize table := by
  have hrows : index + 1 ≤ (table.length - toldHeaderSize table) / toldRowSize table :=
    Nat.lt_of_lt_of_le h (Nat.min_le_right _ _)
  have hinside := (Nat.le_div_iff_mul_le (toldRowSize_pos h)).1 hrows
  have hpositive := toldRowSize_pos h
  rw [Nat.succ_mul] at hinside
  exact Octets.isAt_take_drop (by omega)

/-! ## Where the parts of a control stand -/

/-- Is a text empty, or the trimmed text of octets of a row? -/
def IsShortText (row : List UInt8) (text : String) : Prop :=
  text = "" ∨ ∃ content offset, IsAt content row offset ∧
    text = Text.trim (String.ofList (Text.Utf8.decode content))

/-- Is a text empty, or that of a memo in the heap?  The row holds the number of its block in four
octets, and the block holds the size of the memo in four octets before the memo itself. -/
def IsLongText (heap : Heap) (row : List UInt8) (text : String) : Prop :=
  text = "" ∨ ∃ number offset size content start,
    IsAt number row offset ∧ number.length = 4 ∧
      start = Octets.little number * heap.blockSize ∧
      IsAt size heap.bytes (start + 4) ∧ size.length = 4 ∧
      IsAt content heap.bytes (start + 8) ∧ content.length = Octets.big size ∧
      content.length ≤ heap.maxMemo ∧ text = String.ofList (Text.decodeUnknown content)

/-- Is a control read from a row of a table, and its texts from the row and from a heap? -/
structure IsReadFrom (table row : List UInt8) (heap : Heap) (c : Control) : Prop where
  inTable : IsAt row table (toldHeaderSize table + c.index * toldRowSize table)
  whole : row.length = toldRowSize table
  nonempty : 0 < row.length
  mark : c.isDeleted = (row.head? == some '*'.toUInt8)
  platform : IsShortText row c.platform
  texts : ∀ text ∈ [c.name, c.parent, c.classLocation, c.methods], IsLongText heap row text

theorem isShortText_shortText (all : List Column) (row : List UInt8) (name : String) :
    IsShortText row (shortText all row name) := by
  rw [shortText]
  cases hcontent : (column? all name).bind fun c => Octets.slice? row c.offset c.size with
  | none => exact Or.inl (by decide +kernel)
  | some content =>
      obtain ⟨c, -, hslice⟩ := Option.bind_eq_some_iff.1 hcontent
      exact Or.inr ⟨content, c.offset, (Octets.slice?_eq_some_iff.1 hslice).1, rfl⟩

/-- A memo stands in the heap, behind its size. -/
theorem exists_of_memo? {heap : Heap} {block : Nat} {content : List UInt8}
    (h : heap.memo? block = some content) :
    ∃ size, IsAt size heap.bytes (block * heap.blockSize + 4) ∧ size.length = 4 ∧
      IsAt content heap.bytes (block * heap.blockSize + 8) ∧ content.length = Octets.big size ∧
      content.length ≤ heap.maxMemo := by
  obtain ⟨total, htotal, hcontent⟩ := Option.bind_eq_some_iff.1 h
  obtain ⟨htotal, hallowed⟩ := Option.filter_eq_some_iff.1 htotal
  obtain ⟨size, hsize, rfl⟩ := Option.map_eq_some_iff.1 htotal
  obtain ⟨hsizeAt, hsizeLength⟩ := Octets.slice?_eq_some_iff.1 hsize
  obtain ⟨hcontentAt, hlength⟩ := Octets.slice?_eq_some_iff.1 hcontent
  have hmax : Octets.big size ≤ heap.maxMemo :=
    of_decide_eq_true (Bool.and_eq_true_iff.1 hallowed).2
  exact ⟨size, hsizeAt, hsizeLength, hcontentAt, hlength, hlength ▸ hmax⟩

theorem isLongText_longText (all : List Column) (heap : Heap) (row : List UInt8) (name : String) :
    IsLongText heap row (longText all heap row name) := by
  rw [longText]
  generalize (if heap.isUsable then column? all name else none) = column
  cases hblock : (column.filter fun c => c.kind == 'M'.toUInt8).bind fun c =>
      Octets.littleAt? row c.offset 4 with
  | none => exact Or.inl rfl
  | some block =>
      obtain ⟨c, -, hblock⟩ := Option.bind_eq_some_iff.1 hblock
      obtain ⟨number, hnumber, rfl⟩ := Option.map_eq_some_iff.1 hblock
      obtain ⟨hnumberAt, hnumberLength⟩ := Octets.slice?_eq_some_iff.1 hnumber
      rw [Option.map_some, Option.getD_some, Heap.text]
      cases hmemo : heap.memo? (Octets.little number) with
      | none => exact Or.inl rfl
      | some content =>
          obtain ⟨size, hsizeAt, hsizeLength, hcontentAt, hlength, hmax⟩ := exists_of_memo? hmemo
          exact Or.inr ⟨number, c.offset, size, content, _, hnumberAt, hnumberLength, rfl, hsizeAt,
            hsizeLength, hcontentAt, hlength, hmax, rfl⟩

theorem isReadFrom_controlAt {index : Nat} (h : index < rowTotal limits table) :
    IsReadFrom table (rowAt table index) ⟨heap, limits.memoSize.toNat⟩
      (controlAt limits table heap index) where
  inTable := (isAt_rowAt h).1
  whole := (isAt_rowAt h).2
  nonempty := (isAt_rowAt h).2 ▸ toldRowSize_pos h
  mark := rfl
  platform := isShortText_shortText _ _ _
  texts := by
    intro text htext
    simp only [controlAt, control, List.mem_cons, List.not_mem_nil, or_false] at htext
    rcases htext with rfl | rfl | rfl | rfl <;> exact isLongText_longText _ _ _ _

/-- The description of a column stands in the header, behind the first part of it. -/
theorem exists_of_mem_toldColumns {c : Column} (h : c ∈ toldColumns table) :
    ∃ description offset, IsAt description (table.take (toldHeaderSize table)) offset ∧
      description.length = headerUnit ∧ c = Column.ofBytes description ∧
      c.offset < toldRowSize table := by
  obtain ⟨hc, hoffset⟩ := List.mem_filter.1 h
  obtain ⟨description, hdescription, rfl⟩ := List.mem_map.1 hc
  have hpart := (List.takeWhile_sublist _).mem hdescription
  rw [parts_eq (by decide)] at hpart
  obtain ⟨i, hi, rfl⟩ := List.mem_map.1 hpart
  have hwhole : i < (table.take (toldHeaderSize table)).length / headerUnit - 1 := by
    rw [List.mem_range, List.length_drop] at hi
    have hbound := Nat.lt_of_lt_of_le hi (Nat.min_le_right _ _)
    simp only [headerUnit] at hbound ⊢
    omega
  have hinside : headerUnit + i * headerUnit + headerUnit ≤
      (table.take (toldHeaderSize table)).length := by
    simp only [headerUnit] at hwhole ⊢
    omega
  obtain ⟨hat, hlength⟩ := Octets.isAt_take_drop hinside
  rw [← List.drop_drop] at hat hlength
  exact ⟨_, _, hat, hlength, rfl, of_decide_eq_true hoffset⟩

/-! ## What is read -/

theorem range_prefix_of_le {few many : Nat} (h : few ≤ many) :
    List.range few <+: List.range many := by
  have htake : List.range few = (List.range many).take few := by
    rw [List.take_range, Nat.min_eq_left h]
  exact htake ▸ List.take_prefix few _

/-- What a lower limit allows to be read comes first in what a higher one allows. -/
theorem controls_prefix_of_le {few many : UInt64} (h : few ≤ many) {fewer more : List Control}
    (hfewer : controls { limits with formRecords := few } table heap = .ok fewer)
    (hmore : controls { limits with formRecords := many } table heap = .ok more) :
    fewer <+: more := by
  have htotal : rowTotal { limits with formRecords := few } table ≤
      rowTotal { limits with formRecords := many } table := by
    have hle := UInt64.le_iff_toNat_le.1 h
    simp only [rowTotal]
    omega
  rw [(eq_of_controls hfewer).2, (eq_of_controls hmore).2]
  -- The limit on the number of rows has no part in how one of them is read.
  exact (range_prefix_of_le htotal).map (controlAt limits table heap)

/-- Of any octets a table is refused exactly for its length and its header.  Of a table that is not,
as many rows are read as it tells, as the limit allows and as are whole, counted from zero.  Each is
read from where it stands in the table, its texts from the row and from the heap, and the columns
from the header.  Two limits on the number of rows give lists of which the shorter one comes first
in the longer one. -/
theorem controls_of_any_octets (limits : Limits) (table heap : List UInt8) :
    ((∃ e, controls limits table heap = .error e) ↔ IsRefused table) ∧
      (∀ found, controls limits table heap = .ok found →
        found.map Control.index = List.range (rowTotal limits table) ∧
          ∀ c ∈ found, ∃ row, IsReadFrom table row ⟨heap, limits.memoSize.toNat⟩ c) ∧
      (∀ c ∈ toldColumns table, ∃ description offset,
        IsAt description (table.take (toldHeaderSize table)) offset ∧
          description.length = headerUnit ∧ c = Column.ofBytes description ∧
          c.offset < toldRowSize table) ∧
      ∀ (few many : UInt64) (fewer more : List Control),
        controls { limits with formRecords := few } table heap = .ok fewer →
        controls { limits with formRecords := many } table heap = .ok more →
        fewer.length ≤ more.length → fewer <+: more := by
  refine ⟨isRefused_iff limits table heap, ?_, fun c => exists_of_mem_toldColumns, ?_⟩
  · intro found hfound
    obtain ⟨-, rfl⟩ := eq_of_controls hfound
    refine ⟨?_, fun c hc => ?_⟩
    · rw [List.map_map]
      exact List.map_id _
    · obtain ⟨index, hindex, rfl⟩ := List.mem_map.1 hc
      exact ⟨_, isReadFrom_controlAt (List.mem_range.1 hindex)⟩
  · intro few many fewer more hfewer hmore hlength
    rcases UInt64.le_total few many with hle | hle
    · exact controls_prefix_of_le hle hfewer hmore
    · have hfirst := controls_prefix_of_le hle hmore hfewer
      obtain rfl := hfirst.eq_of_length_le hlength
      exact List.prefix_refl _

end

instance {table : List UInt8} : Decidable (IsRefused table) :=
  inferInstanceAs (Decidable (table.length < headerUnit ∨ table.headD 0 ∉ versions ∨
    toldRowSize table = 0 ∨ toldHeaderSize table < headerUnit))

theorem formWithButton_clamped :
    ∃ fewer more,
      controls { formRecords := 1 } (table formWithButton) (heap formWithButton) = .ok fewer ∧
        controls {} (table formWithButton) (heap formWithButton) = .ok more ∧
        fewer.length = 1 ∧ more.length = 2 ∧ fewer <+: more ∧
        ∀ c ∈ more, ∃ row, IsReadFrom (table formWithButton) row
          ⟨heap formWithButton, ({} : Limits).memoSize.toNat⟩ c := by
  have hread : ¬ IsRefused (table formWithButton) := by decide +kernel
  have hfewer := controls_of_not_isRefused { formRecords := 1 } (heap formWithButton) hread
  have hmore := controls_of_not_isRefused {} (heap formWithButton) hread
  have hone : rowTotal { formRecords := 1 } (table formWithButton) = 1 := by decide +kernel
  have htwo : rowTotal {} (table formWithButton) = 2 := by decide +kernel
  obtain ⟨-, hrows, -, hfirst⟩ :=
    controls_of_any_octets {} (table formWithButton) (heap formWithButton)
  refine ⟨_, _, hfewer, hmore, ?_, ?_, hfirst 1 _ _ _ hfewer hmore ?_, (hrows _ hmore).2⟩
  · rw [List.length_map, List.length_range, hone]
  · rw [List.length_map, List.length_range, htwo]
  · rw [List.length_map, List.length_range, hone, List.length_map, List.length_range, htwo]
    decide

end SourceIndex.Idiom.FoxPro.Form
