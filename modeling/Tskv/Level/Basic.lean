import Tskv.Memcache.Basic

/-!
# Levels of column files

`tseries_family.rs`: a `ColumnFile` is the metadata of one file on disk, and a
`LevelInfo` holds the files of one level, their total size, and the range of
timestamps they cover.  `LevelInfo::apply` adds the file that a flush or a
compaction wrote, as its `CompactMeta` describes it, and widens the range;
`read_columnfile` scans a level for one field.

Two things these functions use are not in `src/`.  `CompactMeta` (`summary.rs`) is
the record of the fields `apply` reads, with the types `ColumnFile` stores them
in.  The index of a file (`tsm::IndexReader` and its `BlockMeta`s) is a parameter
of `read_columnfile`.

`apply` widens the upper end of the range correctly, but its guard for the lower
end compares against the new file's `ts_max`, not its `ts_min`.  A file that
reaches below the range while ending inside it leaves the range as it was
(`apply_misses_lower_bound`).  What does hold along every run of `apply`: the
upper end covers every file, and `cur_size` is the total size of the files not
deleted (`apply_keeps_size_and_upper_bound`).

The read paths compare strictly where deletion and pruning do not.  A
`TimeRange` is the closed range `[min_ts, max_ts]`: `MemEntry::delete_range`
removes the cells with `min_ts ≤ ts ≤ max_ts`, and `TimeRange::overlaps`, which
prunes the files of a level, holds when two closed ranges share a timestamp.
`MemEntry::read_cell` emits only the cells strictly inside the range, and the
block filter of `read_columnfile` keeps a block only when it starts strictly
before the query ends and ends strictly after it starts.  So a cell at an end of
the query, and a block that meets the query in one end timestamp, are missed
(`read_filters_miss_ends`).

## Main definitions

* `ColumnFile`, `CompactMeta`, `LevelInfo` — files, their descriptions, levels.
* `LevelInfo.init`, `LevelInfo.apply` — an empty level, and adding a file.
* `BlockMeta`, `LevelInfo.blockSelected`, `LevelInfo.readColumnfile` — the scan of
  a level: which blocks of which files it reads.
* `LevelInfo.Accounted` — what every run of `apply` keeps.
* `ColumnFile.markRemoved`, `ColumnFile.markCompaction`, `LevelInfo.step` — the
  flags a caller stores in a file the level holds.

## Main results

* `LevelInfo.apply_keeps_size_and_upper_bound` — the size and the upper end of
  the range along every run.
* `LevelInfo.apply_misses_lower_bound` — the lower end misses a file.
* `LevelInfo.read_filters_miss_ends` — a cell and a block at an end of the query
  are not read.
* `LevelInfo.curSize_counts_removed_files` — a file marked removed stays in the
  level and in `cur_size`.
-/

namespace Tskv

/-! ### Files and levels -/

/-- `ColumnFile`: the metadata of one file.  `being_compact` and `deleted` are the
values of its atomic flags; `ColumnFileId` is taken as a `u64`.  The bloom filter
of field ids is not modelled: no modelled function reads it. -/
structure ColumnFile where
  fileId : UInt64
  beingCompact : Bool
  deleted : Bool
  range : TimeRange
  size : UInt64
  isDelta : Bool
  deriving DecidableEq

namespace ColumnFile

/-- `ColumnFile::is_deleted`. -/
def isDeleted (self : ColumnFile) : Bool := self.deleted

/-- `ColumnFile::overlap`. -/
def overlap (self : ColumnFile) (timeRange : TimeRange) : Bool := self.range.overlaps timeRange

/-- `ColumnFile::mark_removed`: store `true` in the `deleted` flag. -/
def markRemoved (self : ColumnFile) : ColumnFile := { self with deleted := true }

/-- `ColumnFile::mark_compaction`: store `true` in the `being_compact` flag. -/
def markCompaction (self : ColumnFile) : ColumnFile := { self with beingCompact := true }

end ColumnFile

/-- `CompactMeta`, which `src/` does not contain, as `LevelInfo::apply` reads it:
the new file's id, size, bounds and kind. -/
structure CompactMeta where
  fileId : UInt64
  fileSize : UInt64
  tsMin : I64
  tsMax : I64
  isDelta : Bool
  deriving DecidableEq

/-- `LevelInfo`.  `tsf_opt` only locates files on disk, which the index parameter
of `read_columnfile` stands for, and is not modelled. -/
structure LevelInfo where
  files : List ColumnFile
  level : UInt32
  curSize : UInt64
  maxSize : UInt64
  tsRange : TimeRange
  deriving DecidableEq

namespace LevelInfo

/-- `LevelInfo::init`: no files, and the range `[0, 0]`. -/
def init (level : UInt32) : LevelInfo :=
  ⟨[], level, 0, 0, ⟨I64.ofInt 0, I64.ofInt 0⟩⟩

/-- `LevelInfo::apply`: append the file `delta` describes, add its size (a `u64`
that wraps as release builds do), and widen the range.  The guard of the lower
end reads `delta.ts_max`, as the code has it. -/
def apply (self : LevelInfo) (delta : CompactMeta) : LevelInfo :=
  { self with
    files := self.files ++ [⟨delta.fileId, false, false, TimeRange.new delta.tsMax delta.tsMin,
      delta.fileSize, delta.isDelta⟩]
    curSize := self.curSize + delta.fileSize
    tsRange :=
      ⟨if self.tsRange.maxTs < delta.tsMax then delta.tsMax else self.tsRange.maxTs,
        if self.tsRange.minTs > delta.tsMax then delta.tsMin else self.tsRange.minTs⟩ }

@[simp] theorem files_apply (l : LevelInfo) (d : CompactMeta) :
    (l.apply d).files = l.files ++ [⟨d.fileId, false, false, TimeRange.new d.tsMax d.tsMin,
      d.fileSize, d.isDelta⟩] := rfl

@[simp] theorem curSize_apply (l : LevelInfo) (d : CompactMeta) :
    (l.apply d).curSize = l.curSize + d.fileSize := rfl

@[simp] theorem maxTs_apply (l : LevelInfo) (d : CompactMeta) :
    (l.apply d).tsRange.maxTs = if l.tsRange.maxTs < d.tsMax then d.tsMax else l.tsRange.maxTs :=
  rfl

@[simp] theorem minTs_apply (l : LevelInfo) (d : CompactMeta) :
    (l.apply d).tsRange.minTs = if l.tsRange.minTs > d.tsMax then d.tsMin else l.tsRange.minTs :=
  rfl

/-! ### The scan of a level -/

/-- The bounds of a block in a file's index, as `BlockMeta::min_ts` and
`BlockMeta::max_ts` give them. -/
structure BlockMeta where
  minTs : I64
  maxTs : I64
  deriving DecidableEq

/-- The block filter of `read_columnfile`: strict at both ends. -/
def blockSelected (blk : BlockMeta) (timeRange : TimeRange) : Bool :=
  blk.minTs < timeRange.maxTs && blk.maxTs > timeRange.minTs

/-- `LevelInfo::read_columnfile`: the file and the block of every `ColumnReader`
it starts, in order.  It skips deleted files and files whose range misses the
query, and in the others reads every index entry of the field and tests each
block's bounds.  `index f field` is `IndexReader::open(f).unwrap().iter_opt(field)`,
one list of blocks per entry, and `none` where opening the file or its index
panics.  The reader's own output, `idx.iter_opt(min_ts, max_ts)` through the
codec, is outside `src/`; `tf_id` is unused by the code. -/
def readColumnfile (self : LevelInfo) (index : ColumnFile → FieldId → Option (List (List BlockMeta)))
    (_tfId : UInt32) (fieldId : FieldId) (timeRange : TimeRange) :
    Option (List (ColumnFile × BlockMeta)) :=
  (self.files.mapM fun file =>
    if file.isDeleted || !file.overlap timeRange then some []
    else (index file fieldId).map fun idxs =>
      (idxs.flatMap fun blks => blks.filter (blockSelected · timeRange)).map (file, ·)).map
    List.flatten

/-- **The read filters miss the ends of the range.**  A cell at `5` in an entry
read over `[5, 10]`: `delete_range` removes it and `read_cell` does not emit it.
A level of one file over `[0, 10]` whose index holds one block `[10, 20]` for the
field, scanned over `[0, 10]`: the block shares the timestamp `10` with the
query and `TimeRange::overlaps` says so, but the scan reads no block. -/
theorem read_filters_miss_ends :
    (MemEntry.mk (I64.ofInt 5) (I64.ofInt 5) .unsigned [.u64 (I64.ofInt 5) 1]).readCell
        ⟨I64.ofInt 10, I64.ofInt 5⟩ = [] ∧
      ((MemEntry.mk (I64.ofInt 5) (I64.ofInt 5) .unsigned [.u64 (I64.ofInt 5) 1]).deleteRange
        ⟨I64.ofInt 10, I64.ofInt 5⟩).cells = [] ∧
      (LevelInfo.mk [⟨1, false, false, ⟨I64.ofInt 10, I64.ofInt 0⟩, 0, false⟩] 0 0 0
        ⟨I64.ofInt 10, I64.ofInt 0⟩).readColumnfile
        (fun _ _ => some [[⟨I64.ofInt 10, I64.ofInt 20⟩]]) 0 1 ⟨I64.ofInt 10, I64.ofInt 0⟩ =
        some [] ∧
      (TimeRange.new (I64.ofInt 20) (I64.ofInt 10)).overlaps ⟨I64.ofInt 10, I64.ofInt 0⟩ = true :=
  ⟨by decide, by decide, by decide, by decide⟩

/-! ### The size and the range along runs of `apply` -/

/-- What every run of `apply` keeps: `cur_size` is the total size of the files
not deleted, and the upper end of the range is at or past every file's. -/
structure Accounted (l : LevelInfo) : Prop where
  curSize : l.curSize = ((l.files.filter (!·.deleted)).map (·.size)).sum
  maxTs : ∀ f ∈ l.files, f.range.maxTs ≤ l.tsRange.maxTs

theorem accounted_init (level : UInt32) : (init level).Accounted :=
  ⟨rfl, fun _ hf => (List.not_mem_nil _ hf).elim⟩

/-- `apply` keeps the upper end of the range and takes it to the new file's. -/
theorem maxTs_le_apply (l : LevelInfo) (d : CompactMeta) :
    l.tsRange.maxTs ≤ (l.apply d).tsRange.maxTs ∧ d.tsMax ≤ (l.apply d).tsRange.maxTs := by
  rw [maxTs_apply]
  split <;> simp only [I64.lt_def, I64.le_def] at * <;> omega

/-- A file `apply` adds ends at or before the new upper end, and so do the files
that did before. -/
theorem maxTs_apply_of_forall {l : LevelInfo} (h : ∀ f ∈ l.files, f.range.maxTs ≤ l.tsRange.maxTs)
    (d : CompactMeta) : ∀ f ∈ (l.apply d).files, f.range.maxTs ≤ (l.apply d).tsRange.maxTs := by
  intro f hf
  rcases List.mem_append.1 hf with hf | hf
  · exact I64.le_trans (h f hf) (maxTs_le_apply l d).1
  · rw [List.mem_singleton.1 hf]
    exact (maxTs_le_apply l d).2

theorem Accounted.apply {l : LevelInfo} (hl : l.Accounted) (d : CompactMeta) :
    (l.apply d).Accounted :=
  ⟨by simp [hl.curSize, List.filter_append], maxTs_apply_of_forall hl.maxTs d⟩

theorem Accounted.foldl {l : LevelInfo} (hl : l.Accounted) (deltas : List CompactMeta) :
    (deltas.foldl LevelInfo.apply l).Accounted := by
  induction deltas generalizing l with
  | nil => exact hl
  | cons d deltas ih => exact ih (hl.apply d)

/-- **The size and the upper end of the range along every run of `apply`** from
`LevelInfo::init`, with any deltas: `cur_size` is the total size, wrapping as a
`u64`, of the files not deleted, and every file ends at or before `ts_range.max_ts`. -/
theorem apply_keeps_size_and_upper_bound (level : UInt32) (deltas : List CompactMeta) :
    (deltas.foldl apply (init level)).curSize =
        (((deltas.foldl apply (init level)).files.filter (!·.deleted)).map (·.size)).sum ∧
      ∀ f ∈ (deltas.foldl apply (init level)).files,
        f.range.maxTs ≤ (deltas.foldl apply (init level)).tsRange.maxTs :=
  have h := (accounted_init level).foldl deltas
  ⟨h.curSize, h.maxTs⟩

/-- **The lower end of the range misses a file.**  On an empty level, a file
from `-5` to `5`: the guard compares the range's lower end `0` with the file's
upper end `5`, so the range stays `[0, 5]`, and the file starts before it. -/
theorem apply_misses_lower_bound :
    ((init 0).apply ⟨1, 0, I64.ofInt (-5), I64.ofInt 5, false⟩).files =
        [⟨1, false, false, ⟨I64.ofInt 5, I64.ofInt (-5)⟩, 0, false⟩] ∧
      ((init 0).apply ⟨1, 0, I64.ofInt (-5), I64.ofInt 5, false⟩).tsRange =
        ⟨I64.ofInt 5, I64.ofInt 0⟩ ∧
      I64.ofInt (-5) < I64.ofInt 0 :=
  ⟨rfl, by decide, by decide⟩

/-! ### Marking files

`mark_removed` and `mark_compaction` store a flag of a file through the `Arc`
that the level shares with its caller.  Neither touches `files`, `cur_size` or the
range: a file marked removed stays in the level and in its size, and only
`read_columnfile` tells it apart, by skipping it. -/

/-- The calls a caller can make on a level: `apply`, and `mark_removed` or
`mark_compaction` on the file at an index of `files` (each `apply` allocates a new
`Arc`, so the files of a level are distinct); an index past the end is a file the
level does not hold. -/
inductive Op
  | apply (delta : CompactMeta)
  | markRemoved (i : Nat)
  | markCompaction (i : Nat)

/-- The delta of an `apply`. -/
def Op.appliedDelta : Op → Option CompactMeta
  | .apply delta => some delta
  | .markRemoved _ | .markCompaction _ => none

/-- One call. -/
def step (l : LevelInfo) : Op → LevelInfo
  | .apply delta => l.apply delta
  | .markRemoved i => { l with files := l.files.modify ColumnFile.markRemoved i }
  | .markCompaction i => { l with files := l.files.modify ColumnFile.markCompaction i }

theorem map_modify_of_comp {α β : Type} (g : α → β) {f : α → α}
    (hf : ∀ a, g (f a) = g a) (i : Nat) (l : List α) : (l.modify f i).map g = l.map g := by
  refine List.ext_getElem? fun m => ?_
  simp only [List.getElem?_map, List.getElem?_modify]
  cases l[m]? with
  | none => rfl
  | some a => by_cases h : i = m <;> simp [h, hf]

/-- Through any run, what a view `g` of the files sees is what it saw, then one
entry per `apply`, when the flags are invisible to `g`. -/
theorem map_files_foldl_step {β : Type} (g : ColumnFile → β) (h : CompactMeta → β)
    (hr : ∀ f, g f.markRemoved = g f) (hc : ∀ f, g f.markCompaction = g f)
    (ha : ∀ d,
      g ⟨d.fileId, false, false, TimeRange.new d.tsMax d.tsMin, d.fileSize, d.isDelta⟩ = h d) :
    ∀ (ops : List Op) (l : LevelInfo),
      (ops.foldl step l).files.map g = l.files.map g ++ (ops.filterMap Op.appliedDelta).map h
  | [], _ => by simp
  | op :: ops, l => by
    rw [List.foldl_cons, map_files_foldl_step g h hr hc ha ops]
    cases op with
    | apply d => simp [step, Op.appliedDelta, ha]
    | markRemoved i => simp [step, Op.appliedDelta, map_modify_of_comp g hr]
    | markCompaction i => simp [step, Op.appliedDelta, map_modify_of_comp g hc]

/-- Through any run, `cur_size` grows by the size of every delta applied. -/
theorem curSize_foldl_step : ∀ (ops : List Op) (l : LevelInfo),
    (ops.foldl step l).curSize = l.curSize + ((ops.filterMap Op.appliedDelta).map (·.fileSize)).sum
  | [], _ => (add_zero _).symm
  | op :: ops, l => by
    rw [List.foldl_cons, curSize_foldl_step ops]
    cases op <;> simp [step, Op.appliedDelta, add_assoc]

/-- Setting a flag of a file keeps every file within the range. -/
theorem maxTs_modify {l : LevelInfo} (h : ∀ f ∈ l.files, f.range.maxTs ≤ l.tsRange.maxTs)
    {g : ColumnFile → ColumnFile} (hg : ∀ f, (g f).range = f.range) (i : Nat) :
    ∀ f ∈ l.files.modify g i, f.range.maxTs ≤ l.tsRange.maxTs := by
  refine (List.forall_mem_map (P := fun r : TimeRange => r.maxTs ≤ l.tsRange.maxTs)).1 ?_
  rw [map_modify_of_comp _ hg]
  exact List.forall_mem_map.2 h

/-- Every call keeps the upper end of the range at or past every file's. -/
theorem maxTs_foldl_step : ∀ (ops : List Op) {l : LevelInfo},
    (∀ f ∈ l.files, f.range.maxTs ≤ l.tsRange.maxTs) →
      ∀ f ∈ (ops.foldl step l).files, f.range.maxTs ≤ (ops.foldl step l).tsRange.maxTs
  | [], _, h => h
  | op :: ops, l, h => by
    refine maxTs_foldl_step ops ?_
    cases op with
    | apply d => exact maxTs_apply_of_forall h d
    | markRemoved i => exact maxTs_modify h (g := ColumnFile.markRemoved) (fun _ => rfl) i
    | markCompaction i => exact maxTs_modify h (g := ColumnFile.markCompaction) (fun _ => rfl) i

/-- **A file marked removed stays in the level and in `cur_size`.**  Along every
run of `apply`, `mark_removed` and `mark_compaction` from `LevelInfo::init`, the
level holds one file per `apply`, in order, whatever has been marked; `cur_size`
is the total size, wrapping as a `u64`, of all of them, the removed ones
included; and every file ends at or before `ts_range.max_ts`. -/
theorem curSize_counts_removed_files (level : UInt32) (ops : List Op) :
    (ops.foldl step (init level)).files.map (·.fileId) =
        (ops.filterMap Op.appliedDelta).map (·.fileId) ∧
      (ops.foldl step (init level)).curSize =
        ((ops.foldl step (init level)).files.map (·.size)).sum ∧
      ∀ f ∈ (ops.foldl step (init level)).files,
        f.range.maxTs ≤ (ops.foldl step (init level)).tsRange.maxTs := by
  have hsize := map_files_foldl_step (·.size) (·.fileSize) (fun _ => rfl) (fun _ => rfl)
    (fun _ => rfl) ops (init level)
  refine ⟨map_files_foldl_step (·.fileId) (·.fileId) (fun _ => rfl) (fun _ => rfl)
    (fun _ => rfl) ops _, ?_,
    maxTs_foldl_step ops fun _ hf => (List.not_mem_nil _ hf).elim⟩
  rw [curSize_foldl_step, hsize]
  exact zero_add _

example : (((init 0).step (.apply ⟨1, 7, I64.ofInt 0, I64.ofInt 5, false⟩)).step
    (.markRemoved 0)).curSize = 7 := rfl

end LevelInfo

end Tskv
