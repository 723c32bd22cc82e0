import Tskv.Memcache.Basic
import Tskv.Block.Basic

/-!
# Invariants of a memory table

The caches a caller reaches from `MemCache::new` by `insert`, `insert_raw`,
`delete_range` and `switch_to_immutable`, and what holds of every one of them.

The time bounds of an entry always enclose its cells: `insert` widens them,
`delete_range` only drops cells, and the sort only reorders them.  The declared
type of an entry is another matter: `insert` overwrites it with whatever type it
is given, so a field written with two types holds cells of a type the entry no
longer declares, and `batch_insert` into a block of the declared type drops them.
The code relies on its callers for this; the comment on `data_cache` says the
field id contains the field type.  Under that contract every cell has the
declared type and the flush block keeps every row.

## Main results

* `MemCache.entry_bounds_of_reachable` — every cell lies within its entry's bounds.
* `MemCache.field_written_twice_drops_a_row` — two types for one field lose a row.
* `MemCache.batchInsert_keeps_every_cell` — one type per field keeps every row.
* `MemCache.cacheSize_counts_inserts` — `cache_size` counts insertions, deleted
  cells included.
* `MemCache.seqNo_run` — `seq_no` is the `seq` of the last `insert_raw`.
-/

namespace Tskv

/-- The calls a caller can make on a `MemCache`. -/
inductive CacheOp
  | insert (fieldId : FieldId) (val : DataType) (valueType : ValueType)
  | insertRaw (seq : UInt64) (fieldId : FieldId) (ts : I64) (fieldType : ValueType)
      (buf : List UInt8)
  | deleteRange (fieldIds : List FieldId) (range : TimeRange)
  | switchToImmutable

/-- The `seq` of an `insert_raw`. -/
def CacheOp.rawSeq : CacheOp → Option UInt64
  | .insertRaw seq .. => some seq
  | .insert .. | .deleteRange .. | .switchToImmutable => none

/-- Whether the call adds a cell: `insert`, and `insert_raw`, which calls it. -/
def CacheOp.isInsert : CacheOp → Bool
  | .insert .. | .insertRaw .. => true
  | .deleteRange .. | .switchToImmutable => false

namespace MemEntry

/-- Every cell of the entry lies within the entry's bounds. -/
def Bounded (e : MemEntry) : Prop :=
  ∀ c ∈ e.cells, e.tsMin ≤ c.timestamp ∧ c.timestamp ≤ e.tsMax

theorem bounded_default : MemEntry.default.Bounded := fun _ hc => absurd hc (List.not_mem_nil _)

theorem Bounded.push {e : MemEntry} (he : e.Bounded) (val : DataType) (vt : ValueType) :
    (e.push val vt).Bounded := by
  intro c hc
  simp only [MemEntry.push, List.mem_append, List.mem_singleton] at hc ⊢
  rcases hc with hc | rfl
  · have := he c hc
    constructor <;> split <;> simp_all <;> omega
  · constructor <;> split <;> simp_all

theorem Bounded.deleteRange {e : MemEntry} (he : e.Bounded) (r : TimeRange) :
    (e.deleteRange r).Bounded := fun c hc => he c (List.mem_of_mem_filter hc)

theorem Bounded.sortCells {e : MemEntry} (he : e.Bounded) : e.sortCells.Bounded :=
  fun c hc => he c (List.mem_mergeSort.1 hc)

end MemEntry

namespace MemCache

variable (env : Env)

/-- One call. -/
def apply (m : MemCache) : CacheOp → Option MemCache
  | .insert k val vt => some (m.insert env k val vt)
  | .insertRaw seq k ts ft buf => m.insertRaw env seq k ts ft buf
  | .deleteRange ks r => some (m.deleteRange ks r)
  | .switchToImmutable => some m.switchToImmutable

/-- The caches reached from `MemCache::new` by calls satisfying `ok`. -/
inductive Reachable (ok : CacheOp → Prop) : MemCache → Prop
  | new (tfId : UInt32) (maxSize seq : UInt64) : Reachable ok (MemCache.new tfId maxSize seq)
  | step {m m' : MemCache} (op : CacheOp) :
      Reachable ok m → ok op → m.apply env op = some m' → Reachable ok m'

/-- Every entry of the cache is bounded. -/
def Bounded (m : MemCache) : Prop := ∀ p ∈ m.dataCache.entries, p.2.Bounded

theorem Bounded.deleteRange {m : MemCache} (hm : m.Bounded) (ks : List FieldId)
    (r : TimeRange) : (m.deleteRange ks r).Bounded := by
  simp only [Bounded, MemCache.deleteRange]
  induction ks generalizing m with
  | nil => exact hm
  | cons k ks ih =>
    exact ih (m := { m with dataCache := m.dataCache.modifyAt k (·.deleteRange r) })
      (forall_modifyEntries hm fun _ he => he.deleteRange r)

theorem Bounded.insert {m : MemCache} (hm : m.Bounded) (k : FieldId) (val : DataType)
    (vt : ValueType) : (m.insert env k val vt).Bounded :=
  forall_upsertEntries hm (MemEntry.bounded_default.push _ _) fun _ he => he.push _ _

theorem Bounded.switchToImmutable {m : MemCache} (hm : m.Bounded) : m.switchToImmutable.Bounded := by
  intro p hp
  simp only [dataCache_switchToImmutable, FieldMap.entries_mapEntries, List.mem_map] at hp
  obtain ⟨q, hq, rfl⟩ := hp
  exact (hm q hq).sortCells

theorem Bounded.apply {m m' : MemCache} (hm : m.Bounded) {op : CacheOp}
    (h : m.apply env op = some m') : m'.Bounded := by
  cases op with
  | insert k val vt => cases h; exact hm.insert env k val vt
  | insertRaw seq k ts ft buf =>
    obtain ⟨data, -, rfl⟩ := insertRaw_eq_some env h
    exact Bounded.insert env hm k data ft
  | deleteRange ks r => cases h; exact hm.deleteRange ks r
  | switchToImmutable => cases h; exact hm.switchToImmutable

theorem Reachable.bounded {ok : CacheOp → Prop} {m : MemCache} (hm : m.Reachable env ok) :
    m.Bounded := by
  induction hm with
  | new => simp [Bounded]
  | step op _ _ h ih => exact Bounded.apply env ih h

/-- **The bounds of every entry enclose its cells**, in every cache reached from
`MemCache::new` by any calls, whatever the timestamps, `i64::MIN` and `i64::MAX`
against the initial bounds included. -/
theorem entry_bounds_of_reachable {ok : CacheOp → Prop} {m : MemCache}
    (hm : m.Reachable env ok) :
    ∀ p ∈ m.dataCache.entries, ∀ c ∈ p.2.cells, p.2.tsMin ≤ c.timestamp ∧ c.timestamp ≤ p.2.tsMax :=
  hm.bounded env

theorem entry_bounds_after_insert_at_min :
    ((MemCache.new 0 64 0).insert (Env.ofLimits 32 64 2) 1 (.u64 I64.MIN 0) .unsigned).Reachable
        (Env.ofLimits 32 64 2) (fun _ => True) ∧
      ∀ p ∈ ((MemCache.new 0 64 0).insert (Env.ofLimits 32 64 2) 1 (.u64 I64.MIN 0)
        .unsigned).dataCache.entries, ∀ c ∈ p.2.cells,
          p.2.tsMin ≤ c.timestamp ∧ c.timestamp ≤ p.2.tsMax :=
  have h := @Reachable.step (Env.ofLimits 32 64 2) (fun _ => True) _ _
    (.insert 1 (.u64 I64.MIN 0) .unsigned) (.new 0 64 0) trivial rfl
  ⟨h, entry_bounds_of_reachable _ h⟩

/-! ### Declared types -/

/-- The calls of a caller that writes every field id with the one type
`typeOf` gives it, through `insert_raw` only. -/
def OneTypePerField (typeOf : FieldId → ValueType) : CacheOp → Prop
  | .insertRaw _ k _ ft _ => ft = typeOf k
  | .deleteRange .. | .switchToImmutable => True
  | .insert .. => False

/-- The calls the family's ingest path makes on a cache, with no typed `insert`:
`insert_raw`, `delete_range` and `switch_to_immutable`. -/
def RawOps : CacheOp → Prop
  | .insert .. => False
  | _ => True

/-- A field written as an integer and then as a float: the entry declares a
float, its first cell is an integer, and a float block built for the entry keeps
one of its two cells. -/
theorem field_written_twice_drops_a_row :
    ∃ m : MemCache, m.Reachable (Env.ofLimits 32 64 2) RawOps ∧
      ∃ p ∈ m.dataCache.entries, p.2.cells.length = 2 ∧
        ∃ b, DataBlock.new 2 p.2.fieldType = some b ∧ (b.batchInsert p.2.cells).len = 1 :=
  ⟨_, .step (.insertRaw 0 1 I64.MIN .float [])
      (.step (.insertRaw 0 1 I64.MIN .integer []) (.new 0 64 0) trivial rfl) trivial rfl,
    _, List.mem_singleton_self _, rfl, _, rfl, rfl⟩

/-- The entries of a one-type-per-field cache declare their key's type and
hold only cells of it. -/
def Typed (typeOf : FieldId → ValueType) (m : MemCache) : Prop :=
  ∀ p ∈ m.dataCache.entries, p.2.fieldType = typeOf p.1 ∧ p.2.fieldType ≠ .unknown ∧
    ∀ c ∈ p.2.cells, c.fieldType = p.2.fieldType

theorem Typed.deleteRange {typeOf : FieldId → ValueType} {m : MemCache} (hm : Typed typeOf m)
    (ks : List FieldId) (r : TimeRange) : Typed typeOf (m.deleteRange ks r) := by
  simp only [Typed, MemCache.deleteRange]
  induction ks generalizing m with
  | nil => exact hm
  | cons k ks ih =>
    exact ih (m := { m with dataCache := m.dataCache.modifyAt k (·.deleteRange r) })
      (forall_modifyEntries hm fun _ he =>
        ⟨he.1, he.2.1, fun c hc => he.2.2 c (List.mem_of_mem_filter hc)⟩)

theorem Typed.apply {typeOf : FieldId → ValueType} {m m' : MemCache} (hm : Typed typeOf m)
    {op : CacheOp} (hok : OneTypePerField typeOf op) (h : m.apply env op = some m') :
    Typed typeOf m' := by
  cases op with
  | insert => exact hok.elim
  | insertRaw seq k ts ft buf =>
    obtain ⟨data, hd, rfl⟩ := insertRaw_eq_some env h
    have hft := (decodeRaw_eq_some env hd).2
    have hne : ft ≠ .unknown := by rintro rfl; simp [decodeRaw] at hd
    simp only [OneTypePerField] at hok
    subst hok
    refine forall_upsertEntries hm ⟨rfl, hne, ?_⟩ fun e he => ⟨rfl, hne, ?_⟩
    · simp [MemEntry.push, hft]
    · simp only [MemEntry.cells_push, MemEntry.fieldType_push, List.mem_append,
        List.mem_singleton]
      rintro c (hc | rfl)
      · exact (he.2.2 c hc).trans he.1
      · exact hft
  | deleteRange ks r => cases h; exact hm.deleteRange ks r
  | switchToImmutable =>
    cases h
    intro p hp
    simp only [dataCache_switchToImmutable, FieldMap.entries_mapEntries, List.mem_map] at hp
    obtain ⟨q, hq, rfl⟩ := hp
    obtain ⟨h1, h2, h3⟩ := hm q hq
    exact ⟨h1, h2, fun c hc => h3 c (List.mem_mergeSort.1 hc)⟩

/-- **With one type per field id, every cell has its entry's declared type**, and
`DataBlock::new(cells.len(), field_type)` followed by `batch_insert(&cells)` keeps
every cell, in order. -/
theorem batchInsert_keeps_every_cell {typeOf : FieldId → ValueType} {m : MemCache}
    (hm : m.Reachable env (OneTypePerField typeOf)) :
    ∀ p ∈ m.dataCache.entries, (∀ c ∈ p.2.cells, c.fieldType = p.2.fieldType) ∧
      ∃ b, DataBlock.new p.2.cells.length p.2.fieldType = some b ∧
        (b.batchInsert p.2.cells).cells = p.2.cells ∧
        (b.batchInsert p.2.cells).len = p.2.cells.length := by
  have typed : Typed typeOf m := by
    induction hm with
    | new => simp [Typed]
    | step op _ hok h ih => exact ih.apply env hok h
  intro p hp
  obtain ⟨-, hne, hcells⟩ := typed p hp
  obtain ⟨b, hb, hbc, hbt, hbw⟩ := DataBlock.new_eq_some hne p.2.cells.length
  obtain ⟨h1, -, h3⟩ := DataBlock.batchInsert_of_fieldType_eq hbw fun c hc => hbt ▸ hcells c hc
  refine ⟨hcells, b, hb, by simpa [hbc] using h1, ?_⟩
  rw [DataBlock.len_eq_length_cells h3, h1, hbc, List.nil_append]

theorem batchInsert_keeps_every_cell_of_integer_field :
    ((MemCache.new 0 64 0).insert (Env.ofLimits 32 64 2) 1 (.i64 I64.MIN (I64.ofInt 0))
        .integer).Reachable (Env.ofLimits 32 64 2) (OneTypePerField fun _ => .integer) ∧
      ∀ p ∈ ((MemCache.new 0 64 0).insert (Env.ofLimits 32 64 2) 1
          (.i64 I64.MIN (I64.ofInt 0)) .integer).dataCache.entries,
        (∀ c ∈ p.2.cells, c.fieldType = p.2.fieldType) ∧
        ∃ b, DataBlock.new p.2.cells.length p.2.fieldType = some b ∧
          (b.batchInsert p.2.cells).cells = p.2.cells ∧
          (b.batchInsert p.2.cells).len = p.2.cells.length :=
  have h := @Reachable.step (Env.ofLimits 32 64 2) (OneTypePerField fun _ => .integer) _ _
    (.insertRaw 0 1 I64.MIN .integer []) (.new 0 64 0) rfl rfl
  ⟨h, batchInsert_keeps_every_cell _ h⟩

/-! ### Size accounting

`insert` adds `size_of_val(&val)` to `cache_size`, the size of the enum whatever
the cell; nothing else touches it.  A deleted cell stays counted, so `is_full`
depends on the number of insertions alone. -/

/-- The calls one after the other; `none` if one of them panics. -/
def run : MemCache → List CacheOp → Option MemCache
  | m, [] => some m
  | m, op :: ops => (m.apply env op).bind fun m' => run m' ops

theorem cells_modifyEntries_sublist (dc : List (FieldId × MemEntry)) (k : FieldId)
    {f : MemEntry → MemEntry} (hf : ∀ e, (f e).cells.Sublist e.cells) :
    ((modifyEntries dc k f).flatMap fun p => p.2.cells.map (p.1, ·)).Sublist
      (dc.flatMap fun p => p.2.cells.map (p.1, ·)) := by
  induction dc with
  | nil => exact .slnil
  | cons q dc ih =>
    simp only [modifyEntries]
    split
    · exact ((hf q.2).map _).append (.refl _)
    · exact ih.append_left _

/-- `delete_range` only drops cells. -/
theorem cells_deleteRange_sublist (m : MemCache) (ks : List FieldId) (r : TimeRange) :
    (m.deleteRange ks r).cells.Sublist m.cells := by
  induction ks generalizing m with
  | nil => exact .refl _
  | cons k ks ih =>
    exact (ih { m with dataCache := m.dataCache.modifyAt k (·.deleteRange r) }).trans
      (cells_modifyEntries_sublist _ k fun e => List.filter_sublist e.cells)

/-- One call: the limit is kept, an insertion adds the enum's size to
`cache_size` and at most one cell, any other call adds nothing to either. -/
theorem apply_accounting {m m' : MemCache} {op : CacheOp} (h : m.apply env op = some m') :
    m'.maxBufSize = m.maxBufSize ∧
      m'.cacheSize = m.cacheSize + (if op.isInsert then env.sizeOfDataType else 0) ∧
      m'.cells.length ≤ m.cells.length + if op.isInsert then 1 else 0 := by
  cases op with
  | insert k val vt =>
    cases h
    exact ⟨rfl, rfl,
      (cells_insert env m k val vt).length_eq.trans_le (by simp [CacheOp.isInsert])⟩
  | insertRaw seq k ts ft buf =>
    obtain ⟨data, -, rfl⟩ := insertRaw_eq_some env h
    exact ⟨rfl, rfl,
      (cells_insert env _ k data ft).length_eq.trans_le (by simp [cells, CacheOp.isInsert])⟩
  | deleteRange ks r =>
    cases h
    exact ⟨rfl, (add_zero _).symm, (cells_deleteRange_sublist m ks r).length_le⟩
  | switchToImmutable =>
    cases h
    exact ⟨rfl, (add_zero _).symm, (cells_switchToImmutable m).length_eq.le⟩

/-- Every run: `cache_size` grows by the enum's size per insertion, and the
cells grow by at most one per insertion. -/
theorem run_accounting : ∀ {m m' : MemCache} (ops : List CacheOp), m.run env ops = some m' →
    m'.maxBufSize = m.maxBufSize ∧
      m'.cacheSize = m.cacheSize + ops.countP CacheOp.isInsert • env.sizeOfDataType ∧
      m'.cells.length ≤ m.cells.length + ops.countP CacheOp.isInsert
  | _, _, [], h => by
    cases h
    exact ⟨rfl, by rw [List.countP_nil, zero_nsmul, add_zero], Nat.le_add_right _ _⟩
  | m, m', op :: ops, h => by
    obtain ⟨m₁, h₁, h'⟩ := Option.bind_eq_some.1 h
    obtain ⟨b₁, s₁, c₁⟩ := apply_accounting env h₁
    obtain ⟨b, s, c⟩ := run_accounting ops h'
    rw [List.countP_cons, add_nsmul, s, s₁]
    refine ⟨b.trans b₁, ?_, by omega⟩
    cases op.isInsert
    · simp only [Bool.false_eq_true, ↓reduceIte, zero_nsmul, add_zero]
    · simp only [↓reduceIte, one_nsmul]
      ac_rfl

/-- **`cache_size` counts insertions, not cells.**  From `MemCache::new`, after
any calls none of which panics, `cache_size` is the enum's size times the number
of insertions, wrapping at `2^64`, and `is_full` compares that product with
`max_size`, however many cells `delete_range` has dropped; the cache holds at most
one cell per insertion. -/
theorem cacheSize_counts_inserts (tfId : UInt32) (maxSize seq : UInt64) (ops : List CacheOp)
    {m : MemCache} (h : (new tfId maxSize seq).run env ops = some m) :
    m.cacheSize = ops.countP CacheOp.isInsert • env.sizeOfDataType ∧
      m.isFull = decide (maxSize ≤ ops.countP CacheOp.isInsert • env.sizeOfDataType) ∧
      m.cells.length ≤ ops.countP CacheOp.isInsert := by
  obtain ⟨hb, hs, hc⟩ := run_accounting env ops h
  simp only [new, zero_add] at hs
  refine ⟨hs, ?_, by simpa using hc⟩
  rw [isFull, hb, hs]
  rfl

/-- Two cells inserted under a 64-byte limit and one of them deleted: the cache
holds one cell, and its size counts two. -/
theorem cacheSize_counts_deleted_cell :
    ∃ ops m, ops = [.insert 1 (.u64 (I64.ofInt 1) 10) .unsigned,
        .insert 1 (.u64 (I64.ofInt 2) 20) .unsigned,
        .deleteRange [1] ⟨I64.ofInt 1, I64.ofInt 1⟩] ∧
      (new 0 64 0).run (Env.ofLimits 32 64 2) ops = some m ∧ m.cells.length = 1 ∧
      (m.cacheSize = ops.countP CacheOp.isInsert • (Env.ofLimits 32 64 2).sizeOfDataType ∧
        m.isFull = decide ((64 : UInt64) ≤
          ops.countP CacheOp.isInsert • (Env.ofLimits 32 64 2).sizeOfDataType) ∧
        m.cells.length ≤ ops.countP CacheOp.isInsert) :=
  ⟨_, _, rfl, rfl, rfl, cacheSize_counts_inserts _ 0 64 0 _ rfl⟩

example : ((new 0 64 0).run (Env.ofLimits 32 64 2) [.insert 1 (.u64 (I64.ofInt 1) 10) .unsigned,
    .insert 1 (.u64 (I64.ofInt 2) 20) .unsigned,
    .deleteRange [1] ⟨I64.ofInt 1, I64.ofInt 1⟩]).map isFull = some true := rfl

/-! ### The sequence number

`insert_raw` stores its `seq` in `seq_no` before it inserts; nothing else writes
`seq_no`.  So `seq_no` is the `seq` of the last `insert_raw`, not the largest,
and a later call with a smaller `seq` lowers it. -/

/-- One call: `insert_raw` sets `seq_no` to its `seq`, any other call keeps it. -/
theorem seqNo_apply {m m' : MemCache} {op : CacheOp} (h : m.apply env op = some m') :
    m'.seqNo = op.rawSeq.getD m.seqNo := by
  cases op with
  | insertRaw seq k ts ft buf =>
    obtain ⟨data, -, rfl⟩ := insertRaw_eq_some env h
    rfl
  | insert | deleteRange | switchToImmutable => cases h; rfl

/-- **`seq_no` is the `seq` of the last `insert_raw`.**  After any calls from a
cache, none of which panics, `seq_no` is the `seq` of the last `insert_raw`
among them, or what it was if there is none. -/
theorem seqNo_run : ∀ {m m' : MemCache} (ops : List CacheOp), m.run env ops = some m' →
    m'.seqNo = ((ops.filterMap CacheOp.rawSeq).getLast?).getD m.seqNo
  | _, _, [], h => by cases h; rfl
  | m, m', op :: ops, h => by
    obtain ⟨m₁, h₁, h'⟩ := Option.bind_eq_some.1 h
    rw [seqNo_run ops h', seqNo_apply env h₁, List.filterMap_cons]
    cases op.rawSeq <;> simp [List.getLast?_cons]

/-- Two raw inserts with `seq` `5`, then `3`: `seq_no` goes down to `3`. -/
theorem seqNo_run_lowered :
    ∃ ops m, ops = [.insertRaw 5 1 (I64.ofInt 1) .unsigned [],
        .insertRaw 3 1 (I64.ofInt 2) .unsigned []] ∧
      (new 0 64 0).run (Env.ofLimits 32 64 2) ops = some m ∧
      m.seqNo = ((ops.filterMap CacheOp.rawSeq).getLast?).getD (new 0 64 0).seqNo ∧ m.seqNo = 3 :=
  ⟨_, _, rfl, rfl, seqNo_run _ _ rfl, rfl⟩

end MemCache

end Tskv
