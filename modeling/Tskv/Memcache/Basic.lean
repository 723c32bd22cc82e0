import Tskv.Basic
import Mathlib.Data.List.Perm.Basic

/-!
# The memory table

`memcache.rs`: `MemEntry`, the buffer of one field with its time bounds and
declared type, and `MemCache`, the map from field id to entry together with the
size accounting and the mutability flag.

The `HashMap` of a cache is an association list; its order is irrelevant to every
statement about it.  `entry(k).or_insert_with(..)` is `upsert`, `get_mut(k)` is
`modifyAt`.  `insert_raw` returns `none` where the code reaches `todo!()`.

Two functions the family calls are not in `memcache.rs`: `MemEntry::overlap` and
`MemEntry::delete_data_cell`.  They are modelled from the spec's `overlap` and
`delete_range`.

## Main definitions

* `MemEntry.push`, `MemCache.insert`, `MemCache.insertRaw` — ingest.
* `MemEntry.deleteRange`, `MemCache.deleteRange` — deletion.
* `MemCache.switchToImmutable` — the stable sort by timestamp, then the freeze.
* `MemCache.cells` — every `(field id, cell)` the cache holds.

## Main results

* `MemCache.cells_insert`, `MemCache.cells_switchToImmutable` — what ingest and
  the freeze do to the cells, up to order.
-/

namespace Tskv

/-! ### One field's buffer -/

/-- `MemEntry`: the cells of one field, their time bounds and declared type. -/
structure MemEntry where
  tsMin : I64
  tsMax : I64
  fieldType : ValueType
  cells : List DataType
  deriving DecidableEq

namespace MemEntry

/-- `MemEntry::default`: no cells, bounds inverted at `i64::MAX` and `i64::MIN`. -/
def default : MemEntry := ⟨I64.MAX, I64.MIN, .unknown, []⟩

/-- The entry half of `MemCache::insert`: widen the bounds to `val`'s
timestamp, overwrite the declared type, append. -/
def push (e : MemEntry) (val : DataType) (valueType : ValueType) : MemEntry :=
  let ts := val.timestamp
  { tsMax := if e.tsMax < ts then ts else e.tsMax
    tsMin := if e.tsMin > ts then ts else e.tsMin
    fieldType := valueType
    cells := e.cells ++ [val] }

/-- `MemEntry::read_cell`: the cells it prints, strictly inside the range. -/
def readCell (e : MemEntry) (timeRange : TimeRange) : List DataType :=
  e.cells.filter fun c => c.timestamp > timeRange.minTs && c.timestamp < timeRange.maxTs

/-- `MemEntry::delete_range`: keep the cells outside `[min_ts, max_ts]`.  The
bounds are left as they were. -/
def deleteRange (e : MemEntry) (range : TimeRange) : MemEntry :=
  { e with cells := e.cells.filter fun c => c.timestamp < range.minTs || c.timestamp > range.maxTs }

/-- Modelled from the spec: `MemEntry::overlap`, which the family calls and
`memcache.rs` lacks, is §4.1's `overlap(r)`: `r.min_ts ≤ ts_max ∧ r.max_ts ≥ ts_min`. -/
def overlap (e : MemEntry) (timeRange : TimeRange) : Bool :=
  timeRange.minTs ≤ e.tsMax && timeRange.maxTs ≥ e.tsMin

/-- Modelled from the spec: `MemEntry::delete_data_cell`, which the family calls
and `memcache.rs` lacks, is §4.1's `delete_range`. -/
def deleteDataCell (e : MemEntry) (timeRange : TimeRange) : MemEntry :=
  e.deleteRange timeRange

/-- The per-entry step of `MemCache::switch_to_immutable`: `sort_by` on the
timestamps.  Rust's `sort_by` is stable, and so is `List.mergeSort`, so the two
agree on every list. -/
def sortCells (e : MemEntry) : MemEntry :=
  { e with cells := e.cells.mergeSort fun a b => a.timestamp ≤ b.timestamp }

@[simp] theorem cells_default : default.cells = [] := rfl

@[simp] theorem cells_push (e : MemEntry) (val : DataType) (vt : ValueType) :
    (e.push val vt).cells = e.cells ++ [val] := rfl

@[simp] theorem fieldType_push (e : MemEntry) (val : DataType) (vt : ValueType) :
    (e.push val vt).fieldType = vt := rfl

@[simp] theorem cells_deleteRange (e : MemEntry) (r : TimeRange) :
    (e.deleteRange r).cells =
      e.cells.filter fun c => c.timestamp < r.minTs || c.timestamp > r.maxTs := rfl

@[simp] theorem deleteDataCell_eq (e : MemEntry) (r : TimeRange) :
    e.deleteDataCell r = e.deleteRange r := rfl

@[simp] theorem cells_sortCells (e : MemEntry) :
    e.sortCells.cells = e.cells.mergeSort fun a b => a.timestamp ≤ b.timestamp := rfl

end MemEntry

/-! ### The field map -/

/-- `data_cache.entry(k).or_insert_with(MemEntry::default)`, then `f` on the
entry.  A new key goes at the end. -/
def upsertEntries : List (FieldId × MemEntry) → FieldId → (MemEntry → MemEntry) →
    List (FieldId × MemEntry)
  | [], k, f => [(k, f MemEntry.default)]
  | p :: dc, k, f => if p.1 = k then (p.1, f p.2) :: dc else p :: upsertEntries dc k f

/-- `if let Some(entry) = data_cache.get_mut(&k) { f(entry) }`. -/
def modifyEntries : List (FieldId × MemEntry) → FieldId → (MemEntry → MemEntry) →
    List (FieldId × MemEntry)
  | [], _, _ => []
  | p :: dc, k, f => if p.1 = k then (p.1, f p.2) :: dc else p :: modifyEntries dc k f

theorem keys_upsertEntries (dc : List (FieldId × MemEntry)) (k : FieldId)
    (f : MemEntry → MemEntry) :
    (upsertEntries dc k f).map Prod.fst =
      if k ∈ dc.map Prod.fst then dc.map Prod.fst else dc.map Prod.fst ++ [k] := by
  induction dc with
  | nil => simp [upsertEntries]
  | cons q dc ih =>
    by_cases hq : q.1 = k
    · simp [upsertEntries, hq]
    · by_cases hk : k ∈ dc.map Prod.fst <;> simp_all [upsertEntries, Ne.symm hq]

theorem keys_modifyEntries (dc : List (FieldId × MemEntry)) (k : FieldId)
    (f : MemEntry → MemEntry) : (modifyEntries dc k f).map Prod.fst = dc.map Prod.fst := by
  induction dc with
  | nil => rfl
  | cons q dc ih => by_cases hq : q.1 = k <;> simp_all [modifyEntries]

/-- The `HashMap<FieldId, MemEntry>` of a cache: an association list whose keys
are distinct, in no particular order. -/
@[ext] structure FieldMap where
  entries : List (FieldId × MemEntry)
  nodup : (entries.map Prod.fst).Nodup

namespace FieldMap

/-- `HashMap::new`. -/
def empty : FieldMap := ⟨[], List.nodup_nil⟩

/-- `entry(k).or_insert_with(MemEntry::default)` followed by `f`. -/
def upsert (m : FieldMap) (k : FieldId) (f : MemEntry → MemEntry) : FieldMap :=
  ⟨upsertEntries m.entries k f, by
    rw [keys_upsertEntries]
    split
    · exact m.nodup
    · exact m.nodup.append (List.nodup_singleton k) (List.disjoint_singleton.2 ‹_›)⟩

/-- `get_mut(k)` followed by `f`, when the key is present. -/
def modifyAt (m : FieldMap) (k : FieldId) (f : MemEntry → MemEntry) : FieldMap :=
  ⟨modifyEntries m.entries k f, by rw [keys_modifyEntries]; exact m.nodup⟩

/-- `iter_mut()` applying `f` to every entry. -/
def mapEntries (m : FieldMap) (f : MemEntry → MemEntry) : FieldMap :=
  ⟨m.entries.map fun p => (p.1, f p.2), by simpa [List.map_map] using m.nodup⟩

@[simp] theorem entries_empty : empty.entries = [] := rfl

@[simp] theorem entries_upsert (m : FieldMap) (k : FieldId) (f : MemEntry → MemEntry) :
    (m.upsert k f).entries = upsertEntries m.entries k f := rfl

@[simp] theorem entries_modifyAt (m : FieldMap) (k : FieldId) (f : MemEntry → MemEntry) :
    (m.modifyAt k f).entries = modifyEntries m.entries k f := rfl

@[simp] theorem entries_mapEntries (m : FieldMap) (f : MemEntry → MemEntry) :
    (m.mapEntries f).entries = m.entries.map fun p => (p.1, f p.2) := rfl

end FieldMap

/-- `upsertEntries` applies `f` to one entry: the one under `k`, or a fresh
default one. -/
theorem mem_upsertEntries {dc : List (FieldId × MemEntry)} {k : FieldId}
    {f : MemEntry → MemEntry} {p : FieldId × MemEntry} (hp : p ∈ upsertEntries dc k f) :
    p ∈ dc ∨ (p.1 = k ∧ (p.2 = f MemEntry.default ∨ ∃ e, (k, e) ∈ dc ∧ p.2 = f e)) := by
  induction dc with
  | nil => simp_all [upsertEntries]
  | cons q dc ih =>
    simp only [upsertEntries] at hp
    split at hp
    · rcases List.mem_cons.1 hp with rfl | h
      · exact .inr ⟨‹q.1 = k›, .inr ⟨q.2, by simp [← ‹q.1 = k›]⟩⟩
      · exact .inl (List.mem_cons_of_mem _ h)
    · rcases List.mem_cons.1 hp with rfl | h
      · exact .inl (List.mem_cons_self _ _)
      · rcases ih h with h | ⟨hk, h⟩
        · exact .inl (List.mem_cons_of_mem _ h)
        · exact .inr ⟨hk, h.imp_right fun ⟨e, he, hpe⟩ => ⟨e, List.mem_cons_of_mem _ he, hpe⟩⟩

/-- `modifyEntries` applies `f` to the entry under `k` and leaves the others. -/
theorem mem_modifyEntries {dc : List (FieldId × MemEntry)} {k : FieldId}
    {f : MemEntry → MemEntry} {p : FieldId × MemEntry} (hp : p ∈ modifyEntries dc k f) :
    p ∈ dc ∨ ∃ e, (k, e) ∈ dc ∧ p = (k, f e) := by
  induction dc with
  | nil => simp [modifyEntries] at hp
  | cons q dc ih =>
    simp only [modifyEntries] at hp
    split at hp
    · rcases List.mem_cons.1 hp with rfl | h
      · exact .inr ⟨q.2, by simp [← ‹q.1 = k›], by simp [‹q.1 = k›]⟩
      · exact .inl (List.mem_cons_of_mem _ h)
    · rcases List.mem_cons.1 hp with rfl | h
      · exact .inl (List.mem_cons_self _ _)
      · exact (ih h).imp (List.mem_cons_of_mem _) fun ⟨e, he, hpe⟩ =>
          ⟨e, List.mem_cons_of_mem _ he, hpe⟩

/-- A property of keyed entries survives `upsertEntries` when it holds of the
fresh entry `f` builds and `f` keeps it. -/
theorem forall_upsertEntries {P : FieldId × MemEntry → Prop} {dc : List (FieldId × MemEntry)}
    {k : FieldId} {f : MemEntry → MemEntry} (hdc : ∀ p ∈ dc, P p)
    (hnew : P (k, f MemEntry.default)) (hf : ∀ e, P (k, e) → P (k, f e)) :
    ∀ p ∈ upsertEntries dc k f, P p := by
  rintro ⟨k', e'⟩ hp
  rcases mem_upsertEntries hp with h | ⟨rfl, rfl | ⟨e, he, rfl⟩⟩
  · exact hdc _ h
  · exact hnew
  · exact hf e (hdc _ he)

/-- A property of keyed entries survives `modifyEntries` when `f` keeps it. -/
theorem forall_modifyEntries {P : FieldId × MemEntry → Prop} {dc : List (FieldId × MemEntry)}
    {k : FieldId} {f : MemEntry → MemEntry} (hdc : ∀ p ∈ dc, P p)
    (hf : ∀ e, P (k, e) → P (k, f e)) : ∀ p ∈ modifyEntries dc k f, P p := by
  intro p hp
  rcases mem_modifyEntries hp with h | ⟨e, he, rfl⟩
  · exact hdc p h
  · exact hf e (hdc _ he)

/-! ### The memory table -/

/-- `MemCache`.  `tf_id`, `seq_no` and `max_buf_size` are stored as the code
stores them; `cache_size` is a `u64` that wraps as release builds do. -/
structure MemCache where
  immutable : Bool
  tfId : UInt32
  seqNo : UInt64
  maxBufSize : UInt64
  dataCache : FieldMap
  cacheSize : UInt64

namespace MemCache

variable (env : Env)

/-- `MemCache::new`. -/
def new (tfId : UInt32) (maxSize seq : UInt64) : MemCache :=
  ⟨false, tfId, seq, maxSize, .empty, 0⟩

instance : Inhabited MemCache := ⟨new 0 0 0⟩

/-- `MemCache::insert`: no check of `immutable`, the size grows by the size of
the enum. -/
def insert (m : MemCache) (fieldId : FieldId) (val : DataType) (valueType : ValueType) :
    MemCache :=
  { m with
    dataCache := m.dataCache.upsert fieldId (·.push val valueType)
    cacheSize := m.cacheSize + env.sizeOfDataType }

/-- The cell `insert_raw` decodes from `buf` for each field type; `none` is the
`todo!()` on `Unknown`. -/
def decodeRaw (ts : I64) (fieldType : ValueType) (buf : List UInt8) : Option DataType :=
  match fieldType with
  | .unsigned => some (.u64 ts (env.decodeBeU64 buf))
  | .integer => some (.i64 ts (env.decodeBeI64 buf))
  | .float => some (.f64 ts (env.decodeBeF64 buf))
  | .string => some (.str ts buf)
  | .boolean => some (.bool ts (env.decodeBeBool buf))
  | .unknown => none

/-- `MemCache::insert_raw`: record `seq`, decode, insert under the requested type. -/
def insertRaw (m : MemCache) (seq : UInt64) (fieldId : FieldId) (ts : I64)
    (fieldType : ValueType) (buf : List UInt8) : Option MemCache :=
  (decodeRaw env ts fieldType buf).map fun data =>
    insert env { m with seqNo := seq } fieldId data fieldType

/-- `MemCache::delete_range`: each listed field that is present. -/
def deleteRange (m : MemCache) (fieldIds : List FieldId) (range : TimeRange) : MemCache :=
  { m with
    dataCache := fieldIds.foldl (fun dc fid => dc.modifyAt fid (·.deleteRange range)) m.dataCache }

/-- `MemCache::switch_to_immutable`: sort every entry, then freeze. -/
def switchToImmutable (m : MemCache) : MemCache :=
  { m with dataCache := m.dataCache.mapEntries MemEntry.sortCells, immutable := true }

/-- `MemCache::is_full`. -/
def isFull (m : MemCache) : Bool := m.cacheSize ≥ m.maxBufSize

/-- Every `(field id, cell)` the cache holds. -/
def cells (m : MemCache) : List (FieldId × DataType) :=
  m.dataCache.entries.flatMap fun p => p.2.cells.map (p.1, ·)

@[simp] theorem immutable_new (tfId : UInt32) (maxSize seq : UInt64) :
    (new tfId maxSize seq).immutable = false := rfl

@[simp] theorem dataCache_new (tfId : UInt32) (maxSize seq : UInt64) :
    (new tfId maxSize seq).dataCache = .empty := rfl

@[simp] theorem cells_new (tfId : UInt32) (maxSize seq : UInt64) :
    (new tfId maxSize seq).cells = [] := rfl

@[simp] theorem dataCache_insert (m : MemCache) (k : FieldId) (val : DataType)
    (vt : ValueType) :
    (m.insert env k val vt).dataCache = m.dataCache.upsert k (·.push val vt) := rfl

@[simp] theorem immutable_insert (m : MemCache) (k : FieldId) (val : DataType)
    (vt : ValueType) : (m.insert env k val vt).immutable = m.immutable := rfl

@[simp] theorem dataCache_switchToImmutable (m : MemCache) :
    m.switchToImmutable.dataCache = m.dataCache.mapEntries MemEntry.sortCells := rfl

@[simp] theorem immutable_switchToImmutable (m : MemCache) :
    m.switchToImmutable.immutable = true := rfl

/-- `insert_raw` fails exactly on the `Unknown` type, and otherwise inserts the
decoded cell under the requested type. -/
theorem insertRaw_eq_some {m m' : MemCache} {seq : UInt64} {k : FieldId} {ts : I64}
    {vt : ValueType} {buf : List UInt8} (h : m.insertRaw env seq k ts vt buf = some m') :
    ∃ data, decodeRaw env ts vt buf = some data ∧
      m' = insert env { m with seqNo := seq } k data vt := by
  simp only [insertRaw, Option.map_eq_some'] at h
  obtain ⟨data, hd, rfl⟩ := h
  exact ⟨data, hd, rfl⟩

theorem decodeRaw_isSome {ts : I64} {vt : ValueType} (buf : List UInt8) (h : vt ≠ .unknown) :
    (decodeRaw env ts vt buf).isSome := by
  cases vt <;> simp_all [decodeRaw]

/-- The decoded cell carries the sample's timestamp and the requested type. -/
theorem decodeRaw_eq_some {ts : I64} {vt : ValueType} {buf : List UInt8} {data : DataType}
    (h : decodeRaw env ts vt buf = some data) : data.timestamp = ts ∧ data.fieldType = vt := by
  cases vt <;> simp only [decodeRaw, Option.some.injEq, reduceCtorEq] at h <;> subst h <;>
    exact ⟨rfl, rfl⟩

/-! ### The cells of a cache -/

theorem cells_upsertEntries_perm (dc : List (FieldId × MemEntry)) (k : FieldId)
    (val : DataType) (vt : ValueType) :
    List.Perm ((upsertEntries dc k (·.push val vt)).flatMap fun p => p.2.cells.map (p.1, ·))
      (dc.flatMap (fun p => p.2.cells.map (p.1, ·)) ++ [(k, val)]) := by
  induction dc with
  | nil => simp [upsertEntries]
  | cons q dc ih =>
    simp only [upsertEntries]
    split
    · subst k
      simp only [List.flatMap_cons, MemEntry.cells_push, List.map_append, List.map_cons,
        List.map_nil, List.append_assoc]
      exact (List.perm_append_comm.append_left _)
    · simpa only [List.flatMap_cons, List.append_assoc] using ih.append_left _

/-- Inserting adds exactly the inserted cell. -/
theorem cells_insert (m : MemCache) (k : FieldId) (val : DataType) (vt : ValueType) :
    List.Perm (m.insert env k val vt).cells (m.cells ++ [(k, val)]) :=
  cells_upsertEntries_perm m.dataCache.entries k val vt

/-- Rewriting every entry by a map that keeps a sublist of its cells keeps a
sublist of the cache's cells. -/
theorem cells_mapEntries_sublist (m : MemCache) {f : MemEntry → MemEntry}
    (hf : ∀ e, (f e).cells.Sublist e.cells) :
    { m with dataCache := m.dataCache.mapEntries f }.cells.Sublist m.cells := by
  simp only [cells, FieldMap.entries_mapEntries, List.flatMap_map]
  induction m.dataCache.entries with
  | nil => exact .slnil
  | cons p ps ih => exact ((hf p.2).map _).append ih

/-- Freezing only reorders the cells. -/
theorem cells_switchToImmutable (m : MemCache) : List.Perm m.switchToImmutable.cells m.cells := by
  simp only [cells, dataCache_switchToImmutable, FieldMap.entries_mapEntries, List.flatMap_map]
  refine List.Perm.flatMap_left _ fun p _ => ?_
  exact (List.mergeSort_perm _ _).map _

end MemCache

end Tskv
