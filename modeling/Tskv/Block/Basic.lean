import Tskv.Basic

/-!
# Data blocks

`tsm/block.rs`: `DataBlock`, the columnar unit exchanged with the codec, with
parallel `ts` and `val` vectors per scalar type; the operations the flush merge
uses (`insert`, `batch_insert`, `get`, `set`, `time_range`, `is_empty`, `append`,
`rebuild_vec` and `merge_blocks`); and `encode`, which hands a range of rows to
the codecs.

Every Rust panic on these paths (an index out of bounds, `unwrap` or `expect` on
`None`, `todo!()`) is `none`.  `get` therefore returns `Option (Option DataType)`:
the outer option is the panic of `val[i]`, the inner one is the code's result.
The unbounded `loop` of `merge_blocks` runs on fuel: one unit per iteration, and
`mergeBlocks` gives it one more unit than the blocks have rows.

## Main definitions

* `DataBlock`, `DataBlock.cells` — blocks, and the cells a block stands for.
* `DataBlock.insert`, `DataBlock.get`, `DataBlock.set`, `DataBlock.timeRange`,
  `DataBlock.getType`.
* `DataBlock.append` — with its inverted `is_empty` test.
* `DataBlock.rebuildVec`, `DataBlock.takeMin`, `DataBlock.mergeLoop`,
  `DataBlock.mergeBlocks` — the n-way merge.
* `Coders`, `DataBlock.encode` — the encoding of a range of rows, over codecs
  that `src/` does not contain.

## Main results

* `DataBlock.set_replaces_row` — `set` then `get`.
* `DataBlock.encode_panics_iff` — `encode` panics exactly out of range.
-/

namespace Tskv

/-- `DataBlock`: timestamps and values of one scalar type, in parallel vectors.
An `F64` value is its bit pattern. -/
inductive DataBlock
  | u64 (ts : List I64) (val : List UInt64)
  | i64 (ts : List I64) (val : List I64)
  | str (ts : List I64) (val : List (List UInt8))
  | f64 (ts : List I64) (val : List UInt64)
  | bool (ts : List I64) (val : List Bool)
  deriving DecidableEq

namespace DataBlock

/-- `DataBlock::new`: empty vectors of the requested type; `todo!()` on `Unknown`.
The capacity hint is not modelled. -/
def new (_size : Nat) : ValueType → Option DataBlock
  | .unsigned => some (.u64 [] [])
  | .integer => some (.i64 [] [])
  | .float => some (.f64 [] [])
  | .string => some (.str [] [])
  | .boolean => some (.bool [] [])
  | .unknown => none

/-- `DataBlock::insert`: push the cell if it has the block's type, else nothing. -/
def insert (self : DataBlock) (data : DataType) : DataBlock :=
  match data, self with
  | .bool t v, .bool ts val => .bool (ts ++ [t]) (val ++ [v])
  | .u64 t v, .u64 ts val => .u64 (ts ++ [t]) (val ++ [v])
  | .i64 t v, .i64 ts val => .i64 (ts ++ [t]) (val ++ [v])
  | .str t v, .str ts val => .str (ts ++ [t]) (val ++ [v])
  | .f64 t v, .f64 ts val => .f64 (ts ++ [t]) (val ++ [v])
  | _, b => b

/-- `DataBlock::batch_insert`. -/
def batchInsert (self : DataBlock) (cells : List DataType) : DataBlock :=
  cells.foldl insert self

/-- `DataBlock::ts`. -/
def ts : DataBlock → List I64
  | u64 ts _ | i64 ts _ | str ts _ | f64 ts _ | bool ts _ => ts

/-- The length of `val`, which nothing in the code reads directly. -/
def valLen : DataBlock → Nat
  | u64 _ val => val.length
  | i64 _ val => val.length
  | str _ val => val.length
  | f64 _ val => val.length
  | bool _ val => val.length

/-- `DataBlock::len`: the length of `ts`. -/
def len (b : DataBlock) : Nat := b.ts.length

/-- `DataBlock::field_type`. -/
def fieldType : DataBlock → ValueType
  | u64 .. => .unsigned
  | i64 .. => .integer
  | str .. => .string
  | f64 .. => .float
  | bool .. => .boolean

/-- `DataBlock::get_type`: the default cell of the block's variant, at timestamp
`0` with a zero, empty or `false` value. -/
def getType : DataBlock → DataType
  | u64 .. => .u64 (I64.ofInt 0) 0
  | i64 .. => .i64 (I64.ofInt 0) (I64.ofInt 0)
  | str .. => .str (I64.ofInt 0) []
  | f64 .. => .f64 (I64.ofInt 0) 0
  | bool .. => .bool (I64.ofInt 0) false

/-- `DataBlock::is_empty` as written: it answers `ts.len() > 0`. -/
def isEmpty (b : DataBlock) : Bool := b.ts.length > 0

/-- The rows of a block as cells, pairing `ts` and `val` up to the shorter one. -/
def cells : DataBlock → List DataType
  | u64 ts val => List.zipWith .u64 ts val
  | i64 ts val => List.zipWith .i64 ts val
  | str ts val => List.zipWith .str ts val
  | f64 ts val => List.zipWith .f64 ts val
  | bool ts val => List.zipWith .bool ts val

/-- One arm of `DataBlock::get`: `None` past the end of `ts`, a panic when `val`
is shorter. -/
def getWith {α : Type} (mk : I64 → α → DataType) (ts : List I64) (val : List α) (i : Nat) :
    Option (Option DataType) :=
  match ts[i]?, val[i]? with
  | none, _ => some none
  | some t, some v => some (some (mk t v))
  | some _, none => none

/-- `DataBlock::get`. -/
def get (self : DataBlock) (i : Nat) : Option (Option DataType) :=
  match self with
  | u64 ts val => getWith .u64 ts val i
  | i64 ts val => getWith .i64 ts val i
  | str ts val => getWith .str ts val i
  | f64 ts val => getWith .f64 ts val i
  | bool ts val => getWith .bool ts val i

/-- One arm of `DataBlock::set`: `ts[i] = ..; val[i] = ..`, each panicking out of
bounds. -/
def setWith {α : Type} (mk : List I64 → List α → DataBlock) (ts : List I64) (val : List α)
    (i : Nat) (t : I64) (v : α) : Option DataBlock :=
  if i < ts.length ∧ i < val.length then some (mk (ts.set i t) (val.set i v)) else none

/-- `DataBlock::set`: a cell of another type leaves the block as it is. -/
def set (self : DataBlock) (i : Nat) (data : DataType) : Option DataBlock :=
  match self, data with
  | u64 ts val, .u64 t v => setWith u64 ts val i t v
  | i64 ts val, .i64 t v => setWith i64 ts val i t v
  | str ts val, .str t v => setWith str ts val i t v
  | f64 ts val, .f64 t v => setWith f64 ts val i t v
  | bool ts val, .bool t v => setWith bool ts val i t v
  | b, _ => some b

/-- `DataBlock::time_range`: `(ts[start], ts[end - 1])`; an `end` of zero
underflows, and either index may be out of bounds. -/
def timeRange (self : DataBlock) (start «end» : Nat) : Option (I64 × I64) := do
  let a ← self.ts[start]?
  if «end» = 0 then none else
  let b ← self.ts[«end» - 1]?
  some (a, b)

/-! ### `append` -/

/-- The `while` loop of `DataBlock::append`: a two-pointer merge written into
`new_blk` by `set`. -/
def appendLoop (self other : DataBlock) (newBlk : DataBlock) (i j k : Nat) :
    Option DataBlock :=
  if h : i < self.ts.length ∧ j < other.ts.length then
    match compare (self.ts.get ⟨i, h.1⟩) (other.ts.get ⟨j, h.2⟩) with
    | .lt => do
      let c ← (← self.get i)
      let newBlk ← newBlk.set k c
      appendLoop self other newBlk (i + 1) j (k + 1)
    | .eq => do
      let c ← (← other.get j)
      let newBlk ← newBlk.set k c
      appendLoop self other newBlk (i + 1) (j + 1) (k + 1)
    | .gt => do
      let c ← (← other.get j)
      let newBlk ← newBlk.set k c
      appendLoop self other newBlk i (j + 1) (k + 1)
  else some newBlk
termination_by (self.ts.length - i) + (other.ts.length - j)

/-- `DataBlock::append`.  The merged block is computed and dropped, so `self`
comes back as it was, or the call panics. -/
def append (self other : DataBlock) : Option DataBlock :=
  if other.isEmpty then some self
  else if self.fieldType ≠ other.fieldType then some self
  else do
    let _ ← self.timeRange 0 self.len
    let _ ← other.timeRange 0 other.len
    let newBlk ← DataBlock.new (self.len + other.len) self.fieldType
    let _ ← appendLoop self other newBlk 0 0 0
    some self

/-! ### `merge_blocks` -/

/-- The running minimum of `rebuild_vec`: `min_ts` after seeing `dst`. -/
def minTs (minTs : Option I64) : Option DataType → Option I64
  | none => minTs
  | some pair =>
    match minTs with
    | some min => if pair.timestamp < min then some pair.timestamp else minTs
    | none => some pair.timestamp

/-- One slot of `rebuild_vec`: an empty slot reads its block at its offset, and
the offset advances. -/
def refill (block : DataBlock) (d : Option DataType) (o : Nat) : Option (Option DataType × Nat) :=
  if d.isNone then (block.get o).map fun g => (g, o + 1) else some (d, o)

/-- `DataBlock::rebuild_vec`: refill every empty slot of `dst`, and return the
least timestamp in `dst`, folded with `minTs` from `m`.  The `zip` stops at the
shorter of `blocks` and `dst`; `offsets[i]` panics past the end of `offsets`. -/
def rebuildVec : List DataBlock → List (Option DataType) → List Nat → Option I64 →
    Option (List (Option DataType) × List Nat × Option I64)
  | [], dst, offsets, m => some (dst, offsets, m)
  | _ :: _, [], offsets, m => some ([], offsets, m)
  | _ :: _, _ :: _, [], _ => none
  | block :: blocks, d :: dst, o :: offsets, m =>
    (refill block d o).bind fun r =>
      (rebuildVec blocks dst offsets (minTs m r.1)).map fun s => (r.1 :: s.1, r.2 :: s.2.1, s.2.2)

/-- The `for item in &mut buf` loop of `merge_blocks`: take every buffered cell
at the minimum timestamp; the last one taken is the one kept. -/
def takeMin (min : I64) : List (Option DataType) → Option DataType →
    List (Option DataType) × Option DataType
  | [], data => ([], data)
  | none :: buf, data => let r := takeMin min buf data; (none :: r.1, r.2)
  | some it :: buf, data =>
    if it.timestamp = min then let r := takeMin min buf (some it); (none :: r.1, r.2)
    else let r := takeMin min buf data; (some it :: r.1, r.2)

/-- The `loop` of `merge_blocks`, on `fuel` iterations; out of fuel is `none`. -/
def mergeLoop : Nat → List DataBlock → List (Option DataType) → List Nat → DataBlock →
    Option DataBlock
  | 0, _, _, _, _ => none
  | fuel + 1, blocks, buf, offsets, res =>
    (rebuildVec blocks buf offsets none).bind fun s =>
      match s.2.2 with
      | none => some res
      | some min =>
        let t := takeMin min s.1 none
        mergeLoop fuel blocks t.1 s.2.1 (match t.2 with
          | some it => res.insert it
          | none => res)

/-- `DataBlock::merge_blocks`.  One block comes back unchanged; none panics at
`first().unwrap()`. -/
def mergeBlocks : List DataBlock → Option DataBlock
  | [] => none
  | [b] => some b
  | b :: bs => do
    let res ← DataBlock.new b.len b.fieldType
    let n := bs.length + 1
    mergeLoop ((b :: bs).map len).sum.succ (b :: bs) (List.replicate n none)
      (List.replicate n 0) res

/-! ### `encode` -/

end DataBlock

/-- The codecs of `tsm::coders`, which `src/` does not contain: each encodes a
slice into the empty buffer it is given, or fails with its error's text. -/
structure Coders where
  timestamp : List I64 → Except String (List UInt8)
  boolean : List Bool → Except String (List UInt8)
  unsigned : List UInt64 → Except String (List UInt8)
  integer : List I64 → Except String (List UInt8)
  string : List (List UInt8) → Except String (List UInt8)
  float : List UInt64 → Except String (List UInt8)

/-- The variant of `crate::error::Error` that `encode` returns. -/
inductive Error
  | writeTsmErr (reason : String)
  deriving DecidableEq

namespace DataBlock

/-- `&v[start..end]`: a panic unless `start ≤ end ≤ v.len()`. -/
def slice {α : Type} (v : List α) (start «end» : Nat) : Option (List α) :=
  if start ≤ «end» ∧ «end» ≤ v.length then some ((v.take «end»).drop start) else none

/-- One arm of `DataBlock::encode`: the timestamps, then the values, each coder's
error mapped to `WriteTsmErr`. -/
def encodeWith {α : Type} (encodeTs : List I64 → Except String (List UInt8))
    (encodeVal : List α → Except String (List UInt8)) (ts : List I64) (val : List α)
    (start «end» : Nat) : Option (Except Error (List UInt8 × List UInt8)) := do
  let tsSlice ← slice ts start «end»
  match encodeTs tsSlice with
  | .error e => some (.error (.writeTsmErr e))
  | .ok tsBuf =>
    let valSlice ← slice val start «end»
    match encodeVal valSlice with
    | .error e => some (.error (.writeTsmErr e))
    | .ok dataBuf => some (.ok (tsBuf, dataBuf))

/-- `DataBlock::encode`.  The `Str` arm first views each value as a byte slice,
which leaves the list as it is. -/
def encode (self : DataBlock) (coders : Coders) (start «end» : Nat) :
    Option (Except Error (List UInt8 × List UInt8)) :=
  match self with
  | bool ts val => encodeWith coders.timestamp coders.boolean ts val start «end»
  | u64 ts val => encodeWith coders.timestamp coders.unsigned ts val start «end»
  | i64 ts val => encodeWith coders.timestamp coders.integer ts val start «end»
  | str ts val => encodeWith coders.timestamp coders.string ts val start «end»
  | f64 ts val => encodeWith coders.timestamp coders.float ts val start «end»

/-! ### A block as a list of cells -/

/-- A block is well formed when its two vectors have the same length. -/
def WellFormed (b : DataBlock) : Prop := b.ts.length = b.valLen

theorem map_zipWith_left {α : Type} (mk : I64 → α → DataType) (hmk : ∀ t v, (mk t v).timestamp = t)
    {ts : List I64} {val : List α} (h : ts.length = val.length) :
    (List.zipWith mk ts val).map DataType.timestamp = ts := by
  induction ts generalizing val with
  | nil => rfl
  | cons t ts ih => cases val with
    | nil => simp at h
    | cons v val => simp [hmk, ih (Nat.succ.inj h)]

theorem exists_of_mem_zipWith {α : Type} {mk : I64 → α → DataType} {ts : List I64}
    {val : List α} {c : DataType} (hc : c ∈ List.zipWith mk ts val) : ∃ t v, c = mk t v := by
  obtain ⟨i, hi⟩ := List.getElem?_of_mem hc
  obtain ⟨t, v, -, -, rfl⟩ := List.getElem?_zipWith_eq_some.1 hi
  exact ⟨t, v, rfl⟩

theorem getWith_eq {α : Type} (mk : I64 → α → DataType) {ts : List I64} {val : List α}
    (h : ts.length = val.length) (i : Nat) :
    getWith mk ts val i = some (List.zipWith mk ts val)[i]? := by
  unfold getWith
  rw [List.getElem?_zipWith]
  by_cases hi : i < ts.length
  · simp [List.getElem?_eq_getElem hi, List.getElem?_eq_getElem (h ▸ hi : i < val.length)]
  · simp [List.getElem?_eq_none (not_lt.1 hi),
      List.getElem?_eq_none (h ▸ not_lt.1 hi : val.length ≤ i)]

theorem ts_eq_map_cells {b : DataBlock} (hb : b.WellFormed) :
    b.ts = b.cells.map DataType.timestamp := by
  cases b <;> exact (map_zipWith_left _ (by intros; rfl) hb).symm

theorem len_eq_length_cells {b : DataBlock} (hb : b.WellFormed) : b.len = b.cells.length := by
  rw [len, ts_eq_map_cells hb, List.length_map]

theorem fieldType_of_mem_cells {b : DataBlock} {c : DataType} (hc : c ∈ b.cells) :
    c.fieldType = b.fieldType := by
  cases b <;> obtain ⟨t, v, rfl⟩ := exists_of_mem_zipWith hc <;> rfl

/-- On a well-formed block `get` never panics and reads the `i`-th cell. -/
theorem get_eq {b : DataBlock} (hb : b.WellFormed) (i : Nat) : b.get i = some b.cells[i]? := by
  cases b <;> exact getWith_eq _ hb i

theorem zipWith_set {α : Type} (mk : I64 → α → DataType) :
    ∀ (ts : List I64) (val : List α) (i : Nat) (t : I64) (v : α),
      List.zipWith mk (ts.set i t) (val.set i v) = (List.zipWith mk ts val).set i (mk t v)
  | [], _, _, _, _ => rfl
  | _ :: _, [], i, _, _ => by cases i <;> rfl
  | _ :: _, _ :: _, 0, _, _ => rfl
  | t' :: ts, v' :: val, i + 1, t, v => congrArg (mk t' v' :: ·) (zipWith_set mk ts val i t v)

/-- Within the block, `set` with a cell of the block's type replaces one cell. -/
theorem set_eq_some {b : DataBlock} (hb : b.WellFormed) {c : DataType}
    (hc : c.fieldType = b.fieldType) {i : Nat} (hi : i < b.len) :
    ∃ b', b.set i c = some b' ∧ b'.cells = b.cells.set i c ∧ b'.fieldType = b.fieldType ∧
      b'.WellFormed := by
  cases b <;> cases c <;> simp only [fieldType, DataType.fieldType, reduceCtorEq] at hc <;>
    exact ⟨_, if_pos ⟨hi, hi.trans_eq hb⟩, zipWith_set _ _ _ _ _ _, rfl,
      by simpa [WellFormed, ts, valLen] using hb⟩

/-- Past the end, `set` with a cell of the block's type panics. -/
theorem set_eq_none {b : DataBlock} {c : DataType} (hc : c.fieldType = b.fieldType) {i : Nat}
    (hi : b.len ≤ i) : b.set i c = none := by
  cases b <;> cases c <;> simp only [fieldType, DataType.fieldType, reduceCtorEq] at hc <;>
    exact if_neg fun h => absurd h.1 (not_lt.2 hi)

/-- **`set` then `get`.**  On a well-formed block and with a cell of the block's
type, `set(i, c)` panics past the end; within the block it keeps the block well
formed and of its type, `get(i)` then reads `c`, and `get` reads what it read
before at every other index. -/
theorem set_replaces_row {b : DataBlock} (hb : b.WellFormed) (i : Nat) {c : DataType}
    (hc : c.fieldType = b.fieldType) :
    (b.len ≤ i → b.set i c = none) ∧
      (i < b.len → ∃ b', b.set i c = some b' ∧ b'.WellFormed ∧
        b'.fieldType = b.fieldType ∧
        ∀ j, b'.get j = if j = i then some (some c) else b.get j) := by
  refine ⟨set_eq_none hc, fun hi => ?_⟩
  obtain ⟨b', hset, hcells, hft, hwf⟩ := set_eq_some hb hc hi
  refine ⟨b', hset, hwf, hft, fun j => ?_⟩
  rw [get_eq hwf, get_eq hb, hcells]
  split
  · subst j
    rw [List.getElem?_set_self (len_eq_length_cells hb ▸ hi)]
  · rw [List.getElem?_set_ne (Ne.symm ‹_›)]

/-- Row `1` of a two-row `U64` block set to another cell. -/
theorem set_replaces_row_second_of_two :
    ∃ b c, b = u64 [I64.ofInt 1, I64.ofInt 2] [10, 20] ∧ c = DataType.u64 (I64.ofInt 5) 50 ∧
      (b.WellFormed ∧ c.fieldType = b.fieldType) ∧
      (b.len ≤ 1 → b.set 1 c = none) ∧
        (1 < b.len → ∃ b', b.set 1 c = some b' ∧ b'.WellFormed ∧
          b'.fieldType = b.fieldType ∧
          ∀ j, b'.get j = if j = 1 then some (some c) else b.get j) :=
  ⟨_, _, rfl, rfl, ⟨rfl, rfl⟩,
    set_replaces_row (b := u64 [I64.ofInt 1, I64.ofInt 2] [10, 20]) rfl 1 rfl⟩

theorem encodeWith_eq_none_iff {α : Type} (encodeTs : List I64 → Except String (List UInt8))
    (encodeVal : List α → Except String (List UInt8)) {ts : List I64} {val : List α}
    (h : ts.length = val.length) (start «end» : Nat) :
    encodeWith encodeTs encodeVal ts val start «end» = none ↔
      ¬(start ≤ «end» ∧ «end» ≤ ts.length) := by
  by_cases hr : start ≤ «end» ∧ «end» ≤ ts.length
  · have hv : start ≤ «end» ∧ «end» ≤ val.length := h ▸ hr
    simp only [encodeWith, slice, if_pos hr, if_pos hv, Option.bind_eq_bind, Option.some_bind,
      iff_false_intro (not_not_intro hr)]
    cases encodeTs ((ts.take «end»).drop start) <;>
      cases encodeVal ((val.take «end»).drop start) <;> exact iff_false_intro nofun
  · simp [encodeWith, slice, hr]

/-- **`encode` panics exactly out of range.**  On a well-formed block, with any
coders, `encode(start, end)` panics exactly when `start > end` or `end > len()`:
the slice of `val` never panics once the slice of `ts` has not. -/
theorem encode_panics_iff {b : DataBlock} (hb : b.WellFormed) (coders : Coders)
    (start «end» : Nat) :
    b.encode coders start «end» = none ↔ ¬(start ≤ «end» ∧ «end» ≤ b.len) := by
  cases b <;> exact encodeWith_eq_none_iff _ _ hb start «end»

/-- A range past the end of a two-row block, with coders that always succeed. -/
theorem encode_panics_past_end :
    ∃ b coders, b = u64 [I64.ofInt 1, I64.ofInt 2] [10, 20] ∧
      coders = (⟨fun _ => .ok [], fun _ => .ok [], fun _ => .ok [], fun _ => .ok [],
        fun _ => .ok [], fun _ => .ok []⟩ : Coders) ∧ b.WellFormed ∧
      (b.encode coders 1 3 = none ↔ ¬(1 ≤ 3 ∧ 3 ≤ b.len)) :=
  ⟨_, _, rfl, rfl, rfl,
    encode_panics_iff (b := u64 [I64.ofInt 1, I64.ofInt 2] [10, 20]) rfl _ 1 3⟩

example : (u64 [I64.ofInt 1, I64.ofInt 2] [10, 20]).encode
    ⟨fun _ => .ok [], fun _ => .ok [], fun _ => .ok [], fun _ => .ok [], fun _ => .ok [],
      fun _ => .ok []⟩ 1 3 = none := rfl

@[simp] theorem fieldType_getType (b : DataBlock) : b.getType.fieldType = b.fieldType := by
  cases b <;> rfl

theorem fieldType_ne_unknown (b : DataBlock) : b.fieldType ≠ .unknown := by
  cases b <;> simp [fieldType]

theorem new_eq_some {ft : ValueType} (hft : ft ≠ .unknown) (n : Nat) :
    ∃ b, new n ft = some b ∧ b.cells = [] ∧ b.fieldType = ft ∧ b.WellFormed := by
  cases ft <;> first | exact absurd rfl hft | exact ⟨_, rfl, rfl, rfl, rfl⟩

/-- A cell of the block's type is appended. -/
theorem insert_of_fieldType_eq {b : DataBlock} {c : DataType} (hb : b.WellFormed)
    (hc : c.fieldType = b.fieldType) :
    (b.insert c).cells = b.cells ++ [c] ∧ (b.insert c).fieldType = b.fieldType ∧
      (b.insert c).WellFormed := by
  cases b <;> cases c <;> simp_all [insert, cells, fieldType, DataType.fieldType, WellFormed,
    ts, valLen, List.zipWith_append]

/-- A cell of another type is dropped. -/
theorem insert_of_fieldType_ne {b : DataBlock} {c : DataType} (hc : c.fieldType ≠ b.fieldType) :
    b.insert c = b := by
  cases b <;> cases c <;> simp_all [insert, fieldType, DataType.fieldType]

/-- `batch_insert` of cells of the block's type appends them all. -/
theorem batchInsert_of_fieldType_eq {b : DataBlock} {cs : List DataType} (hb : b.WellFormed)
    (hcs : ∀ c ∈ cs, c.fieldType = b.fieldType) :
    (b.batchInsert cs).cells = b.cells ++ cs ∧ (b.batchInsert cs).fieldType = b.fieldType ∧
      (b.batchInsert cs).WellFormed := by
  induction cs generalizing b with
  | nil => simp [batchInsert, hb]
  | cons c cs ih =>
    obtain ⟨h1, h2, h3⟩ := insert_of_fieldType_eq hb (hcs c (List.mem_cons_self _ _))
    obtain ⟨k1, k2, k3⟩ := ih h3 fun c' hc' => h2 ▸ hcs c' (List.mem_cons_of_mem _ hc')
    exact ⟨by simpa [batchInsert, h1] using k1, k2.trans h2, k3⟩

/-- `batch_insert` appends the cells of the block's type, in order, and drops the
others. -/
theorem batchInsert_cells {b : DataBlock} (hb : b.WellFormed) (cs : List DataType) :
    (b.batchInsert cs).cells = b.cells ++ cs.filter (·.fieldType = b.fieldType) ∧
      (b.batchInsert cs).fieldType = b.fieldType ∧ (b.batchInsert cs).WellFormed := by
  induction cs generalizing b with
  | nil => simp [batchInsert, hb]
  | cons c cs ih =>
    by_cases hc : c.fieldType = b.fieldType
    · obtain ⟨h1, h2, h3⟩ := insert_of_fieldType_eq hb hc
      obtain ⟨k1, k2, k3⟩ := ih h3
      refine ⟨?_, k2.trans h2, k3⟩
      simp only [batchInsert, List.foldl_cons] at k1 ⊢
      simp [k1, h1, h2, hc]
    · simpa [batchInsert, insert_of_fieldType_ne hc, hc] using ih hb

end DataBlock

end Tskv
