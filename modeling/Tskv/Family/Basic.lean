import Tskv.Memcache.Basic
import Mathlib.Logic.Relation

/-!
# The time-series family

`tseries_family.rs`: the family's ingest router and rotation controller.  A
family holds handles to its mutable cache, its delta (late-sample) cache and its
immutable caches, and publishes a `SuperVersion` bundling the same handles for
readers.  `put_mutcache` inserts through the published super-version, rotates a
full mutable cache into the immutables, and hands caches to the process-wide
`FLUSH_REQ` queue.

An `Arc<RwLock<MemCache>>` is an address `CacheRef` into a heap of caches; every
handle the code clones is the same address.  The heap, the `FLUSH_REQ` queue and
the family form one `World`.  Operations on one family are serialised by
`&mut self`, so a run is a sequence of calls.

`World.log` is ghost state: for each cache, the `(field id, cell)` pairs it was
given, in order.  It is written where the code inserts and read only by the
statement that frozen caches keep equal timestamps in insertion order.

The `Version` and `TseriesFamOpt` handles of a super-version are always the
family's own, so `SuperVersion` keeps neither; of `Version` the family reads
`last_seq` and reads and writes `max_level_ts`.

## Main definitions

* `World.switchToImmutable`, `World.switchMemcache` — rotation of the mutable cache.
* `World.wrapDeltaFlushReq`, `World.wrapFlushReq` — hand-off to `FLUSH_REQ`.
* `World.putMutcache` — ingest of one sample.
* `World.deleteCache` — deletion of a time range from every cache of the family.
* `TseriesFamily.new` — the initial world of a family.
* `Op`, `World.step`, `World.run` — the public operations and their runs.
-/

namespace Tskv

/-- An `Arc<RwLock<MemCache>>`: an address in the heap of caches. -/
abbrev CacheRef := Nat

/-- `Version`, as far as the family reads and writes it. -/
structure Version where
  lastSeq : UInt64
  maxLevelTs : I64

/-- `SuperVersion`: the handles a reader sees.  The version and options handles
are the family's own and are not kept. -/
structure SuperVersion where
  id : UInt32
  deltaMutCache : CacheRef
  mutCache : CacheRef
  immutCache : List CacheRef
  versionId : UInt64

/-- `SuperVersion::new`, in the code's argument order. -/
def SuperVersion.new (id : UInt32) (deltaMutCache mutCache : CacheRef)
    (immutCache : List CacheRef) (versionId : UInt64) : SuperVersion :=
  ⟨id, deltaMutCache, mutCache, immutCache, versionId⟩

@[simp] theorem SuperVersion.deltaMutCache_new (id : UInt32) (d m : CacheRef) (i : List CacheRef)
    (v : UInt64) : (SuperVersion.new id d m i v).deltaMutCache = d := rfl

@[simp] theorem SuperVersion.mutCache_new (id : UInt32) (d m : CacheRef) (i : List CacheRef)
    (v : UInt64) : (SuperVersion.new id d m i v).mutCache = m := rfl

@[simp] theorem SuperVersion.immutCache_new (id : UInt32) (d m : CacheRef) (i : List CacheRef)
    (v : UInt64) : (SuperVersion.new id d m i v).immutCache = i := rfl

@[simp] theorem SuperVersion.versionId_new (id : UInt32) (d m : CacheRef) (i : List CacheRef)
    (v : UInt64) : (SuperVersion.new id d m i v).versionId = v := rfl

/-- `FlushReq`: the caches handed to the flush pipeline. -/
structure FlushReq where
  mems : List (UInt32 × CacheRef)
  waitReq : Int

/-- `TseriesFamily`.  `super_version_id` is an `AtomicU64` whose `fetch_add`
wraps. -/
structure TseriesFamily where
  tfId : UInt32
  deltaMutCache : CacheRef
  mutCache : CacheRef
  immutCache : List CacheRef
  superVersion : SuperVersion
  superVersionId : UInt64
  version : Version
  seqNo : UInt64
  immutTsMin : I64
  mutTsMax : I64

/-- A family, the heap of caches it reaches, the `FLUSH_REQ` queue, and the ghost
insertion log. -/
structure World where
  tsf : TseriesFamily
  caches : CacheRef → MemCache
  next : CacheRef
  flushReq : List FlushReq
  log : CacheRef → List (FieldId × DataType)

namespace World

variable (env : Env)

/-! ### The heap -/

/-- A write through the handle `h`. -/
def modify (w : World) (h : CacheRef) (f : MemCache → MemCache) : World :=
  { w with caches := Function.update w.caches h (f (w.caches h)) }

/-- `Arc::new(RwLock::new(m))`: the new cache sits at `w.next`. -/
def alloc (w : World) (m : MemCache) : World :=
  { w with caches := Function.update w.caches w.next m, next := w.next + 1 }

@[simp] theorem tsf_modify (w : World) (h : CacheRef) (f : MemCache → MemCache) :
    (w.modify h f).tsf = w.tsf := rfl

@[simp] theorem next_modify (w : World) (h : CacheRef) (f : MemCache → MemCache) :
    (w.modify h f).next = w.next := rfl

@[simp] theorem flushReq_modify (w : World) (h : CacheRef) (f : MemCache → MemCache) :
    (w.modify h f).flushReq = w.flushReq := rfl

@[simp] theorem log_modify (w : World) (h : CacheRef) (f : MemCache → MemCache) :
    (w.modify h f).log = w.log := rfl

@[simp] theorem caches_modify (w : World) (h : CacheRef) (f : MemCache → MemCache) :
    (w.modify h f).caches = Function.update w.caches h (f (w.caches h)) := rfl

@[simp] theorem tsf_alloc (w : World) (m : MemCache) : (w.alloc m).tsf = w.tsf := rfl

@[simp] theorem next_alloc (w : World) (m : MemCache) : (w.alloc m).next = w.next + 1 := rfl

@[simp] theorem flushReq_alloc (w : World) (m : MemCache) : (w.alloc m).flushReq = w.flushReq :=
  rfl

@[simp] theorem log_alloc (w : World) (m : MemCache) : (w.alloc m).log = w.log := rfl

@[simp] theorem caches_alloc (w : World) (m : MemCache) :
    (w.alloc m).caches = Function.update w.caches w.next m := rfl

/-- `insert_raw` through the handle `h`, recorded in the ghost log. -/
def insertRaw (w : World) (h : CacheRef) (seq : UInt64) (fid : FieldId) (ts : I64)
    (dtype : ValueType) (val : List UInt8) : Option World := do
  let m ← (w.caches h).insertRaw env seq fid ts dtype val
  let data ← MemCache.decodeRaw env ts dtype val
  some { w with
    caches := Function.update w.caches h m
    log := Function.update w.log h (w.log h ++ [(fid, data)]) }

/-- Publish the super-version the code builds after bumping `super_version_id`. -/
def publish (w : World) (deltaMutCache mutCache : CacheRef) (immutCache : List CacheRef) :
    World :=
  { w with tsf := { w.tsf with
      superVersionId := w.tsf.superVersionId + 1
      superVersion := SuperVersion.new w.tsf.tfId deltaMutCache mutCache immutCache
        (w.tsf.superVersionId + 1) } }

@[simp] theorem caches_publish (w : World) (d m : CacheRef) (i : List CacheRef) :
    (w.publish d m i).caches = w.caches := rfl

@[simp] theorem next_publish (w : World) (d m : CacheRef) (i : List CacheRef) :
    (w.publish d m i).next = w.next := rfl

@[simp] theorem flushReq_publish (w : World) (d m : CacheRef) (i : List CacheRef) :
    (w.publish d m i).flushReq = w.flushReq := rfl

@[simp] theorem log_publish (w : World) (d m : CacheRef) (i : List CacheRef) :
    (w.publish d m i).log = w.log := rfl

@[simp] theorem tsf_publish (w : World) (d m : CacheRef) (i : List CacheRef) :
    (w.publish d m i).tsf = { w.tsf with
      superVersionId := w.tsf.superVersionId + 1
      superVersion := SuperVersion.new w.tsf.tfId d m i (w.tsf.superVersionId + 1) } := rfl

/-- `insert_raw` through a handle fails exactly where `MemCache::insert_raw`
does, and otherwise inserts the decoded cell and logs it. -/
theorem insertRaw_eq (w : World) (h : CacheRef) (seq : UInt64) (fid : FieldId) (ts : I64)
    (dtype : ValueType) (val : List UInt8) :
    w.insertRaw env h seq fid ts dtype val = (MemCache.decodeRaw env ts dtype val).map fun data =>
      { w with
        caches := Function.update w.caches h ({ w.caches h with seqNo := seq }.insert env fid data dtype)
        log := Function.update w.log h (w.log h ++ [(fid, data)]) } := by
  simp only [insertRaw, MemCache.insertRaw]
  cases MemCache.decodeRaw env ts dtype val <;> rfl

/-! ### Rotation and hand-off -/

/-- `TseriesFamily::switch_to_immutable`: freeze the published mutable cache,
append the family's mutable cache to the immutables, install a fresh one. -/
def switchToImmutable (w : World) : World :=
  let w := w.modify w.tsf.superVersion.mutCache MemCache.switchToImmutable
  let fresh := w.next
  let w := { w.alloc (MemCache.new w.tsf.tfId env.maxMemcacheSize w.tsf.seqNo) with
    tsf := { w.tsf with immutCache := w.tsf.immutCache ++ [w.tsf.mutCache], mutCache := fresh } }
  w.publish w.tsf.deltaMutCache w.tsf.mutCache w.tsf.immutCache

/-- `TseriesFamily::switch_memcache`: as `switch_to_immutable` with the caller's
cache; the new super-version gets `cache` as its delta cache and the delta cache
as its mutable one, in the order the code passes them. -/
def switchMemcache (w : World) (cache : CacheRef) : World :=
  let w := w.modify w.tsf.superVersion.mutCache MemCache.switchToImmutable
  let w := { w with tsf := { w.tsf with immutCache := w.tsf.immutCache ++ [w.tsf.mutCache] } }
  let w := w.publish cache w.tsf.deltaMutCache w.tsf.immutCache
  { w with tsf := { w.tsf with mutCache := cache } }

/-- `TseriesFamily::wrap_delta_flush_req`: queue the delta cache, install a fresh
one. -/
def wrapDeltaFlushReq (w : World) : World :=
  let reqMem := [(w.tsf.tfId, w.tsf.deltaMutCache)]
  let fresh := w.next
  let w := { w.alloc (MemCache.new w.tsf.tfId env.maxMemcacheSize w.tsf.seqNo) with
    tsf := { w.tsf with deltaMutCache := fresh } }
  let w := w.publish w.tsf.deltaMutCache w.tsf.mutCache w.tsf.immutCache
  { w with flushReq := w.flushReq ++ [⟨reqMem, 0⟩] }

/-- `TseriesFamily::wrap_flush_req`: queue every immutable cache. -/
def wrapFlushReq (w : World) : World :=
  let reqMem := w.tsf.immutCache.map (w.tsf.tfId, ·)
  let w := { w with tsf := { w.tsf with immutCache := [] } }
  let w := w.publish w.tsf.deltaMutCache w.tsf.mutCache w.tsf.immutCache
  { w with flushReq := w.flushReq ++ [⟨reqMem, 0⟩] }

/-! ### Ingest -/

/-- The first-sample bootstrap of `put_mutcache`: an unset watermark takes `ts`. -/
def bootstrap (w : World) (ts : I64) : World :=
  { w with tsf := { w.tsf with
      immutTsMin := if w.tsf.immutTsMin = I64.MIN then ts else w.tsf.immutTsMin } }

/-- The routing of `put_mutcache`: an in-order sample raises `mut_ts_max` and goes
to the published mutable cache, a late one to the published delta cache. -/
def route (w : World) (fid : FieldId) (val : List UInt8) (dtype : ValueType) (seq : UInt64)
    (ts : I64) : Option World :=
  if ts ≥ w.tsf.immutTsMin then
    let w := { w with tsf := { w.tsf with
      mutTsMax := if ts > w.tsf.mutTsMax then ts else w.tsf.mutTsMax } }
    w.insertRaw env w.tsf.superVersion.mutCache seq fid ts dtype val
  else w.insertRaw env w.tsf.superVersion.deltaMutCache seq fid ts dtype val

/-- An in-order sample ships a non-empty delta cache. -/
def flushDeltaOnInOrder (w : World) (ts : I64) : World :=
  if ts ≥ w.tsf.immutTsMin ∧ (w.caches w.tsf.deltaMutCache).dataCache.entries ≠ [] then
    w.wrapDeltaFlushReq env
  else w

/-- Advance the watermark to `mut_ts_max`, in the family and in its version. -/
def advanceWatermark (w : World) : World :=
  { w with tsf := { w.tsf with
      immutTsMin := w.tsf.mutTsMax
      version := { w.tsf.version with maxLevelTs := w.tsf.mutTsMax } } }

/-- A full published mutable cache is rotated; enough immutables are flushed
after the watermark advances. -/
def rotateIfFull (w : World) : World :=
  if (w.caches w.tsf.superVersion.mutCache).isFull then
    let w := w.switchToImmutable env
    if w.tsf.immutCache.length ≥ env.maxImmemcacheNum then
      (w.advanceWatermark).wrapFlushReq
    else w
  else w

/-- A full published delta cache is shipped. -/
def flushDeltaIfFull (w : World) : World :=
  if (w.caches w.tsf.superVersion.deltaMutCache).isFull then w.wrapDeltaFlushReq env else w

/-- `TseriesFamily::put_mutcache`: `none` is the `todo!()` of `insert_raw`. -/
def putMutcache (w : World) (fid : FieldId) (val : List UInt8) (dtype : ValueType)
    (seq : UInt64) (ts : I64) : Option World :=
  ((w.bootstrap ts).route env fid val dtype seq ts).map fun w =>
    ((w.flushDeltaOnInOrder env ts).rotateIfFull env).flushDeltaIfFull env

/-! ### Deletion -/

/-- The loop `delete_cache` runs over the entries of one cache. -/
def deleteIn (m : MemCache) (timeRange : TimeRange) : MemCache :=
  { m with dataCache := m.dataCache.mapEntries fun e =>
      if e.overlap timeRange then e.deleteDataCell timeRange else e }

/-- `TseriesFamily::delete_cache`: the mutable cache, the delta cache, then each
immutable cache. -/
def deleteCache (w : World) (timeRange : TimeRange) : World :=
  let w := w.modify w.tsf.mutCache (deleteIn · timeRange)
  let w := w.modify w.tsf.deltaMutCache (deleteIn · timeRange)
  w.tsf.immutCache.foldl (fun w h => w.modify h (deleteIn · timeRange)) w

/-- `delete_cache` is one write through each handle the family holds. -/
theorem deleteCache_eq (w : World) (timeRange : TimeRange) :
    w.deleteCache timeRange =
      (w.tsf.mutCache :: w.tsf.deltaMutCache :: w.tsf.immutCache).foldl
        (fun w h => w.modify h (deleteIn · timeRange)) w := rfl

/-- Writes through a list of handles change nothing but the caches. -/
theorem foldl_modify_eq (hs : List CacheRef) (f : MemCache → MemCache) (w : World) :
    hs.foldl (fun w h => w.modify h f) w =
      { w with caches := (hs.foldl (fun w h => w.modify h f) w).caches } := by
  induction hs generalizing w with
  | nil => rfl
  | cons h hs ih => exact ih _

end World

/-- `TseriesFamily::new`: the given cache becomes the mutable one, a fresh cache
the delta one; the watermark starts at the version's `max_level_ts`.  The ghost
log records the given cache's cells as its first insertions. -/
def TseriesFamily.new (env : Env) (tfId : UInt32) (cache : MemCache) (version : Version) :
    World :=
  let w : World := ⟨⟨tfId, 0, 0, [], ⟨tfId, 0, 0, [], 0⟩, 0, version, 0, I64.MIN, I64.MIN⟩,
    fun _ => default, 0, [], fun _ => []⟩
  let mm := w.next
  let w := w.alloc cache
  let deltaMm := w.next
  let w := w.alloc (MemCache.new tfId env.maxMemcacheSize version.lastSeq)
  { w with
    tsf := ⟨tfId, deltaMm, mm, [], SuperVersion.new tfId deltaMm mm [] 0, 0, version,
      version.lastSeq, version.maxLevelTs, I64.MIN⟩
    log := Function.update w.log mm cache.cells }

/-! ### Runs -/

/-- The public operations of a family.  `switchMemcache` carries the arguments of
the `MemCache::new` that builds its cache. -/
inductive Op
  | putMutcache (fid : FieldId) (val : List UInt8) (dtype : ValueType) (seq : UInt64)
      (ts : I64)
  | switchToImmutable
  | switchMemcache (tfId : UInt32) (maxSize seq : UInt64)
  | deleteCache (timeRange : TimeRange)

namespace Op

/-- The call is a `put_mutcache`. -/
def isPutMutcache : Op → Bool
  | .putMutcache .. => true
  | _ => false

/-- The call is a `switch_memcache`. -/
def isSwitchMemcache : Op → Bool
  | .switchMemcache .. => true
  | _ => false

/-- The call is a `delete_cache`. -/
def isDeleteCache : Op → Bool
  | .deleteCache _ => true
  | _ => false

/-- The call does not reach the `todo!()` of `insert_raw`: an ingest names one of
the five scalar types. -/
def Typed : Op → Prop
  | .putMutcache _ _ dtype _ _ => dtype ≠ .unknown
  | _ => True

instance : DecidablePred Typed
  | .putMutcache _ _ dtype _ _ => inferInstanceAs (Decidable (dtype ≠ .unknown))
  | .switchToImmutable => inferInstanceAs (Decidable True)
  | .switchMemcache .. => inferInstanceAs (Decidable True)
  | .deleteCache _ => inferInstanceAs (Decidable True)

end Op

namespace World

variable (env : Env)

/-- One public call. -/
def step (w : World) : Op → Option World
  | .putMutcache fid val dtype seq ts => w.putMutcache env fid val dtype seq ts
  | .switchToImmutable => some (w.switchToImmutable env)
  | .switchMemcache tfId maxSize seq =>
    some ((w.alloc (MemCache.new tfId maxSize seq)).switchMemcache w.next)
  | .deleteCache r => some (w.deleteCache r)

/-- A sequence of public calls; `none` if one of them panics. -/
def run (w : World) : List Op → Option World
  | [] => some w
  | op :: ops => (w.step env op).bind (run · ops)

/-- One public call among those `ok` allows, returning normally. -/
def Step (ok : Op → Prop) (w w' : World) : Prop := ∃ op, ok op ∧ w.step env op = some w'

/-- `w'` is reached from `w` by public calls among those `ok` allows. -/
def Reachable (ok : Op → Prop) : World → World → Prop := Relation.ReflTransGen (Step env ok)

end World

end Tskv
