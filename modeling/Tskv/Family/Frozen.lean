import Tskv.Family.Ingest
import Tskv.Memcache.Invariants

/-!
# Frozen caches and deletion

What happens to a cache after it leaves the mutable role.  Rotation freezes it:
`MemCache::switch_to_immutable` sorts every entry by timestamp, stably, and sets
the `immutable` flag.  From then on only `delete_cache` writes to it, and only
while the family holds it; once it is on `FLUSH_REQ` nothing touches it again.
Inserts go only to the two caches the super-version names, which without
`switch_memcache` are the family's mutable and delta caches, never frozen.

The order of equal timestamps is the order of insertion: every entry keeps, for
each timestamp, a subsequence of the cells the log gave that field at that
timestamp.  Inserts append to both, the stable sort keeps the cells of one
timestamp in place, and deletion drops cells.

Deletion: `delete_cache` skips an entry whose bounds miss the range.  The bounds
always enclose the cells, so a skipped entry has no cell in the range, and the
call removes exactly the cells in the range from every cache the family holds.

## Main definitions

* `World.Stable`, `World.Everywhere` — properties of a cache and its log that every
  write keeps, and their holding at every address.
* `MemCache.InOrder`, `MemCache.SortedEntries` — insertion order within a
  timestamp, and sortedness.
* `World.FrozenInv` — the roles of the caches of a family.

## Main results

* `World.Everywhere.step` — every public call keeps a stable property everywhere.
* `World.immutCache_frozen` — **frozen caches are sorted, in insertion order,
  and never written again**, and handed-off caches are never touched.
* `World.deleteCache_eq_deleteRange` — **`delete_cache` is `delete_range` on
  every entry of every cache the family holds.**
-/

namespace Tskv

namespace MemCache

/-! ### Order within a cache -/

/-- The cells `log` gave the field `k`, in order. -/
def logFor (log : List (FieldId × DataType)) (k : FieldId) : List DataType :=
  (log.filter (·.1 = k)).map Prod.snd

/-- Each entry holds, for every timestamp, a subsequence of the cells the log gave
its field at that timestamp. -/
def InOrder (log : List (FieldId × DataType)) (m : MemCache) : Prop :=
  ∀ p ∈ m.dataCache.entries, ∀ t : I64,
    (p.2.cells.filter (·.timestamp = t)).Sublist ((logFor log p.1).filter (·.timestamp = t))

/-- Every entry is sorted by timestamp. -/
def SortedEntries (m : MemCache) : Prop :=
  ∀ p ∈ m.dataCache.entries, p.2.cells.Sorted fun a b => a.timestamp ≤ b.timestamp

@[simp] theorem logFor_append (log log' : List (FieldId × DataType)) (k : FieldId) :
    logFor (log ++ log') k = logFor log k ++ logFor log' k := by
  simp [logFor]

@[simp] theorem logFor_singleton_self (k : FieldId) (c : DataType) : logFor [(k, c)] k = [c] := by
  simp [logFor]

theorem InOrder.mono {log : List (FieldId × DataType)} {m : MemCache} (h : m.InOrder log)
    (log' : List (FieldId × DataType)) : m.InOrder (log ++ log') := fun p hp t =>
  (h p hp t).trans (by simp only [logFor_append, List.filter_append]; exact List.sublist_append_left _ _)

theorem InOrder.insert (env : Env) {log : List (FieldId × DataType)} {m : MemCache}
    (h : m.InOrder log) (seq : UInt64) (k : FieldId) (c : DataType) (vt : ValueType) :
    ({ m with seqNo := seq }.insert env k c vt).InOrder (log ++ [(k, c)]) := by
  intro p hp t
  rcases mem_upsertEntries hp with hp | ⟨hk, hp | ⟨e, he, hp⟩⟩
  · exact h.mono _ p hp t
  · rw [hp, hk]
    simp only [MemEntry.cells_push, MemEntry.cells_default, List.nil_append, logFor_append,
      logFor_singleton_self, List.filter_append]
    exact List.sublist_append_right _ _
  · rw [hp, hk]
    simp only [MemEntry.cells_push, logFor_append, List.filter_append]
    exact (h _ he t).append (by simp [logFor])

/-- The order `switch_to_immutable` sorts by is transitive and total, as the
library's sort lemmas ask of a boolean order. -/
theorem timestamp_le_trans (a b c : DataType) (hab : decide (a.timestamp ≤ b.timestamp))
    (hbc : decide (b.timestamp ≤ c.timestamp)) : decide (a.timestamp ≤ c.timestamp) := by
  simp only [decide_eq_true_eq] at *
  exact I64.le_trans hab hbc

theorem timestamp_le_total (a b : DataType) :
    decide (a.timestamp ≤ b.timestamp) || decide (b.timestamp ≤ a.timestamp) := by
  simpa using I64.le_total _ _

/-- The stable sort keeps the cells of each timestamp in place. -/
theorem filter_mergeSort_timestamp (l : List DataType) (t : I64) :
    (l.mergeSort fun a b => a.timestamp ≤ b.timestamp).filter (·.timestamp = t) =
      l.filter (·.timestamp = t) := by
  have hsub : (l.filter (·.timestamp = t)).Sublist
      (l.mergeSort fun a b => a.timestamp ≤ b.timestamp) :=
    List.sublist_mergeSort timestamp_le_trans timestamp_le_total
      (List.pairwise_filter.2 <| List.pairwise_of_forall fun _ _ ha hb => by
        simp_all [I64.le_refl])
      (List.filter_sublist _)
  have hsub' := hsub.filter fun c : DataType => decide (c.timestamp = t)
  rw [List.filter_filter] at hsub'
  simp only [Bool.and_self] at hsub'
  exact (hsub'.eq_of_length ((List.mergeSort_perm _ _).filter _).length_eq.symm).symm

theorem InOrder.switchToImmutable {log : List (FieldId × DataType)} {m : MemCache}
    (h : m.InOrder log) : m.switchToImmutable.InOrder log := by
  intro p hp t
  simp only [dataCache_switchToImmutable, FieldMap.entries_mapEntries, List.mem_map] at hp
  obtain ⟨q, hq, rfl⟩ := hp
  rw [MemEntry.cells_sortCells, filter_mergeSort_timestamp]
  exact h q hq t

theorem sortedEntries_switchToImmutable (m : MemCache) : m.switchToImmutable.SortedEntries := by
  intro p hp
  simp only [dataCache_switchToImmutable, FieldMap.entries_mapEntries, List.mem_map] at hp
  obtain ⟨q, -, rfl⟩ := hp
  exact (List.sorted_mergeSort timestamp_le_trans timestamp_le_total _).imp of_decide_eq_true

theorem inOrder_new (log : List (FieldId × DataType)) (tfId : UInt32) (maxSize seq : UInt64) :
    (new tfId maxSize seq).InOrder log := fun _ hp => (List.not_mem_nil _ hp).elim

theorem logFor_map_pair (k k' : FieldId) (cs : List DataType) :
    logFor (cs.map (k', ·)) k = if k' = k then cs else [] := by
  split <;> simp [logFor, List.filter_map, Function.comp_def, *]

/-- The log of a list of entries, for a key none of them has, is empty. -/
theorem logFor_flatMap_of_forall_ne {l : List (FieldId × MemEntry)} {k : FieldId}
    (h : ∀ r ∈ l, r.1 ≠ k) : logFor (l.flatMap fun p => p.2.cells.map (p.1, ·)) k = [] := by
  induction l with
  | nil => rfl
  | cons r l ih =>
    simp only [List.flatMap_cons, logFor_append, logFor_map_pair,
      if_neg (h r (List.mem_cons_self _ _)), ih fun r' hr' => h r' (List.mem_cons_of_mem _ hr'),
      List.append_nil]

/-- Flattening entries with distinct keys and reading one key back gives that
entry's cells. -/
theorem logFor_flatMap_of_mem {l : List (FieldId × MemEntry)} (nodup : (l.map Prod.fst).Nodup)
    {p : FieldId × MemEntry} (hp : p ∈ l) :
    logFor (l.flatMap fun p => p.2.cells.map (p.1, ·)) p.1 = p.2.cells := by
  induction l with
  | nil => cases hp
  | cons q qs ih =>
    obtain ⟨hq, hqs⟩ := List.nodup_cons.1 nodup
    simp only [List.flatMap_cons, logFor_append, logFor_map_pair]
    rcases List.mem_cons.1 hp with rfl | hp
    · rw [if_pos rfl, logFor_flatMap_of_forall_ne fun r hr e => hq (by
        rw [← e]; exact List.mem_map_of_mem _ hr), List.append_nil]
    · rw [if_neg fun e => hq (by rw [e]; exact List.mem_map_of_mem _ hp), List.nil_append]
      exact ih hqs hp

/-- A cache is in order against its own cells: the first log of the family's
initial cache. -/
theorem inOrder_cells (m : MemCache) : m.InOrder m.cells := fun p hp t => by
  rw [cells, logFor_flatMap_of_mem m.dataCache.nodup hp]

/-! ### Deletion within a cache -/

/-- One entry of `delete_cache`'s loop keeps a sublist of its cells and its bounds. -/
theorem cells_deleteIn_entry (e : MemEntry) (r : TimeRange) :
    (if e.overlap r then e.deleteDataCell r else e).cells.Sublist e.cells := by
  split
  · exact List.filter_sublist _
  · exact List.Sublist.refl _

theorem InOrder.deleteIn {log : List (FieldId × DataType)} {m : MemCache} (h : m.InOrder log)
    (r : TimeRange) : (World.deleteIn m r).InOrder log := by
  intro p hp t
  simp only [World.deleteIn, FieldMap.entries_mapEntries, List.mem_map] at hp
  obtain ⟨q, hq, rfl⟩ := hp
  exact ((cells_deleteIn_entry q.2 r).filter _).trans (h q hq t)

theorem SortedEntries.deleteIn {m : MemCache} (h : m.SortedEntries) (r : TimeRange) :
    (World.deleteIn m r).SortedEntries := by
  intro p hp
  simp only [World.deleteIn, FieldMap.entries_mapEntries, List.mem_map] at hp
  obtain ⟨q, hq, rfl⟩ := hp
  exact (h q hq).sublist (cells_deleteIn_entry q.2 r)

theorem Bounded.deleteIn {m : MemCache} (h : m.Bounded) (r : TimeRange) :
    (World.deleteIn m r).Bounded := by
  intro p hp
  simp only [World.deleteIn, FieldMap.entries_mapEntries, List.mem_map] at hp
  obtain ⟨q, hq, rfl⟩ := hp
  dsimp only
  split
  · exact (h q hq).deleteRange r
  · exact h q hq

end MemCache

namespace World

variable {env : Env} {w w' : World} {P : List (FieldId × DataType) → MemCache → Prop}

/-! ### Properties every write keeps -/

/-- A property of a cache and its insertion log that every write the family
makes keeps: a fresh cache has it, and an insert (logged), a freeze and a
deletion keep it. -/
structure Stable (env : Env) (P : List (FieldId × DataType) → MemCache → Prop) : Prop where
  new : ∀ log tfId maxSize seq, P log (MemCache.new tfId maxSize seq)
  insert : ∀ log m seq k c vt, P log m →
    P (log ++ [(k, c)]) ({ m with seqNo := seq }.insert env k c vt)
  switchToImmutable : ∀ log m, P log m → P log m.switchToImmutable
  deleteIn : ∀ log m r, P log m → P log (deleteIn m r)

/-- Every cache of the heap has `P` with its log. -/
def Everywhere (P : List (FieldId × DataType) → MemCache → Prop) (w : World) : Prop :=
  ∀ h, P (w.log h) (w.caches h)

theorem Everywhere.modify (hw : w.Everywhere P) (x : CacheRef) {f : MemCache → MemCache}
    (hf : ∀ log m, P log m → P log (f m)) : (w.modify x f).Everywhere P := by
  intro h
  simp only [caches_modify, log_modify, Function.update_apply]
  split
  · subst h
    exact hf _ _ (hw _)
  · exact hw h

theorem Everywhere.alloc (hP : Stable env P) (hw : w.Everywhere P) (tfId : UInt32)
    (maxSize seq : UInt64) : (w.alloc (MemCache.new tfId maxSize seq)).Everywhere P := by
  intro h
  simp only [caches_alloc, log_alloc, Function.update_apply]
  split
  · exact hP.new _ _ _ _
  · exact hw h

theorem Everywhere.insertRaw (hP : Stable env P) (hw : w.Everywhere P) {x : CacheRef}
    {seq : UInt64} {fid : FieldId} {ts : I64} {dtype : ValueType} {val : List UInt8}
    (h : w.insertRaw env x seq fid ts dtype val = some w') : w'.Everywhere P := by
  rw [insertRaw_eq, Option.map_eq_some'] at h
  obtain ⟨data, -, rfl⟩ := h
  intro y
  dsimp only
  simp only [Function.update_apply]
  split
  · subst y
    exact hP.insert _ _ _ _ _ _ (hw _)
  · exact hw y

theorem Everywhere.switchToImmutable (hP : Stable env P) (hw : w.Everywhere P) :
    (w.switchToImmutable env).Everywhere P :=
  (hw.modify _ hP.switchToImmutable).alloc hP _ _ _

theorem Everywhere.wrapDeltaFlushReq (hP : Stable env P) (hw : w.Everywhere P) :
    (w.wrapDeltaFlushReq env).Everywhere P :=
  hw.alloc hP _ _ _

theorem Everywhere.rotateIfFull (hP : Stable env P) (hw : w.Everywhere P) :
    (w.rotateIfFull env).Everywhere P := by
  unfold World.rotateIfFull
  split
  · dsimp only
    split
    exacts [hw.switchToImmutable hP, hw.switchToImmutable hP]
  · exact hw

theorem Everywhere.putMutcache (hP : Stable env P) (hw : w.Everywhere P) {fid : FieldId}
    {val : List UInt8} {dtype : ValueType} {seq : UInt64} {ts : I64}
    (hput : w.putMutcache env fid val dtype seq ts = some w') : w'.Everywhere P := by
  rw [World.putMutcache, Option.map_eq_some'] at hput
  obtain ⟨w1, hr, rfl⟩ := hput
  have hw1 : w1.Everywhere P := by
    unfold World.route at hr
    split at hr <;> refine Everywhere.insertRaw hP ?_ hr <;> exact hw
  have hw2 : (w1.flushDeltaOnInOrder env ts).Everywhere P := by
    unfold World.flushDeltaOnInOrder
    split
    exacts [hw1.wrapDeltaFlushReq hP, hw1]
  unfold World.flushDeltaIfFull
  split
  exacts [(hw2.rotateIfFull hP).wrapDeltaFlushReq hP, hw2.rotateIfFull hP]

theorem Everywhere.deleteCache (hP : Stable env P) (hw : w.Everywhere P) (r : TimeRange) :
    (w.deleteCache r).Everywhere P := by
  rw [deleteCache_eq]
  generalize w.tsf.mutCache :: w.tsf.deltaMutCache :: w.tsf.immutCache = hs
  induction hs generalizing w with
  | nil => exact hw
  | cons x hs ih => exact ih (hw.modify x fun log m => hP.deleteIn log m r)

/-- **Every public call keeps a stable property at every address.** -/
theorem Everywhere.step (hP : Stable env P) (hw : w.Everywhere P) {op : Op}
    (h : w.step env op = some w') : w'.Everywhere P := by
  cases op with
  | putMutcache => exact hw.putMutcache hP h
  | switchToImmutable => exact Option.some.inj h ▸ hw.switchToImmutable hP
  | switchMemcache tfId maxSize seq =>
    exact Option.some.inj h ▸ (hw.alloc hP tfId maxSize seq).modify _ hP.switchToImmutable
  | deleteCache r => exact Option.some.inj h ▸ hw.deleteCache hP r

theorem Everywhere.reachable (hP : Stable env P) {ok : Op → Prop} (hw : w.Everywhere P)
    (hrun : Reachable env ok w w') : w'.Everywhere P := by
  induction hrun with
  | refl => exact hw
  | tail _ hstep ih =>
    obtain ⟨_, _, h⟩ := hstep
    exact ih.step hP h

/-- The heap of a new family has a stable property when its initial cache has
it against its own cells. -/
theorem everywhere_new (hP : Stable env P) (tfId : UInt32) {cache : MemCache} (version : Version)
    (hc : P cache.cells cache) : (TseriesFamily.new env tfId cache version).Everywhere P := by
  intro h
  by_cases h1 : h = 1
  · subst h1
    simpa [TseriesFamily.new, alloc] using hP.new [] tfId env.maxMemcacheSize version.lastSeq
  · by_cases h0 : h = 0
    · subst h0
      simpa [TseriesFamily.new, alloc] using hc
    · simpa [TseriesFamily.new, alloc, h0, h1] using hP.new [] 0 0 0

/-! ### Deletion -/

theorem stable_bounded (env : Env) : Stable env fun _ m => m.Bounded :=
  ⟨fun _ _ _ _ _ hp => (List.not_mem_nil _ hp).elim, fun _ _ _ _ _ _ hm => hm.insert env _ _ _,
    fun _ _ hm => hm.switchToImmutable, fun _ _ r hm => hm.deleteIn r⟩

theorem MemEntry.deleteRange_eq_self {e : MemEntry} (he : e.Bounded) {r : TimeRange}
    (h : e.overlap r = false) : e.deleteRange r = e := by
  have hkeep : e.cells.filter (fun c => c.timestamp < r.minTs || c.timestamp > r.maxTs) = e.cells :=
    List.filter_eq_self.2 fun c hc => by
      have := he c hc
      simp only [MemEntry.overlap, Bool.and_eq_false_iff, decide_eq_false_iff_not] at h
      simp only [Bool.or_eq_true, decide_eq_true_eq, I64.lt_def, I64.le_def, gt_iff_lt,
        ge_iff_le, not_le] at h this ⊢
      omega
  unfold MemEntry.deleteRange
  rw [hkeep]

/-- On a cache whose bounds enclose its cells, the overlap guard skips only
entries the deletion leaves as they are. -/
theorem deleteIn_eq_of_bounded {m : MemCache} (hm : m.Bounded) (r : TimeRange) :
    deleteIn m r = { m with dataCache := m.dataCache.mapEntries (·.deleteRange r) } := by
  unfold deleteIn
  congr 1
  ext1
  simp only [FieldMap.entries_mapEntries]
  refine List.map_congr_left fun p hp => ?_
  split
  · rfl
  · rename_i hov
    rw [MemEntry.deleteRange_eq_self (hm p hp) (Bool.eq_false_iff.2 hov)]

/-- Writes through distinct handles apply the write once to each. -/
theorem caches_foldl_modify {hs : List CacheRef} (hnd : hs.Nodup) (f : MemCache → MemCache)
    (w : World) (x : CacheRef) :
    (hs.foldl (fun w h => w.modify h f) w).caches x = if x ∈ hs then f (w.caches x) else w.caches x := by
  induction hs generalizing w with
  | nil => simp
  | cons y hs ih =>
    obtain ⟨hy, hnd⟩ := List.nodup_cons.1 hnd
    simp only [List.foldl_cons, ih hnd, caches_modify, Function.update_apply, List.mem_cons]
    by_cases hxy : x = y
    · subst hxy
      simp [hy]
    · simp [hxy]

/-- **`delete_cache` is `delete_range` on every entry of every cache the family
holds**: in every family reached by any public calls from a new one whose
initial cache was built by `MemCache`'s own calls, `delete_cache(r)` leaves in the
mutable, the delta and each immutable cache exactly the cells outside `r`, in
their order, and touches no other cache. -/
theorem deleteCache_eq_deleteRange {tfId : UInt32} {cache : MemCache} {version : Version}
    (hcache : cache.Reachable env fun _ => True)
    (hw : Reachable env (fun _ => True) (TseriesFamily.new env tfId cache version) w)
    (r : TimeRange) (h : CacheRef) :
    (w.deleteCache r).caches h =
      if h ∈ w.tsf.mutCache :: w.tsf.deltaMutCache :: w.tsf.immutCache then
        { w.caches h with dataCache := (w.caches h).dataCache.mapEntries (·.deleteRange r) }
      else w.caches h := by
  have hs := (holds_new env tfId cache version).1.reachable hw
  have hb := (everywhere_new (stable_bounded env) tfId version hcache.bounded).reachable
    (stable_bounded env) hw
  rw [deleteCache_eq]
  refine (caches_foldl_modify hs.live_nodup _ w h).trans ?_
  by_cases hh : h ∈ w.tsf.mutCache :: w.tsf.deltaMutCache :: w.tsf.immutCache
  · rw [if_pos hh, if_pos (show h ∈ w.live from hh)]
    exact deleteIn_eq_of_bounded (hb h) r
  · rw [if_neg hh, if_neg (show h ∉ w.live from hh)]

theorem deleteCache_after_one_sample :
    ∃ w, ((MemCache.new 0 64 0).Reachable (Env.ofLimits 32 64 2) (fun _ => True) ∧
      Reachable (Env.ofLimits 32 64 2) (fun _ => True)
        (TseriesFamily.new (Env.ofLimits 32 64 2) 0 (MemCache.new 0 64 0) ⟨0, I64.ofInt 0⟩) w) ∧
      (w.deleteCache ⟨I64.ofInt 5, I64.ofInt 0⟩).caches 0 =
        if 0 ∈ w.tsf.mutCache :: w.tsf.deltaMutCache :: w.tsf.immutCache then
          { w.caches 0 with
            dataCache := (w.caches 0).dataCache.mapEntries (·.deleteRange ⟨I64.ofInt 5, I64.ofInt 0⟩) }
        else w.caches 0 := by
  obtain ⟨w, hput⟩ : ∃ w, (TseriesFamily.new (Env.ofLimits 32 64 2) 0 (MemCache.new 0 64 0)
      ⟨0, I64.ofInt 0⟩).putMutcache (Env.ofLimits 32 64 2) 1 [] .unsigned 0 (I64.ofInt 3) =
      some w := ⟨_, rfl⟩
  have hcache : (MemCache.new 0 64 0).Reachable (Env.ofLimits 32 64 2) (fun _ => True) := .new 0 64 0
  have hw : Reachable (Env.ofLimits 32 64 2) (fun _ => True)
      (TseriesFamily.new (Env.ofLimits 32 64 2) 0 (MemCache.new 0 64 0) ⟨0, I64.ofInt 0⟩) w :=
    .single ⟨.putMutcache 1 [] .unsigned 0 (I64.ofInt 3), trivial, hput⟩
  exact ⟨w, ⟨hcache, hw⟩, deleteCache_eq_deleteRange hcache hw _ 0⟩

/-! ### The roles of the caches -/

/-- The roles of a family's caches along runs without `switch_memcache`: the
mutable and delta caches and every unallocated handle are not frozen, and every
immutable cache is frozen and sorted. -/
structure FrozenInv (w : World) : Prop where
  shape : w.Shape
  mirrors : w.Mirrors
  fresh : ∀ h, w.next ≤ h → (w.caches h).immutable = false
  mutCache : (w.caches w.tsf.mutCache).immutable = false
  deltaMutCache : (w.caches w.tsf.deltaMutCache).immutable = false
  immutCache : ∀ h ∈ w.tsf.immutCache, (w.caches h).immutable = true ∧ (w.caches h).SortedEntries

/-- What a call never undoes: a frozen cache stays frozen and gets no insert, and
a cache on `FLUSH_REQ` stays there and is neither written nor inserted into. -/
def Settles (w w' : World) : Prop :=
  (∀ h, (w.caches h).immutable = true → (w'.caches h).immutable = true ∧ w'.log h = w.log h) ∧
    ∀ h ∈ w.flushed, h ∈ w'.flushed ∧ w'.caches h = w.caches h ∧ w'.log h = w.log h

theorem Settles.refl (w : World) : Settles w w :=
  ⟨fun _ h => ⟨h, rfl⟩, fun _ h => ⟨h, rfl, rfl⟩⟩

theorem Settles.trans {w₁ w₂ w₃ : World} (h₁ : Settles w₁ w₂) (h₂ : Settles w₂ w₃) :
    Settles w₁ w₃ :=
  ⟨fun h hf => ⟨(h₂.1 h (h₁.1 h hf).1).1, (h₂.1 h (h₁.1 h hf).1).2.trans (h₁.1 h hf).2⟩,
    fun h hf => ⟨(h₂.2 h (h₁.2 h hf).1).1, (h₂.2 h (h₁.2 h hf).1).2.1.trans (h₁.2 h hf).2.1,
      (h₂.2 h (h₁.2 h hf).1).2.2.trans (h₁.2 h hf).2.2⟩⟩

/-- A frozen cache is allocated and is neither the mutable nor the delta cache. -/
theorem FrozenInv.of_frozen (hi : w.FrozenInv) {h : CacheRef} (hh : (w.caches h).immutable = true) :
    h ≠ w.next ∧ h ≠ w.tsf.mutCache ∧ h ≠ w.tsf.deltaMutCache := by
  refine ⟨fun e => ?_, fun e => ?_, fun e => ?_⟩ <;> subst e
  · simp [hi.fresh _ (le_refl _)] at hh
  · simp [hi.mutCache] at hh
  · simp [hi.deltaMutCache] at hh

/-- A handed-off cache is allocated and no longer held by the family. -/
theorem Shape.of_flushed (hs : w.Shape) {h : CacheRef} (hh : h ∈ w.flushed) :
    h ≠ w.next ∧ h ∉ w.live :=
  ⟨fun e => hs.next_not_mem (e ▸ List.mem_append_right _ hh),
    fun hl => (List.disjoint_of_nodup_append hs.nodup) hl hh⟩

/-- A call that writes only live handles and the next one, leaves the logs of all
but the mutable and delta caches and the other frozen flags alone, and only
appends to `FLUSH_REQ`, settles. -/
theorem Shape.settles (hs : w.Shape) (hi : w.FrozenInv)
    (hcaches : ∀ h, h ≠ w.next → h ∉ w.live → w'.caches h = w.caches h)
    (hfrozen : ∀ h, (w.caches h).immutable = true → (w'.caches h).immutable = true)
    (hlog : ∀ h, h ≠ w.tsf.mutCache → h ≠ w.tsf.deltaMutCache → w'.log h = w.log h)
    (hflushed : w.flushed ⊆ w'.flushed) : Settles w w' :=
  ⟨fun h hf => ⟨hfrozen h hf, hlog h (hi.of_frozen hf).2.1 (hi.of_frozen hf).2.2⟩,
    fun h hf => ⟨hflushed hf, hcaches h (hs.of_flushed hf).1 (hs.of_flushed hf).2,
      hlog h (fun e => (hs.of_flushed hf).2 (e ▸ mut_mem_live))
        (fun e => (hs.of_flushed hf).2 (e ▸ delta_mem_live))⟩⟩

theorem FrozenInv.wrapDeltaFlushReq (hi : w.FrozenInv) :
    (w.wrapDeltaFlushReq env).FrozenInv ∧ Settles w (w.wrapDeltaFlushReq env) := by
  have hc : ∀ h, h ≠ w.next → (w.wrapDeltaFlushReq env).caches h = w.caches h :=
    fun h hh => Function.update_noteq hh _ _
  refine ⟨⟨hi.shape.wrapDeltaFlushReq, mirrors_wrapDeltaFlushReq w, fun h hh => ?_, ?_,
    by simp [World.wrapDeltaFlushReq], fun h hh => ?_⟩,
    hi.shape.settles hi (fun h hh _ => hc h hh) (fun h hf => ?_) (fun _ _ _ => rfl)
    (by simp [World.wrapDeltaFlushReq, flushed])⟩
  · rw [hc h (Nat.ne_of_gt hh)]
    exact hi.fresh h (Nat.le_of_succ_le hh)
  · rw [show (w.wrapDeltaFlushReq env).tsf.mutCache = w.tsf.mutCache from rfl,
      hc _ (hi.shape.ne_next mut_mem_live)]
    exact hi.mutCache
  · rw [show (w.wrapDeltaFlushReq env).tsf.immutCache = w.tsf.immutCache from rfl] at hh
    rw [hc h (hi.shape.ne_next (mem_live_of_mem_immut hh))]
    exact hi.immutCache h hh
  · rw [hc h (hi.of_frozen hf).1]
    exact hf

theorem FrozenInv.switchToImmutable (hi : w.FrozenInv) :
    (w.switchToImmutable env).FrozenInv ∧ Settles w (w.switchToImmutable env) := by
  have hc : ∀ h, h ≠ w.next → h ≠ w.tsf.mutCache → (w.switchToImmutable env).caches h = w.caches h :=
    fun h h₁ h₂ => by simp [World.switchToImmutable, Function.update_noteq h₁, hi.mirrors.mutCache,
      Function.update_noteq h₂]
  refine ⟨⟨hi.shape.switchToImmutable, mirrors_switchToImmutable w, fun h hh => ?_,
    by simp [World.switchToImmutable], ?_, fun h hh => ?_⟩,
    hi.shape.settles hi (fun h h₁ h₂ => hc h h₁ fun e => h₂ (e ▸ mut_mem_live))
      (fun h hf => ?_) (fun _ _ _ => rfl) (by simp [World.switchToImmutable, flushed])⟩
  · have hlt : w.next < h := Nat.lt_of_succ_le hh
    have hmut : w.tsf.mutCache < w.next := hi.shape.lt_next _ (mem_held_of_mem_live mut_mem_live)
    rw [hc h (Nat.ne_of_gt hlt) fun e => Nat.lt_asymm hlt (show h < w.next from e ▸ hmut)]
    exact hi.fresh h (Nat.le_of_lt hlt)
  · rw [show (w.switchToImmutable env).tsf.deltaMutCache = w.tsf.deltaMutCache from rfl,
      hc _ (hi.shape.ne_next delta_mem_live) hi.shape.mut_ne_delta.symm]
    exact hi.deltaMutCache
  · rcases List.mem_append.1 (show h ∈ w.tsf.immutCache ++ [w.tsf.mutCache] from hh) with hh | hh
    · rw [hc h (hi.shape.ne_next (mem_live_of_mem_immut hh))
        (hi.shape.ne_mut_of_mem_immut hh)]
      exact hi.immutCache h hh
    · rw [List.mem_singleton.1 hh]
      simp only [World.switchToImmutable, caches_publish, caches_alloc, caches_modify,
        Function.update_noteq (hi.shape.ne_next mut_mem_live), hi.mirrors.mutCache,
        Function.update_same, next_modify]
      exact ⟨rfl, MemCache.sortedEntries_switchToImmutable _⟩
  · rw [hc h (hi.of_frozen hf).1 (hi.of_frozen hf).2.1]
    exact hf

theorem FrozenInv.flushImmut (hi : w.FrozenInv) :
    w.advanceWatermark.wrapFlushReq.FrozenInv ∧ Settles w w.advanceWatermark.wrapFlushReq :=
  ⟨⟨hi.shape.advanceWatermark.wrapFlushReq, mirrors_flushImmut w, hi.fresh, hi.mutCache,
    hi.deltaMutCache, fun _ hh => (List.not_mem_nil _ hh).elim⟩,
    hi.shape.settles hi (fun _ _ _ => rfl) (fun _ hf => hf) (fun _ _ _ => rfl)
      (by simp [World.wrapFlushReq, World.advanceWatermark, flushed])⟩

/-- An insert through the mutable or the delta cache changes no frozen flag. -/
theorem FrozenInv.insertRaw (hi : w.FrozenInv) {x : CacheRef}
    (hx : x = w.tsf.mutCache ∨ x = w.tsf.deltaMutCache) {seq : UInt64} {fid : FieldId} {ts : I64}
    {dtype : ValueType} {val : List UInt8} (h : w.insertRaw env x seq fid ts dtype val = some w') :
    w'.FrozenInv ∧ Settles w w' := by
  rw [insertRaw_eq, Option.map_eq_some'] at h
  obtain ⟨data, -, rfl⟩ := h
  have hx' : x ∈ w.live := by rcases hx with rfl | rfl; exacts [mut_mem_live, delta_mem_live]
  have hflag : ∀ h, ((Function.update w.caches x ({ w.caches x with seqNo := seq }.insert env fid
      data dtype)) h).immutable = (w.caches h).immutable := fun h => by
    by_cases e : h = x <;> simp [Function.update_apply, e]
  have hc : ∀ h, h ≠ x → (Function.update w.caches x ({ w.caches x with seqNo := seq }.insert env
      fid data dtype)) h = w.caches h := fun h hh => Function.update_noteq hh _ _
  refine ⟨⟨hi.shape.of_perm (.refl _) rfl hi.shape.sv_mut hi.shape.sv_delta,
    ⟨hi.mirrors.mutCache, hi.mirrors.deltaMutCache, hi.mirrors.immutCache, hi.mirrors.versionId⟩,
    fun h hh => (hflag h).trans (hi.fresh h hh), (hflag _).trans hi.mutCache,
    (hflag _).trans hi.deltaMutCache, fun h hh => ?_⟩,
    hi.shape.settles hi (fun h _ hh => hc h fun e => hh (e ▸ hx')) (fun h hf => (hflag h).trans hf)
      (fun h h₁ h₂ => ?_) (List.Subset.refl _)⟩
  · have hne : h ≠ x := by
      rcases hx with rfl | rfl
      exacts [hi.shape.ne_mut_of_mem_immut hh, hi.shape.ne_delta_of_mem_immut hh]
    dsimp only
    rw [hc h hne]
    exact hi.immutCache h hh
  · dsimp only
    rw [Function.update_noteq (by rcases hx with rfl | rfl; exacts [h₁, h₂])]

theorem FrozenInv.withMutTsMax (hi : w.FrozenInv) (m : I64) :
    ({ w with tsf := { w.tsf with mutTsMax := m } } : World).FrozenInv :=
  ⟨⟨hi.shape.nodup, hi.shape.lt_next, hi.shape.sv_mut, hi.shape.sv_delta⟩,
    ⟨hi.mirrors.mutCache, hi.mirrors.deltaMutCache, hi.mirrors.immutCache, hi.mirrors.versionId⟩,
    hi.fresh, hi.mutCache, hi.deltaMutCache, hi.immutCache⟩

theorem FrozenInv.route (hi : w.FrozenInv) {fid : FieldId} {val : List UInt8}
    {dtype : ValueType} {seq : UInt64} {ts : I64} (hr : w.route env fid val dtype seq ts = some w') :
    w'.FrozenInv ∧ Settles w w' := by
  unfold World.route at hr
  split at hr
  · have h := (hi.withMutTsMax (if ts > w.tsf.mutTsMax then ts else w.tsf.mutTsMax)).insertRaw
      (.inl hi.mirrors.mutCache) hr
    exact ⟨h.1, h.2⟩
  · exact hi.insertRaw (.inr hi.mirrors.deltaMutCache) hr

theorem FrozenInv.bootstrap (hi : w.FrozenInv) (ts : I64) : (w.bootstrap ts).FrozenInv :=
  ⟨hi.shape.bootstrap ts, hi.mirrors.bootstrap ts, hi.fresh, hi.mutCache, hi.deltaMutCache,
    hi.immutCache⟩

theorem FrozenInv.deleteCache (hi : w.FrozenInv) (r : TimeRange) :
    (w.deleteCache r).FrozenInv ∧ Settles w (w.deleteCache r) := by
  have hc : ∀ h, (w.deleteCache r).caches h =
      if h ∈ w.live then deleteIn (w.caches h) r else w.caches h := fun h => by
    rw [deleteCache_eq]
    exact caches_foldl_modify hi.shape.live_nodup _ w h
  have hflag : ∀ h, ((w.deleteCache r).caches h).immutable = (w.caches h).immutable := fun h => by
    rw [hc]
    split <;> rfl
  have hdc : w.deleteCache r = { w with caches := (w.deleteCache r).caches } := by
    rw [deleteCache_eq]
    exact foldl_modify_eq _ _ _
  rw [hdc]
  refine ⟨⟨⟨hi.shape.nodup, hi.shape.lt_next, hi.shape.sv_mut, hi.shape.sv_delta⟩,
    ⟨hi.mirrors.mutCache, hi.mirrors.deltaMutCache, hi.mirrors.immutCache, hi.mirrors.versionId⟩,
    fun h hh => (hflag h).trans (hi.fresh h hh), (hflag _).trans hi.mutCache,
    (hflag _).trans hi.deltaMutCache, fun h hh => ⟨(hflag h).trans (hi.immutCache h hh).1, ?_⟩⟩,
    hi.shape.settles hi (fun h _ hh => by dsimp only; rw [hc, if_neg hh])
      (fun h hf => (hflag h).trans hf) (fun _ _ _ => rfl) (List.Subset.refl _)⟩
  dsimp only
  rw [hc, if_pos (show h ∈ w.live from mem_live_of_mem_immut hh)]
  exact (hi.immutCache h hh).2.deleteIn r

theorem FrozenInv.flushDeltaOnInOrder (hi : w.FrozenInv) (env : Env) (ts : I64) :
    (w.flushDeltaOnInOrder env ts).FrozenInv ∧ Settles w (w.flushDeltaOnInOrder env ts) := by
  unfold World.flushDeltaOnInOrder
  split
  exacts [hi.wrapDeltaFlushReq, ⟨hi, .refl w⟩]

theorem FrozenInv.rotateIfFull (hi : w.FrozenInv) (env : Env) :
    (w.rotateIfFull env).FrozenInv ∧ Settles w (w.rotateIfFull env) := by
  unfold World.rotateIfFull
  split
  · dsimp only
    split
    · obtain ⟨h₁, s₁⟩ : (w.switchToImmutable env).FrozenInv ∧ Settles w _ := hi.switchToImmutable
      exact ⟨h₁.flushImmut.1, s₁.trans h₁.flushImmut.2⟩
    · exact hi.switchToImmutable
  · exact ⟨hi, .refl w⟩

theorem FrozenInv.flushDeltaIfFull (hi : w.FrozenInv) (env : Env) :
    (w.flushDeltaIfFull env).FrozenInv ∧ Settles w (w.flushDeltaIfFull env) := by
  unfold World.flushDeltaIfFull
  split
  exacts [hi.wrapDeltaFlushReq, ⟨hi, .refl w⟩]

theorem FrozenInv.putMutcache (hi : w.FrozenInv) {fid : FieldId} {val : List UInt8}
    {dtype : ValueType} {seq : UInt64} {ts : I64}
    (hput : w.putMutcache env fid val dtype seq ts = some w') : w'.FrozenInv ∧ Settles w w' := by
  rw [World.putMutcache, Option.map_eq_some'] at hput
  obtain ⟨w1, hr, rfl⟩ := hput
  obtain ⟨h₁, s₁⟩ := (hi.bootstrap ts).route hr
  obtain ⟨h₂, s₂⟩ := h₁.flushDeltaOnInOrder env ts
  obtain ⟨h₃, s₃⟩ := h₂.rotateIfFull env
  obtain ⟨h₄, s₄⟩ := h₃.flushDeltaIfFull env
  exact ⟨h₄, s₁.trans (s₂.trans (s₃.trans s₄))⟩

theorem FrozenInv.step (hi : w.FrozenInv) {op : Op} (hop : op.isSwitchMemcache = false)
    (h : w.step env op = some w') : w'.FrozenInv ∧ Settles w w' := by
  cases op with
  | putMutcache => exact hi.putMutcache h
  | switchToImmutable => exact Option.some.inj h ▸ hi.switchToImmutable
  | switchMemcache => cases hop
  | deleteCache r => exact Option.some.inj h ▸ hi.deleteCache r

theorem FrozenInv.reachable (hi : w.FrozenInv)
    (hrun : Reachable env (fun op => op.isSwitchMemcache = false) w w') :
    w'.FrozenInv ∧ Settles w w' := by
  induction hrun with
  | refl => exact ⟨hi, .refl w⟩
  | tail _ hstep ih =>
    obtain ⟨_, hop, h⟩ := hstep
    obtain ⟨hi', hs'⟩ := ih.1.step hop h
    exact ⟨hi', ih.2.trans hs'⟩

theorem frozenInv_new (env : Env) (tfId : UInt32) {cache : MemCache} (version : Version)
    (hmut : cache.immutable = false) : (TseriesFamily.new env tfId cache version).FrozenInv := by
  refine ⟨(holds_new env tfId cache version).1, ⟨rfl, rfl, rfl, rfl⟩, fun h hh => ?_,
    by simpa [TseriesFamily.new, alloc] using hmut, by simp [TseriesFamily.new, alloc],
    fun _ hh => (List.not_mem_nil _ hh).elim⟩
  have h0 : h ≠ 0 := fun e => by subst e; cases hh
  have h1 : h ≠ 1 := fun e => by subst e; cases hh; contradiction
  simp [TseriesFamily.new, alloc, h0, h1]
  rfl

theorem stable_inOrder (env : Env) : Stable env fun log m => m.InOrder log :=
  ⟨MemCache.inOrder_new, fun _ _ _ _ _ _ hm => hm.insert env _ _ _ _,
    fun _ _ hm => hm.switchToImmutable, fun _ _ r hm => hm.deleteIn r⟩

/-- **Frozen caches, and what is never undone.**  Along runs of ingests,
rotations and deletions from a new family with a mutable initial cache: every
immutable cache is frozen, every entry of it is sorted by timestamp and holds
the cells of each timestamp in the order they were inserted; and from any state
on, a cache that is frozen or on `FLUSH_REQ` gets no insert, and one on
`FLUSH_REQ` is not written at all. -/
theorem immutCache_frozen {tfId : UInt32} {cache : MemCache} {version : Version}
    (hmut : cache.immutable = false)
    (hw : Reachable env (fun op => op.isSwitchMemcache = false)
      (TseriesFamily.new env tfId cache version) w)
    (hw' : Reachable env (fun op => op.isSwitchMemcache = false) w w') :
    (∀ h ∈ w.tsf.immutCache, (w.caches h).immutable = true ∧
      ∀ p ∈ (w.caches h).dataCache.entries,
        p.2.cells.Sorted (fun a b => a.timestamp ≤ b.timestamp) ∧
        ∀ t : I64, (p.2.cells.filter (·.timestamp = t)).Sublist
          ((MemCache.logFor (w.log h) p.1).filter (·.timestamp = t))) ∧
    (∀ h, (w.caches h).immutable = true ∨ h ∈ w.flushed → w'.log h = w.log h) ∧
    (∀ h ∈ w.flushed, w'.caches h = w.caches h) := by
  obtain ⟨hi, -⟩ := (frozenInv_new env tfId version hmut).reachable hw
  have hord := (everywhere_new (stable_inOrder env) tfId version
    (MemCache.inOrder_cells cache)).reachable (stable_inOrder env) hw
  obtain ⟨-, hs⟩ := hi.reachable hw'
  refine ⟨fun h hh => ⟨(hi.immutCache h hh).1, fun p hp => ⟨(hi.immutCache h hh).2 p hp,
    hord h p hp⟩⟩, fun h hh => ?_, fun h hh => (hs.2 h hh).2.1⟩
  rcases hh with hh | hh
  exacts [(hs.1 h hh).2, (hs.2 h hh).2.2]

theorem immutCache_frozen_after_rotation :
    ∃ w w', ((MemCache.new 0 64 0).immutable = false ∧
      Reachable (Env.ofLimits 32 64 2) (fun op => op.isSwitchMemcache = false)
        (TseriesFamily.new (Env.ofLimits 32 64 2) 0 (MemCache.new 0 64 0) ⟨0, I64.ofInt 0⟩) w ∧
      Reachable (Env.ofLimits 32 64 2) (fun op => op.isSwitchMemcache = false) w w') ∧
      (∀ h ∈ w.tsf.immutCache, (w.caches h).immutable = true ∧
        ∀ p ∈ (w.caches h).dataCache.entries,
          p.2.cells.Sorted (fun a b => a.timestamp ≤ b.timestamp) ∧
          ∀ t : I64, (p.2.cells.filter (·.timestamp = t)).Sublist
            ((MemCache.logFor (w.log h) p.1).filter (·.timestamp = t))) ∧
      (∀ h, (w.caches h).immutable = true ∨ h ∈ w.flushed → w'.log h = w.log h) ∧
      (∀ h ∈ w.flushed, w'.caches h = w.caches h) := by
  obtain ⟨w₁, h₁⟩ : ∃ w, (TseriesFamily.new (Env.ofLimits 32 64 2) 0 (MemCache.new 0 64 0)
      ⟨0, I64.ofInt 0⟩).putMutcache (Env.ofLimits 32 64 2) 1 [] .unsigned 0 (I64.ofInt 3) =
      some w := ⟨_, rfl⟩
  have hw : Reachable (Env.ofLimits 32 64 2) (fun op => op.isSwitchMemcache = false)
      (TseriesFamily.new (Env.ofLimits 32 64 2) 0 (MemCache.new 0 64 0) ⟨0, I64.ofInt 0⟩)
      (w₁.switchToImmutable (Env.ofLimits 32 64 2)) :=
    .tail (.single ⟨.putMutcache 1 [] .unsigned 0 (I64.ofInt 3), rfl, h₁⟩)
      ⟨.switchToImmutable, rfl, rfl⟩
  obtain ⟨w₂, h₂⟩ : ∃ w, (w₁.switchToImmutable (Env.ofLimits 32 64 2)).putMutcache
      (Env.ofLimits 32 64 2) 1 [] .unsigned 0 (I64.ofInt 1) = some w := by
    cases h₁
    exact ⟨_, rfl⟩
  have hw' : Reachable (Env.ofLimits 32 64 2) (fun op => op.isSwitchMemcache = false)
      (w₁.switchToImmutable (Env.ofLimits 32 64 2)) w₂ :=
    .single ⟨.putMutcache 1 [] .unsigned 0 (I64.ofInt 1), rfl, h₂⟩
  exact ⟨_, _, ⟨rfl, hw, hw'⟩, immutCache_frozen rfl hw hw'⟩

end World

end Tskv
