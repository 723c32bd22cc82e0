import Tskv.Family.Frozen

/-!
# The order of the hand-off

The heap allocates handles in increasing order, so the handle of a cache tells
when it was created.  A mutable cache takes new samples only while it is the
mutable cache, then is frozen behind the immutable caches, and `wrap_flush_req`
hands the immutable caches to `FLUSH_REQ` in their order.  A delta cache is
handed over by `wrap_delta_flush_req` and replaced by a new one.

So, without `switch_memcache`, the hand-off keeps creation order.  The frozen
caches on `FLUSH_REQ` in queue order, then the immutable caches, then the mutable
cache, have increasing handles; and so do the caches on `FLUSH_REQ` that are not
frozen, then the delta cache (`handOff_in_creation_order`).  A cache that took
samples later is never handed off ahead of one that took them earlier.

## Main definitions

* `World.mutQueue`, `World.deltaQueue` — the two queues of the hand-off.
* `World.Ordered` — both queues in creation order.
* `World.Addressed` — the requests on `FLUSH_REQ` are non-empty and carry the
  family's `tf_id`.

## Main results

* `World.Ordered.putMutcache` — one ingest keeps both queues in order.
* `World.handOff_in_creation_order` — **the hand-off keeps creation order.**
* `World.flushReqs_addressed` — every request on `FLUSH_REQ` is a non-empty list
  of the family's caches.
-/

namespace Tskv

namespace World

variable {env : Env} {w w' : World}

/-- The caches that took in-order samples, in the order they did: those handed
off frozen, the immutable caches, the mutable cache. -/
def mutQueue (w : World) : List CacheRef :=
  w.flushed.filter (fun h => (w.caches h).immutable) ++ w.tsf.immutCache ++ [w.tsf.mutCache]

/-- The caches that took late samples: those handed off unfrozen, then the delta
cache. -/
def deltaQueue (w : World) : List CacheRef :=
  w.flushed.filter (fun h => !(w.caches h).immutable) ++ [w.tsf.deltaMutCache]

/-- Both queues list their caches in creation order. -/
def Ordered (w : World) : Prop :=
  w.mutQueue.Sorted (· < ·) ∧ w.deltaQueue.Sorted (· < ·)

theorem mutQueue_subset_held (w : World) : w.mutQueue ⊆ w.held := by
  intro h hh
  simp only [mutQueue, List.mem_append, List.mem_filter, List.mem_singleton] at hh
  rcases hh with (⟨hh, -⟩ | hh) | rfl
  exacts [List.mem_append_right _ hh, mem_held_of_mem_live (mem_live_of_mem_immut hh),
    mem_held_of_mem_live mut_mem_live]

theorem deltaQueue_subset_held (w : World) : w.deltaQueue ⊆ w.held := by
  intro h hh
  simp only [deltaQueue, List.mem_append, List.mem_filter, List.mem_singleton] at hh
  rcases hh with ⟨hh, -⟩ | rfl
  exacts [List.mem_append_right _ hh, mem_held_of_mem_live delta_mem_live]

/-- A queue that is kept, or gets the next handle, stays in order. -/
theorem sorted_of_extends {l l' : List CacheRef} {n : Nat} (hl : l.Sorted (· < ·))
    (hlt : ∀ h ∈ l, h < n) (he : l' = l ∨ l' = l ++ [n]) : l'.Sorted (· < ·) := by
  rcases he with rfl | rfl
  · exact hl
  · exact List.pairwise_append.2 ⟨hl, List.pairwise_singleton _ n, fun a ha b hb =>
      List.mem_singleton.1 hb ▸ hlt a ha⟩

theorem Ordered.of_extends (hs : w.Shape) (ho : w.Ordered)
    (hm : w'.mutQueue = w.mutQueue ∨ w'.mutQueue = w.mutQueue ++ [w.next])
    (hd : w'.deltaQueue = w.deltaQueue ∨ w'.deltaQueue = w.deltaQueue ++ [w.next]) :
    w'.Ordered :=
  ⟨sorted_of_extends ho.1 (fun h hh => hs.lt_next h (mutQueue_subset_held w hh)) hm,
    sorted_of_extends ho.2 (fun h hh => hs.lt_next h (deltaQueue_subset_held w hh)) hd⟩

/-- After a call that settles, the handed-off caches filtered by their frozen flag
are the old ones, then the new ones. -/
theorem filter_flushed (hs : Settles w w') {new : List CacheRef}
    (hf : w'.flushed = w.flushed ++ new) (q : MemCache → Bool) :
    w'.flushed.filter (fun h => q (w'.caches h)) =
      w.flushed.filter (fun h => q (w.caches h)) ++ new.filter (fun h => q (w'.caches h)) := by
  rw [hf, List.filter_append]
  exact congrArg (· ++ _) (List.filter_congr fun h hh => by rw [(hs.2 h hh).2.1])

/-- A call that settles and keeps the family's handles and `FLUSH_REQ` keeps both
queues. -/
theorem Ordered.of_settles (ho : w.Ordered) (hs : Settles w w') (hf : w'.flushReq = w.flushReq)
    (hmut : w'.tsf.mutCache = w.tsf.mutCache) (hdelta : w'.tsf.deltaMutCache = w.tsf.deltaMutCache)
    (himm : w'.tsf.immutCache = w.tsf.immutCache) : w'.Ordered := by
  have hfl : w'.flushed = w.flushed ++ [] := by rw [List.append_nil, flushed, hf]; rfl
  refine ⟨?_, ?_⟩
  · rw [mutQueue, filter_flushed hs hfl MemCache.immutable, hmut, himm]
    simpa [mutQueue] using ho.1
  · rw [deltaQueue, filter_flushed hs hfl fun m => !m.immutable, hdelta]
    simpa [deltaQueue] using ho.2

/-! ### Each call -/

theorem Ordered.switchToImmutable (hi : w.FrozenInv) (ho : w.Ordered) :
    (w.switchToImmutable env).Ordered := by
  have hs : Settles w (w.switchToImmutable env) := hi.switchToImmutable.2
  have hfl : (w.switchToImmutable env).flushed = w.flushed ++ [] := by
    simp [World.switchToImmutable, flushed]
  refine ho.of_extends hi.shape (.inr ?_) (.inl ?_)
  · rw [mutQueue, filter_flushed hs hfl MemCache.immutable]
    simp [mutQueue, World.switchToImmutable]
  · rw [deltaQueue, filter_flushed hs hfl fun m => !m.immutable]
    simp [deltaQueue, World.switchToImmutable]

theorem Ordered.wrapDeltaFlushReq (hi : w.FrozenInv) (ho : w.Ordered) :
    (w.wrapDeltaFlushReq env).Ordered := by
  have hs : Settles w (w.wrapDeltaFlushReq env) := hi.wrapDeltaFlushReq.2
  have hfl : (w.wrapDeltaFlushReq env).flushed = w.flushed ++ [w.tsf.deltaMutCache] := by
    simp [World.wrapDeltaFlushReq, flushed]
  have hflag := Function.update_noteq (hi.shape.ne_next delta_mem_live)
    (MemCache.new w.tsf.tfId env.maxMemcacheSize w.tsf.seqNo) w.caches
  refine ho.of_extends hi.shape (.inl ?_) (.inr ?_)
  · rw [mutQueue, filter_flushed hs hfl MemCache.immutable]
    simp [mutQueue, World.wrapDeltaFlushReq, hflag, hi.deltaMutCache]
  · rw [deltaQueue, filter_flushed hs hfl fun m => !m.immutable]
    simp [deltaQueue, World.wrapDeltaFlushReq, hflag, hi.deltaMutCache]

theorem Ordered.flushImmut (hi : w.FrozenInv) (ho : w.Ordered) :
    w.advanceWatermark.wrapFlushReq.Ordered := by
  have hs := hi.flushImmut.2
  have hfl : w.advanceWatermark.wrapFlushReq.flushed = w.flushed ++ w.tsf.immutCache := by
    simp [World.wrapFlushReq, World.advanceWatermark, flushed, List.map_map, Function.comp_def]
  have hflag : ∀ h ∈ w.tsf.immutCache, (w.advanceWatermark.wrapFlushReq.caches h).immutable :=
    fun h hh => (hi.immutCache h hh).1
  refine ho.of_extends hi.shape (.inl ?_) (.inl ?_)
  · rw [mutQueue, filter_flushed hs hfl MemCache.immutable, List.filter_eq_self.2 hflag]
    simp [mutQueue, World.wrapFlushReq, World.advanceWatermark]
  · have hnil : w.tsf.immutCache.filter
        (fun h => !(w.advanceWatermark.wrapFlushReq.caches h).immutable) = [] :=
      List.filter_eq_nil_iff.2 fun h hh => by simp [hflag h hh]
    rw [deltaQueue, filter_flushed hs hfl fun m => !m.immutable, hnil]
    simp [deltaQueue, World.wrapFlushReq, World.advanceWatermark]

theorem Ordered.rotateIfFull (hi : w.FrozenInv) (ho : w.Ordered) :
    (w.rotateIfFull env).Ordered := by
  unfold World.rotateIfFull
  split
  · dsimp only
    split
    · exact (ho.switchToImmutable hi).flushImmut
        (hi.switchToImmutable : (w.switchToImmutable env).FrozenInv ∧ _).1
    · exact ho.switchToImmutable hi
  · exact ho

theorem Ordered.flushDeltaOnInOrder (hi : w.FrozenInv) (ho : w.Ordered) (ts : I64) :
    (w.flushDeltaOnInOrder env ts).Ordered := by
  unfold World.flushDeltaOnInOrder
  split
  exacts [ho.wrapDeltaFlushReq hi, ho]

theorem Ordered.flushDeltaIfFull (hi : w.FrozenInv) (ho : w.Ordered) :
    (w.flushDeltaIfFull env).Ordered := by
  unfold World.flushDeltaIfFull
  split
  exacts [ho.wrapDeltaFlushReq hi, ho]

theorem Ordered.route (hi : w.FrozenInv) (ho : w.Ordered) {fid : FieldId} {val : List UInt8}
    {dtype : ValueType} {seq : UInt64} {ts : I64}
    (hr : w.route env fid val dtype seq ts = some w') : w'.Ordered := by
  refine ho.of_settles (hi.route hr).2 ?_ ?_ ?_ ?_ <;> unfold World.route at hr <;>
    split at hr <;> rw [insertRaw_eq, Option.map_eq_some'] at hr <;>
    obtain ⟨_, -, rfl⟩ := hr <;> rfl

/-- **One ingest keeps both queues in order.** -/
theorem Ordered.putMutcache (hi : w.FrozenInv) (ho : w.Ordered) {fid : FieldId}
    {val : List UInt8} {dtype : ValueType} {seq : UInt64} {ts : I64}
    (hput : w.putMutcache env fid val dtype seq ts = some w') : w'.Ordered := by
  rw [World.putMutcache, Option.map_eq_some'] at hput
  obtain ⟨w1, hr, rfl⟩ := hput
  have hb : (w.bootstrap ts).Ordered := ho
  have h₁ := (hi.bootstrap ts).route hr
  have h₂ := h₁.1.flushDeltaOnInOrder env ts
  have h₃ : ((w1.flushDeltaOnInOrder env ts).rotateIfFull env).Ordered :=
    ((hb.route (hi.bootstrap ts) hr).flushDeltaOnInOrder h₁.1 ts).rotateIfFull h₂.1
  exact h₃.flushDeltaIfFull (h₂.1.rotateIfFull env).1

theorem Ordered.deleteCache (hi : w.FrozenInv) (ho : w.Ordered) (r : TimeRange) :
    (w.deleteCache r).Ordered := by
  have htsf := tsf_deleteCache (w := w) r
  refine ho.of_settles (hi.deleteCache r).2 ?_ (by rw [htsf]) (by rw [htsf]) (by rw [htsf])
  rw [deleteCache_eq, foldl_modify_eq]

theorem Ordered.step (hi : w.FrozenInv) (ho : w.Ordered) {op : Op}
    (hop : op.isSwitchMemcache = false) (h : w.step env op = some w') : w'.Ordered := by
  cases op with
  | putMutcache => exact ho.putMutcache hi h
  | switchToImmutable => exact Option.some.inj h ▸ ho.switchToImmutable hi
  | switchMemcache => cases hop
  | deleteCache r => exact Option.some.inj h ▸ ho.deleteCache hi r

theorem Ordered.reachable (hi : w.FrozenInv) (ho : w.Ordered)
    (hrun : Reachable env (fun op => op.isSwitchMemcache = false) w w') : w'.Ordered := by
  induction hrun with
  | refl => exact ho
  | tail hrun hstep ih =>
    obtain ⟨_, hop, h⟩ := hstep
    exact ih.step ((hi.reachable hrun).1) hop h

theorem ordered_new (env : Env) (tfId : UInt32) (cache : MemCache) (version : Version) :
    (TseriesFamily.new env tfId cache version).Ordered := by
  refine ⟨?_, ?_⟩ <;> simp [mutQueue, deltaQueue, flushed, TseriesFamily.new]

/-- **The hand-off keeps creation order.**  Along runs of ingests, rotations and
deletions from a new family with a mutable initial cache: the frozen caches on
`FLUSH_REQ` in queue order, then the immutable caches, then the mutable cache
have strictly increasing handles; and so do the caches on `FLUSH_REQ` that are
not frozen, then the delta cache. -/
theorem handOff_in_creation_order {tfId : UInt32} {cache : MemCache} {version : Version}
    (hmut : cache.immutable = false)
    (hw : Reachable env (fun op => op.isSwitchMemcache = false)
      (TseriesFamily.new env tfId cache version) w) :
    (w.flushed.filter (fun h => (w.caches h).immutable) ++ w.tsf.immutCache ++
        [w.tsf.mutCache]).Sorted (· < ·) ∧
      (w.flushed.filter (fun h => !(w.caches h).immutable) ++
        [w.tsf.deltaMutCache]).Sorted (· < ·) :=
  (ordered_new env tfId cache version).reachable (frozenInv_new env tfId version hmut) hw

/-- A sample at `5` fills the mutable cache, which is frozen and flushed; a late
sample at `3` fills the delta cache, which is flushed unfrozen. -/
theorem handOff_in_creation_order_after_two_flushes :
    ∃ w, ((MemCache.new 0 32 0).immutable = false ∧
      Reachable (Env.ofLimits 32 32 1) (fun op => op.isSwitchMemcache = false)
        (TseriesFamily.new (Env.ofLimits 32 32 1) 0 (MemCache.new 0 32 0)
          ⟨0, I64.ofInt 1⟩) w) ∧
      (w.flushed.filter (fun h => (w.caches h).immutable) ++ w.tsf.immutCache ++
          [w.tsf.mutCache]).Sorted (· < ·) ∧
        (w.flushed.filter (fun h => !(w.caches h).immutable) ++
          [w.tsf.deltaMutCache]).Sorted (· < ·) := by
  have hrun : Reachable (Env.ofLimits 32 32 1) (fun op => op.isSwitchMemcache = false)
      (TseriesFamily.new (Env.ofLimits 32 32 1) 0 (MemCache.new 0 32 0) ⟨0, I64.ofInt 1⟩) _ :=
    .tail (.single ⟨.putMutcache 1 [] .unsigned 0 (I64.ofInt 5), rfl, rfl⟩)
      ⟨.putMutcache 1 [] .unsigned 0 (I64.ofInt 3), rfl, rfl⟩
  have hmut : (MemCache.new 0 32 0).immutable = false := rfl
  exact ⟨_, ⟨hmut, hrun⟩, handOff_in_creation_order hmut hrun⟩

/-! ### The requests

Every request the family appends to `FLUSH_REQ` names at least one cache, each
paired with the family's `tf_id`, and waits on nothing: `wrap_delta_flush_req`
sends the delta cache, and `wrap_flush_req` runs only right after a rotation has
put the mutable cache on the immutable list. -/

/-- The family keeps the `tf_id` it was built with, and every request on
`FLUSH_REQ` is a non-empty list of caches addressed with it. -/
structure Addressed (tfId : UInt32) (w : World) : Prop where
  ownTfId : w.tsf.tfId = tfId
  reqs : ∀ r ∈ w.flushReq, r.mems ≠ [] ∧ (∀ p ∈ r.mems, p.1 = tfId) ∧ r.waitReq = 0

variable {tfId : UInt32}

theorem Addressed.of_eq (ha : w.Addressed tfId) (ht : w'.tsf.tfId = w.tsf.tfId)
    (hf : w'.flushReq = w.flushReq) : w'.Addressed tfId :=
  ⟨ht.trans ha.ownTfId, hf ▸ ha.reqs⟩

/-- A call that appends one request addressed with the family's `tf_id`. -/
theorem Addressed.of_append (ha : w.Addressed tfId) (ht : w'.tsf.tfId = w.tsf.tfId)
    {mems : List (UInt32 × CacheRef)} (hf : w'.flushReq = w.flushReq ++ [⟨mems, 0⟩])
    (hne : mems ≠ []) (hm : ∀ p ∈ mems, p.1 = w.tsf.tfId) : w'.Addressed tfId := by
  refine ⟨ht.trans ha.ownTfId, fun r hr => ?_⟩
  rw [hf, List.mem_append, List.mem_singleton] at hr
  rcases hr with hr | rfl
  · exact ha.reqs r hr
  · exact ⟨hne, fun p hp => (hm p hp).trans ha.ownTfId, rfl⟩

theorem Addressed.wrapDeltaFlushReq (ha : w.Addressed tfId) :
    (w.wrapDeltaFlushReq env).Addressed tfId :=
  ha.of_append rfl rfl (List.cons_ne_nil _ _) fun p hp => by rw [List.mem_singleton.1 hp]

theorem Addressed.flushImmut (ha : w.Addressed tfId) (hne : w.tsf.immutCache ≠ []) :
    w.advanceWatermark.wrapFlushReq.Addressed tfId :=
  ha.of_append rfl rfl (by simpa [advanceWatermark] using hne) fun p hp => by
    obtain ⟨_, -, rfl⟩ := List.mem_map.1 hp
    rfl

theorem Addressed.rotateIfFull (ha : w.Addressed tfId) : (w.rotateIfFull env).Addressed tfId := by
  have hsw : (w.switchToImmutable env).Addressed tfId := ha.of_eq rfl rfl
  unfold World.rotateIfFull
  split
  · dsimp only
    split
    · exact hsw.flushImmut (by simp [World.switchToImmutable])
    · exact hsw
  · exact ha

theorem Addressed.flushDeltaOnInOrder (ha : w.Addressed tfId) (ts : I64) :
    (w.flushDeltaOnInOrder env ts).Addressed tfId := by
  unfold World.flushDeltaOnInOrder
  split
  exacts [ha.wrapDeltaFlushReq, ha]

theorem Addressed.flushDeltaIfFull (ha : w.Addressed tfId) :
    (w.flushDeltaIfFull env).Addressed tfId := by
  unfold World.flushDeltaIfFull
  split
  exacts [ha.wrapDeltaFlushReq, ha]

theorem Addressed.putMutcache (ha : w.Addressed tfId) {fid : FieldId} {val : List UInt8}
    {dtype : ValueType} {seq : UInt64} {ts : I64}
    (hput : w.putMutcache env fid val dtype seq ts = some w') : w'.Addressed tfId := by
  rw [World.putMutcache, Option.map_eq_some'] at hput
  obtain ⟨w1, hr, rfl⟩ := hput
  have h1 : w1.Addressed tfId := by
    unfold World.route at hr
    split at hr <;> rw [insertRaw_eq, Option.map_eq_some'] at hr <;>
      obtain ⟨_, -, rfl⟩ := hr <;> exact ha.of_eq rfl rfl
  exact (h1.flushDeltaOnInOrder ts).rotateIfFull.flushDeltaIfFull

theorem Addressed.step (ha : w.Addressed tfId) {op : Op} (h : w.step env op = some w') :
    w'.Addressed tfId := by
  cases op with
  | putMutcache => exact ha.putMutcache h
  | switchToImmutable => exact Option.some.inj h ▸ ha.of_eq rfl rfl
  | switchMemcache => exact Option.some.inj h ▸ ha.of_eq rfl rfl
  | deleteCache r =>
    refine Option.some.inj h ▸ ha.of_eq (by rw [tsf_deleteCache]) ?_
    rw [deleteCache_eq, foldl_modify_eq]

/-- **Every flush request is addressed.**  Along any run of public calls from
`TseriesFamily::new`, `switch_memcache` included, the family keeps its `tf_id`,
and every request on `FLUSH_REQ` names at least one cache, each paired with that
`tf_id`, with `wait_req` zero. -/
theorem flushReqs_addressed {cache : MemCache} {version : Version} {ok : Op → Prop}
    (hw : Reachable env ok (TseriesFamily.new env tfId cache version) w) :
    w.tsf.tfId = tfId ∧
      ∀ r ∈ w.flushReq, r.mems ≠ [] ∧ (∀ p ∈ r.mems, p.1 = tfId) ∧ r.waitReq = 0 := by
  have ha : w.Addressed tfId := by
    induction hw with
    | refl => exact ⟨rfl, fun _ hr => (List.not_mem_nil _ hr).elim⟩
    | tail _ hstep ih =>
      obtain ⟨_, _, h⟩ := hstep
      exact ih.step h
  exact ⟨ha.ownTfId, ha.reqs⟩

/-- The two flushes of the run above: one request with the frozen mutable cache,
one with the delta cache. -/
theorem flushReqs_addressed_after_two_flushes :
    ∃ w, (Reachable (Env.ofLimits 32 32 1) (fun _ => True)
        (TseriesFamily.new (Env.ofLimits 32 32 1) 0 (MemCache.new 0 32 0)
          ⟨0, I64.ofInt 1⟩) w ∧ w.flushReq.length = 2) ∧
      w.tsf.tfId = 0 ∧
        ∀ r ∈ w.flushReq, r.mems ≠ [] ∧ (∀ p ∈ r.mems, p.1 = 0) ∧ r.waitReq = 0 := by
  have hrun : Reachable (Env.ofLimits 32 32 1) (fun _ => True)
      (TseriesFamily.new (Env.ofLimits 32 32 1) 0 (MemCache.new 0 32 0) ⟨0, I64.ofInt 1⟩) _ :=
    .tail (.single ⟨.putMutcache 1 [] .unsigned 0 (I64.ofInt 5), trivial, rfl⟩)
      ⟨.putMutcache 1 [] .unsigned 0 (I64.ofInt 3), trivial, rfl⟩
  exact ⟨_, ⟨hrun, rfl⟩, flushReqs_addressed hrun⟩

end World

end Tskv
