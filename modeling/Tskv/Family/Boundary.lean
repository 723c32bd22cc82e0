import Tskv.Family.Frozen

/-!
# The flush boundary

When `put_mutcache` flushes the immutable caches it moves the watermark
`immut_ts_min`, and the version's `max_level_ts` with it, to `mut_ts_max`, the
largest timestamp the mutable cache has taken.  Every cell of the mutable and
immutable caches is at or below `mut_ts_max`, so every cell handed to
`FLUSH_REQ` by `wrap_flush_req` is at or below the new watermark; a late cell
handed over by `wrap_delta_flush_req` is below it.  The watermark never moves
back along runs that keep it set, so what has left the caches stays at or below
it.

Along those runs, from a family whose initial cache holds no cells, the version's
`max_level_ts` is the watermark, and it separates what the family has handed to
`FLUSH_REQ` (at or below it) from what its mutable and immutable caches hold (at
or above it, and at or below `mut_ts_max`) (`maxLevelTs_separates_flushed`).  An
initial cell counts for neither `mut_ts_max` nor the watermark, which start at
`i64::MIN` and at the version's `max_level_ts`.

## Main definitions

* `World.Capped` — the upper bounds: `mut_ts_max` over the caches the family
  holds, the watermark over those it handed off.

## Main results

* `World.Capped.putMutcache` — one ingest keeps the upper bounds.
* `World.maxLevelTs_separates_flushed` — **`max_level_ts` separates the flushed
  cells from the held ones.**
-/

namespace Tskv

namespace World

variable {env : Env} {w w' : World}

/-- The upper bounds of the flush boundary: the mutable and immutable caches hold
no cell past `mut_ts_max`, the caches handed to `FLUSH_REQ` no cell past the
watermark, and the version's `max_level_ts` is the watermark. -/
structure Capped (w : World) : Prop where
  mutCache : (w.caches w.tsf.mutCache).AllTs (· ≤ w.tsf.mutTsMax)
  immutCache : ∀ h ∈ w.tsf.immutCache, (w.caches h).AllTs (· ≤ w.tsf.mutTsMax)
  flushed : ∀ h ∈ w.flushed, (w.caches h).AllTs (· ≤ w.tsf.immutTsMin)
  version : w.tsf.version.maxLevelTs = w.tsf.immutTsMin

/-! ### Rotation and hand-off -/

theorem Capped.wrapDeltaFlushReq (hs : w.Shape) (hw : w.Watermarked) (hc : w.Capped) :
    (w.wrapDeltaFlushReq env).Capped := by
  have hcaches : ∀ h, h ≠ w.next → (w.wrapDeltaFlushReq env).caches h = w.caches h :=
    fun h hh => Function.update_noteq hh _ _
  refine ⟨?_, fun h hh => ?_, fun h hh => ?_, hc.version⟩
  · exact hcaches _ (hs.ne_next mut_mem_live) ▸ hc.mutCache
  · exact hcaches h (hs.ne_next (mem_live_of_mem_immut hh)) ▸ hc.immutCache h hh
  · have hf : (w.wrapDeltaFlushReq env).flushed = w.flushed ++ [w.tsf.deltaMutCache] := by
      simp [World.wrapDeltaFlushReq, World.flushed]
    rw [hf, List.mem_append, List.mem_singleton] at hh
    rcases hh with hh | rfl
    · exact hcaches h (hs.of_flushed hh).1 ▸ hc.flushed h hh
    · exact hcaches _ (hs.ne_next delta_mem_live) ▸
        hw.deltaMutCache.mono fun _ ht => I64.le_def.2 (Int.le_of_lt ht)

/-- A rotation writes only the next handle and the mutable cache. -/
theorem caches_switchToImmutable (hm : w.Mirrors) {h : CacheRef} (hh : h ≠ w.next) :
    (w.switchToImmutable env).caches h =
      Function.update w.caches w.tsf.mutCache (w.caches w.tsf.mutCache).switchToImmutable h := by
  simp [World.switchToImmutable, hm.mutCache, Function.update_noteq hh]

theorem Capped.switchToImmutable (hs : w.Shape) (hm : w.Mirrors) (hc : w.Capped) :
    (w.switchToImmutable env).Capped := by
  refine ⟨.of_cells_eq_nil (by simp [World.switchToImmutable]), fun h hh => ?_, fun h hh => ?_,
    hc.version⟩
  · rcases List.mem_append.1 (show h ∈ w.tsf.immutCache ++ [w.tsf.mutCache] from hh) with hh | hh
    · rw [caches_switchToImmutable hm (hs.ne_next (mem_live_of_mem_immut hh)),
        Function.update_noteq (hs.ne_mut_of_mem_immut hh)]
      exact hc.immutCache h hh
    · rw [List.mem_singleton.1 hh, caches_switchToImmutable hm (hs.ne_next mut_mem_live),
        Function.update_same]
      exact hc.mutCache.switchToImmutable
  · have hh' : h ∈ w.flushed := by simpa [World.switchToImmutable, World.flushed] using hh
    rw [caches_switchToImmutable hm (hs.of_flushed hh').1,
      Function.update_noteq fun (e : h = _) => (hs.of_flushed hh').2 (e ▸ mut_mem_live)]
    exact hc.flushed h hh'

/-- The flush of the immutable caches, with `mut_ts_max` at or past the
watermark, moves the watermark and `max_level_ts` up to it. -/
theorem Capped.flushImmut (hc : w.Capped) (hle : w.tsf.immutTsMin ≤ w.tsf.mutTsMax) :
    w.advanceWatermark.wrapFlushReq.Capped := by
  refine ⟨hc.mutCache, fun _ hh => (List.not_mem_nil _ hh).elim, fun h hh => ?_, rfl⟩
  have hf : w.advanceWatermark.wrapFlushReq.flushed = w.flushed ++ w.tsf.immutCache := by
    simp [World.wrapFlushReq, World.advanceWatermark, World.flushed, List.map_map,
      Function.comp_def]
  rw [hf, List.mem_append] at hh
  rcases hh with hh | hh
  · exact (hc.flushed h hh).mono fun _ ht => I64.le_trans ht hle
  · exact hc.immutCache h hh

theorem Capped.rotateIfFull (hs : w.Shape) (hm : w.Mirrors) (hw : w.Watermarked) (hc : w.Capped)
    (hmin : (w.rotateIfFull env).tsf.immutTsMin ≠ I64.MIN) : (w.rotateIfFull env).Capped := by
  unfold World.rotateIfFull at hmin ⊢
  by_cases hfull : (w.caches w.tsf.superVersion.mutCache).isFull = true
  · have hc₁ : (w.switchToImmutable env).Capped := hc.switchToImmutable hs hm
    simp only [hfull, ite_true] at hmin ⊢
    by_cases hflush : (w.switchToImmutable env).tsf.immutCache.length ≥ env.maxImmemcacheNum
    · simp only [hflush, ite_true] at hmin ⊢
      exact hc₁.flushImmut ((hw.switchToImmutable hs hm).mutTsMax.resolve_left hmin)
    · simp only [hflush, ite_false]
      exact hc₁
  · simp only [hfull]
    exact hc

theorem Capped.flushDeltaOnInOrder (hs : w.Shape) (hw : w.Watermarked) (hc : w.Capped) (ts : I64) :
    (w.flushDeltaOnInOrder env ts).Capped := by
  unfold World.flushDeltaOnInOrder
  split
  exacts [hc.wrapDeltaFlushReq hs hw, hc]

theorem Capped.flushDeltaIfFull (hs : w.Shape) (hw : w.Watermarked) (hc : w.Capped) :
    (w.flushDeltaIfFull env).Capped := by
  unfold World.flushDeltaIfFull
  split
  exacts [hc.wrapDeltaFlushReq hs hw, hc]

/-! ### Ingest and deletion -/

/-- The raised `mut_ts_max` of an in-order sample is at or past both the old one
and the sample. -/
theorem le_raised_mutTsMax (m ts : I64) :
    m ≤ (if ts > m then ts else m) ∧ ts ≤ (if ts > m then ts else m) := by
  split <;> simp only [gt_iff_lt, I64.lt_def, I64.le_def] at * <;> omega

/-- An in-order sample raises `mut_ts_max` to its timestamp and lands in the
mutable cache; a late one lands in the delta cache.  Neither touches a cache
the family has handed off. -/
theorem Capped.route (hs : w.Shape) (hm : w.Mirrors) (hc : w.Capped) {fid : FieldId}
    {val : List UInt8} {dtype : ValueType} {seq : UInt64} {ts : I64}
    (hr : w.route env fid val dtype seq ts = some w') : w'.Capped := by
  have hflushed : ∀ x ∈ w.live, ∀ h ∈ w.flushed, h ≠ x := fun x hx h hh e =>
    (hs.of_flushed hh).2 (e ▸ hx)
  unfold World.route at hr
  split at hr <;> rw [insertRaw_eq, Option.map_eq_some'] at hr <;>
    obtain ⟨data, hd, rfl⟩ := hr <;> have hdts := (MemCache.decodeRaw_eq_some env hd).1
  · obtain ⟨hle, hts⟩ := le_raised_mutTsMax w.tsf.mutTsMax ts
    refine ⟨?_, fun h hh => ?_, fun h hh => ?_, hc.version⟩ <;> dsimp only <;> rw [hm.mutCache]
    · rw [Function.update_same]
      exact (hc.mutCache.mono fun _ h => I64.le_trans h hle).insert env (hdts ▸ hts)
    · rw [Function.update_noteq (hs.ne_mut_of_mem_immut hh)]
      exact (hc.immutCache h hh).mono fun _ h => I64.le_trans h hle
    · rw [Function.update_noteq (hflushed _ mut_mem_live h hh)]
      exact hc.flushed h hh
  · refine ⟨?_, fun h hh => ?_, fun h hh => ?_, hc.version⟩ <;> dsimp only <;>
      rw [hm.deltaMutCache]
    · rw [Function.update_noteq hs.mut_ne_delta]
      exact hc.mutCache
    · rw [Function.update_noteq (hs.ne_delta_of_mem_immut hh)]
      exact hc.immutCache h hh
    · rw [Function.update_noteq (hflushed _ delta_mem_live h hh)]
      exact hc.flushed h hh

theorem Capped.deleteCache (hc : w.Capped) (r : TimeRange) : (w.deleteCache r).Capped := by
  have hsub := cells_deleteCache_subset (w := w) r
  have htsf := tsf_deleteCache (w := w) r
  have hfl : (w.deleteCache r).flushed = w.flushed := by
    rw [deleteCache_eq, foldl_modify_eq]
    rfl
  refine ⟨?_, fun h hh => ?_, fun h hh => ?_, ?_⟩ <;> simp only [htsf, hfl] at *
  · exact hc.mutCache.of_subset (hsub _)
  · exact (hc.immutCache h hh).of_subset (hsub _)
  · exact (hc.flushed h hh).of_subset (hsub _)
  · exact hc.version

/-- One ingest that leaves the watermark set keeps the upper bounds. -/
theorem Capped.putMutcache (hs : w.Shape) (hm : w.Mirrors) (hw : w.Watermarked) (hc : w.Capped)
    (hmin : w.tsf.immutTsMin ≠ I64.MIN) {fid : FieldId} {val : List UInt8} {dtype : ValueType}
    {seq : UInt64} {ts : I64} (hput : w.putMutcache env fid val dtype seq ts = some w')
    (hmin' : w'.tsf.immutTsMin ≠ I64.MIN) : w'.Capped := by
  rw [World.putMutcache, bootstrap_of_ne_min ts hmin, Option.map_eq_some'] at hput
  obtain ⟨w1, hr, rfl⟩ := hput
  have hs1 := hs.route hr
  have hs2 : (w1.flushDeltaOnInOrder env ts).Shape := hs1.flushDeltaOnInOrder ts
  have hm2 : (w1.flushDeltaOnInOrder env ts).Mirrors := (hm.route hr).flushDeltaOnInOrder ts
  have hw2 : (w1.flushDeltaOnInOrder env ts).Watermarked :=
    (hw.route hs hm hr).1.flushDeltaOnInOrder hs1 ts
  rw [immutTsMin_flushDeltaIfFull] at hmin'
  have hc3 := ((hc.route hs hm hr).flushDeltaOnInOrder hs1 (hw.route hs hm hr).1 ts).rotateIfFull
    hs2 hm2 hw2 hmin'
  exact hc3.flushDeltaIfFull hs2.rotateIfFull ((hw2.rotateIfFull hs2 hm2 hmin').1)

/-! ### Runs that keep the watermark set -/

/-- What holds along runs that keep the watermark set: the watermark invariant
and the upper bounds. -/
def BoundaryInv (w : World) : Prop := w.WatermarkInv ∧ w.Capped

theorem BoundaryInv.step (hi : w.BoundaryInv) (hstep : KeepsWatermark env w w') :
    w'.BoundaryInv := by
  obtain ⟨⟨hs, hm, hw, hmin⟩, hc⟩ := hi
  refine ⟨(WatermarkInv.step ⟨hs, hm, hw, hmin⟩ hstep).1, ?_⟩
  obtain ⟨⟨op, hop, hop'⟩, hmin'⟩ := hstep
  cases op with
  | putMutcache fid val dtype seq ts => exact hc.putMutcache hs hm hw hmin hop' hmin'
  | switchToImmutable => exact Option.some.inj hop' ▸ hc.switchToImmutable hs hm
  | switchMemcache => cases hop
  | deleteCache r => exact Option.some.inj hop' ▸ hc.deleteCache r

theorem BoundaryInv.trace (hi : w.BoundaryInv)
    (hrun : Relation.ReflTransGen (KeepsWatermark env) w w') : w'.BoundaryInv := by
  induction hrun with
  | refl => exact hi
  | tail _ hstep ih => exact ih.step hstep

theorem boundaryInv_new (env : Env) (tfId : UInt32) {cache : MemCache} {version : Version}
    (hmin : version.maxLevelTs ≠ I64.MIN) (hcache : cache.cells = []) :
    (TseriesFamily.new env tfId cache version).BoundaryInv := by
  refine ⟨watermarkInv_new env tfId hmin (by simp [hcache]), .of_cells_eq_nil ?_,
    fun _ hh => (List.not_mem_nil _ hh).elim, fun _ hh => ?_, rfl⟩
  · simpa [TseriesFamily.new, alloc] using hcache
  · simp [flushed, TseriesFamily.new] at hh

/-- **`max_level_ts` separates the flushed cells from the held ones.**  Along runs
of ingests, rotations and deletions from a new family whose initial cache holds
no cells and whose version's `max_level_ts` is not `i64::MIN`, in which the
watermark is never `i64::MIN`: `max_level_ts` is the watermark `immut_ts_min`;
every cell of every cache the family has handed to `FLUSH_REQ` is at or below
it; every cell of the mutable and immutable caches is at or above it and at or
below `mut_ts_max`; and every cell of the delta cache is below it. -/
theorem maxLevelTs_separates_flushed {tfId : UInt32} {cache : MemCache} {version : Version}
    (hmin : version.maxLevelTs ≠ I64.MIN) (hcache : cache.cells = []) {w : World}
    (hrun : Relation.ReflTransGen (KeepsWatermark env)
      (TseriesFamily.new env tfId cache version) w) :
    w.tsf.version.maxLevelTs = w.tsf.immutTsMin ∧
      (∀ h ∈ w.flushed, ∀ p ∈ (w.caches h).cells,
        p.2.timestamp ≤ w.tsf.version.maxLevelTs) ∧
      (∀ h ∈ w.tsf.mutCache :: w.tsf.immutCache, ∀ p ∈ (w.caches h).cells,
        w.tsf.version.maxLevelTs ≤ p.2.timestamp ∧ p.2.timestamp ≤ w.tsf.mutTsMax) ∧
      ∀ p ∈ (w.caches w.tsf.deltaMutCache).cells, p.2.timestamp < w.tsf.version.maxLevelTs := by
  obtain ⟨⟨-, -, hw, -⟩, hc⟩ := (boundaryInv_new env tfId hmin hcache).trace hrun
  rw [hc.version]
  refine ⟨rfl, hc.flushed, fun h hh p hp => ?_, hw.deltaMutCache⟩
  rcases List.mem_cons.1 hh with rfl | hh
  · exact ⟨hw.mutCache p hp, hc.mutCache p hp⟩
  · exact ⟨hw.immutCache h hh p hp, hc.immutCache h hh p hp⟩

/-- A sample at `5` fills the mutable cache and is flushed, moving the boundary
to `5`; a late sample at `3` fills the delta cache and is flushed below it. -/
theorem flushed_below_maxLevelTs_after_two_flushes :
    ∃ w, (I64.ofInt 1 ≠ I64.MIN ∧ (MemCache.new 0 32 0).cells = [] ∧
      Relation.ReflTransGen (KeepsWatermark (Env.ofLimits 32 32 1))
        (TseriesFamily.new (Env.ofLimits 32 32 1) 0 (MemCache.new 0 32 0)
          ⟨0, I64.ofInt 1⟩) w) ∧
      w.tsf.version.maxLevelTs = w.tsf.immutTsMin ∧
      (∀ h ∈ w.flushed, ∀ p ∈ (w.caches h).cells,
        p.2.timestamp ≤ w.tsf.version.maxLevelTs) ∧
      (∀ h ∈ w.tsf.mutCache :: w.tsf.immutCache, ∀ p ∈ (w.caches h).cells,
        w.tsf.version.maxLevelTs ≤ p.2.timestamp ∧ p.2.timestamp ≤ w.tsf.mutTsMax) ∧
      ∀ p ∈ (w.caches w.tsf.deltaMutCache).cells, p.2.timestamp < w.tsf.version.maxLevelTs := by
  have hrun : Relation.ReflTransGen (KeepsWatermark (Env.ofLimits 32 32 1))
      (TseriesFamily.new (Env.ofLimits 32 32 1) 0 (MemCache.new 0 32 0) ⟨0, I64.ofInt 1⟩) _ :=
    .tail (.single ⟨⟨.putMutcache 1 [] .unsigned 0 (I64.ofInt 5), rfl, rfl⟩, by decide⟩)
      ⟨⟨.putMutcache 1 [] .unsigned 0 (I64.ofInt 3), rfl, rfl⟩, by decide⟩
  have hmin : I64.ofInt 1 ≠ I64.MIN := by decide
  have hcache : (MemCache.new 0 32 0).cells = [] := rfl
  exact ⟨_, ⟨hmin, hcache, hrun⟩, maxLevelTs_separates_flushed hmin hcache hrun⟩

/-- After that run both samples have left the caches. -/
example : ∃ w, (TseriesFamily.new (Env.ofLimits 32 32 1) 0 (MemCache.new 0 32 0)
    ⟨0, I64.ofInt 1⟩).run (Env.ofLimits 32 32 1)
      [.putMutcache 1 [] .unsigned 0 (I64.ofInt 5), .putMutcache 1 [] .unsigned 0 (I64.ofInt 3)] =
      some w ∧ w.flushReq.length = 2 ∧ w.tsf.version.maxLevelTs = I64.ofInt 5 :=
  ⟨_, rfl, by decide, by decide⟩

end World

end Tskv
