import Tskv.Family.Shape

/-!
# Ingest: the watermark and the limits

`put_mutcache` routes a sample by the watermark `immut_ts_min`: a sample at or
past it goes to the mutable cache, an earlier one to the delta cache.  When the
immutable caches are flushed, the watermark moves to `mut_ts_max`, the largest
in-order timestamp seen.

That field starts at `i64::MIN`, the value the code also uses as "unset".  A
flush before the first in-order sample therefore moves the watermark back to
`i64::MIN`, and the late samples in the delta cache are then past it
(`late_sample_resets_watermark`).  Along runs in which the watermark is never
that value after a call the routing law holds: the watermark never decreases,
the mutable and immutable caches hold no cell before it, and the delta cache no
cell at or past it (`watermark_of_reachable`).  A new family with no cells may
start with the watermark unset; the bootstrap of its first ingest sets it.

The size limits hold after every ingest: the mutable and delta caches are not
full, and there are fewer immutable caches than the flush threshold
(`putMutcache_within_limits`).  An in-order sample ships the delta cache if it
has entries, so late samples never wait there across an in-order one
(`inOrder_sample_empties_delta`).

## Main definitions

* `MemCache.AllTs` — every cell of a cache has a timestamp with a property.
* `World.Watermarked` — the routing invariant of the watermark.

## Main results

* `World.late_sample_resets_watermark` — a flush before any in-order sample
  moves the watermark back to `i64::MIN`.
* `World.watermark_of_reachable` — **the routing law**, along runs that keep the
  watermark set.
* `World.putMutcache_within_limits` — **the limits after each ingest.**
* `World.inOrder_sample_empties_delta` — an in-order sample leaves the delta
  cache without entries.
-/

namespace Tskv

namespace MemCache

/-- Every cell of the cache has a timestamp satisfying `P`. -/
def AllTs (P : I64 → Prop) (m : MemCache) : Prop := ∀ p ∈ m.cells, P p.2.timestamp

variable {P Q : I64 → Prop} {m m' : MemCache}

theorem AllTs.of_cells_eq_nil (h : m.cells = []) : m.AllTs P := by
  intro p hp
  rw [h] at hp
  cases hp

theorem AllTs.mono (h : m.AllTs P) (hPQ : ∀ t, P t → Q t) : m.AllTs Q :=
  fun p hp => hPQ _ (h p hp)

theorem AllTs.of_subset (h : m.AllTs P) (hs : m'.cells ⊆ m.cells) : m'.AllTs P :=
  fun p hp => h p (hs hp)

theorem AllTs.switchToImmutable (h : m.AllTs P) : m.switchToImmutable.AllTs P :=
  h.of_subset (cells_switchToImmutable m).subset

theorem AllTs.insert (env : Env) (h : m.AllTs P) {seq : UInt64} {k : FieldId} {c : DataType}
    {vt : ValueType} (hc : P c.timestamp) : ({ m with seqNo := seq }.insert env k c vt).AllTs P := by
  intro p hp
  rcases List.mem_append.1 ((cells_insert env _ k c vt).subset hp) with hp | hp
  · exact h p hp
  · rw [List.mem_singleton.1 hp]
    exact hc

/-- An insert leaves the cache with at least one entry. -/
theorem entries_insert_ne_nil (env : Env) (m : MemCache) (k : FieldId) (val : DataType)
    (vt : ValueType) : (m.insert env k val vt).dataCache.entries ≠ [] := by
  rw [dataCache_insert, FieldMap.entries_upsert]
  cases m.dataCache.entries with
  | nil => exact List.cons_ne_nil _ _
  | cons p dc => unfold upsertEntries; split <;> exact List.cons_ne_nil _ _

end MemCache

namespace World

variable {env : Env} {w w' : World}

/-! ### Frames -/

@[simp] theorem immutCache_route {fid : FieldId} {val : List UInt8} {dtype : ValueType}
    {seq : UInt64} {ts : I64} (hw : w.route env fid val dtype seq ts = some w') :
    w'.tsf.immutCache = w.tsf.immutCache := by
  unfold World.route at hw
  split at hw <;>
  · rw [insertRaw_eq, Option.map_eq_some'] at hw
    obtain ⟨_, _, rfl⟩ := hw
    rfl

@[simp] theorem immutTsMin_route {fid : FieldId} {val : List UInt8} {dtype : ValueType}
    {seq : UInt64} {ts : I64} (hw : w.route env fid val dtype seq ts = some w') :
    w'.tsf.immutTsMin = w.tsf.immutTsMin := by
  unfold World.route at hw
  split at hw <;>
  · rw [insertRaw_eq, Option.map_eq_some'] at hw
    obtain ⟨_, _, rfl⟩ := hw
    rfl

@[simp] theorem immutCache_flushDeltaOnInOrder (ts : I64) :
    (w.flushDeltaOnInOrder env ts).tsf.immutCache = w.tsf.immutCache := by
  unfold World.flushDeltaOnInOrder
  split <;> rfl

@[simp] theorem immutTsMin_flushDeltaOnInOrder (ts : I64) :
    (w.flushDeltaOnInOrder env ts).tsf.immutTsMin = w.tsf.immutTsMin := by
  unfold World.flushDeltaOnInOrder
  split <;> rfl

@[simp] theorem immutTsMin_flushDeltaIfFull :
    (w.flushDeltaIfFull env).tsf.immutTsMin = w.tsf.immutTsMin := by
  unfold World.flushDeltaIfFull
  split <;> rfl

/-- `delete_cache` only drops cells. -/
theorem cells_deleteCache_subset (r : TimeRange) (h : CacheRef) :
    ((w.deleteCache r).caches h).cells ⊆ (w.caches h).cells := by
  rw [deleteCache_eq]
  generalize w.tsf.mutCache :: w.tsf.deltaMutCache :: w.tsf.immutCache = hs
  induction hs generalizing w with
  | nil => exact List.Subset.refl _
  | cons x hs ih =>
    refine (ih (w := w.modify x (deleteIn · r))).trans ?_
    simp only [caches_modify, Function.update_apply]
    split
    · subst h
      exact (MemCache.cells_mapEntries_sublist _ fun e => by
        split <;> simp [MemEntry.deleteDataCell]).subset
    · exact List.Subset.refl _

theorem tsf_deleteCache (r : TimeRange) : (w.deleteCache r).tsf = w.tsf := by
  rw [deleteCache_eq, foldl_modify_eq]

/-! ### The watermark -/

/-- The routing invariant of the watermark `immut_ts_min`: the mutable and
immutable caches hold no cell before it, the delta cache no cell at or past it,
and `mut_ts_max` is unset or past it. -/
structure Watermarked (w : World) : Prop where
  mutCache : (w.caches w.tsf.mutCache).AllTs (w.tsf.immutTsMin ≤ ·)
  immutCache : ∀ h ∈ w.tsf.immutCache, (w.caches h).AllTs (w.tsf.immutTsMin ≤ ·)
  deltaMutCache : (w.caches w.tsf.deltaMutCache).AllTs (· < w.tsf.immutTsMin)
  mutTsMax : w.tsf.mutTsMax = I64.MIN ∨ w.tsf.immutTsMin ≤ w.tsf.mutTsMax

theorem Watermarked.wrapDeltaFlushReq (hs : w.Shape) (hw : w.Watermarked) :
    (w.wrapDeltaFlushReq env).Watermarked := by
  refine ⟨?_, fun h hh => ?_, ?_, hw.mutTsMax⟩
  · simpa [World.wrapDeltaFlushReq, Function.update_noteq (hs.ne_next mut_mem_live)] using hw.mutCache
  · simpa [World.wrapDeltaFlushReq,
      Function.update_noteq (hs.ne_next (mem_live_of_mem_immut hh))] using hw.immutCache h hh
  · exact .of_cells_eq_nil (by simp [World.wrapDeltaFlushReq])

theorem Watermarked.switchToImmutable (hs : w.Shape) (hm : w.Mirrors) (hw : w.Watermarked) :
    (w.switchToImmutable env).Watermarked := by
  have hne : ∀ h ∈ w.live, ((w.switchToImmutable env).caches h) =
      Function.update w.caches w.tsf.mutCache (w.caches w.tsf.mutCache).switchToImmutable h := by
    intro h hh
    simp [World.switchToImmutable, hm.mutCache, Function.update_noteq (hs.ne_next hh)]
  refine ⟨.of_cells_eq_nil (by simp [World.switchToImmutable]), fun h hh => ?_, ?_, hw.mutTsMax⟩
  · rcases List.mem_append.1 (show h ∈ w.tsf.immutCache ++ [w.tsf.mutCache] from hh) with hh | hh
    · rw [hne h (mem_live_of_mem_immut hh), Function.update_noteq (hs.ne_mut_of_mem_immut hh)]
      exact hw.immutCache h hh
    · rw [List.mem_singleton.1 hh, hne _ mut_mem_live, Function.update_same]
      exact hw.mutCache.switchToImmutable
  · show (((w.switchToImmutable env).caches w.tsf.deltaMutCache)).AllTs _
    rw [hne _ delta_mem_live, Function.update_noteq hs.mut_ne_delta.symm]
    exact hw.deltaMutCache

/-- Flushing the immutable caches right after a rotation, with `mut_ts_max`
past the watermark, moves the watermark up to it. -/
theorem Watermarked.flushImmut (hw : w.Watermarked)
    (hmut : (w.caches w.tsf.mutCache).cells = []) (hle : w.tsf.immutTsMin ≤ w.tsf.mutTsMax) :
    w.advanceWatermark.wrapFlushReq.Watermarked :=
  ⟨.of_cells_eq_nil hmut, fun _ hh => (List.not_mem_nil _ hh).elim,
    hw.deltaMutCache.mono fun _ ht => I64.lt_of_lt_of_le ht hle, .inr (I64.le_refl _)⟩

theorem Watermarked.rotateIfFull (hs : w.Shape) (hm : w.Mirrors) (hw : w.Watermarked)
    (hmin : (w.rotateIfFull env).tsf.immutTsMin ≠ I64.MIN) :
    (w.rotateIfFull env).Watermarked ∧ w.tsf.immutTsMin ≤ (w.rotateIfFull env).tsf.immutTsMin := by
  unfold World.rotateIfFull at hmin ⊢
  by_cases hfull : (w.caches w.tsf.superVersion.mutCache).isFull = true
  · have h1 : (w.switchToImmutable env).Watermarked := hw.switchToImmutable hs hm
    simp only [hfull, ite_true] at hmin ⊢
    by_cases hflush : (w.switchToImmutable env).tsf.immutCache.length ≥ env.maxImmemcacheNum
    · simp only [hflush, ite_true] at hmin ⊢
      have hle : w.tsf.immutTsMin ≤ w.tsf.mutTsMax := h1.mutTsMax.resolve_left hmin
      exact ⟨h1.flushImmut (by simp [World.switchToImmutable]) hle, hle⟩
    · simp only [hflush, ite_false]
      exact ⟨h1, I64.le_refl _⟩
  · simp only [hfull]
    exact ⟨hw, I64.le_refl _⟩

theorem Watermarked.flushDeltaOnInOrder (hs : w.Shape) (hw : w.Watermarked) (ts : I64) :
    (w.flushDeltaOnInOrder env ts).Watermarked := by
  unfold World.flushDeltaOnInOrder
  split
  exacts [hw.wrapDeltaFlushReq hs, hw]

theorem Watermarked.flushDeltaIfFull (hs : w.Shape) (hw : w.Watermarked) :
    (w.flushDeltaIfFull env).Watermarked := by
  unfold World.flushDeltaIfFull
  split
  exacts [hw.wrapDeltaFlushReq hs, hw]

/-- An in-order sample lands in the mutable cache and a late one in the delta
cache; the watermark does not move. -/
theorem Watermarked.route (hs : w.Shape) (hm : w.Mirrors) (hw : w.Watermarked)
    {fid : FieldId} {val : List UInt8} {dtype : ValueType} {seq : UInt64} {ts : I64}
    (hr : w.route env fid val dtype seq ts = some w') :
    w'.Watermarked ∧ w'.tsf.immutTsMin = w.tsf.immutTsMin := by
  unfold World.route at hr
  split at hr <;> rw [insertRaw_eq, Option.map_eq_some'] at hr <;> obtain ⟨data, hd, rfl⟩ := hr <;>
    have hdts := (MemCache.decodeRaw_eq_some env hd).1
  · rename_i hts
    refine ⟨⟨?_, fun h hh => ?_, ?_, .inr ?_⟩, rfl⟩ <;> dsimp only
    · rw [hm.mutCache, Function.update_same]
      exact hw.mutCache.insert env (hdts ▸ hts)
    · rw [hm.mutCache, Function.update_noteq (hs.ne_mut_of_mem_immut hh)]
      exact hw.immutCache h hh
    · rw [hm.mutCache, Function.update_noteq hs.mut_ne_delta.symm]
      exact hw.deltaMutCache
    · simp only [I64.lt_def, I64.le_def] at hts ⊢
      split <;> simp only [I64.lt_def, I64.le_def] at * <;> omega
  · rename_i hts
    refine ⟨⟨?_, fun h hh => ?_, ?_, hw.mutTsMax⟩, rfl⟩ <;> dsimp only <;> rw [hm.deltaMutCache]
    · rw [Function.update_noteq hs.mut_ne_delta]
      exact hw.mutCache
    · rw [Function.update_noteq (hs.ne_delta_of_mem_immut hh)]
      exact hw.immutCache h hh
    · rw [Function.update_same]
      refine hw.deltaMutCache.insert env ?_
      simp only [hdts, I64.lt_def, I64.le_def, not_le] at hts ⊢
      exact hts

theorem Watermarked.deleteCache (hw : w.Watermarked) (r : TimeRange) :
    (w.deleteCache r).Watermarked := by
  have hsub := cells_deleteCache_subset (w := w) r
  have htsf := tsf_deleteCache (w := w) r
  refine ⟨?_, fun h hh => ?_, ?_, ?_⟩ <;> simp only [htsf] at *
  · exact hw.mutCache.of_subset (hsub _)
  · exact (hw.immutCache h hh).of_subset (hsub _)
  · exact hw.deltaMutCache.of_subset (hsub _)
  · exact hw.mutTsMax

theorem bootstrap_of_ne_min (ts : I64) (h : w.tsf.immutTsMin ≠ I64.MIN) : w.bootstrap ts = w := by
  unfold World.bootstrap
  rw [if_neg h]

/-- The bootstrap never moves the watermark back. -/
theorem immutTsMin_le_bootstrap (ts : I64) : w.tsf.immutTsMin ≤ (w.bootstrap ts).tsf.immutTsMin := by
  unfold World.bootstrap
  split
  · next h => exact h ▸ I64.MIN_le ts
  · exact I64.le_refl _

/-- One ingest that leaves the watermark set keeps the routing law, when the law
holds after its bootstrap, and does not move the watermark back. -/
theorem Watermarked.putMutcache (hs : w.Shape) (hm : w.Mirrors) {fid : FieldId}
    {val : List UInt8} {dtype : ValueType} {seq : UInt64} {ts : I64}
    (hw : (w.bootstrap ts).Watermarked) (hput : w.putMutcache env fid val dtype seq ts = some w')
    (hmin' : w'.tsf.immutTsMin ≠ I64.MIN) :
    w'.Watermarked ∧ w.tsf.immutTsMin ≤ w'.tsf.immutTsMin := by
  rw [World.putMutcache, Option.map_eq_some'] at hput
  obtain ⟨w1, hr, rfl⟩ := hput
  have hs0 := hs.bootstrap ts
  have hm0 := hm.bootstrap ts
  obtain ⟨hw1, hwm1⟩ := hw.route hs0 hm0 hr
  have hs2 : (w1.flushDeltaOnInOrder env ts).Shape := (hs0.route hr).flushDeltaOnInOrder ts
  have hm2 : (w1.flushDeltaOnInOrder env ts).Mirrors := (hm0.route hr).flushDeltaOnInOrder ts
  rw [immutTsMin_flushDeltaIfFull] at hmin' ⊢
  obtain ⟨hw3, hle⟩ := (hw1.flushDeltaOnInOrder (hs0.route hr) ts).rotateIfFull hs2 hm2 hmin'
  refine ⟨hw3.flushDeltaIfFull hs2.rotateIfFull, ?_⟩
  rw [immutTsMin_flushDeltaOnInOrder, hwm1] at hle
  exact I64.le_trans (immutTsMin_le_bootstrap ts) hle

/-- **A flush before the first in-order sample moves the watermark back to
`i64::MIN`.**  On a flush `put_mutcache` copies `mut_ts_max` into the watermark
and into the version's `max_level_ts`; `TseriesFamily::new` starts `mut_ts_max` at
`i64::MIN`, the value the bootstrap at the top of `put_mutcache` reads as unset.
A family over a mutable cache filled by two `insert`s at `10` and `11`, with
`max_level_ts` `10` and a flush threshold of one: one late sample at `5` rotates
the full cache and flushes it, leaving the watermark and `max_level_ts` at
`i64::MIN` and the sample's own cell in the delta cache past the watermark. -/
theorem late_sample_resets_watermark :
    ∃ (cache : MemCache) (w₀ w : World),
      cache = ((MemCache.new 0 64 0).insert (Env.ofLimits 32 64 1) 1 (.u64 (I64.ofInt 10) 0)
        .unsigned).insert (Env.ofLimits 32 64 1) 1 (.u64 (I64.ofInt 11) 0) .unsigned ∧
      cache.immutable = false ∧ (∀ p ∈ cache.cells, I64.ofInt 10 ≤ p.2.timestamp) ∧
      w₀ = TseriesFamily.new (Env.ofLimits 32 64 1) 0 cache ⟨0, I64.ofInt 10⟩ ∧
      w₀.step (Env.ofLimits 32 64 1) (.putMutcache 1 [] .unsigned 0 (I64.ofInt 5)) = some w ∧
      w.tsf.mutTsMax = I64.MIN ∧ w.tsf.immutTsMin = I64.MIN ∧
      w.tsf.version.maxLevelTs = I64.MIN ∧ w.tsf.immutTsMin < w₀.tsf.immutTsMin ∧
      ∃ p ∈ (w.caches w.tsf.deltaMutCache).cells, ¬ p.2.timestamp < w.tsf.immutTsMin :=
  ⟨_, _, _, rfl, rfl, by decide, rfl, rfl, by decide, by decide, by decide, by decide,
    ⟨1, .u64 (I64.ofInt 5) 0⟩, by decide, by decide⟩

/-! ### Runs that keep the watermark set -/

/-- A call other than `switch_memcache` after which the watermark is set. -/
def KeepsWatermark (env : Env) (w w' : World) : Prop :=
  Step env (fun op => op.isSwitchMemcache = false) w w' ∧ w'.tsf.immutTsMin ≠ I64.MIN

/-- What holds along such runs: the shape, the mirror, the routing law, and a set
watermark. -/
def WatermarkInv (w : World) : Prop :=
  w.Shape ∧ w.Mirrors ∧ w.Watermarked ∧ w.tsf.immutTsMin ≠ I64.MIN

/-- A call that keeps the watermark set, from a state where the routing law holds
as it is and after the bootstrap of any ingest, leads into the invariant. -/
theorem WatermarkInv.of_step (hs : w.Shape) (hm : w.Mirrors) (hw : w.Watermarked)
    (hboot : ∀ ts, (w.bootstrap ts).Watermarked) (hstep : KeepsWatermark env w w') :
    w'.WatermarkInv ∧ w.tsf.immutTsMin ≤ w'.tsf.immutTsMin := by
  obtain ⟨⟨op, hop, hop'⟩, hmin'⟩ := hstep
  have key : w'.Watermarked ∧ w.tsf.immutTsMin ≤ w'.tsf.immutTsMin := by
    cases op with
    | putMutcache fid val dtype seq ts => exact (hboot ts).putMutcache hs hm hop' hmin'
    | switchToImmutable =>
      cases Option.some.inj hop'
      exact ⟨hw.switchToImmutable hs hm, I64.le_refl _⟩
    | switchMemcache => cases hop
    | deleteCache r =>
      cases Option.some.inj hop'
      exact ⟨hw.deleteCache r, by rw [tsf_deleteCache]; exact I64.le_refl _⟩
  exact ⟨⟨hs.step hop', hm.step hop hop', key.1, hmin'⟩, key.2⟩

theorem WatermarkInv.step (hi : w.WatermarkInv) (hstep : KeepsWatermark env w w') :
    w'.WatermarkInv ∧ w.tsf.immutTsMin ≤ w'.tsf.immutTsMin :=
  have ⟨hs, hm, hw, hmin⟩ := hi
  WatermarkInv.of_step hs hm hw (fun ts => by rw [bootstrap_of_ne_min ts hmin]; exact hw) hstep

theorem WatermarkInv.trace (hi : w.WatermarkInv)
    (hrun : Relation.ReflTransGen (KeepsWatermark env) w w') :
    w'.WatermarkInv ∧ w.tsf.immutTsMin ≤ w'.tsf.immutTsMin := by
  induction hrun with
  | refl => exact ⟨hi, I64.le_refl _⟩
  | tail _ hstep ih =>
    obtain ⟨hi', hle'⟩ := ih.1.step hstep
    exact ⟨hi', I64.le_trans ih.2 hle'⟩

theorem watermarked_new (env : Env) (tfId : UInt32) {cache : MemCache} {version : Version}
    (hcache : ∀ p ∈ cache.cells, version.maxLevelTs ≤ p.2.timestamp) :
    (TseriesFamily.new env tfId cache version).Watermarked := by
  refine ⟨fun p hp => hcache p ?_, fun _ hh => (List.not_mem_nil _ hh).elim,
    .of_cells_eq_nil ?_, .inl rfl⟩
  · simpa [TseriesFamily.new, alloc, Function.update_apply] using hp
  · simp [TseriesFamily.new, alloc]

theorem watermarkInv_new (env : Env) (tfId : UInt32) {cache : MemCache} {version : Version}
    (hmin : version.maxLevelTs ≠ I64.MIN)
    (hcache : ∀ p ∈ cache.cells, version.maxLevelTs ≤ p.2.timestamp) :
    (TseriesFamily.new env tfId cache version).WatermarkInv :=
  ⟨(holds_new env tfId cache version).1, ⟨rfl, rfl, rfl, rfl⟩, watermarked_new env tfId hcache, hmin⟩

/-- In a new family whose cells, if it has any, are at or past a set
`max_level_ts`, the routing law holds after the bootstrap of the first ingest:
a set watermark stays, and an unset one is set over caches with no cells. -/
theorem watermarked_bootstrap_new (env : Env) (tfId : UInt32) {cache : MemCache}
    {version : Version}
    (hcache : ∀ p ∈ cache.cells, version.maxLevelTs ≠ I64.MIN ∧ version.maxLevelTs ≤ p.2.timestamp)
    (ts : I64) : ((TseriesFamily.new env tfId cache version).bootstrap ts).Watermarked := by
  by_cases hmin : version.maxLevelTs = I64.MIN
  · have hnil : cache.cells = [] :=
      List.eq_nil_iff_forall_not_mem.2 fun p hp => (hcache p hp).1 hmin
    refine ⟨.of_cells_eq_nil ?_, fun _ hh => (List.not_mem_nil _ hh).elim, .of_cells_eq_nil ?_,
      .inl rfl⟩
    · simpa [World.bootstrap, TseriesFamily.new, alloc] using hnil
    · simp [World.bootstrap, TseriesFamily.new, alloc]
  · rw [bootstrap_of_ne_min ts hmin]
    exact watermarked_new env tfId fun p hp => (hcache p hp).2

/-- **The routing law of the watermark**, along runs of ingests, rotations and
deletions in which the watermark is never `i64::MIN` after a call, from a new
family whose initial cells, if it has any, are at or past a set `max_level_ts`
(a family with no cells may start unset): the watermark never decreases; the
mutable and immutable caches hold no cell before it, and the delta cache no cell
at or past it. -/
theorem watermark_of_reachable {tfId : UInt32} {cache : MemCache} {version : Version}
    (hcache : ∀ p ∈ cache.cells, version.maxLevelTs ≠ I64.MIN ∧ version.maxLevelTs ≤ p.2.timestamp)
    {w₁ w₂ : World}
    (h₁ : Relation.ReflTransGen (KeepsWatermark env) (TseriesFamily.new env tfId cache version) w₁)
    (h₂ : Relation.ReflTransGen (KeepsWatermark env) w₁ w₂) :
    w₁.tsf.immutTsMin ≤ w₂.tsf.immutTsMin ∧
      (∀ p ∈ (w₂.caches w₂.tsf.mutCache).cells, w₂.tsf.immutTsMin ≤ p.2.timestamp) ∧
      (∀ h ∈ w₂.tsf.immutCache, ∀ p ∈ (w₂.caches h).cells, w₂.tsf.immutTsMin ≤ p.2.timestamp) ∧
      ∀ p ∈ (w₂.caches w₂.tsf.deltaMutCache).cells, p.2.timestamp < w₂.tsf.immutTsMin := by
  have hs₀ := (holds_new env tfId cache version).1
  have hm₀ : (TseriesFamily.new env tfId cache version).Mirrors := ⟨rfl, rfl, rfl, rfl⟩
  have hw₀ := watermarked_new env tfId fun p hp => (hcache p hp).2
  have hboot := watermarked_bootstrap_new env tfId hcache
  -- the first call leads into the invariant, which then carries the rest of the run
  have key : w₂.Watermarked ∧ w₁.tsf.immutTsMin ≤ w₂.tsf.immutTsMin := by
    rcases h₁.cases_head with rfl | ⟨c, hc, hcw⟩
    · rcases h₂.cases_head with rfl | ⟨d, hd, hdw⟩
      · exact ⟨hw₀, I64.le_refl _⟩
      · obtain ⟨hi, hle⟩ := WatermarkInv.of_step hs₀ hm₀ hw₀ hboot hd
        obtain ⟨hi', hle'⟩ := hi.trace hdw
        exact ⟨hi'.2.2.1, I64.le_trans hle hle'⟩
    · obtain ⟨hi, hle⟩ := ((WatermarkInv.of_step hs₀ hm₀ hw₀ hboot hc).1.trace hcw).1.trace h₂
      exact ⟨hi.2.2.1, hle⟩
  exact ⟨key.2, key.1.mutCache, key.1.immutCache, key.1.deltaMutCache⟩

theorem watermark_after_in_order_and_late_samples :
    ∃ w₂, ((∀ p ∈ (MemCache.new 0 64 0).cells, I64.MIN ≠ I64.MIN ∧ I64.MIN ≤ p.2.timestamp) ∧
      Relation.ReflTransGen (KeepsWatermark (Env.ofLimits 32 64 2))
        (TseriesFamily.new (Env.ofLimits 32 64 2) 0 (MemCache.new 0 64 0) ⟨0, I64.MIN⟩) w₂) ∧
      (TseriesFamily.new (Env.ofLimits 32 64 2) 0 (MemCache.new 0 64 0)
          ⟨0, I64.MIN⟩).tsf.immutTsMin ≤ w₂.tsf.immutTsMin ∧
      (∀ p ∈ (w₂.caches w₂.tsf.mutCache).cells, w₂.tsf.immutTsMin ≤ p.2.timestamp) ∧
      (∀ h ∈ w₂.tsf.immutCache, ∀ p ∈ (w₂.caches h).cells, w₂.tsf.immutTsMin ≤ p.2.timestamp) ∧
      ∀ p ∈ (w₂.caches w₂.tsf.deltaMutCache).cells, p.2.timestamp < w₂.tsf.immutTsMin := by
  have hrun : Relation.ReflTransGen (KeepsWatermark (Env.ofLimits 32 64 2))
      (TseriesFamily.new (Env.ofLimits 32 64 2) 0 (MemCache.new 0 64 0) ⟨0, I64.MIN⟩) _ :=
    .tail (.single ⟨⟨.putMutcache 1 [] .unsigned 0 (I64.ofInt 12), rfl, rfl⟩, by decide⟩)
      ⟨⟨.putMutcache 1 [] .unsigned 0 (I64.ofInt 5), rfl, rfl⟩, by decide⟩
  have hcache : ∀ p ∈ (MemCache.new 0 64 0).cells, I64.MIN ≠ I64.MIN ∧ I64.MIN ≤ p.2.timestamp := by
    simp
  exact ⟨_, ⟨hcache, hrun⟩, watermark_of_reachable hcache .refl hrun⟩

/-! ### The limits -/

theorem isFull_new (hpos : 0 < env.maxMemcacheSize) (tfId : UInt32) (seq : UInt64) :
    (MemCache.new tfId env.maxMemcacheSize seq).isFull = false := by
  simpa [MemCache.isFull, MemCache.new] using hpos

/-- After a rotation the mutable cache is fresh, and a flush empties the
immutable list once it reaches the threshold. -/
theorem limits_rotateIfFull (hm : w.Mirrors) (hpos : 0 < env.maxMemcacheSize)
    (hi : w.tsf.immutCache.length < max env.maxImmemcacheNum 1) :
    ((w.rotateIfFull env).caches (w.rotateIfFull env).tsf.mutCache).isFull = false ∧
      (w.rotateIfFull env).tsf.immutCache.length < max env.maxImmemcacheNum 1 := by
  unfold World.rotateIfFull
  by_cases hfull : (w.caches w.tsf.superVersion.mutCache).isFull = true
  · have hfresh : ((w.switchToImmutable env).caches (w.switchToImmutable env).tsf.mutCache).isFull =
        false := by
      simpa [World.switchToImmutable] using isFull_new hpos w.tsf.tfId w.tsf.seqNo
    simp only [hfull, ite_true]
    by_cases hflush : (w.switchToImmutable env).tsf.immutCache.length ≥ env.maxImmemcacheNum
    · simp only [hflush, ite_true]
      exact ⟨hfresh, by simp [World.wrapFlushReq]⟩
    · simp only [hflush, ite_false]
      exact ⟨hfresh, by omega⟩
  · simp only [hfull]
    exact ⟨by simpa [hm.mutCache] using hfull, hi⟩

theorem limits_flushDeltaIfFull (hs : w.Shape) (hm : w.Mirrors) (hpos : 0 < env.maxMemcacheSize)
    (hmut : (w.caches w.tsf.mutCache).isFull = false) :
    ((w.flushDeltaIfFull env).caches (w.flushDeltaIfFull env).tsf.mutCache).isFull = false ∧
      ((w.flushDeltaIfFull env).caches (w.flushDeltaIfFull env).tsf.deltaMutCache).isFull =
        false ∧
      (w.flushDeltaIfFull env).tsf.immutCache = w.tsf.immutCache := by
  unfold World.flushDeltaIfFull
  split
  · refine ⟨?_, ?_, rfl⟩
    · simpa [World.wrapDeltaFlushReq, Function.update_noteq (hs.ne_next mut_mem_live)] using hmut
    · simpa [World.wrapDeltaFlushReq] using isFull_new hpos w.tsf.tfId w.tsf.seqNo
  · rename_i hfull
    exact ⟨hmut, by simpa [hm.deltaMutCache] using hfull, rfl⟩

/-- One ingest keeps the shape, the mirror and the limits. -/
theorem limits_putMutcache (hs : w.Shape) (hm : w.Mirrors) (hpos : 0 < env.maxMemcacheSize)
    (hi : w.tsf.immutCache.length < max env.maxImmemcacheNum 1) {fid : FieldId}
    {val : List UInt8} {dtype : ValueType} {seq : UInt64} {ts : I64}
    (hput : w.putMutcache env fid val dtype seq ts = some w') :
    w'.Shape ∧ w'.Mirrors ∧ (w'.caches w'.tsf.mutCache).isFull = false ∧
      (w'.caches w'.tsf.deltaMutCache).isFull = false ∧
      w'.tsf.immutCache.length < max env.maxImmemcacheNum 1 := by
  refine ⟨hs.step (show w.step env (.putMutcache fid val dtype seq ts) = some w' from hput),
    hm.putMutcache hput, ?_⟩
  rw [World.putMutcache, Option.map_eq_some'] at hput
  obtain ⟨w1, hr, rfl⟩ := hput
  have hs2 : (w1.flushDeltaOnInOrder env ts).Shape := ((hs.bootstrap ts).route hr).flushDeltaOnInOrder ts
  have hm2 : (w1.flushDeltaOnInOrder env ts).Mirrors :=
    ((hm.bootstrap ts).route hr).flushDeltaOnInOrder ts
  obtain ⟨hmut3, hi3⟩ := limits_rotateIfFull hm2 hpos
    (by rw [immutCache_flushDeltaOnInOrder, immutCache_route hr]; exact hi)
  obtain ⟨hmut4, hdelta4, himm4⟩ :=
    limits_flushDeltaIfFull hs2.rotateIfFull hm2.rotateIfFull hpos hmut3
  exact ⟨hmut4, hdelta4, himm4 ▸ hi3⟩

/-- Along ingests from a new family the shape, the mirror and the bound on the
immutable caches hold. -/
theorem limits_of_reachable {tfId : UInt32} {cache : MemCache} {version : Version}
    (hpos : 0 < env.maxMemcacheSize)
    (hw : Reachable env (fun op => op.isPutMutcache = true)
      (TseriesFamily.new env tfId cache version) w) :
    w.Shape ∧ w.Mirrors ∧ w.tsf.immutCache.length < max env.maxImmemcacheNum 1 := by
  induction hw with
  | refl =>
    exact ⟨(holds_new env tfId cache version).1, ⟨rfl, rfl, rfl, rfl⟩, by simp [TseriesFamily.new]⟩
  | tail _ hstep ih =>
    obtain ⟨op, hop, hop'⟩ := hstep
    cases op with
    | putMutcache =>
      obtain ⟨hs', hm', -, -, hi'⟩ := limits_putMutcache ih.1 ih.2.1 hpos ih.2.2 hop'
      exact ⟨hs', hm', hi'⟩
    | _ => cases hop

/-- **The limits after each ingest**: in a family reached by ingests alone, with
a positive `max_memcache_size`, every `put_mutcache` that returns leaves neither
the mutable nor the delta cache full, and fewer immutable caches than the larger
of `max_immemcache_num` and one. -/
theorem putMutcache_within_limits {tfId : UInt32} {cache : MemCache} {version : Version}
    (hpos : 0 < env.maxMemcacheSize)
    (hw : Reachable env (fun op => op.isPutMutcache = true)
      (TseriesFamily.new env tfId cache version) w)
    {fid : FieldId} {val : List UInt8} {dtype : ValueType} {seq : UInt64} {ts : I64}
    (hput : w.putMutcache env fid val dtype seq ts = some w') :
    (w'.caches w'.tsf.mutCache).isFull = false ∧ (w'.caches w'.tsf.deltaMutCache).isFull = false ∧
      w'.tsf.immutCache.length < max env.maxImmemcacheNum 1 :=
  have hinv := limits_of_reachable hpos hw
  (limits_putMutcache hinv.1 hinv.2.1 hpos hinv.2.2 hput).2.2

theorem within_limits_after_two_samples :
    ∃ w w', (0 < (Env.ofLimits 32 64 2).maxMemcacheSize ∧
      Reachable (Env.ofLimits 32 64 2) (fun op => op.isPutMutcache = true)
        (TseriesFamily.new (Env.ofLimits 32 64 2) 0 (MemCache.new 0 64 0) ⟨0, I64.ofInt 0⟩) w ∧
      w.putMutcache (Env.ofLimits 32 64 2) 1 [] .unsigned 0 (I64.ofInt 2) = some w') ∧
      (w'.caches w'.tsf.mutCache).isFull = false ∧
      (w'.caches w'.tsf.deltaMutCache).isFull = false ∧
      w'.tsf.immutCache.length < max (Env.ofLimits 32 64 2).maxImmemcacheNum 1 := by
  obtain ⟨w, hw⟩ : ∃ w, (TseriesFamily.new (Env.ofLimits 32 64 2) 0 (MemCache.new 0 64 0)
      ⟨0, I64.ofInt 0⟩).putMutcache (Env.ofLimits 32 64 2) 1 [] .unsigned 0 (I64.ofInt 1) =
      some w := ⟨_, rfl⟩
  obtain ⟨w', hput⟩ : ∃ w', w.putMutcache (Env.ofLimits 32 64 2) 1 [] .unsigned 0 (I64.ofInt 2) =
      some w' := by
    cases hw
    exact ⟨_, rfl⟩
  have hpos : 0 < (Env.ofLimits 32 64 2).maxMemcacheSize := by decide
  have hreach : Reachable (Env.ofLimits 32 64 2) (fun op => op.isPutMutcache = true)
      (TseriesFamily.new (Env.ofLimits 32 64 2) 0 (MemCache.new 0 64 0) ⟨0, I64.ofInt 0⟩) w :=
    .single ⟨.putMutcache 1 [] .unsigned 0 (I64.ofInt 1), rfl, hw⟩
  exact ⟨w, w', ⟨hpos, hreach, hput⟩, putMutcache_within_limits hpos hreach hput⟩

/-! ### An in-order sample ships the late ones

An in-order sample ships a delta cache that has entries before the rotation
check, and neither a rotation nor the flush of the immutable caches touches the
delta cache.  So whatever late samples the delta cache held, it has no entries
once the call returns (`inOrder_sample_empties_delta`).  This holds after
`switch_memcache` too, whose super-version sends in-order samples to the delta
cache: the sample itself then gives it an entry. -/

/-- The delta cache has no entries. -/
def DeltaEmpty (w : World) : Prop := (w.caches w.tsf.deltaMutCache).dataCache.entries = []

theorem deltaEmpty_wrapDeltaFlushReq (w : World) : (w.wrapDeltaFlushReq env).DeltaEmpty := by
  simp [DeltaEmpty, World.wrapDeltaFlushReq]

theorem DeltaEmpty.flushDeltaIfFull (h : w.DeltaEmpty) : (w.flushDeltaIfFull env).DeltaEmpty := by
  unfold World.flushDeltaIfFull
  split
  exacts [deltaEmpty_wrapDeltaFlushReq w, h]

/-- A rotation, and the flush of the immutable caches after it, leave the delta
cache alone when the published mutable cache is another one. -/
theorem DeltaEmpty.rotateIfFull (hs : w.Shape)
    (hne : w.tsf.superVersion.mutCache ≠ w.tsf.deltaMutCache) (h : w.DeltaEmpty) :
    (w.rotateIfFull env).DeltaEmpty := by
  have hsw : (w.switchToImmutable env).DeltaEmpty := by
    simpa [DeltaEmpty, World.switchToImmutable, Function.update_noteq (hs.ne_next delta_mem_live),
      Function.update_noteq hne.symm] using h
  unfold World.rotateIfFull
  split
  · dsimp only
    split
    exacts [hsw, hsw]
  · exact h

/-- An in-order sample gives the published mutable cache an entry. -/
theorem entries_route_ne_nil {fid : FieldId} {val : List UInt8} {dtype : ValueType}
    {seq : UInt64} {ts : I64} (hts : ts ≥ w.tsf.immutTsMin)
    (hr : w.route env fid val dtype seq ts = some w') :
    (w'.caches w'.tsf.superVersion.mutCache).dataCache.entries ≠ [] := by
  unfold World.route at hr
  rw [if_pos hts, insertRaw_eq, Option.map_eq_some'] at hr
  obtain ⟨data, -, rfl⟩ := hr
  dsimp only
  rw [Function.update_same]
  exact MemCache.entries_insert_ne_nil env _ fid data dtype

/-- With an in-order sample and a published mutable cache that has entries, the
delta cache is shipped if it has entries; either way it then has none, and the
published mutable cache is another one. -/
theorem deltaEmpty_flushDeltaOnInOrder (hs : w.Shape) {ts : I64} (hts : ts ≥ w.tsf.immutTsMin)
    (hmut : (w.caches w.tsf.superVersion.mutCache).dataCache.entries ≠ []) :
    (w.flushDeltaOnInOrder env ts).DeltaEmpty ∧
      (w.flushDeltaOnInOrder env ts).tsf.superVersion.mutCache ≠
        (w.flushDeltaOnInOrder env ts).tsf.deltaMutCache := by
  unfold World.flushDeltaOnInOrder
  split
  · exact ⟨deltaEmpty_wrapDeltaFlushReq w,
      (mirrors_wrapDeltaFlushReq w).mutCache ▸ hs.wrapDeltaFlushReq.mut_ne_delta⟩
  · rename_i hne
    have hnil : w.DeltaEmpty := not_not.1 fun h => hne ⟨hts, h⟩
    exact ⟨hnil, fun e => hmut (e ▸ hnil)⟩

/-- One in-order ingest, from a family that keeps its shape, leaves the delta
cache without entries. -/
theorem deltaEmpty_putMutcache (hs : w.Shape) {fid : FieldId} {val : List UInt8}
    {dtype : ValueType} {seq : UInt64} {ts : I64} (hts : w.tsf.immutTsMin ≤ ts)
    (hput : w.putMutcache env fid val dtype seq ts = some w') : w'.DeltaEmpty := by
  rw [World.putMutcache, Option.map_eq_some'] at hput
  obtain ⟨w1, hr, rfl⟩ := hput
  have hin : ts ≥ (w.bootstrap ts).tsf.immutTsMin := by
    show (if w.tsf.immutTsMin = I64.MIN then ts else w.tsf.immutTsMin) ≤ ts
    split
    exacts [I64.le_refl ts, hts]
  have hs1 := (hs.bootstrap ts).route hr
  obtain ⟨h2, hne⟩ : (w1.flushDeltaOnInOrder env ts).DeltaEmpty ∧ _ :=
    deltaEmpty_flushDeltaOnInOrder hs1 (immutTsMin_route hr ▸ hin) (entries_route_ne_nil hin hr)
  exact (h2.rotateIfFull (hs1.flushDeltaOnInOrder ts) hne).flushDeltaIfFull

/-- **An in-order sample ships the late ones.**  In every state reachable from
`TseriesFamily::new` by any public calls, `switch_memcache` included, a
`put_mutcache` whose timestamp is at or past `immut_ts_min` returns with a delta
cache that has no entries, whatever late samples it held before. -/
theorem inOrder_sample_empties_delta {tfId : UInt32} {cache : MemCache} {version : Version}
    {ok : Op → Prop} (hw : Reachable env ok (TseriesFamily.new env tfId cache version) w)
    {fid : FieldId} {val : List UInt8} {dtype : ValueType} {seq : UInt64} {ts : I64}
    (hts : w.tsf.immutTsMin ≤ ts) (hput : w.putMutcache env fid val dtype seq ts = some w') :
    (w'.caches w'.tsf.deltaMutCache).dataCache.entries = [] := by
  exact deltaEmpty_putMutcache ((holds_new env tfId cache version).1.reachable hw) hts hput

/-- A late sample at `3` below the watermark `5` waits in the delta cache; an
in-order sample at `7` ships it. -/
theorem inOrder_sample_empties_delta_after_late_sample :
    ∃ w w', (w.caches w.tsf.deltaMutCache).dataCache.entries ≠ [] ∧
      (Reachable (Env.ofLimits 32 64 2) (fun _ => True)
        (TseriesFamily.new (Env.ofLimits 32 64 2) 0 (MemCache.new 0 64 0)
          ⟨0, I64.ofInt 5⟩) w ∧
      w.tsf.immutTsMin ≤ I64.ofInt 7 ∧
      w.putMutcache (Env.ofLimits 32 64 2) 1 [] .unsigned 0 (I64.ofInt 7) = some w') ∧
      (w'.caches w'.tsf.deltaMutCache).dataCache.entries = [] := by
  obtain ⟨w, hw⟩ : ∃ w, (TseriesFamily.new (Env.ofLimits 32 64 2) 0 (MemCache.new 0 64 0)
      ⟨0, I64.ofInt 5⟩).putMutcache (Env.ofLimits 32 64 2) 1 [] .unsigned 0 (I64.ofInt 3) =
      some w := ⟨_, rfl⟩
  obtain ⟨w', hput⟩ :
      ∃ w', w.putMutcache (Env.ofLimits 32 64 2) 1 [] .unsigned 0 (I64.ofInt 7) = some w' := by
    cases hw
    exact ⟨_, rfl⟩
  have hreach : Reachable (Env.ofLimits 32 64 2) (fun _ => True)
      (TseriesFamily.new (Env.ofLimits 32 64 2) 0 (MemCache.new 0 64 0) ⟨0, I64.ofInt 5⟩) w :=
    .single ⟨.putMutcache 1 [] .unsigned 0 (I64.ofInt 3), trivial, hw⟩
  have hts : w.tsf.immutTsMin ≤ I64.ofInt 7 := by cases hw; decide
  have hlate : (w.caches w.tsf.deltaMutCache).dataCache.entries ≠ [] := by cases hw; decide
  exact ⟨w, w', hlate, ⟨hreach, hts, hput⟩, inOrder_sample_empties_delta hreach hts hput⟩

end World

end Tskv
