import Tskv.Family.Basic
import Mathlib.Data.List.Perm.Basic

/-!
# Where a family's caches are, and what they hold

Every cache a family has used sits in one of four places: it is the mutable
cache, the delta cache, one of the immutable caches, or in a request on
`FLUSH_REQ`.  `World.held` lists them.  `World.Shape` says that each handle is
in one place only, that every handle is allocated, and that the published
super-version's mutable and delta handles are the family's own two, in either
order: `switch_memcache` publishes them swapped.

Rotation and hand-off move handles between the four places and add empty caches;
an ingest adds one cell to a cache the super-version names, which is held.  So the
cells held are, up to order, those of the initial cache and one per ingested
sample.

Without `switch_memcache` the super-version mirrors the family exactly
(`World.Mirrors`); one call of `switch_memcache` breaks that.

## Main definitions

* `World.held`, `World.cellsIn` — the handles of a family and the cells behind them.
* `World.Shape` — the shape every reachable family keeps.
* `World.Mirrors` — the published super-version names the family's own caches.
* `Op.cells` — the cell an operation brings in.

## Main results

* `World.Shape.step` — every public call keeps the shape.
* `World.heldCells_run` — **no sample is lost or duplicated**.
* `World.switchMemcache_swaps` — `switch_memcache` publishes the delta cache as
  the mutable one.
* `World.mirrors_of_reachable` — without `switch_memcache`, the super-version mirrors
  the family.
-/

namespace Tskv

namespace World

/-! ### The four places of a cache -/

/-- The caches the family holds: its mutable cache, its delta cache and its
immutable caches. -/
def live (w : World) : List CacheRef := w.tsf.mutCache :: w.tsf.deltaMutCache :: w.tsf.immutCache

/-- The caches the family has appended to `FLUSH_REQ`. -/
def flushed (w : World) : List CacheRef := w.flushReq.flatMap fun r => r.mems.map Prod.snd

/-- Every cache the family has used. -/
def held (w : World) : List CacheRef := w.live ++ w.flushed

/-- The cells of the caches `hs`, with their field ids. -/
def cellsIn (w : World) (hs : List CacheRef) : List (FieldId × DataType) :=
  hs.flatMap fun h => (w.caches h).cells

/-- The shape every reachable family keeps: each held handle occurs once and is
allocated, and the published mutable and delta handles are the family's own
two, in either order. -/
structure Shape (w : World) : Prop where
  nodup : w.held.Nodup
  lt_next : ∀ h ∈ w.held, h < w.next
  sv_mut : w.tsf.superVersion.mutCache ∈ [w.tsf.mutCache, w.tsf.deltaMutCache]
  sv_delta : w.tsf.superVersion.deltaMutCache ∈ [w.tsf.mutCache, w.tsf.deltaMutCache]

variable {env : Env} {w w' : World}

theorem mem_held_of_mem_live {h : CacheRef} (hh : h ∈ w.live) : h ∈ w.held :=
  List.mem_append_left _ hh

theorem Shape.sv_mut_mem (hs : w.Shape) : w.tsf.superVersion.mutCache ∈ w.held := by
  have := hs.sv_mut
  simp only [List.mem_cons, List.not_mem_nil, or_false] at this
  rcases this with h | h <;> rw [h] <;> simp [held, live]

theorem Shape.sv_delta_mem (hs : w.Shape) : w.tsf.superVersion.deltaMutCache ∈ w.held := by
  have := hs.sv_delta
  simp only [List.mem_cons, List.not_mem_nil, or_false] at this
  rcases this with h | h <;> rw [h] <;> simp [held, live]

theorem Shape.next_not_mem (hs : w.Shape) : w.next ∉ w.held :=
  fun h => lt_irrefl _ (hs.lt_next _ h)

theorem Shape.live_nodup (hs : w.Shape) : w.live.Nodup := (List.nodup_append.1 hs.nodup).1

theorem Shape.mut_ne_delta (hs : w.Shape) : w.tsf.mutCache ≠ w.tsf.deltaMutCache :=
  fun h => (List.nodup_cons.1 hs.live_nodup).1 (h ▸ List.mem_cons_self _ _)

theorem Shape.ne_mut_of_mem_immut (hs : w.Shape) {h : CacheRef} (hh : h ∈ w.tsf.immutCache) :
    h ≠ w.tsf.mutCache :=
  fun e => (List.nodup_cons.1 hs.live_nodup).1 (List.mem_cons_of_mem _ (e ▸ hh))

theorem Shape.ne_delta_of_mem_immut (hs : w.Shape) {h : CacheRef} (hh : h ∈ w.tsf.immutCache) :
    h ≠ w.tsf.deltaMutCache :=
  fun e => (List.nodup_cons.1 (List.nodup_cons.1 hs.live_nodup).2).1 (e ▸ hh)

/-- A live handle is not the next one to be allocated. -/
theorem Shape.ne_next (hs : w.Shape) {h : CacheRef} (hh : h ∈ w.live) : h ≠ w.next :=
  fun e => hs.next_not_mem (e ▸ mem_held_of_mem_live hh)

theorem mut_mem_live : w.tsf.mutCache ∈ w.live := List.mem_cons_self _ _

theorem delta_mem_live : w.tsf.deltaMutCache ∈ w.live :=
  List.mem_cons_of_mem _ (List.mem_cons_self _ _)

theorem mem_live_of_mem_immut {h : CacheRef} (hh : h ∈ w.tsf.immutCache) : h ∈ w.live :=
  List.mem_cons_of_mem _ (List.mem_cons_of_mem _ hh)

/-- A call that keeps the held handles up to order and allocates nothing keeps
the shape. -/
theorem Shape.of_perm (hs : w.Shape) (hheld : w'.held.Perm w.held) (hnext : w'.next = w.next)
    (hmut : w'.tsf.superVersion.mutCache ∈ [w'.tsf.mutCache, w'.tsf.deltaMutCache])
    (hdelta : w'.tsf.superVersion.deltaMutCache ∈ [w'.tsf.mutCache, w'.tsf.deltaMutCache]) :
    w'.Shape :=
  ⟨hheld.nodup_iff.2 hs.nodup, fun h hh => hnext ▸ hs.lt_next h (hheld.subset hh), hmut, hdelta⟩

/-- A call that adds the next handle to the held ones and allocates it keeps the
shape. -/
theorem Shape.of_perm_next (hs : w.Shape) (hheld : w'.held.Perm (w.next :: w.held))
    (hnext : w'.next = w.next + 1)
    (hmut : w'.tsf.superVersion.mutCache ∈ [w'.tsf.mutCache, w'.tsf.deltaMutCache])
    (hdelta : w'.tsf.superVersion.deltaMutCache ∈ [w'.tsf.mutCache, w'.tsf.deltaMutCache]) :
    w'.Shape := by
  refine ⟨hheld.nodup_iff.2 (List.nodup_cons.2 ⟨hs.next_not_mem, hs.nodup⟩), fun h hh => ?_,
    hmut, hdelta⟩
  rcases List.mem_cons.1 (hheld.subset hh) with rfl | hh
  · exact hnext ▸ Nat.lt_succ_self _
  · exact hnext ▸ Nat.lt_succ_of_lt (hs.lt_next h hh)

/-! ### The cells behind the handles -/

theorem cellsIn_perm {hs : List CacheRef}
    (h : ∀ x ∈ hs, (w'.caches x).cells.Perm (w.caches x).cells) :
    (w'.cellsIn hs).Perm (w.cellsIn hs) :=
  List.Perm.flatMap_left _ h

/-- Adding one cell to one of a duplicate-free list of caches adds it to their
cells. -/
theorem cellsIn_insert {hs : List CacheRef} {h : CacheRef} {x : FieldId × DataType}
    (hnd : hs.Nodup) (hh : h ∈ hs) (hx : (w'.caches h).cells.Perm ((w.caches h).cells ++ [x]))
    (hother : ∀ y ≠ h, w'.caches y = w.caches y) :
    (w'.cellsIn hs).Perm (w.cellsIn hs ++ [x]) := by
  induction hs with
  | nil => cases hh
  | cons y hs ih =>
    obtain ⟨hy, hnd⟩ := List.nodup_cons.1 hnd
    simp only [cellsIn, List.flatMap_cons, List.append_assoc] at ih ⊢
    by_cases hyh : y = h
    · subst hyh
      have hrest : w'.cellsIn hs = w.cellsIn hs :=
        List.flatMap_congr fun z hz => by rw [hother z (fun h => hy (h ▸ hz))]
      simp only [cellsIn] at hrest
      rw [hrest]
      refine (hx.append_right _).trans ?_
      rw [List.append_assoc]
      exact List.perm_append_comm.append_left _
    · rw [hother y hyh]
      exact (ih hnd ((List.mem_cons.1 hh).resolve_left (Ne.symm hyh))).append_left _

/-- Conservation for a call that keeps the held handles up to order, allocates
nothing and only reorders cells. -/
theorem cellsIn_held_of_perm (hheld : w'.held.Perm w.held)
    (hcells : ∀ h ∈ w.held, (w'.caches h).cells.Perm (w.caches h).cells) :
    (w'.cellsIn w'.held).Perm (w.cellsIn w.held) :=
  (hheld.flatMap_right _).trans (cellsIn_perm hcells)

/-- Conservation for a call that also allocates the next handle for an empty
cache. -/
theorem cellsIn_held_of_perm_next (hheld : w'.held.Perm (w.next :: w.held))
    (hfresh : (w'.caches w.next).cells = [])
    (hcells : ∀ h ∈ w.held, (w'.caches h).cells.Perm (w.caches h).cells) :
    (w'.cellsIn w'.held).Perm (w.cellsIn w.held) := by
  refine (hheld.flatMap_right _).trans ?_
  simp only [List.flatMap_cons, hfresh, List.nil_append]
  exact cellsIn_perm hcells

/-- Freezing a cache through a handle only reorders the cells behind any handle. -/
theorem cells_update_switchToImmutable (c : CacheRef → MemCache) (h x : CacheRef) :
    ((Function.update c h (c h).switchToImmutable) x).cells.Perm (c x).cells := by
  rw [Function.update_apply]
  split
  · subst x
    exact MemCache.cells_switchToImmutable _
  · exact .refl _

/-! ### Each call -/

theorem held_switchToImmutable : (w.switchToImmutable env).held.Perm (w.next :: w.held) := by
  simp only [held, live, flushed, switchToImmutable, tsf_publish, tsf_alloc, tsf_modify,
    flushReq_publish, flushReq_alloc, flushReq_modify, next_modify, List.cons_append,
    List.append_assoc, List.singleton_append]
  exact .cons _ (.trans (.cons _ List.perm_middle) (.swap _ _ _))

theorem Shape.switchToImmutable (hs : w.Shape) : (w.switchToImmutable env).Shape :=
  hs.of_perm_next held_switchToImmutable rfl (by simp [World.switchToImmutable])
    (by simp [World.switchToImmutable])

theorem cellsIn_switchToImmutable (hs : w.Shape) :
    ((w.switchToImmutable env).cellsIn (w.switchToImmutable env).held).Perm (w.cellsIn w.held) :=
  cellsIn_held_of_perm_next held_switchToImmutable (by simp [switchToImmutable]) fun h hh => by
    simp only [switchToImmutable, caches_publish, caches_alloc, caches_modify, next_modify]
    rw [Function.update_noteq (fun e : h = w.next => hs.next_not_mem (e ▸ hh))]
    exact cells_update_switchToImmutable w.caches _ h

theorem held_wrapDeltaFlushReq : (w.wrapDeltaFlushReq env).held.Perm (w.next :: w.held) := by
  simp only [held, live, flushed, wrapDeltaFlushReq, tsf_publish, tsf_alloc, flushReq_publish,
    flushReq_alloc, List.flatMap_append, List.flatMap_cons, List.flatMap_nil, List.map_cons,
    List.map_nil, List.cons_append, List.append_assoc, List.singleton_append, List.append_nil]
  exact .trans (.swap _ _ _) (.cons _ (.cons _
    ((List.perm_append_comm.append_left _).trans List.perm_middle)))

theorem Shape.wrapDeltaFlushReq (hs : w.Shape) : (w.wrapDeltaFlushReq env).Shape :=
  hs.of_perm_next held_wrapDeltaFlushReq rfl (by simp [World.wrapDeltaFlushReq])
    (by simp [World.wrapDeltaFlushReq])

theorem cellsIn_wrapDeltaFlushReq (hs : w.Shape) :
    ((w.wrapDeltaFlushReq env).cellsIn (w.wrapDeltaFlushReq env).held).Perm
      (w.cellsIn w.held) :=
  cellsIn_held_of_perm_next held_wrapDeltaFlushReq (by simp [wrapDeltaFlushReq]) fun h hh => by
    simp only [wrapDeltaFlushReq, caches_publish, caches_alloc]
    rw [Function.update_noteq (fun e : h = w.next => hs.next_not_mem (e ▸ hh))]

theorem held_wrapFlushReq : w.wrapFlushReq.held.Perm w.held := by
  simp only [held, live, flushed, wrapFlushReq, tsf_publish, flushReq_publish,
    List.flatMap_append, List.flatMap_cons, List.flatMap_nil, List.map_map, List.append_nil,
    List.cons_append, List.nil_append]
  exact .cons _ (.cons _ (List.perm_append_comm.trans (by simp [Function.comp_def])))

theorem Shape.wrapFlushReq (hs : w.Shape) : w.wrapFlushReq.Shape :=
  hs.of_perm held_wrapFlushReq rfl (by simp [World.wrapFlushReq]) (by simp [World.wrapFlushReq])

theorem cellsIn_wrapFlushReq :
    (w.wrapFlushReq.cellsIn w.wrapFlushReq.held).Perm (w.cellsIn w.held) :=
  cellsIn_held_of_perm held_wrapFlushReq fun _ _ => .refl _

/-- Advancing the watermark touches no cache. -/
theorem Shape.advanceWatermark (hs : w.Shape) : w.advanceWatermark.Shape :=
  ⟨hs.nodup, hs.lt_next, hs.sv_mut, hs.sv_delta⟩

/-- `switch_memcache` on a cache allocated just before. -/
theorem held_switchMemcache (m : MemCache) :
    ((w.alloc m).switchMemcache w.next).held.Perm (w.next :: w.held) := by
  simp only [held, live, flushed, switchMemcache, tsf_publish, tsf_modify, tsf_alloc,
    flushReq_publish, flushReq_modify, flushReq_alloc, List.cons_append, List.append_assoc,
    List.singleton_append]
  exact .cons _ (.trans (.cons _ List.perm_middle) (.swap _ _ _))

theorem Shape.switchMemcache (hs : w.Shape) (m : MemCache) :
    ((w.alloc m).switchMemcache w.next).Shape :=
  hs.of_perm_next (held_switchMemcache m) rfl (by simp [World.switchMemcache])
    (by simp [World.switchMemcache])

theorem cellsIn_switchMemcache (hs : w.Shape) (tfId : UInt32) (maxSize seq : UInt64) :
    let w' := (w.alloc (MemCache.new tfId maxSize seq)).switchMemcache w.next
    (w'.cellsIn w'.held).Perm (w.cellsIn w.held) := by
  have hsv : w.tsf.superVersion.mutCache ≠ w.next := fun e => hs.next_not_mem (e ▸ hs.sv_mut_mem)
  refine cellsIn_held_of_perm_next (held_switchMemcache _) ?_ fun h hh => ?_
  · simp [switchMemcache, Function.update_apply, hsv.symm]
  · simp only [switchMemcache, caches_publish, caches_modify, caches_alloc, tsf_alloc]
    refine (cells_update_switchToImmutable _ _ h).trans ?_
    rw [Function.update_noteq (fun e : h = w.next => hs.next_not_mem (e ▸ hh))]

/-! ### The bookkeeping after an insert -/

/-- `w` has the shape and holds the cells `cs`, up to order. -/
def Holds (cs : List (FieldId × DataType)) (w : World) : Prop :=
  w.Shape ∧ (w.cellsIn w.held).Perm cs

variable {cs : List (FieldId × DataType)}

theorem Shape.holds (hs : w.Shape) : w.Holds (w.cellsIn w.held) := ⟨hs, .refl _⟩

theorem Holds.switchToImmutable (hk : w.Holds cs) : (w.switchToImmutable env).Holds cs :=
  ⟨hk.1.switchToImmutable, (cellsIn_switchToImmutable hk.1).trans hk.2⟩

theorem Holds.wrapDeltaFlushReq (hk : w.Holds cs) : (w.wrapDeltaFlushReq env).Holds cs :=
  ⟨hk.1.wrapDeltaFlushReq, (cellsIn_wrapDeltaFlushReq hk.1).trans hk.2⟩

theorem Holds.flushImmut (hk : w.Holds cs) : w.advanceWatermark.wrapFlushReq.Holds cs :=
  ⟨hk.1.advanceWatermark.wrapFlushReq, cellsIn_wrapFlushReq.trans hk.2⟩

theorem Holds.flushDeltaOnInOrder (hk : w.Holds cs) (ts : I64) :
    (w.flushDeltaOnInOrder env ts).Holds cs := by
  unfold World.flushDeltaOnInOrder
  split
  exacts [hk.wrapDeltaFlushReq, hk]

theorem Holds.rotateIfFull (hk : w.Holds cs) : (w.rotateIfFull env).Holds cs := by
  unfold World.rotateIfFull
  split
  · dsimp only
    split
    exacts [hk.switchToImmutable.flushImmut, hk.switchToImmutable]
  · exact hk

theorem Holds.flushDeltaIfFull (hk : w.Holds cs) : (w.flushDeltaIfFull env).Holds cs := by
  unfold World.flushDeltaIfFull
  split
  exacts [hk.wrapDeltaFlushReq, hk]

/-! ### Ingest -/

theorem Holds.bootstrap (hk : w.Holds cs) (ts : I64) : (w.bootstrap ts).Holds cs :=
  ⟨⟨hk.1.nodup, hk.1.lt_next, hk.1.sv_mut, hk.1.sv_delta⟩, hk.2⟩

/-- An insert through a held handle keeps the shape and adds the decoded cell. -/
theorem Holds.insertRaw (hk : w.Holds cs) {h : CacheRef} (hh : h ∈ w.held) {seq : UInt64}
    {fid : FieldId} {ts : I64} {dtype : ValueType} {val : List UInt8}
    (hw : w.insertRaw env h seq fid ts dtype val = some w') :
    ∃ data, MemCache.decodeRaw env ts dtype val = some data ∧ w'.Holds (cs ++ [(fid, data)]) := by
  rw [insertRaw_eq, Option.map_eq_some'] at hw
  obtain ⟨data, hd, rfl⟩ := hw
  refine ⟨data, hd, hk.1.of_perm (.refl _) rfl hk.1.sv_mut hk.1.sv_delta, ?_⟩
  refine (cellsIn_insert hk.1.nodup hh ?_ fun y hy => Function.update_noteq hy _ _).trans
    (hk.2.append_right _)
  dsimp only
  rw [Function.update_same]
  exact MemCache.cells_insert _ _ _ _ _

theorem Holds.route (hk : w.Holds cs) {fid : FieldId} {val : List UInt8} {dtype : ValueType}
    {seq : UInt64} {ts : I64} (hw : w.route env fid val dtype seq ts = some w') :
    ∃ data, MemCache.decodeRaw env ts dtype val = some data ∧ w'.Holds (cs ++ [(fid, data)]) := by
  unfold World.route at hw
  split at hw
  · refine Holds.insertRaw ?_ ?_ hw
    exacts [⟨⟨hk.1.nodup, hk.1.lt_next, hk.1.sv_mut, hk.1.sv_delta⟩, hk.2⟩, hk.1.sv_mut_mem]
  · exact hk.insertRaw hk.1.sv_delta_mem hw

/-- **One ingest** keeps the shape and adds the decoded cell. -/
theorem Holds.putMutcache (hk : w.Holds cs) {fid : FieldId} {val : List UInt8}
    {dtype : ValueType} {seq : UInt64} {ts : I64}
    (hw : w.putMutcache env fid val dtype seq ts = some w') :
    ∃ data, MemCache.decodeRaw env ts dtype val = some data ∧ w'.Holds (cs ++ [(fid, data)]) := by
  rw [World.putMutcache, Option.map_eq_some'] at hw
  obtain ⟨w1, hr, rfl⟩ := hw
  obtain ⟨data, hd, hk1⟩ := (hk.bootstrap ts).route hr
  exact ⟨data, hd, ((hk1.flushDeltaOnInOrder ts).rotateIfFull).flushDeltaIfFull⟩

theorem Shape.bootstrap (hs : w.Shape) (ts : I64) : (w.bootstrap ts).Shape :=
  ⟨hs.nodup, hs.lt_next, hs.sv_mut, hs.sv_delta⟩

theorem Shape.route (hs : w.Shape) {fid : FieldId} {val : List UInt8} {dtype : ValueType}
    {seq : UInt64} {ts : I64} (hw : w.route env fid val dtype seq ts = some w') : w'.Shape :=
  (hs.holds.route hw).choose_spec.2.1

theorem Shape.flushDeltaOnInOrder (hs : w.Shape) (ts : I64) :
    (w.flushDeltaOnInOrder env ts).Shape :=
  (hs.holds.flushDeltaOnInOrder ts).1

theorem Shape.rotateIfFull (hs : w.Shape) : (w.rotateIfFull env).Shape := hs.holds.rotateIfFull.1

theorem putMutcache_isSome (w : World) {fid : FieldId} {val : List UInt8} {dtype : ValueType}
    (seq : UInt64) (ts : I64) (hdtype : dtype ≠ .unknown) :
    (w.putMutcache env fid val dtype seq ts).isSome := by
  obtain ⟨data, hd⟩ : ∃ data, MemCache.decodeRaw env ts dtype val = some data :=
    Option.isSome_iff_exists.1 (MemCache.decodeRaw_isSome env val hdtype)
  simp only [putMutcache, route, insertRaw_eq, hd, Option.isSome_map']
  split <;> rfl

/-! ### Deletion -/

theorem Shape.deleteCache (hs : w.Shape) (r : TimeRange) : (w.deleteCache r).Shape := by
  rw [deleteCache_eq, foldl_modify_eq]
  exact ⟨hs.nodup, hs.lt_next, hs.sv_mut, hs.sv_delta⟩

theorem Holds.switchMemcache (hk : w.Holds cs) (tfId : UInt32) (maxSize seq : UInt64) :
    ((w.alloc (MemCache.new tfId maxSize seq)).switchMemcache w.next).Holds cs :=
  ⟨hk.1.switchMemcache _, (cellsIn_switchMemcache hk.1 tfId maxSize seq).trans hk.2⟩

end World

/-- The cell a call brings in: the decoded sample of an ingest. -/
def Op.cells (env : Env) : Op → List (FieldId × DataType)
  | .putMutcache fid val dtype _ ts => ((MemCache.decodeRaw env ts dtype val).map (fid, ·)).toList
  | _ => []

namespace World

variable {env : Env} {w w' : World} {cs : List (FieldId × DataType)}

/-! ### Runs -/

/-- Every public call keeps the shape. -/
theorem Shape.step (hs : w.Shape) {op : Op} (hw : w.step env op = some w') : w'.Shape := by
  cases op with
  | putMutcache fid val dtype seq ts => exact (hs.holds.putMutcache hw).choose_spec.2.1
  | switchToImmutable => exact Option.some.inj hw ▸ hs.switchToImmutable
  | switchMemcache tfId maxSize seq => exact Option.some.inj hw ▸ hs.switchMemcache _
  | deleteCache r => exact Option.some.inj hw ▸ hs.deleteCache r

/-- Every run of public calls keeps the shape. -/
theorem Shape.reachable (hs : w.Shape) {ok : Op → Prop} (hrun : Reachable env ok w w') :
    w'.Shape := by
  induction hrun with
  | refl => exact hs
  | tail _ hstep ih =>
    obtain ⟨_, _, h⟩ := hstep
    exact ih.step h

theorem Holds.step (hk : w.Holds cs) {op : Op} (hop : op.isDeleteCache = false)
    (hw : w.step env op = some w') : w'.Holds (cs ++ op.cells env) := by
  cases op with
  | putMutcache fid val dtype seq ts =>
    obtain ⟨data, hd, hk'⟩ := hk.putMutcache hw
    simpa [Op.cells, hd] using hk'
  | switchToImmutable => simpa [Op.cells, ← Option.some.inj hw] using hk.switchToImmutable
  | switchMemcache tfId maxSize seq =>
    simpa [Op.cells, ← Option.some.inj hw] using hk.switchMemcache tfId maxSize seq
  | deleteCache r => cases hop

theorem step_isSome (env : Env) (w : World) {op : Op} (hop : op.Typed) :
    (w.step env op).isSome := by
  cases op with
  | putMutcache fid val dtype seq ts => exact putMutcache_isSome w seq ts hop
  | _ => rfl

theorem Holds.run (hk : w.Holds cs) {ops : List Op}
    (hops : ∀ op ∈ ops, op.isDeleteCache = false ∧ op.Typed) :
    ∃ w', w.run env ops = some w' ∧ w'.Holds (cs ++ ops.flatMap (Op.cells env)) := by
  induction ops generalizing w cs with
  | nil => exact ⟨w, rfl, by simpa using hk⟩
  | cons op ops ih =>
    have hop := hops op (List.mem_cons_self _ _)
    obtain ⟨w1, h1⟩ := Option.isSome_iff_exists.1 (step_isSome env w hop.2)
    obtain ⟨w2, h2, hk2⟩ := ih (hk.step hop.1 h1) fun o ho => hops o (List.mem_cons_of_mem _ ho)
    exact ⟨w2, by simp [run, h1, h2], by simpa using hk2⟩

theorem holds_new (env : Env) (tfId : UInt32) (cache : MemCache) (version : Version) :
    (TseriesFamily.new env tfId cache version).Holds cache.cells := by
  refine ⟨⟨?_, ?_, ?_, ?_⟩, ?_⟩
  · simp [TseriesFamily.new, held, live, flushed, alloc]
  · simp [TseriesFamily.new, held, live, flushed, alloc]
  · simp [TseriesFamily.new, SuperVersion.new]
  · simp [TseriesFamily.new, SuperVersion.new]
  · simp [TseriesFamily.new, held, live, flushed, cellsIn, alloc, Function.update_apply]

/-- **No sample is lost or duplicated**: along any run of ingests, rotations and
`switch_memcache` calls from a new family, every call returns, no handle is held
twice, and the cells held are the initial cache's and one decoded cell per
ingest, up to order. -/
theorem heldCells_run (env : Env) (tfId : UInt32) (cache : MemCache) (version : Version)
    {ops : List Op} (hops : ∀ op ∈ ops, op.isDeleteCache = false ∧ op.Typed) :
    ∃ w, (TseriesFamily.new env tfId cache version).run env ops = some w ∧ w.held.Nodup ∧
      (w.cellsIn w.held).Perm (cache.cells ++ ops.flatMap (Op.cells env)) := by
  obtain ⟨w, hrun, hk⟩ := (holds_new env tfId cache version).run hops
  exact ⟨w, hrun, hk.1.nodup, hk.2⟩

theorem heldCells_run_ingest_rotate_switch :
    (∀ op ∈ [Op.putMutcache 1 [] .unsigned 0 (I64.ofInt 5), .switchToImmutable,
        .switchMemcache 0 64 0], op.isDeleteCache = false ∧ op.Typed) ∧
      ∃ w, (TseriesFamily.new (Env.ofLimits 32 64 2) 0 (MemCache.new 0 64 0)
          ⟨0, I64.ofInt 0⟩).run (Env.ofLimits 32 64 2)
          [.putMutcache 1 [] .unsigned 0 (I64.ofInt 5), .switchToImmutable,
            .switchMemcache 0 64 0] = some w ∧ w.held.Nodup ∧
        (w.cellsIn w.held).Perm ((MemCache.new 0 64 0).cells ++
          [Op.putMutcache 1 [] .unsigned 0 (I64.ofInt 5), .switchToImmutable,
            .switchMemcache 0 64 0].flatMap (Op.cells (Env.ofLimits 32 64 2))) :=
  ⟨by decide, heldCells_run _ _ _ _ (by decide)⟩

/-! ### The published super-version -/

/-- The published super-version names the family's own caches, in their roles,
and carries the family's `super_version_id`. -/
structure Mirrors (w : World) : Prop where
  mutCache : w.tsf.superVersion.mutCache = w.tsf.mutCache
  deltaMutCache : w.tsf.superVersion.deltaMutCache = w.tsf.deltaMutCache
  immutCache : w.tsf.superVersion.immutCache = w.tsf.immutCache
  versionId : w.tsf.superVersion.versionId = w.tsf.superVersionId

/-- Every publication but the one of `switch_memcache` mirrors the family. -/
theorem mirrors_switchToImmutable (w : World) : (w.switchToImmutable env).Mirrors :=
  ⟨rfl, rfl, rfl, rfl⟩

theorem mirrors_wrapDeltaFlushReq (w : World) : (w.wrapDeltaFlushReq env).Mirrors :=
  ⟨rfl, rfl, rfl, rfl⟩

theorem mirrors_flushImmut (w : World) : w.advanceWatermark.wrapFlushReq.Mirrors :=
  ⟨rfl, rfl, rfl, rfl⟩

theorem Mirrors.insertRaw (hm : w.Mirrors) {h : CacheRef} {seq : UInt64} {fid : FieldId}
    {ts : I64} {dtype : ValueType} {val : List UInt8}
    (hw : w.insertRaw env h seq fid ts dtype val = some w') : w'.Mirrors := by
  rw [insertRaw_eq, Option.map_eq_some'] at hw
  obtain ⟨_, _, rfl⟩ := hw
  exact ⟨hm.mutCache, hm.deltaMutCache, hm.immutCache, hm.versionId⟩

theorem Mirrors.bootstrap (hm : w.Mirrors) (ts : I64) : (w.bootstrap ts).Mirrors :=
  ⟨hm.mutCache, hm.deltaMutCache, hm.immutCache, hm.versionId⟩

theorem Mirrors.route (hm : w.Mirrors) {fid : FieldId} {val : List UInt8} {dtype : ValueType}
    {seq : UInt64} {ts : I64} (hw : w.route env fid val dtype seq ts = some w') : w'.Mirrors := by
  unfold World.route at hw
  split at hw <;> refine Mirrors.insertRaw ?_ hw <;>
    exact ⟨hm.mutCache, hm.deltaMutCache, hm.immutCache, hm.versionId⟩

theorem Mirrors.flushDeltaOnInOrder (hm : w.Mirrors) (ts : I64) :
    (w.flushDeltaOnInOrder env ts).Mirrors := by
  unfold World.flushDeltaOnInOrder
  split
  exacts [mirrors_wrapDeltaFlushReq w, hm]

theorem Mirrors.rotateIfFull (hm : w.Mirrors) : (w.rotateIfFull env).Mirrors := by
  unfold World.rotateIfFull
  split
  · dsimp only
    split
    exacts [mirrors_flushImmut _, mirrors_switchToImmutable _]
  · exact hm

theorem Mirrors.flushDeltaIfFull (hm : w.Mirrors) : (w.flushDeltaIfFull env).Mirrors := by
  unfold World.flushDeltaIfFull
  split
  exacts [mirrors_wrapDeltaFlushReq _, hm]

theorem Mirrors.putMutcache (hm : w.Mirrors) {fid : FieldId} {val : List UInt8}
    {dtype : ValueType} {seq : UInt64} {ts : I64}
    (hw : w.putMutcache env fid val dtype seq ts = some w') : w'.Mirrors := by
  rw [World.putMutcache, Option.map_eq_some'] at hw
  obtain ⟨w1, hr, rfl⟩ := hw
  exact (((hm.bootstrap ts).route hr).flushDeltaOnInOrder ts).rotateIfFull.flushDeltaIfFull

theorem Mirrors.step (hm : w.Mirrors) {op : Op} (hop : op.isSwitchMemcache = false)
    (hw : w.step env op = some w') : w'.Mirrors := by
  cases op with
  | putMutcache fid val dtype seq ts => exact hm.putMutcache hw
  | switchToImmutable => exact Option.some.inj hw ▸ mirrors_switchToImmutable w
  | switchMemcache tfId maxSize seq => cases hop
  | deleteCache r =>
    rw [← Option.some.inj hw, deleteCache_eq, foldl_modify_eq]
    exact ⟨hm.mutCache, hm.deltaMutCache, hm.immutCache, hm.versionId⟩

/-- **Without `switch_memcache` the super-version mirrors the family**: in every
state reached from a new family by ingests, rotations and deletions, the
published mutable, delta and immutable handles are the family's, and its
version id is `super_version_id`. -/
theorem mirrors_of_reachable {tfId : UInt32} {cache : MemCache} {version : Version}
    (hw : Reachable env (fun op => op.isSwitchMemcache = false)
      (TseriesFamily.new env tfId cache version) w) : w.Mirrors := by
  induction hw with
  | refl => exact ⟨rfl, rfl, rfl, rfl⟩
  | tail _ hstep ih =>
    obtain ⟨op, hop, hw⟩ := hstep
    exact ih.step hop hw

theorem mirrors_after_rotation :
    Reachable (Env.ofLimits 32 64 2) (fun op => op.isSwitchMemcache = false)
        (TseriesFamily.new (Env.ofLimits 32 64 2) 0 (MemCache.new 0 64 0) ⟨0, I64.ofInt 0⟩)
        ((TseriesFamily.new (Env.ofLimits 32 64 2) 0 (MemCache.new 0 64 0)
          ⟨0, I64.ofInt 0⟩).switchToImmutable (Env.ofLimits 32 64 2)) ∧
      ((TseriesFamily.new (Env.ofLimits 32 64 2) 0 (MemCache.new 0 64 0)
          ⟨0, I64.ofInt 0⟩).switchToImmutable (Env.ofLimits 32 64 2)).Mirrors :=
  have h : Reachable (Env.ofLimits 32 64 2) (fun op => op.isSwitchMemcache = false)
      (TseriesFamily.new (Env.ofLimits 32 64 2) 0 (MemCache.new 0 64 0) ⟨0, I64.ofInt 0⟩)
      ((TseriesFamily.new (Env.ofLimits 32 64 2) 0 (MemCache.new 0 64 0)
        ⟨0, I64.ofInt 0⟩).switchToImmutable (Env.ofLimits 32 64 2)) :=
    .single ⟨.switchToImmutable, rfl, rfl⟩
  ⟨h, mirrors_of_reachable h⟩

/-- **`switch_memcache` publishes the roles swapped**: on a new family, the
published mutable cache becomes the family's delta cache and the published delta
cache the new cache, which the family installs as its mutable one. -/
theorem switchMemcache_swaps (env : Env) (tfId : UInt32) (cache : MemCache) (version : Version)
    (tfId' : UInt32) (maxSize seq : UInt64) :
    ∃ w, (TseriesFamily.new env tfId cache version).step env (.switchMemcache tfId' maxSize seq) =
        some w ∧
      w.tsf.superVersion.mutCache = w.tsf.deltaMutCache ∧
      w.tsf.superVersion.deltaMutCache = w.tsf.mutCache ∧
      w.tsf.superVersion.mutCache ≠ w.tsf.mutCache :=
  ⟨_, rfl, rfl, rfl, by simp [TseriesFamily.new, World.switchMemcache]⟩

end World

end Tskv
