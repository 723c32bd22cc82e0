import Tskv.Block.Termination

/-!
# `merge_blocks` on blocks in any order

The correctness of `merge_blocks` (`mergeBlocks_lastWins`) is about sorted blocks
of one type.  On any other input the loop still computes one thing: a k-way merge
by heads.  Each iteration takes the least timestamp at the head of a pending
list, emits the last head there and drops every head there (`headMerge`).  The
loop refines that merge on any blocks whose two vectors have equal lengths
(`mergeLoop_eq_headMerge`), and `insert` then keeps the cells of the first
block's type (`mergeBlocks_cells_headMerge`).

A head merge loses no timestamp: a cell leaves the pending lists only in a step
that emits a head at its timestamp.  So on blocks of one type whose timestamps
are in any order, `merge_blocks` keeps exactly the timestamps of its input and
invents no row, though its output need not be sorted
(`mergeBlocks_keeps_timestamps`).

## Main definitions

* `DataBlock.headMerge` — the k-way merge by heads of a list of pending lists.

## Main results

* `DataBlock.mergeLoop_eq_headMerge` — the loop refines the head merge.
* `DataBlock.mergeBlocks_cells_headMerge` — **`merge_blocks` on any blocks is a
  head merge.**
* `DataBlock.mergeBlocks_keeps_timestamps` — **on blocks of one type in any
  order, `merge_blocks` keeps exactly their timestamps.**
-/

namespace Tskv

namespace DataBlock

/-! ### The head merge -/

/-- The k-way merge by heads, on `fuel` steps: take the least head timestamp,
emit the last head there, and drop every head there. -/
def headMergeAux : Nat → List (List DataType) → List DataType
  | 0, _ => []
  | fuel + 1, P =>
    match minHead P with
    | none => []
    | some m => (headAt m P).toList ++ headMergeAux fuel (dropMin m P)

/-- The k-way merge by heads of `P`: one step per pending cell is enough. -/
def headMerge (P : List (List DataType)) : List DataType := headMergeAux (total P) P

section HeadMerge

variable {P : List (List DataType)}

theorem minHead_eq_none_of_total (h : total P = 0) : minHead P = none := by
  cases hm : minHead P with
  | none => rfl
  | some m => have := total_dropMin_lt hm; omega

/-- Any fuel at or past the number of pending cells gives the same merge. -/
theorem headMergeAux_congr : ∀ (n k : Nat) (P : List (List DataType)),
    total P ≤ n → total P ≤ k → headMergeAux n P = headMergeAux k P
  | 0, 0, _, _, _ => rfl
  | 0, _ + 1, P, hn, _ | _ + 1, 0, P, _, hn => by
    simp [headMergeAux, minHead_eq_none_of_total (Nat.le_zero.1 hn)]
  | n + 1, k + 1, P, hn, hk => by
    simp only [headMergeAux]
    cases hm : minHead P with
    | none => rfl
    | some m =>
      have := total_dropMin_lt hm
      dsimp only
      rw [headMergeAux_congr n k _ (by omega) (by omega)]

theorem headMergeAux_eq_headMerge {n : Nat} (h : total P ≤ n) : headMergeAux n P = headMerge P :=
  headMergeAux_congr n (total P) P h le_rfl

/-- The head merge of one list is that list, sorted or not. -/
theorem headMerge_single (L : List DataType) : headMerge [L] = L := by
  suffices ∀ n, L.length ≤ n → headMergeAux n [L] = L from this _ (by simp [total])
  induction L with
  | nil => intro n _; cases n <;> rfl
  | cons a L ih =>
    rintro (_ | n) hn
    · cases hn
    · simpa [headMergeAux, minHead, minTs, headAt, dropMin, Option.filter_some] using
        ih n (Nat.le_of_succ_le_succ hn)

/-- Every cell the head merge emits is a pending cell. -/
theorem mem_of_mem_headMergeAux :
    ∀ {n : Nat} {P : List (List DataType)} {c : DataType},
      c ∈ headMergeAux n P → ∃ L ∈ P, c ∈ L
  | 0, _, _, h => nomatch h
  | n + 1, P, c, h => by
    simp only [headMergeAux] at h
    split at h
    · cases h
    · next m _ =>
      rcases List.mem_append.1 h with h | h
      · rcases foldl_or_eq_some (Option.mem_toList.1 h) with hc | ⟨L, hL, hLc⟩
        · cases hc
        · exact ⟨L, hL, List.mem_of_mem_head? (Option.filter_eq_some.1 hLc).1⟩
      · obtain ⟨L', hL', hc⟩ := mem_of_mem_headMergeAux h
        obtain ⟨L, hL, rfl⟩ := List.mem_map.1 hL'
        refine ⟨L, hL, ?_⟩
        split at hc
        exacts [List.mem_of_mem_tail hc, hc]

/-- The head merge emits at most one cell per pending cell. -/
theorem length_headMergeAux_le : ∀ (n : Nat) (P : List (List DataType)),
    (headMergeAux n P).length ≤ total P
  | 0, _ => Nat.zero_le _
  | n + 1, P => by
    simp only [headMergeAux]
    split
    · exact Nat.zero_le _
    · next m hm =>
      have := total_dropMin_lt hm
      have := length_headMergeAux_le n (dropMin m P)
      cases headAt m P <;> simp <;> omega

/-- **The head merge loses no timestamp**: with enough fuel, every timestamp of a
pending cell is the timestamp of an emitted cell. -/
theorem exists_mem_headMergeAux : ∀ {n : Nat} {P : List (List DataType)}, total P ≤ n →
    ∀ L ∈ P, ∀ c ∈ L, ∃ c' ∈ headMergeAux n P, c'.timestamp = c.timestamp
  | 0, P, hn, L, hL, c, hc => by
    have := List.sum_eq_zero_iff.1 (Nat.le_zero.1 hn) L.length (List.mem_map_of_mem _ hL)
    simp_all
  | n + 1, P, hn, L, hL, c, hc => by
    obtain ⟨m, hm⟩ : ∃ m, minHead P = some m := Option.ne_none_iff_exists'.1 fun h => by
      have := (foldl_minTs_eq_none.1 h).2 _ (List.mem_map_of_mem List.head? hL)
      cases L <;> simp_all
    simp only [headMergeAux, hm, List.mem_append, Option.mem_toList]
    by_cases hhead : L.head? = some c ∧ c.timestamp = m
    · obtain ⟨e, he⟩ := headAt_isSome hm
      refine ⟨e, .inl he, ?_⟩
      rcases foldl_or_eq_some he with h | ⟨L', -, hL'e⟩
      · cases h
      · rw [hhead.2]
        simpa using (Option.filter_eq_some.1 hL'e).2
    · have hc' : c ∈ (if L.head?.map DataType.timestamp = some m then L.tail else L) := by
        cases L with
        | nil => cases hc
        | cons a L =>
          rcases List.mem_cons.1 hc with rfl | hc
          · have : c.timestamp ≠ m := fun h => hhead ⟨rfl, h⟩
            simp [this]
          · split <;> simp [hc]
      have hL' : (if L.head?.map DataType.timestamp = some m then L.tail else L) ∈ dropMin m P :=
        List.mem_map_of_mem _ hL
      have := total_dropMin_lt hm
      obtain ⟨c', hc'm, hts⟩ := exists_mem_headMergeAux (n := n) (by omega) _ hL' c hc'
      exact ⟨c', .inr hc'm, hts⟩

end HeadMerge

/-! ### The loop refines the head merge -/

/-- **The loop refines the head merge**: on aligned vectors of well-formed blocks,
in any order and of any types, with more fuel than there are pending cells, the
loop inserts the head merge of the pending cells into `res`. -/
theorem mergeLoop_eq_headMerge {blocks : List DataBlock} (hwf : ∀ b ∈ blocks, b.WellFormed) :
    ∀ (fuel : Nat) {buf : List (Option DataType)} {offsets : List Nat} (res : DataBlock),
      blocks.length = buf.length → buf.length = offsets.length →
      total (pending blocks buf offsets) < fuel →
      mergeLoop fuel blocks buf offsets res =
        some (res.batchInsert (headMergeAux fuel (pending blocks buf offsets)))
  | 0, _, _, _, _, _, hfuel => absurd hfuel (Nat.not_lt_zero _)
  | fuel + 1, buf, offsets, res, hb, ho, hfuel => by
    obtain ⟨buf', offsets', hr, -, hl1, hl2, hstep⟩ := loop_iteration hwf hb ho
    simp only [mergeLoop, hr, Option.some_bind, headMergeAux]
    cases hm : minHead (pending blocks buf offsets) with
    | none => rfl
    | some m =>
      obtain ⟨hdata, hclear, hlen⟩ := hstep m
      have := total_dropMin_lt hm
      dsimp only
      rw [mergeLoop_eq_headMerge hwf fuel _ (hl1.trans hlen.symm) (hlen.trans hl2)
        (by rw [hclear]; omega), hclear, hdata]
      cases headAt m (pending blocks buf offsets) <;> rfl

theorem total_map_cells {blocks : List DataBlock} (hwf : ∀ b ∈ blocks, b.WellFormed) :
    total (blocks.map cells) = (blocks.map len).sum := by
  rw [total, List.map_map]
  exact congrArg List.sum (List.map_congr_left fun b hb => (len_eq_length_cells (hwf b hb)).symm)

/-- `merge_blocks` of two or more well-formed blocks inserts the head merge of
their cells into the empty block of the first one's type. -/
theorem mergeBlocks_eq_headMerge {b b' : DataBlock} {bs : List DataBlock}
    (hwf : ∀ c ∈ b :: b' :: bs, c.WellFormed) :
    mergeBlocks (b :: b' :: bs) = (new b.len b.fieldType).map fun res =>
      res.batchInsert (headMerge ((b :: b' :: bs).map cells)) := by
  obtain ⟨res, hnew, -⟩ := new_eq_some b.fieldType_ne_unknown b.len
  have hstart : pending (b :: b' :: bs) (List.replicate ((b' :: bs).length + 1) none)
      (List.replicate ((b' :: bs).length + 1) 0) = (b :: b' :: bs).map cells := pending_start _
  have htotal := total_map_cells hwf
  simp only [mergeBlocks, hnew, Option.map_some']
  refine (mergeLoop_eq_headMerge hwf _ res (by simp) (by simp) ?_).trans ?_
  · rw [hstart, htotal]
    omega
  · rw [hstart, headMergeAux_eq_headMerge (by omega)]

/-- The head-merge reading of `merge_blocks` on one block or more. -/
theorem mergeBlocks_headMerge {b : DataBlock} {bs : List DataBlock}
    (hwf : ∀ c ∈ b :: bs, c.WellFormed) :
    ∃ res, mergeBlocks (b :: bs) = some res ∧ res.fieldType = b.fieldType ∧ res.WellFormed ∧
      res.cells = (headMerge ((b :: bs).map cells)).filter (·.fieldType = b.fieldType) := by
  match bs, hwf with
  | [], hwf =>
    refine ⟨b, rfl, rfl, hwf b (List.mem_singleton_self b), ?_⟩
    rw [List.map_singleton, headMerge_single, List.filter_eq_self.2]
    exact fun c hc => decide_eq_true (fieldType_of_mem_cells hc)
  | b' :: bs, hwf =>
    obtain ⟨res, hnew, hcells, hft, hres⟩ := new_eq_some b.fieldType_ne_unknown b.len
    obtain ⟨h1, h2, h3⟩ := batchInsert_cells hres (headMerge ((b :: b' :: bs).map cells))
    refine ⟨_, by rw [mergeBlocks_eq_headMerge hwf, hnew]; rfl, h2.trans hft, h3, ?_⟩
    rw [h1, hcells, List.nil_append, hft]

/-- **`merge_blocks` on any blocks is a head merge.**  For a non-empty list of
blocks whose `ts` and `val` have equal lengths, in any order and of any mix of
types, `merge_blocks` returns a block of the first block's type, with equal
lengths, whose rows are the head merge of the blocks' rows less those of another
type. -/
theorem mergeBlocks_cells_headMerge {b : DataBlock} {bs : List DataBlock}
    (hwf : ∀ c ∈ b :: bs, c.ts.length = c.valLen) :
    ∃ res, mergeBlocks (b :: bs) = some res ∧ res.fieldType = b.fieldType ∧
      res.ts.length = res.valLen ∧
      res.cells = (headMerge ((b :: bs).map cells)).filter (·.fieldType = b.fieldType) :=
  mergeBlocks_headMerge hwf

/-- An unsorted `U64` block `[3, 1]` and an `I64` block `[2]`: the `I64` row is
emitted first and dropped. -/
theorem mergeBlocks_cells_headMerge_unsorted_mixed :
    ∃ (b : DataBlock) (bs : List DataBlock), b = u64 [I64.ofInt 3, I64.ofInt 1] [30, 10] ∧
      bs = [i64 [I64.ofInt 2] [I64.ofInt 20]] ∧ (∀ c ∈ b :: bs, c.ts.length = c.valLen) ∧
      ∃ res, mergeBlocks (b :: bs) = some res ∧ res.fieldType = b.fieldType ∧
        res.ts.length = res.valLen ∧
        res.cells = (headMerge ((b :: bs).map cells)).filter (·.fieldType = b.fieldType) :=
  ⟨_, _, rfl, rfl, by decide, mergeBlocks_cells_headMerge (by decide)⟩

/-- **On blocks of one type in any order, `merge_blocks` keeps exactly their
timestamps**: it returns a block of that type, with equal lengths, whose
timestamps are those of the blocks, each of whose rows is a row of a block, and
which has at most as many rows as the blocks together. -/
theorem mergeBlocks_keeps_timestamps {blocks : List DataBlock} {ft : ValueType}
    (hne : blocks ≠ []) (hft : ∀ b ∈ blocks, b.fieldType = ft)
    (hwf : ∀ b ∈ blocks, b.ts.length = b.valLen) :
    ∃ res, mergeBlocks blocks = some res ∧ res.fieldType = ft ∧ res.ts.length = res.valLen ∧
      (∀ t, t ∈ res.ts ↔ ∃ b ∈ blocks, t ∈ b.ts) ∧
      (∀ c ∈ res.cells, ∃ b ∈ blocks, c ∈ b.cells) ∧
      res.len ≤ (blocks.map len).sum := by
  obtain ⟨b, bs, rfl⟩ := List.exists_cons_of_ne_nil hne
  obtain ⟨res, hres, hrft, hrwf, hcells⟩ := mergeBlocks_headMerge hwf
  have hb := hft b (List.mem_cons_self _ _)
  have hP : ∀ L ∈ (b :: bs).map cells, ∀ c ∈ L, c.fieldType = b.fieldType := by
    intro L hL c hc
    obtain ⟨b', hb', rfl⟩ := List.mem_map.1 hL
    rw [fieldType_of_mem_cells hc, hft b' hb', hb]
  have hcells' : res.cells = headMerge ((b :: bs).map cells) := by
    rw [hcells, List.filter_eq_self.2]
    intro c hc
    obtain ⟨L, hL, hcL⟩ := mem_of_mem_headMergeAux hc
    exact decide_eq_true (hP L hL c hcL)
  have hsound : ∀ c ∈ res.cells, ∃ b' ∈ b :: bs, c ∈ b'.cells := by
    intro c hc
    rw [hcells'] at hc
    obtain ⟨L, hL, hcL⟩ := mem_of_mem_headMergeAux hc
    obtain ⟨b', hb', rfl⟩ := List.mem_map.1 hL
    exact ⟨b', hb', hcL⟩
  refine ⟨res, hres, hrft.trans hb, hrwf, fun t => ?_, hsound, ?_⟩
  · rw [ts_eq_map_cells hrwf, List.mem_map]
    constructor
    · rintro ⟨c, hc, rfl⟩
      obtain ⟨b', hb', hcb'⟩ := hsound c hc
      exact ⟨b', hb', by rw [ts_eq_map_cells (hwf b' hb')]; exact List.mem_map_of_mem _ hcb'⟩
    · rintro ⟨b', hb', ht⟩
      rw [ts_eq_map_cells (hwf b' hb'), List.mem_map] at ht
      obtain ⟨c, hc, rfl⟩ := ht
      rw [hcells']
      exact exists_mem_headMergeAux le_rfl _ (List.mem_map_of_mem _ hb') c hc
  · rw [len_eq_length_cells hrwf, hcells', ← total_map_cells hwf]
    exact length_headMergeAux_le _ _

/-- Two unsorted `U64` blocks `[3, 1]` and `[2, 3]`: the rows at `3` meet as heads
and the second block's wins. -/
theorem mergeBlocks_keeps_timestamps_unsorted :
    ∃ blocks : List DataBlock, blocks = [u64 [I64.ofInt 3, I64.ofInt 1] [30, 10],
        u64 [I64.ofInt 2, I64.ofInt 3] [20, 31]] ∧
      (blocks ≠ [] ∧ (∀ b ∈ blocks, b.fieldType = .unsigned) ∧
        ∀ b ∈ blocks, b.ts.length = b.valLen) ∧
      ∃ res, mergeBlocks blocks = some res ∧ res.fieldType = .unsigned ∧
        res.ts.length = res.valLen ∧ (∀ t, t ∈ res.ts ↔ ∃ b ∈ blocks, t ∈ b.ts) ∧
        (∀ c ∈ res.cells, ∃ b ∈ blocks, c ∈ b.cells) ∧
        res.len ≤ (blocks.map len).sum :=
  ⟨_, rfl, ⟨by decide, by decide, by decide⟩,
    mergeBlocks_keeps_timestamps (by decide) (by decide) (by decide)⟩

/-- The output of that merge is not sorted. -/
example : mergeBlocks [u64 [I64.ofInt 3, I64.ofInt 1] [30, 10],
    u64 [I64.ofInt 2, I64.ofInt 3] [20, 31]] =
      some (u64 [I64.ofInt 2, I64.ofInt 3, I64.ofInt 1] [20, 31, 10]) := by decide

end DataBlock

end Tskv
