import Tskv.Block.Basic

/-!
# The n-way merge of data blocks

`DataBlock::merge_blocks` merges blocks by repeatedly taking the least buffered
timestamp; among the buffered cells at that timestamp the last block's wins, and
every one of them is consumed.  The specification is `IsLastWins`: strictly
increasing timestamps, and exactly the cells that are the last at their timestamp
over the blocks in list order.

The proof runs the loop against an abstract one.  The state of the loop is the
list of *pending* cells of each block: the buffered cell, if any, followed by
the block's cells from its offset on.  `rebuild_vec` moves no cell, it only
buffers the head of each pending list; taking the minimum then drops the heads at
the least timestamp (`dropMin`) and emits the last of them (`headAt`).  On
strictly increasing pending lists that head is the last cell at that timestamp
(`headAt_eq_lastAt`), and dropping the heads changes the last cell at no other
timestamp (`lastAt_dropMin_of_ne`).

`DataBlock::append` was meant to be the two-block case of this merge, but it
never merges: its `is_empty` test is inverted and the merged block is dropped.

## Main results

* `DataBlock.loop_iteration` — one iteration of the loop on the pending lists.
* `DataBlock.mergeLoop_spec` — the loop computes the last-writer-wins merge of
  the pending cells, given more fuel than there are pending cells.
* `DataBlock.mergeBlocks_lastWins` — **`merge_blocks` on sorted blocks of one type.**
* `DataBlock.append_keeps_self` — `append` leaves a block as it was.
-/

namespace Tskv

namespace DataBlock

/-! ### Last writer wins -/

/-- Timestamps strictly increase along the list. -/
def StrictTs (L : List DataType) : Prop := L.Pairwise fun a b => a.timestamp < b.timestamp

/-- The cell at timestamp `t` in the last of the lists that has one. -/
def lastAt (P : List (List DataType)) (t : I64) : Option DataType :=
  P.foldl (fun acc L => (L.find? (·.timestamp = t)).or acc) none

/-- `out` is the last-writer-wins merge of `P`. -/
def IsLastWins (out : List DataType) (P : List (List DataType)) : Prop :=
  StrictTs out ∧ ∀ c, c ∈ out ↔ lastAt P c.timestamp = some c

section FoldOr

variable {α β : Type} {f g : α → Option β}

theorem foldl_or_eq_none {l : List α} {a : Option β} :
    l.foldl (fun acc x => (f x).or acc) a = none ↔ a = none ∧ ∀ x ∈ l, f x = none := by
  induction l generalizing a with
  | nil => simp
  | cons x l ih =>
    rw [List.foldl_cons, ih, Option.or_eq_none]
    simp only [List.mem_cons, forall_eq_or_imp]
    tauto

theorem foldl_or_eq_some {l : List α} {a : Option β} {c : β}
    (h : l.foldl (fun acc x => (f x).or acc) a = some c) : a = some c ∨ ∃ x ∈ l, f x = some c := by
  induction l generalizing a with
  | nil => exact .inl h
  | cons x l ih =>
    rcases ih h with h | ⟨y, hy, hfy⟩
    · cases hfx : f x with
      | none => simp only [hfx, Option.none_or] at h; exact .inl h
      | some b =>
        simp only [hfx, Option.or_some] at h
        exact .inr ⟨x, List.mem_cons_self _ _, h ▸ hfx⟩
    · exact .inr ⟨y, List.mem_cons_of_mem _ hy, hfy⟩

theorem foldl_or_congr {l : List α} (h : ∀ x ∈ l, f x = g x) (a : Option β) :
    l.foldl (fun acc x => (f x).or acc) a = l.foldl (fun acc x => (g x).or acc) a := by
  induction l generalizing a with
  | nil => rfl
  | cons x l ih =>
    simp only [List.foldl_cons, h x (List.mem_cons_self _ _)]
    exact ih (fun y hy => h y (List.mem_cons_of_mem _ hy)) _

end FoldOr

theorem lastAt_eq_none {P : List (List DataType)} {t : I64} :
    lastAt P t = none ↔ ∀ L ∈ P, ∀ c ∈ L, c.timestamp ≠ t := by
  simp [lastAt, foldl_or_eq_none, List.find?_eq_none]

theorem lastAt_eq_some {P : List (List DataType)} {t : I64} {c : DataType}
    (h : lastAt P t = some c) : c.timestamp = t ∧ ∃ L ∈ P, c ∈ L := by
  rcases foldl_or_eq_some h with h | ⟨L, hL, hc⟩
  · cases h
  · exact ⟨by simpa using List.find?_some hc, L, hL, List.mem_of_find?_eq_some hc⟩

/-- A timestamp some list holds has a last cell. -/
theorem exists_lastAt {P : List (List DataType)} {t : I64} :
    (∃ c, lastAt P t = some c) ↔ ∃ L ∈ P, ∃ c ∈ L, c.timestamp = t := by
  constructor
  · rintro ⟨c, hc⟩
    obtain ⟨rfl, L, hL, hcL⟩ := lastAt_eq_some hc
    exact ⟨L, hL, c, hcL, rfl⟩
  · rintro ⟨L, hL, c, hcL, rfl⟩
    cases h : lastAt P c.timestamp with
    | some c' => exact ⟨c', rfl⟩
    | none => exact absurd rfl (lastAt_eq_none.1 h L hL c hcL)

/-! ### One step of the abstract merge -/

/-- The least timestamp at the head of a pending list, as `rebuild_vec` folds it. -/
def minHead (P : List (List DataType)) : Option I64 := (P.map List.head?).foldl minTs none

/-- Drop every head at timestamp `m`. -/
def dropMin (m : I64) (P : List (List DataType)) : List (List DataType) :=
  P.map fun L => if L.head?.map DataType.timestamp = some m then L.tail else L

/-- The last head at timestamp `m`. -/
def headAt (m : I64) (P : List (List DataType)) : Option DataType :=
  P.foldl (fun acc L => (L.head?.filter (·.timestamp = m)).or acc) none

/-- The number of pending cells. -/
def total (P : List (List DataType)) : Nat := (P.map List.length).sum

@[simp] theorem minTs_none (acc : Option I64) : minTs acc none = acc := rfl

/-- One step of the running minimum over a cell: the new minimum is the cell's
timestamp or the old minimum, and is at or below both. -/
theorem minTs_some_spec (acc : Option I64) (c : DataType) :
    ∃ x, minTs acc (some c) = some x ∧ (x = c.timestamp ∨ acc = some x) ∧
      x ≤ c.timestamp ∧ ∀ a, acc = some a → x ≤ a := by
  cases acc with
  | none => exact ⟨_, rfl, .inl rfl, I64.le_refl _, fun _ h => nomatch h⟩
  | some a =>
    by_cases h : c.timestamp < a
    · refine ⟨c.timestamp, by simp [minTs, h], .inl rfl, I64.le_refl _, fun _ e => ?_⟩
      cases e
      simp only [I64.lt_def, I64.le_def] at h ⊢
      omega
    · refine ⟨a, by simp [minTs, h], .inr rfl, ?_, fun _ e => by cases e; exact I64.le_refl _⟩
      simp only [I64.lt_def, I64.le_def] at h ⊢
      omega

theorem foldl_minTs_eq_none {l : List (Option DataType)} {acc : Option I64} :
    l.foldl minTs acc = none ↔ acc = none ∧ ∀ d ∈ l, d = none := by
  induction l generalizing acc with
  | nil => simp
  | cons d l ih =>
    rw [List.foldl_cons, ih]
    cases d with
    | none => simp
    | some c =>
      obtain ⟨x, hx, -⟩ := minTs_some_spec acc c
      simp [hx]

theorem foldl_minTs_eq_some {l : List (Option DataType)} {acc : Option I64} {m : I64}
    (h : l.foldl minTs acc = some m) :
    (acc = some m ∨ ∃ c, some c ∈ l ∧ c.timestamp = m) ∧ (∀ a, acc = some a → m ≤ a) ∧
      ∀ c, some c ∈ l → m ≤ c.timestamp := by
  induction l generalizing acc with
  | nil => exact ⟨.inl h, fun a ha => by simp_all, by simp⟩
  | cons d l ih =>
    obtain ⟨h1, h2, h3⟩ := ih h
    cases d with
    | none => simpa using ⟨h1, h2, h3⟩
    | some c =>
      obtain ⟨x, hx, hxc, hle_c, hle_a⟩ := minTs_some_spec acc c
      rw [hx] at h1 h2
      have hmx : m ≤ x := h2 x rfl
      refine ⟨?_, fun a ha => I64.le_trans hmx (hle_a a ha), fun c' hc' => ?_⟩
      · rcases h1 with h1 | ⟨c', hc', rfl⟩
        · cases Option.some.inj h1
          rcases hxc with rfl | hxa
          exacts [.inr ⟨c, List.mem_cons_self _ _, rfl⟩, .inl hxa]
        · exact .inr ⟨c', List.mem_cons_of_mem _ hc', rfl⟩
      · rcases List.mem_cons.1 hc' with hc' | hc'
        · cases hc'
          exact I64.le_trans hmx hle_c
        · exact h3 c' hc'

/-- Every pending list is strictly increasing. -/
def Sorted (P : List (List DataType)) : Prop := ∀ L ∈ P, StrictTs L

section Step

variable {P : List (List DataType)} {m : I64}

/-- Every pending cell is at or after the least head. -/
theorem le_of_minHead (hP : Sorted P) (hm : minHead P = some m) :
    ∀ L ∈ P, ∀ c ∈ L, m ≤ c.timestamp := by
  have hle := (foldl_minTs_eq_some hm).2.2
  intro L hL c hc
  cases L with
  | nil => cases hc
  | cons a L =>
    have ha : m ≤ a.timestamp := hle a (List.mem_map.2 ⟨_, hL, rfl⟩)
    rcases List.mem_cons.1 hc with rfl | hc
    · exact ha
    · have := List.rel_of_pairwise_cons (hP _ hL) hc
      simp only [I64.le_def, I64.lt_def] at ha this ⊢
      omega

theorem exists_head_of_minHead (hm : minHead P = some m) :
    ∃ L ∈ P, ∃ c, L.head? = some c ∧ c.timestamp = m := by
  rcases (foldl_minTs_eq_some hm).1 with h | ⟨c, hc, rfl⟩
  · cases h
  · obtain ⟨L, hL, hLc⟩ := List.mem_map.1 hc
    exact ⟨L, hL, c, hLc, rfl⟩

/-- On a strictly increasing list whose cells are at or after `m`, the cell at `m`
can only be the head. -/
theorem find?_eq_head?_filter {L : List DataType} (hL : StrictTs L)
    (hm : ∀ c ∈ L, m ≤ c.timestamp) :
    L.find? (·.timestamp = m) = L.head?.filter (·.timestamp = m) := by
  cases L with
  | nil => rfl
  | cons a L =>
    by_cases ha : a.timestamp = m
    · simp [ha, Option.filter_some]
    · rw [List.find?_cons_of_neg _ (by simpa using ha), List.find?_eq_none.2]
      · simp [ha, Option.filter_some]
      · intro c hc hcm
        have := List.rel_of_pairwise_cons hL hc
        have := hm a (List.mem_cons_self _ _)
        simp only [decide_eq_true_eq] at hcm
        simp only [I64.le_def, I64.lt_def, I64.ext_iff] at *
        omega

theorem headAt_eq_lastAt (hP : Sorted P) (hm : minHead P = some m) :
    headAt m P = lastAt P m :=
  (foldl_or_congr (fun L hL =>
    (find?_eq_head?_filter (hP L hL) (le_of_minHead hP hm L hL)).symm) none)

/-- Some head is at the least timestamp, so the last head there exists. -/
theorem headAt_isSome (hm : minHead P = some m) : ∃ e, headAt m P = some e := by
  obtain ⟨L, hL, c, hc, rfl⟩ := exists_head_of_minHead hm
  cases h : headAt c.timestamp P with
  | some e => exact ⟨e, rfl⟩
  | none =>
    have := (foldl_or_eq_none.1 h).2 L hL
    simp [hc, Option.filter_some] at this

/-- After the drop, every pending cell is strictly after `m`. -/
theorem lt_of_mem_dropMin (hP : Sorted P) (hm : minHead P = some m) :
    ∀ L ∈ dropMin m P, ∀ c ∈ L, m < c.timestamp := by
  simp only [dropMin, List.mem_map]
  rintro _ ⟨L, hL, rfl⟩ c hc
  have hle := le_of_minHead hP hm L hL
  cases L with
  | nil => simp at hc
  | cons a L =>
    by_cases ha : a.timestamp = m
    · simp only [List.head?_cons, Option.map_some', ha, ↓reduceIte, List.tail_cons] at hc
      have := List.rel_of_pairwise_cons (hP _ hL) hc
      rwa [ha] at this
    · simp only [List.head?_cons, Option.map_some', Option.some.injEq, ha, ↓reduceIte] at hc
      have := hle c hc
      rcases List.mem_cons.1 hc with rfl | hc
      · simp only [I64.le_def, I64.lt_def, I64.ext_iff] at *; omega
      · have := List.rel_of_pairwise_cons (hP _ hL) hc
        have := hle a (List.mem_cons_self _ _)
        simp only [I64.le_def, I64.lt_def] at *; omega

theorem lastAt_dropMin_self (hP : Sorted P) (hm : minHead P = some m) :
    lastAt (dropMin m P) m = none :=
  lastAt_eq_none.2 fun L hL c hc hcm => by
    have := lt_of_mem_dropMin hP hm L hL c hc
    rw [hcm, I64.lt_def] at this
    exact lt_irrefl _ this

/-- Dropping the heads at `m` changes the last cell at no other timestamp. -/
theorem lastAt_dropMin_of_ne {t : I64} (ht : t ≠ m) : lastAt (dropMin m P) t = lastAt P t := by
  simp only [lastAt, dropMin, List.foldl_map]
  refine foldl_or_congr (fun L _ => ?_) none
  split
  · next h =>
    cases L with
    | nil => cases h
    | cons a L =>
      simp only [List.head?_cons, Option.map_some', Option.some.injEq] at h
      simp [List.find?_cons, h, Ne.symm ht]
  · rfl

theorem sorted_dropMin (hP : Sorted P) : Sorted (dropMin m P) := by
  simp only [Sorted, dropMin, List.mem_map]
  rintro _ ⟨L, hL, rfl⟩
  split
  · exact (hP L hL).sublist (List.tail_sublist L)
  · exact hP L hL

theorem total_dropMin_lt (hm : minHead P = some m) : total (dropMin m P) < total P := by
  obtain ⟨L, hL, c, hc, rfl⟩ := exists_head_of_minHead hm
  simp only [total, dropMin, List.map_map]
  apply List.sum_lt_sum
  · intro L' _
    simp only [Function.comp_apply]
    split <;> simp
  · refine ⟨L, hL, ?_⟩
    cases L with
    | nil => cases hc
    | cons a L => simp_all

/-- **One step**: the last head at the least timestamp, followed by the merge of
what is left, is the merge of the pending lists. -/
theorem isLastWins_cons (hP : Sorted P) (hm : minHead P = some m) {e : DataType}
    (he : headAt m P = some e) {out : List DataType} (hout : IsLastWins out (dropMin m P)) :
    IsLastWins (e :: out) P := by
  rw [headAt_eq_lastAt hP hm] at he
  have hem : e.timestamp = m := (lastAt_eq_some he).1
  refine ⟨List.pairwise_cons.2 ⟨fun c hc => ?_, hout.1⟩, fun c => ?_⟩
  · obtain ⟨-, L, hL, hcL⟩ := lastAt_eq_some ((hout.2 c).1 hc)
    exact hem ▸ lt_of_mem_dropMin hP hm L hL c hcL
  · rw [List.mem_cons, hout.2 c]
    by_cases hc : c.timestamp = m
    · rw [hc, lastAt_dropMin_self hP hm, he]
      simp [eq_comm]
    · rw [lastAt_dropMin_of_ne hc]
      exact ⟨fun h => h.resolve_left fun h' => hc (h' ▸ hem), .inr⟩

theorem isLastWins_nil (hm : minHead P = none) : IsLastWins [] P := by
  refine ⟨List.Pairwise.nil, fun c => ⟨nofun, fun h => ?_⟩⟩
  obtain ⟨-, L, hL, hc⟩ := lastAt_eq_some h
  have := (foldl_minTs_eq_none.1 hm).2 L.head? (List.mem_map.2 ⟨L, hL, rfl⟩)
  cases L with
  | nil => cases hc
  | cons => cases this

end Step

/-! ### The loop against the abstract merge -/

/-- The pending cells of each block: its buffered cell, then its cells from its
offset on. -/
def pending : List DataBlock → List (Option DataType) → List Nat → List (List DataType)
  | b :: bs, d :: ds, o :: os => (d.toList ++ b.cells.drop o) :: pending bs ds os
  | _, _, _ => []

theorem toList_getElem?_append_drop (l : List DataType) (o : Nat) :
    l[o]?.toList ++ l.drop (o + 1) = l.drop o := by
  by_cases h : o < l.length
  · rw [List.getElem?_eq_getElem h, List.drop_eq_getElem_cons h]
    rfl
  · rw [List.getElem?_eq_none (not_lt.1 h), List.drop_eq_nil_of_le (by omega),
      List.drop_eq_nil_of_le (not_lt.1 h)]
    rfl

/-- `rebuild_vec` moves no cell: it buffers the head of every pending list and
folds the minimum over the buffer. -/
theorem rebuildVec_spec {blocks : List DataBlock} (hwf : ∀ b ∈ blocks, b.WellFormed) :
    ∀ {buf : List (Option DataType)} {offsets : List Nat} (acc : Option I64),
      blocks.length = buf.length → buf.length = offsets.length →
      ∃ buf' offsets', rebuildVec blocks buf offsets acc = some (buf', offsets', buf'.foldl minTs acc) ∧
        buf' = (pending blocks buf offsets).map List.head? ∧
        pending blocks buf' offsets' = pending blocks buf offsets ∧
        blocks.length = buf'.length ∧ buf'.length = offsets'.length := by
  induction blocks with
  | nil =>
    intro buf offsets acc hb ho
    obtain rfl := List.eq_nil_of_length_eq_zero hb.symm
    obtain rfl := List.eq_nil_of_length_eq_zero ho.symm
    exact ⟨[], [], rfl, rfl, rfl, rfl, rfl⟩
  | cons b bs ih =>
    intro buf offsets acc hb ho
    match buf, offsets, hb, ho with
    | d :: ds, o :: os, hb, ho =>
      have hrefill : refill b d o =
          some (if d.isNone then b.cells[o]? else d, if d.isNone then o + 1 else o) := by
        cases d <;> simp [refill, get_eq (hwf b (List.mem_cons_self _ _))]
      obtain ⟨ds', os', hr, hh, hp, hl1, hl2⟩ :=
        ih (fun b' hb' => hwf b' (List.mem_cons_of_mem _ hb'))
          (minTs acc (if d.isNone then b.cells[o]? else d)) (Nat.succ.inj hb) (Nat.succ.inj ho)
      refine ⟨(if d.isNone then b.cells[o]? else d) :: ds', (if d.isNone then o + 1 else o) :: os',
        ?_, ?_, ?_, by simp [hl1], by simp [hl2]⟩
      · simp only [rebuildVec, hrefill, Option.some_bind, hr, Option.map_some', List.foldl_cons]
      · cases d <;> simp [pending, hh, List.head?_drop]
      · cases d <;> simp [pending, hp, toList_getElem?_append_drop]

/-- Taking the minimum clears the slots at `m` and keeps the last of them. -/
theorem takeMin_eq (m : I64) (buf : List (Option DataType)) (data : Option DataType) :
    takeMin m buf data = (buf.map fun d => if d.map DataType.timestamp = some m then none else d,
      buf.foldl (fun acc d => (d.filter (·.timestamp = m)).or acc) data) := by
  induction buf generalizing data with
  | nil => rfl
  | cons d buf ih =>
    cases d with
    | none => simp [takeMin, ih]
    | some it =>
      by_cases h : it.timestamp = m
      · simp [takeMin, ih, h, Option.filter_some]
      · simp [takeMin, ih, h, Option.filter_some]

/-- Clearing the buffered heads at `m` drops them from the pending lists. -/
theorem pending_clear (m : I64) :
    ∀ {blocks : List DataBlock} {buf : List (Option DataType)} {offsets : List Nat},
      buf = (pending blocks buf offsets).map List.head? →
      pending blocks (buf.map fun d => if d.map DataType.timestamp = some m then none else d)
        offsets = dropMin m (pending blocks buf offsets)
  | b :: bs, d :: ds, o :: os, h => by
    simp only [pending, dropMin, List.map_cons, List.cons.injEq] at h ⊢
    refine ⟨?_, pending_clear m h.2⟩
    obtain ⟨h1, -⟩ := h
    cases d with
    | none =>
      simp only [Option.toList_none, List.nil_append] at h1 ⊢
      simp [List.head?_eq_none_iff.1 h1.symm]
    | some c => by_cases hc : c.timestamp = m <;> simp [hc]
  | [], _, _, _ => by simp [pending, dropMin]
  | _ :: _, [], _, _ => by simp [pending, dropMin]
  | _ :: _, _ :: _, [], h => by simp [pending] at h

/-- **One iteration of the loop**, on aligned vectors of well-formed blocks:
`rebuild_vec` returns the least head of the pending lists and moves no cell;
taking a minimum `m` then emits the last head at `m` and drops every head at `m`. -/
theorem loop_iteration {blocks : List DataBlock} {buf : List (Option DataType)}
    {offsets : List Nat} (hwf : ∀ b ∈ blocks, b.WellFormed) (hb : blocks.length = buf.length)
    (ho : buf.length = offsets.length) :
    ∃ buf' offsets', rebuildVec blocks buf offsets none =
        some (buf', offsets', minHead (pending blocks buf offsets)) ∧
      pending blocks buf' offsets' = pending blocks buf offsets ∧
      blocks.length = buf'.length ∧ buf'.length = offsets'.length ∧
      ∀ m, (takeMin m buf' none).2 = headAt m (pending blocks buf offsets) ∧
        pending blocks (takeMin m buf' none).1 offsets' = dropMin m (pending blocks buf offsets) ∧
        (takeMin m buf' none).1.length = buf'.length := by
  obtain ⟨buf', offsets', hr, hh, hp, hl1, hl2⟩ := rebuildVec_spec hwf none hb ho
  refine ⟨buf', offsets', ?_, hp, hl1, hl2, fun m => ⟨?_, ?_, by simp [takeMin_eq]⟩⟩
  · rw [hr, hh]
    rfl
  · rw [takeMin_eq, hh, List.foldl_map]
    rfl
  · rw [takeMin_eq, ← hp]
    exact pending_clear m (hh.trans (by rw [hp]))

/-- What the merge loop keeps: the three vectors line up, and the pending lists
are strictly increasing and of type `ft`. -/
structure LoopInv (blocks : List DataBlock) (ft : ValueType) (buf : List (Option DataType))
    (offsets : List Nat) : Prop where
  wf : ∀ b ∈ blocks, b.WellFormed
  len_buf : blocks.length = buf.length
  len_offsets : buf.length = offsets.length
  sorted : Sorted (pending blocks buf offsets)
  typed : ∀ L ∈ pending blocks buf offsets, ∀ c ∈ L, c.fieldType = ft

theorem typed_dropMin {P : List (List DataType)} {ft : ValueType} (m : I64)
    (h : ∀ L ∈ P, ∀ c ∈ L, c.fieldType = ft) : ∀ L ∈ dropMin m P, ∀ c ∈ L, c.fieldType = ft := by
  simp only [dropMin, List.mem_map]
  rintro _ ⟨L, hL, rfl⟩ c hc
  split at hc
  · exact h L hL c (List.mem_of_mem_tail hc)
  · exact h L hL c hc

/-- **The merge loop computes the last-writer-wins merge** of the pending cells
into `res`, given more fuel than there are pending cells. -/
theorem mergeLoop_spec {blocks : List DataBlock} {ft : ValueType} :
    ∀ (fuel : Nat) {buf : List (Option DataType)} {offsets : List Nat} {res : DataBlock},
      LoopInv blocks ft buf offsets → res.WellFormed → res.fieldType = ft →
      total (pending blocks buf offsets) < fuel →
      ∃ res' out, mergeLoop fuel blocks buf offsets res = some res' ∧
        res'.cells = res.cells ++ out ∧ IsLastWins out (pending blocks buf offsets) ∧
        res'.WellFormed ∧ res'.fieldType = ft
  | 0, _, _, _, _, _, _, hfuel => absurd hfuel (Nat.not_lt_zero _)
  | fuel + 1, buf, offsets, res, inv, hres, hft, hfuel => by
    obtain ⟨buf', offsets', hr, -, hl1, hl2, hstep⟩ :=
      loop_iteration inv.wf inv.len_buf inv.len_offsets
    simp only [mergeLoop, hr, Option.some_bind]
    cases hm : minHead (pending blocks buf offsets) with
    | none => exact ⟨res, [], rfl, by simp, isLastWins_nil hm, hres, hft⟩
    | some m =>
      obtain ⟨hdata, hclear, hlen⟩ := hstep m
      obtain ⟨e, he⟩ := headAt_isSome hm
      obtain ⟨L, hL, heL⟩ := (lastAt_eq_some ((headAt_eq_lastAt inv.sorted hm).symm.trans he)).2
      obtain ⟨hi1, hi2, hi3⟩ := insert_of_fieldType_eq hres ((inv.typed L hL e heL).trans hft.symm)
      have inv' : LoopInv blocks ft (takeMin m buf' none).1 offsets' :=
        ⟨inv.wf, hl1.trans hlen.symm, hlen.trans hl2, hclear ▸ sorted_dropMin inv.sorted,
          hclear ▸ typed_dropMin m inv.typed⟩
      obtain ⟨res', out, hrun, hcells, hwins, hwf', hft'⟩ := mergeLoop_spec fuel inv' hi3
        (hi2.trans hft) (by rw [hclear]; have := total_dropMin_lt hm; omega)
      refine ⟨res', e :: out, ?_, ?_, isLastWins_cons inv.sorted hm he (hclear ▸ hwins), hwf', hft'⟩
      · simpa [hdata, he] using hrun
      · simp [hcells, hi1]

/-! ### `merge_blocks` -/

theorem pending_start :
    ∀ blocks : List DataBlock, pending blocks (List.replicate blocks.length none)
      (List.replicate blocks.length 0) = blocks.map cells
  | [] => rfl
  | b :: bs => by simp [pending, List.replicate_succ, pending_start bs]

/-- At the start every row of every block is pending. -/
theorem total_start {blocks : List DataBlock} (hwf : ∀ b ∈ blocks, b.WellFormed) :
    total (pending blocks (List.replicate blocks.length none) (List.replicate blocks.length 0)) =
      (blocks.map fun b => b.ts.length).sum := by
  rw [pending_start, total, List.map_map]
  exact congrArg List.sum (List.map_congr_left fun b hb => (len_eq_length_cells (hwf b hb)).symm)

theorem strictTs_cells {b : DataBlock} (hb : b.WellFormed) (hs : b.ts.Sorted (· < ·)) :
    StrictTs b.cells := by
  rw [ts_eq_map_cells hb, List.Sorted, List.pairwise_map] at hs
  exact hs

/-- A strictly increasing list is its own last-writer-wins merge. -/
theorem isLastWins_single {L : List DataType} (hL : StrictTs L) : IsLastWins L [L] := by
  refine ⟨hL, fun c => ?_⟩
  simp only [lastAt, List.foldl_cons, List.foldl_nil, Option.or_none]
  constructor
  · intro hc
    induction L with
    | nil => cases hc
    | cons a L ih =>
      rcases List.mem_cons.1 hc with rfl | hc
      · simp
      · have := List.rel_of_pairwise_cons hL hc
        rw [List.find?_cons_of_neg]
        · exact ih (List.Pairwise.of_cons hL) hc
        · simp only [decide_eq_true_eq, I64.ext_iff]
          simp only [I64.lt_def] at this
          omega
  · intro hc
    exact List.mem_of_find?_eq_some hc

/-- The merge of a non-empty list of sorted blocks of type `ft`, as a
last-writer-wins merge of their cells. -/
theorem mergeBlocks_isLastWins {blocks : List DataBlock} {ft : ValueType} (hne : blocks ≠ [])
    (hft : ∀ b ∈ blocks, b.fieldType = ft) (hwf : ∀ b ∈ blocks, b.WellFormed)
    (hsorted : ∀ b ∈ blocks, b.ts.Sorted (· < ·)) :
    ∃ res, mergeBlocks blocks = some res ∧ res.fieldType = ft ∧ res.WellFormed ∧
      IsLastWins res.cells (blocks.map cells) := by
  match blocks, hne with
  | [b], _ =>
    have hb := List.mem_singleton_self b
    exact ⟨b, rfl, hft b hb, hwf b hb, isLastWins_single (strictTs_cells (hwf b hb) (hsorted b hb))⟩
  | b :: b' :: bs, _ =>
    have hb := List.mem_cons_self b (b' :: bs)
    have hstart : pending (b :: b' :: bs) (List.replicate ((b' :: bs).length + 1) none)
        (List.replicate ((b' :: bs).length + 1) 0) = (b :: b' :: bs).map cells :=
      pending_start _
    obtain ⟨res, hnew, hcells, hrft, hrwf⟩ :=
      new_eq_some b.fieldType_ne_unknown b.len
    have inv : LoopInv (b :: b' :: bs) ft (List.replicate ((b' :: bs).length + 1) none)
        (List.replicate ((b' :: bs).length + 1) 0) := by
      refine ⟨hwf, by simp, by simp, ?_, ?_⟩ <;> rw [hstart] <;> intro L hL <;>
        obtain ⟨b'', hb'', rfl⟩ := List.mem_map.1 hL
      · exact strictTs_cells (hwf b'' hb'') (hsorted b'' hb'')
      · exact fun c hc => (fieldType_of_mem_cells hc).trans (hft b'' hb'')
    obtain ⟨res', out, hrun, hc', hwins, hwf', hft'⟩ :=
      mergeLoop_spec ((b :: b' :: bs).map len).sum.succ inv hrwf (hrft.trans (hft b hb))
        ((total_start hwf).trans_lt (Nat.lt_succ_self _))
    refine ⟨res', ?_, hft', hwf', ?_⟩
    · simp only [mergeBlocks, hnew, Option.some_bind]
      exact hrun
    · rw [hc', hcells, List.nil_append, ← hstart]
      exact hwins

/-- **`merge_blocks` on sorted blocks of one type** returns a block of that type
whose timestamps strictly increase, are the union of the blocks' timestamps, and
carry at each timestamp the cell of the last block that has it. -/
theorem mergeBlocks_lastWins {blocks : List DataBlock} {ft : ValueType} (hne : blocks ≠ [])
    (hft : ∀ b ∈ blocks, b.fieldType = ft) (hsorted : ∀ b ∈ blocks, b.ts.Sorted (· < ·))
    (hwf : ∀ b ∈ blocks, b.ts.length = b.valLen) :
    ∃ res, mergeBlocks blocks = some res ∧ res.fieldType = ft ∧ res.ts.Sorted (· < ·) ∧
      (∀ t, t ∈ res.ts ↔ ∃ b ∈ blocks, t ∈ b.ts) ∧ res.ts.length = res.valLen ∧
      ∀ c ∈ res.cells, lastAt (blocks.map cells) c.timestamp = some c := by
  obtain ⟨res, hres, hft', hwf', hwins⟩ := mergeBlocks_isLastWins hne hft hwf hsorted
  refine ⟨res, hres, hft', ?_, fun t => ?_, hwf', fun c hc => (hwins.2 c).1 hc⟩
  · rw [ts_eq_map_cells hwf', List.Sorted, List.pairwise_map]
    exact hwins.1
  · rw [ts_eq_map_cells hwf', List.mem_map]
    constructor
    · rintro ⟨c, hc, rfl⟩
      obtain ⟨-, L, hL, hcL⟩ := lastAt_eq_some ((hwins.2 c).1 hc)
      obtain ⟨b, hb, rfl⟩ := List.mem_map.1 hL
      exact ⟨b, hb, by rw [ts_eq_map_cells (hwf b hb)]; exact List.mem_map_of_mem _ hcL⟩
    · rintro ⟨b, hb, ht⟩
      rw [ts_eq_map_cells (hwf b hb), List.mem_map] at ht
      obtain ⟨c, hc, rfl⟩ := ht
      obtain ⟨c', hc'⟩ := exists_lastAt.2 ⟨_, List.mem_map_of_mem _ hb, c, hc, rfl⟩
      exact ⟨c', (hwins.2 c').2 ((lastAt_eq_some hc').1 ▸ hc'), (lastAt_eq_some hc').1⟩

theorem mergeBlocks_lastWins_two_u64 :
    [DataBlock.u64 [I64.ofInt 1, I64.ofInt 2] [10, 20], .u64 [I64.ofInt 2] [12]] ≠ [] ∧
      (∀ b ∈ [DataBlock.u64 [I64.ofInt 1, I64.ofInt 2] [10, 20], .u64 [I64.ofInt 2] [12]],
        b.fieldType = .unsigned) ∧
      (∀ b ∈ [DataBlock.u64 [I64.ofInt 1, I64.ofInt 2] [10, 20], .u64 [I64.ofInt 2] [12]],
        b.ts.Sorted (· < ·)) ∧
      (∀ b ∈ [DataBlock.u64 [I64.ofInt 1, I64.ofInt 2] [10, 20], .u64 [I64.ofInt 2] [12]],
        b.ts.length = b.valLen) ∧
      ∃ res, mergeBlocks [.u64 [I64.ofInt 1, I64.ofInt 2] [10, 20], .u64 [I64.ofInt 2] [12]] =
          some res ∧ res.fieldType = .unsigned ∧ res.ts.Sorted (· < ·) ∧
        (∀ t, t ∈ res.ts ↔ ∃ b ∈ [DataBlock.u64 [I64.ofInt 1, I64.ofInt 2] [10, 20],
          .u64 [I64.ofInt 2] [12]], t ∈ b.ts) ∧ res.ts.length = res.valLen ∧
        ∀ c ∈ res.cells, lastAt ([DataBlock.u64 [I64.ofInt 1, I64.ofInt 2] [10, 20],
          .u64 [I64.ofInt 2] [12]].map cells) c.timestamp = some c := by
  have hne : [DataBlock.u64 [I64.ofInt 1, I64.ofInt 2] [10, 20], .u64 [I64.ofInt 2] [12]] ≠ [] :=
    List.cons_ne_nil _ _
  have hft : ∀ b ∈ [DataBlock.u64 [I64.ofInt 1, I64.ofInt 2] [10, 20], .u64 [I64.ofInt 2] [12]],
      b.fieldType = .unsigned := by decide
  have hs : ∀ b ∈ [DataBlock.u64 [I64.ofInt 1, I64.ofInt 2] [10, 20], .u64 [I64.ofInt 2] [12]],
      b.ts.Sorted (· < ·) := by decide
  have hw : ∀ b ∈ [DataBlock.u64 [I64.ofInt 1, I64.ofInt 2] [10, 20], .u64 [I64.ofInt 2] [12]],
      b.ts.length = b.valLen := by decide
  exact ⟨hne, hft, hs, hw, mergeBlocks_lastWins hne hft hs hw⟩

/-! ### `append` -/

theorem timeRange_of_ts_eq_nil {b : DataBlock} (h : b.ts = []) (start «end» : Nat) :
    b.timeRange start «end» = none := by
  simp [timeRange, h]

/-- **`append` never merges**: it hands `self` back unchanged, except that an
empty `other` of the same type panics (at `time_range(0, 0)`). -/
theorem append_keeps_self (self other : DataBlock) :
    self.append other =
      if other.ts = [] ∧ self.fieldType = other.fieldType then none else some self := by
  by_cases ho : other.ts = []
  · by_cases hft : self.fieldType = other.fieldType
    · simp [append, isEmpty, ho, hft, timeRange_of_ts_eq_nil ho]
    · simp [append, isEmpty, ho, hft]
  · simp [append, isEmpty, ho, List.length_pos.2 ho]

/-- Two one-row `U64` blocks: `append` leaves `self` as it was where
`merge_blocks` has both rows, and an empty `other` makes it panic. -/
theorem append_misses_merge :
    (u64 [I64.ofInt 1] [10]).append (u64 [I64.ofInt 2] [20]) = some (u64 [I64.ofInt 1] [10]) ∧
      mergeBlocks [u64 [I64.ofInt 1] [10], u64 [I64.ofInt 2] [20]] =
        some (u64 [I64.ofInt 1, I64.ofInt 2] [10, 20]) ∧
      (u64 [I64.ofInt 1] [10]).append (u64 [] []) = none :=
  ⟨by rw [append_keeps_self]; decide, by decide, by rw [append_keeps_self]; decide⟩

end DataBlock

end Tskv
