import ExplorerKV.Log2.NodeView

/-!
# The timestamps that are kept

The heights in `blkTimestamps_` follow one another down from the current block,
and there are enough of them for every rollback the node promises not to exceed.
A start takes them from the parser's store.
-/

namespace ExplorerKV.Log2

open Foundation

/-- The heights go down from the top one by one. -/
structure Consecutive (top : Int) (blkTs : BlockTimestamp) : Prop where
  limit : blkTs.limit = 2016 * 2
  heights : blkTs.blkTimestamps.map Prod.fst =
    (List.range blkTs.blkTimestamps.length).map fun i : Nat => top - i
  length_le : blkTs.blkTimestamps.length ≤ 2016 * 2

namespace Consecutive

variable {top : Int} {blkTs : BlockTimestamp}

theorem empty (top : Int) : Consecutive top ⟨2016 * 2, 0, []⟩ := ⟨rfl, rfl, Nat.zero_le _⟩

theorem le_top (h : Consecutive top blkTs) {block : Int × Nat}
    (hmem : block ∈ blkTs.blkTimestamps) :
    block.1 ≤ top := by
  have hheight : block.1 ∈ blkTs.blkTimestamps.map Prod.fst := List.mem_map_of_mem hmem
  rw [h.heights] at hheight
  obtain ⟨i, -, heq⟩ := List.mem_map.mp hheight
  omega

theorem push (h : Consecutive top blkTs) (ts : Nat) :
    ∃ blkTs', blkTs.pushBlock (top + 1) ts = some blkTs' ∧ Consecutive (top + 1) blkTs' ∧
      blkTs'.blkTimestamps.length = min (2016 * 2) (blkTs.blkTimestamps.length + 1) := by
  have hnew : ¬blkTs.blkTimestamps.any fun block => block.1 = top + 1 := by
    rw [List.any_eq_true]
    rintro ⟨block, hmem, heq⟩
    have hle := h.le_top hmem
    have heq' : block.1 = top + 1 := of_decide_eq_true heq
    omega
  have hlength : (((top + 1, ts) :: blkTs.blkTimestamps).take (2016 * 2)).length =
      min (2016 * 2) (blkTs.blkTimestamps.length + 1) := by
    rw [List.length_take, List.length_cons]
  have hheights : ((top + 1, ts) :: blkTs.blkTimestamps).map Prod.fst =
      (List.range (blkTs.blkTimestamps.length + 1)).map fun i : Nat => top + 1 - i := by
    rw [List.map_cons, h.heights, List.range_succ_eq_map, List.map_cons, List.map_map]
    refine List.cons_eq_cons.mpr ⟨by simp, List.map_congr_left fun i _ => ?_⟩
    simp only [Function.comp_apply]
    push_cast
    omega
  have hpush : blkTs.pushBlock (top + 1) ts = some { blkTs with
      currMax := if ts > blkTs.currMax then ts else blkTs.currMax
      blkTimestamps := ((top + 1, ts) :: blkTs.blkTimestamps).take blkTs.limit } := by
    rw [BlockTimestamp.pushBlock, if_neg hnew]
  refine ⟨_, hpush, ⟨h.limit, ?_, ?_⟩, ?_⟩
  · rw [h.limit, hlength, List.map_take, hheights, ← List.map_take, List.take_range]
  · rw [h.limit, hlength]
    exact min_le_left _ _
  · rw [h.limit, hlength]

theorem pop (h : Consecutive top blkTs) (hpos : 0 < blkTs.blkTimestamps.length) :
    ∃ blkTs', blkTs.popBlock = some blkTs' ∧ Consecutive (top - 1) blkTs' ∧
      blkTs'.blkTimestamps.length + 1 = blkTs.blkTimestamps.length := by
  obtain ⟨block, rest, hblocks⟩ := List.exists_cons_of_length_pos hpos
  have hheights := h.heights
  have hle := h.length_le
  rw [hblocks, List.map_cons, List.length_cons, List.range_succ_eq_map, List.map_cons,
    List.map_map, List.cons.injEq] at hheights
  rw [hblocks, List.length_cons] at hle
  have hpop : blkTs.popBlock = some { blkTs with
      currMax := BlockTimestamp.maxOf rest
      blkTimestamps := rest } := by
    rw [BlockTimestamp.popBlock, hblocks]
  refine ⟨_, hpop, ⟨h.limit, ?_, Nat.le_of_succ_le hle⟩, by rw [hblocks, List.length_cons]⟩
  refine hheights.2.trans (List.map_congr_left fun i _ => ?_)
  simp only [Function.comp_apply]
  push_cast
  omega

end Consecutive

/-- Enough timestamps for the rollbacks that may come. -/
structure TimeWindow (start : BeginBlock) (v : NodeView) (blkTs : BlockTimestamp) : Prop where
  consecutive : Consecutive (v.height start) blkTs
  enough : min v.chain.length (2016 * 2 - (v.highest - v.chain.length)) ≤
    blkTs.blkTimestamps.length

namespace TimeWindow

variable {start : BeginBlock} {v : NodeView} {blkTs : BlockTimestamp}

theorem accept (h : TimeWindow start v blkTs) (hle : v.chain.length ≤ v.highest)
    (raw : Parser.RawTxs) (block : Parser.RawBlock) (ts : Nat) :
    ∃ blkTs', blkTs.pushBlock (v.height start + 1) ts = some blkTs' ∧
      TimeWindow start (v.accept raw block) blkTs' := by
  obtain ⟨blkTs', hpush, hconsecutive, hlength⟩ := h.consecutive.push ts
  have henough := h.enough
  refine ⟨blkTs', hpush, ?_, ?_⟩
  · have hheight : (v.accept raw block).height start = v.height start + 1 := by
      simp only [NodeView.height, NodeView.accept, List.length_cons]
      push_cast
      omega
    rw [hheight]
    exact hconsecutive
  · simp only [NodeView.accept, List.length_cons]
    omega

theorem rollback (h : TimeWindow start v blkTs) (hle : v.chain.length ≤ v.highest)
    (hchain : v.chain ≠ []) (hdepth : v.highest < v.chain.length + 2016 * 2)
    (raw : Parser.RawTxs) :
    ∃ blkTs', blkTs.popBlock = some blkTs' ∧ TimeWindow start (v.rollback raw) blkTs' := by
  have hpos := List.length_pos_iff.mpr hchain
  have henough := h.enough
  obtain ⟨blkTs', hpop, hconsecutive, hlength⟩ := h.consecutive.pop (by omega)
  refine ⟨blkTs', hpop, ?_, ?_⟩
  · have hheight : (v.rollback raw).height start = v.height start - 1 := by
      simp only [NodeView.height, NodeView.rollback, List.length_tail]
      omega
    rw [hheight]
    exact hconsecutive
  · simp only [NodeView.rollback, List.length_tail]
    omega

end TimeWindow

/-! ## The parser's store -/

/-- The parser has handled every row, and lists the chain of the view. -/
structure CaughtUp (start : BeginBlock) (v : NodeView) (db : Log2Tables) (store : StoredChain) :
    Prop where
  offset : store.txlogsOffset =
    ((db.txlogs2.filter fun entry => !entry.temporary).getLast?.map
      fun entry => entry.row.id).getD 0
  consecutive : store.blocks.IsChain fun a b => b.height = a.height + 1
  /-- the begin block is there, once there are rows -/
  tip : 0 < store.txlogsOffset ∨ store.blocks ≠ [] → ∃ block, store.blocks.getLast? = some block ∧
    block.height = v.height start ∧ block.hash = NodeView.tipHash start v.chain
  length : v.chain.length ≤ store.blocks.length

theorem height_of_getLast? {first last : StoredBlock} {blocks : List StoredBlock}
    (h : (first :: blocks).IsChain fun a b => b.height = a.height + 1)
    (hlast : (first :: blocks).getLast? = some last) :
    last.height = first.height + blocks.length := by
  induction blocks generalizing first with
  | nil =>
      obtain rfl := Option.some.inj hlast
      simp
  | cons second blocks ih =>
      rw [List.isChain_cons_cons] at h
      rw [List.getLast?_cons_cons] at hlast
      rw [ih h.2 hlast, h.1, List.length_cons]
      push_cast
      omega

theorem filter_of_isChain {last : StoredBlock} {blocks : List StoredBlock}
    (h : blocks.IsChain fun a b => b.height = a.height + 1) (hlast : blocks.getLast? = some last) :
    ∃ kept, blocks.filter (fun block => last.height - 2016 * 2 ≤ block.height) = kept ∧
      (kept.IsChain fun a b => b.height = a.height + 1) ∧ kept.getLast? = some last ∧
      min blocks.length (2016 * 2) ≤ kept.length := by
  induction blocks with
  | nil => cases hlast
  | cons first blocks ih =>
      have hheight := height_of_getLast? h hlast
      by_cases hkeep : last.height - 2016 * 2 ≤ first.height
      · refine ⟨first :: blocks, List.filter_eq_self.mpr fun block hblock => ?_, h, hlast,
          min_le_left _ _⟩
        have hsorted : (first :: blocks).Pairwise fun a b => a.height < b.height := by
          have : Trans (fun a b : StoredBlock => a.height < b.height)
              (fun a b : StoredBlock => a.height < b.height)
              (fun a b : StoredBlock => a.height < b.height) := ⟨fun hab hbc => hab.trans hbc⟩
          exact (h.imp fun a b hab => by omega).pairwise
        rcases List.mem_cons.mp hblock with rfl | hblock
        · exact decide_eq_true hkeep
        · have hlt := List.rel_of_pairwise_cons hsorted hblock
          exact decide_eq_true (by omega)
      · cases blocks with
        | nil =>
            rw [List.length_nil] at hheight
            omega
        | cons second blocks =>
            rw [List.getLast?_cons_cons] at hlast
            obtain ⟨kept, hfilter, hchain, hlast', hlength⟩ := ih h.tail hlast
            refine ⟨kept, ?_, hchain, hlast', ?_⟩
            · rw [List.filter_cons_of_neg (by simpa using hkeep)]
              exact hfilter
            · rw [List.length_cons] at hheight hlength ⊢
              omega

theorem pushStored_of_isChain {blocks : List StoredBlock} {top : Int} {blkTs : BlockTimestamp}
    (h : Consecutive top blkTs) (hchain : blocks.IsChain fun a b => b.height = a.height + 1)
    (hfirst : ∀ first ∈ blocks.head?, first.height = top + 1) :
    ∃ blkTs', blocks.foldlM pushStored blkTs = .ok blkTs' ∧
      Consecutive (top + blocks.length) blkTs' ∧
      blkTs'.blkTimestamps.length =
        min (2016 * 2) (blkTs.blkTimestamps.length + blocks.length) := by
  induction blocks generalizing top blkTs with
  | nil =>
      have hle := h.length_le
      refine ⟨blkTs, rfl, by simpa using h, ?_⟩
      rw [List.length_nil]
      omega
  | cons first blocks ih =>
      obtain ⟨blkTs₁, hpush, hconsecutive, hlength⟩ := h.push first.timestamp
      have hnext : ∀ second ∈ blocks.head?, second.height = top + 1 + 1 := fun second hsecond => by
        rw [hchain.rel_head? hsecond, hfirst first rfl]
      obtain ⟨blkTs', hrest, hconsecutive', hlength'⟩ := ih hconsecutive hchain.tail hnext
      refine ⟨blkTs', ?_, ?_, ?_⟩
      · rw [List.foldlM_cons, pushStored, hfirst first rfl, hpush]
        exact hrest
      · rw [List.length_cons]
        push_cast
        rwa [Int.add_comm (blocks.length : Int) 1, ← Int.add_assoc]
      · rw [hlength', hlength, List.length_cons]
        omega

end ExplorerKV.Log2
