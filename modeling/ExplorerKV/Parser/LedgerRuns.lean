import ExplorerKV.Foundation.Peeling
import ExplorerKV.Parser.RawBlockRetention
import ExplorerKV.Parser.Unspent

/-!
# Rows that take a ledger from one state to another

`Leads raw c P rows c' P'`: from every sound ledger whose confirmed transactions
are `c`, the latest first, and whose unconfirmed ones are `P`, the rows obey the
protocol and end at `c'` and `P'`.  Rows are composed by the rules below, with
whatever ids they get.
-/

namespace ExplorerKV.Parser

open Bitcoin Foundation

namespace Ledger

variable {raw : RawTxs} {p : Ledger} {row : TxLog2Row}

/-- A transaction stands in front of those it spends. -/
def ConfirmedInOrder (raw : RawTxs) : List Uint256 → Prop
  | [] => True
  | hash :: earlier =>
      (∀ out ∈ (raw hash).tx.prevouts, out.hash ∈ earlier) ∧ ConfirmedInOrder raw earlier

theorem ConfirmedInOrder.parent {confirmed : List Uint256} (h : ConfirmedInOrder raw confirmed)
    {hash : Uint256} (hmem : hash ∈ confirmed) {out : COutPoint}
    (hout : out ∈ (raw hash).tx.prevouts) : out.hash ∈ confirmed := by
  induction confirmed with
  | nil => cases hmem
  | cons first earlier ih =>
      rcases List.mem_cons.mp hmem with rfl | hmem
      · exact .tail _ (h.1 out hout)
      · exact .tail _ (ih h.2 hmem)

/-- Every live transaction ranks above those it spends. -/
def Ranked (raw : RawTxs) (p : Ledger) : Prop :=
  ∃ rank : Uint256 → Nat, ∀ hash, p.Live hash → ∀ out ∈ (raw hash).tx.prevouts,
    rank out.hash < rank hash

structure Sound (raw : RawTxs) (p : Ledger) : Prop where
  wellFormed : p.WellFormed
  linked : p.Linked raw
  ranked : p.Ranked raw
  ordered : ConfirmedInOrder raw p.confirmed

/-- The row obeys the protocol, and parents are confirmed before their children. -/
structure Emits (raw : RawTxs) (p : Ledger) (row : TxLog2Row) : Prop where
  allowed : p.TxAllowed row
  lifo : p.Lifo row
  deps : p.Deps raw row
  parents : row.type = .txConfirm → ∀ out ∈ (raw row.txHash).tx.prevouts, out.hash ∈ p.confirmed

/-! ### The transactions of a chain -/

def ofConfirmed (confirmed : List Uint256) : Ledger where
  status hash := if hash ∈ confirmed then .confirmed else .absent
  confirmed := confirmed
  rejected := []

/-- What a transaction of a chain spends is there and spent by no earlier one. -/
def ConfirmedChain (raw : RawTxs) : List Uint256 → Prop
  | [] => True
  | hash :: earlier =>
      (hash ∉ earlier ∧ (raw hash).tx.prevouts.Nodup ∧ ∀ out ∈ (raw hash).tx.prevouts,
        out.hash ∈ earlier ∧ out.n.toNat < (raw out.hash).tx.vout.length ∧
          ∀ other ∈ earlier, out ∉ (raw other).tx.prevouts) ∧ ConfirmedChain raw earlier

theorem live_ofConfirmed {confirmed : List Uint256} {hash : Uint256} :
    (ofConfirmed confirmed).Live hash ↔ hash ∈ confirmed := by
  simp [ofConfirmed, Live]

theorem wellFormed_ofConfirmed {confirmed : List Uint256} (h : ConfirmedChain raw confirmed) :
    (ofConfirmed confirmed).WellFormed := by
  refine ⟨?_, fun hash => by simp [ofConfirmed]⟩
  change confirmed.Nodup
  induction confirmed with
  | nil => exact List.nodup_nil
  | cons hash earlier ih => exact List.nodup_cons.mpr ⟨h.1.1, ih h.2⟩

theorem linked_ofConfirmed {confirmed : List Uint256} (h : ConfirmedChain raw confirmed) :
    (ofConfirmed confirmed).Linked raw := by
  induction confirmed with
  | nil =>
      exact ⟨by simp [live_ofConfirmed], by simp [live_ofConfirmed], by simp [live_ofConfirmed]⟩
  | cons first earlier ih =>
      obtain ⟨⟨-, hnodup, hprevout⟩, hearlier⟩ := h
      have hlinked := ih hearlier
      refine ⟨fun hash hlive => ?_, fun hash hlive out hout => ?_,
        fun hash hash' out hlive hlive' hout hout' => ?_⟩ <;>
        rw [live_ofConfirmed, List.mem_cons] at hlive
      · rcases hlive with rfl | hlive
        · exact hnodup
        · exact hlinked.nodup hash (live_ofConfirmed.mpr hlive)
      · rw [live_ofConfirmed]
        rcases hlive with rfl | hlive
        · exact ⟨.tail _ (hprevout out hout).1, (hprevout out hout).2.1⟩
        · obtain ⟨hparent, hrange⟩ := hlinked.prevout hash (live_ofConfirmed.mpr hlive) out hout
          exact ⟨.tail _ (live_ofConfirmed.mp hparent), hrange⟩
      · rw [live_ofConfirmed, List.mem_cons] at hlive'
        rcases hlive with rfl | hlive <;> rcases hlive' with rfl | hlive'
        · rfl
        · exact absurd hout' ((hprevout out hout).2.2 hash' hlive')
        · exact absurd hout ((hprevout out hout').2.2 hash hlive)
        · exact hlinked.spender hash hash' out (live_ofConfirmed.mpr hlive)
            (live_ofConfirmed.mpr hlive') hout hout'

theorem ranked_ofConfirmed {confirmed : List Uint256} (h : ConfirmedChain raw confirmed) :
    (ofConfirmed confirmed).Ranked raw := by
  induction confirmed with
  | nil => exact ⟨fun _ => 0, by simp [live_ofConfirmed]⟩
  | cons first earlier ih =>
      obtain ⟨⟨hnew, -, hprevout⟩, hearlier⟩ := h
      obtain ⟨rank, hrank⟩ := ih hearlier
      obtain ⟨top, htop⟩ := Finite.exists_max rank
      have hparent : ∀ hash ∈ earlier,
          Function.update rank first (rank top + 1) hash = rank hash := fun hash hin =>
        Function.update_of_ne (fun heq : hash = first => hnew (heq ▸ hin)) _ _
      refine ⟨Function.update rank first (rank top + 1), fun hash hlive out hout => ?_⟩
      rcases List.mem_cons.mp (live_ofConfirmed.mp hlive) with rfl | hin
      · rw [hparent _ (hprevout out hout).1, Function.update_self]
        exact Nat.lt_succ_of_le (htop out.hash)
      · have hout' :=
          ((linked_ofConfirmed hearlier).prevout hash (live_ofConfirmed.mpr hin) out hout).1
        rw [hparent _ (live_ofConfirmed.mp hout'), hparent _ hin]
        exact hrank hash (live_ofConfirmed.mpr hin) out hout

theorem ConfirmedChain.inOrder {confirmed : List Uint256} (h : ConfirmedChain raw confirmed) :
    ConfirmedInOrder raw confirmed := by
  induction confirmed with
  | nil => trivial
  | cons hash earlier ih => exact ⟨fun out hout => (h.1.2.2 out hout).1, ih h.2⟩

theorem sound_ofConfirmed {confirmed : List Uint256} (h : ConfirmedChain raw confirmed) :
    (ofConfirmed confirmed).Sound raw :=
  ⟨wellFormed_ofConfirmed h, linked_ofConfirmed h, ranked_ofConfirmed h, h.inOrder⟩

/-! ### A row -/

theorem Ranked.next (h : p.Ranked raw) (hlinked : p.Linked raw) (hrow : p.Emits raw row) :
    (p.next row).Ranked raw := by
  obtain ⟨rank, hrank⟩ := h
  cases htype : row.type with
  | txAccept =>
      have hnew := not_live_of_accept hrow.allowed htype
      obtain ⟨top, htop⟩ := Finite.exists_max rank
      have hbelow : ∀ hash, rank hash < rank top + 1 := fun hash => Nat.lt_succ_of_le (htop hash)
      have hparent : ∀ out : COutPoint, p.Live out.hash →
          Function.update rank row.txHash (rank top + 1) out.hash = rank out.hash :=
        fun out hlive =>
          Function.update_of_ne (fun heq : out.hash = row.txHash => hnew (heq ▸ hlive)) _ _
      refine ⟨Function.update rank row.txHash (rank top + 1), fun hash hlive out hout => ?_⟩
      rcases (next_live_accept htype hash).mp hlive with rfl | hold
      · rw [hparent out (hrow.deps.accept_prevout htype out hout).1, Function.update_self]
        exact hbelow out.hash
      · rw [hparent out (hlinked.prevout hash hold out hout).1,
          Function.update_of_ne fun heq : hash = row.txHash => hnew (heq ▸ hold)]
        exact hrank hash hold out hout
  | txReject =>
      exact ⟨rank, fun hash hlive => hrank hash ((next_live_reject htype hash).mp hlive).2⟩
  | txConfirm =>
      exact ⟨rank, fun hash hlive =>
        hrank hash ((next_live_other hrow.allowed (.inl htype) hash).mp hlive)⟩
  | txUnconfirm =>
      exact ⟨rank, fun hash hlive =>
        hrank hash ((next_live_other hrow.allowed (.inr htype) hash).mp hlive)⟩

theorem Sound.next (h : p.Sound raw) (hrow : p.Emits raw row) : (p.next row).Sound raw where
  wellFormed := h.wellFormed.next hrow.allowed
  linked := h.linked.next hrow.allowed hrow.deps
  ranked := h.ranked.next h.linked hrow
  ordered := by
    cases htype : row.type with
    | txConfirm =>
        simp only [Ledger.next, htype]
        exact ⟨hrow.parents htype, h.ordered⟩
    | txUnconfirm =>
        obtain ⟨rest, hrest⟩ := List.head?_eq_some_iff.mp (hrow.lifo htype)
        have hordered := h.ordered
        simp only [Ledger.next, htype]
        rw [hrest] at hordered ⊢
        rw [List.erase_cons_head]
        exact hordered.2
    | txAccept | txReject =>
        simp only [Ledger.next, htype]
        exact h.ordered

theorem sound_along {rows : List TxLog2Row} (h : p.Sound raw)
    (hrows : Along (Emits raw) Ledger.next p rows) : (rows.foldl Ledger.next p).Sound raw := by
  induction rows generalizing p with
  | nil => exact h
  | cons row rows ih => exact ih (h.next hrows.1) hrows.2

/-! ## What a ledger holds -/

structure Tracks (p : Ledger) (confirmed : List Uint256) (pool : Set Uint256) : Prop where
  confirmed : p.confirmed = confirmed
  pool : ∀ hash, p.status hash = .unconfirmed ↔ hash ∈ pool

variable {confirmed : List Uint256} {pool : Set Uint256} {hash : Uint256}

theorem tracks_ofConfirmed : (ofConfirmed confirmed).Tracks confirmed ∅ :=
  ⟨rfl, fun hash => by by_cases hin : hash ∈ confirmed <;> simp [ofConfirmed, hin]⟩

theorem Tracks.status_confirmed (h : p.Tracks confirmed pool) (hp : p.WellFormed) :
    p.status hash = .confirmed ↔ hash ∈ confirmed := by
  rw [← h.confirmed, hp.mem_iff]

theorem Tracks.live_iff (h : p.Tracks confirmed pool) (hp : p.WellFormed) :
    p.Live hash ↔ hash ∈ confirmed ∨ hash ∈ pool := by
  rw [← h.pool, ← h.status_confirmed hp, Live]
  cases p.status hash <;> simp

theorem Tracks.apart (h : p.Tracks confirmed pool) (hp : p.WellFormed) (hpool : hash ∈ pool) :
    hash ∉ confirmed := by
  rw [← h.status_confirmed hp, (h.pool hash).mpr hpool]
  exact fun heq => TxStatus.noConfusion heq

theorem Tracks.next (h : p.Tracks confirmed pool) {pool' : Set Uint256}
    (hpool : ∀ hash, hash ∈ pool' ↔
      if hash = row.txHash then row.type.statusAfter = .unconfirmed else hash ∈ pool)
    {confirmed' : List Uint256} (hconfirmed : (p.next row).confirmed = confirmed') :
    (p.next row).Tracks confirmed' pool' := by
  refine ⟨hconfirmed, fun hash => ?_⟩
  rw [hpool, next_status]
  by_cases heq : hash = row.txHash
  · simp [heq]
  · simpa [heq] using h.pool hash

end Ledger

/-! ## Rows -/

theorem numberRows_append (id : Int) (rows rows' : List NewRow) :
    numberRows id (rows ++ rows') = numberRows id rows ++ numberRows (id + rows.length) rows' := by
  induction rows generalizing id with
  | nil => simp [numberRows]
  | cons row rows ih =>
      rw [List.cons_append, numberRows, ih, numberRows, List.cons_append, List.length_cons]
      push_cast
      rw [Int.add_comm (rows.length : Int) 1, Int.add_assoc]

def Leads (raw : RawTxs) (confirmed : List Uint256) (pool : Set Uint256) (rows : List NewRow)
    (confirmed' : List Uint256) (pool' : Set Uint256) : Prop :=
  ∀ (id : Int) (p : Ledger), p.Sound raw → p.Tracks confirmed pool →
    Along (Ledger.Emits raw) Ledger.next p (numberRows id rows) ∧
      ((numberRows id rows).foldl Ledger.next p).Tracks confirmed' pool'

section Leads

variable {raw : RawTxs} {c c' c'' : List Uint256} {P P' P'' : Set Uint256}
  {rows rows' : List NewRow} {hash : Uint256}

theorem Leads.nil : Leads raw c P [] c P := fun _ _ _ htracks => ⟨trivial, htracks⟩

theorem Leads.append (h : Leads raw c P rows c' P') (h' : Leads raw c' P' rows' c'' P'') :
    Leads raw c P (rows ++ rows') c'' P'' := by
  intro id p hsound htracks
  obtain ⟨halong, hmid⟩ := h id p hsound htracks
  obtain ⟨halong', hlast⟩ := h' (id + rows.length) _ (Ledger.sound_along hsound halong) hmid
  rw [numberRows_append, List.foldl_append]
  exact ⟨(along_append ..).mpr ⟨halong, halong'⟩, hlast⟩

theorem Leads.single {row : NewRow} (h : ∀ id (p : Ledger), p.Sound raw → p.Tracks c P →
    p.Emits raw (row id) ∧ (p.next (row id)).Tracks c' P') : Leads raw c P [row] c' P' :=
  fun id p hsound htracks => ⟨⟨(h id p hsound htracks).1, trivial⟩, (h id p hsound htracks).2⟩

theorem Leads.accept (maxTimestamp : Int) (hconfirmed : hash ∉ c) (hpool : hash ∉ P)
    (hdistinct : (raw hash).tx.prevouts.Nodup)
    (hprevout : ∀ out ∈ (raw hash).tx.prevouts, (out.hash ∈ c ∨ out.hash ∈ P) ∧
      out.n.toNat < (raw out.hash).tx.vout.length ∧
        ∀ other, other ∈ c ∨ other ∈ P → out ∉ (raw other).tx.prevouts) :
    Leads raw c P [acceptRow maxTimestamp hash] c (insert hash P) := by
  refine .single fun id p hsound htracks => ?_
  have hlive : ∀ hash, p.Live hash ↔ hash ∈ c ∨ hash ∈ P := fun _ =>
    htracks.live_iff hsound.wellFormed
  have habsent : p.status hash = .absent := by
    by_contra hnot
    exact ((hlive hash).mp hnot).elim hconfirmed hpool
  refine ⟨⟨⟨habsent, fun _ => rfl, by simp [acceptRow]⟩, by simp [Ledger.Lifo, acceptRow],
    ⟨fun _ => hdistinct, fun _ out hout => ?_, by simp [acceptRow]⟩, by simp [acceptRow]⟩,
    htracks.next (fun x => ?_) htracks.confirmed⟩
  · obtain ⟨hparent, hrange, hfree⟩ := hprevout out hout
    exact ⟨(hlive _).mpr hparent, hrange, fun other hother => hfree other ((hlive other).mp hother)⟩
  · by_cases heq : x = hash <;> simp [acceptRow, heq, Log2Type.statusAfter]

theorem Leads.confirm (block : RawBlock) (blockId maxTimestamp : Int)
    (hheight : 0 ≤ block.blockHeight) (hpool : hash ∈ P)
    (hparents : ∀ out ∈ (raw hash).tx.prevouts, out.hash ∈ c) :
    Leads raw c P [blockRow .txConfirm block blockId maxTimestamp hash] (hash :: c)
      (P \ {hash}) := by
  refine .single fun id p hsound htracks => ?_
  refine ⟨⟨⟨(htracks.pool hash).mpr hpool, by simp [blockRow], fun _ => hheight⟩,
    by simp [Ledger.Lifo, blockRow], ⟨by simp [blockRow], by simp [blockRow], by simp [blockRow]⟩,
    fun _ out hout => ?_⟩, htracks.next (fun x => ?_) ?_⟩
  · rw [htracks.confirmed]
    exact hparents out hout
  · by_cases heq : x = hash <;> simp [blockRow, heq, Log2Type.statusAfter]
  · simp [Ledger.next, blockRow, htracks.confirmed]

theorem Leads.unconfirm (block : RawBlock) (blockId maxTimestamp : Int) :
    Leads raw (hash :: c) P [blockRow .txUnconfirm block blockId maxTimestamp hash] c
      (insert hash P) := by
  refine .single fun id p hsound htracks => ?_
  have hstatus : p.status hash = .confirmed :=
    (htracks.status_confirmed hsound.wellFormed).mpr (.head _)
  refine ⟨⟨⟨hstatus, by simp [blockRow], by simp [blockRow]⟩, fun _ => by simp [blockRow,
    htracks.confirmed], ⟨by simp [blockRow], by simp [blockRow], by simp [blockRow]⟩,
    by simp [blockRow]⟩, htracks.next (fun x => ?_) ?_⟩
  · by_cases heq : x = hash <;> simp [blockRow, heq, Log2Type.statusAfter]
  · simp [Ledger.next, blockRow, htracks.confirmed]

theorem Leads.reject {row : NewRow} (htype : ∀ id, (row id).type = .txReject)
    (hhash : ∀ id, (row id).txHash = hash) (hpool : hash ∈ P)
    (hunspent : ∀ other ∈ P, ∀ out ∈ (raw other).tx.prevouts, out.hash ≠ hash) :
    Leads raw c P [row] c (P \ {hash}) := by
  refine .single fun id p hsound htracks => ?_
  have hordered := hsound.ordered
  rw [htracks.confirmed] at hordered
  refine ⟨⟨⟨?_, by simp [htype], by simp [htype]⟩, by simp [Ledger.Lifo, htype],
    ⟨by simp [htype], by simp [htype], fun _ out hout other hother hspent => ?_⟩, by simp [htype]⟩,
    htracks.next (fun x => ?_) ?_⟩
  · rw [hhash, htype]
    exact (htracks.pool hash).mpr hpool
  · rw [hhash] at hout
    rcases (htracks.live_iff hsound.wellFormed).mp hother with hconfirmed | hother
    · exact htracks.apart hsound.wellFormed hpool (hout ▸ hordered.parent hconfirmed hspent)
    · exact hunspent other hother out hspent hout
  · by_cases heq : x = hash <;> simp [htype, hhash, heq, Log2Type.statusAfter]
  · simp [Ledger.next, htype, htracks.confirmed]

theorem Leads.rejects {R : Uint256 → Uint256 → Prop} {hashes : List Uint256}
    (hpeeling : Peeling R (· ∈ P) hashes)
    (hspends : ∀ child ∈ P, ∀ parent ∈ P, ∀ out ∈ (raw child).tx.prevouts, out.hash = parent →
      R child parent) : Leads raw c P (hashes.map rejectRow) c (P \ {hash | hash ∈ hashes}) := by
  induction hpeeling with
  | nil =>
      have hempty : {hash : Uint256 | hash ∈ ([] : List Uint256)} = ∅ := by simp
      rw [hempty, Set.sdiff_empty]
      exact .nil
  | @snoc l a before here fresh leaf ih =>
      have hall : {hash | hash ∈ l ++ [a]} = {hash | hash ∈ l} ∪ {a} := by
        ext x
        simp [or_comm]
      rw [List.map_append, hall, ← Set.sdiff_sdiff]
      refine ih.append (.reject (fun _ => rfl) (fun _ => rfl) ⟨here, fresh⟩ ?_)
      intro other hother out hout heq
      exact hother.2 (leaf other hother.1 (hspends other hother.1 a here out hout heq))

end Leads

end ExplorerKV.Parser
