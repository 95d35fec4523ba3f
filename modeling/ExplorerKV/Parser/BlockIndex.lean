import ExplorerKV.Parser.BlockOps
import ExplorerKV.Parser.TxInv

/-!
# The block index over reorganisations

A `BlockLedger` is the main chain of a run of accepts and rejects, from height
zero up, with what has been rejected so far.  Five key families follow it.  A
hash names one block, at one height; so a block that comes back after a reject
finds its orphan record at the height where it comes back.
-/

namespace ExplorerKV.Parser

open Bitcoin Foundation

/-! ## Runs of accepts and rejects -/

inductive BlockOp where
  | accept
  | reject
  deriving DecidableEq, Repr

/-- A call of `acceptBlock` or `rejectBlock`. -/
structure BlockRow where
  op : BlockOp
  txLog2 : TxLog2
  deriving DecidableEq, Repr

def applyBlockRow (cfg : Config) (raw : RawTxs) (blocks : RawBlocks) (row : BlockRow) :
    ParserM Unit :=
  match row.op with
  | .accept => acceptBlock cfg raw blocks row.txLog2
  | .reject => rejectBlock blocks row.txLog2

def runBlockRows (cfg : Config) (raw : RawTxs) (blocks : RawBlocks)
    (rows : List BlockRow) : Except Fault (Unit × ParserState) :=
  forM rows (applyBlockRow cfg raw blocks) ParserState.initial

/-- A block of the main chain, with the timestamp it was accepted with. -/
structure MainBlock where
  hash : Uint256
  maxBlkTimestamp : Nat
  deriving DecidableEq, Repr

structure BlockLedger where
  chain : List MainBlock
  /-- the heights and hashes of all rejects so far -/
  rejected : List (Int × Uint256)
  deriving DecidableEq, Repr

def blockAt (chain : List MainBlock) (height : Int) : Option MainBlock :=
  if 0 ≤ height then chain[height.toNat]? else none

namespace BlockLedger

def empty : BlockLedger := ⟨[], []⟩

def hashes (p : BlockLedger) : List Uint256 := p.chain.map (·.hash)

def orphans (p : BlockLedger) (height : Int) : Finset Uint256 :=
  ((p.rejected.filter (·.1 = height)).map (·.2)).toFinset \ p.hashes.toFinset

def next (blocks : RawBlocks) (p : BlockLedger) (row : BlockRow) : BlockLedger :=
  match blocks row.txLog2.blkId, row.op with
  | some block, .accept =>
      { p with chain := p.chain ++ [⟨block.blockHash, row.txLog2.maxBlkTimestamp⟩] }
  | some block, .reject =>
      ⟨p.chain.dropLast, (row.txLog2.blkHeight, block.blockHash) :: p.rejected⟩
  | none, _ => p

def after (blocks : RawBlocks) (rows : List BlockRow) : BlockLedger :=
  rows.foldl (next blocks) empty

/--
An accepted block extends the tip; a rejected one is the tip, and its row
carries the timestamp of the accept.
-/
inductive Allowed (blocks : RawBlocks) (p : BlockLedger) (row : BlockRow) : Prop
  | accept (block : RawBlock) (op : row.op = .accept)
      (stored : blocks row.txLog2.blkId = some block)
      (height : block.blockHeight = row.txLog2.blkHeight)
      (tip : row.txLog2.blkHeight = p.chain.length)
      (extends_tip : ∀ tip, p.chain.getLast? = some tip →
        block.blk.hashPrevBlock = tip.hash)
  | reject (block : RawBlock) (rest : List MainBlock) (op : row.op = .reject)
      (stored : blocks row.txLog2.blkId = some block)
      (height : block.blockHeight = row.txLog2.blkHeight)
      (tip : p.chain = rest ++ [⟨block.blockHash, row.txLog2.maxBlkTimestamp⟩])

end BlockLedger

/-- A block hash names one block, at one height. -/
def RawBlocks.Consistent (blocks : RawBlocks) : Prop :=
  ∀ i j a b, blocks i = some a → blocks j = some b → a.blockHash = b.blockHash →
    a.blockHeight = b.blockHeight ∧ a.blk.hashPrevBlock = b.blk.hashPrevBlock

def ObeysChain (blocks : RawBlocks) (rows : List BlockRow) : Prop :=
  Along (BlockLedger.Allowed blocks) (BlockLedger.next blocks) .empty rows

/-- The five key families against the ledger. -/
structure BlockIndexCorrect (p : BlockLedger) (kv : KVDB) : Prop where
  height : ∀ h, kv (.blockHeight h) = (blockAt p.chain h).map (·.hash)
  /-- a block points to its successor, the tip to none -/
  next_hash : ∀ h b, blockAt p.chain h = some b →
    ∃ record : Block, kv (.blockObject b.hash) = some record ∧
      record.nextBlockHash = ((blockAt p.chain (h + 1)).map (·.hash)).getD 0
  is_orphan : ∀ hash (record : Block), kv (.blockObject hash) = some record →
    (record.isOrphan = false ↔ hash ∈ p.hashes)
  orphans : ∀ h, kv (.blockOrphan h) =
    if p.orphans h = ∅ then none else some (p.orphans h).sort
  timestamp : ∀ ts h, kv (.blockTimestamp ts h) =
    ((blockAt p.chain h).filter (·.maxBlkTimestamp = ts)).map (·.hash)

/-! ## Chains and orphans -/

theorem blockAt_append (chain : List MainBlock) (b : MainBlock) (h : Int) :
    blockAt (chain ++ [b]) h = if h = chain.length then some b else blockAt chain h := by
  unfold blockAt
  by_cases h0 : 0 ≤ h
  · obtain ⟨n, rfl⟩ := Int.eq_ofNat_of_zero_le h0
    simp only [Int.natCast_nonneg, if_true, Int.toNat_natCast, Nat.cast_inj]
    rcases lt_trichotomy n chain.length with hlt | rfl | hgt
    · rw [List.getElem?_append_left hlt, if_neg (by omega)]
    · simp
    · rw [if_neg (by omega), List.getElem?_eq_none (by simp; omega),
        List.getElem?_eq_none (by omega)]
  · rw [if_neg h0, if_neg (by omega), if_neg h0]

theorem blockAt_lt {chain : List MainBlock} {h : Int} {b : MainBlock}
    (hb : blockAt chain h = some b) : 0 ≤ h ∧ h < chain.length := by
  unfold blockAt at hb
  split at hb
  · have hlt := (List.getElem?_eq_some_iff.mp hb).1
    omega
  · cases hb

theorem blockAt_none {chain : List MainBlock} {h : Int} (hle : chain.length ≤ h) :
    blockAt chain h = none := by
  by_contra hsome
  obtain ⟨b, hb⟩ := Option.ne_none_iff_exists'.mp hsome
  have := blockAt_lt hb
  omega

theorem mem_chain_iff {chain : List MainBlock} {b : MainBlock} :
    b ∈ chain ↔ ∃ h, blockAt chain h = some b := by
  rw [List.mem_iff_getElem?]
  constructor
  · rintro ⟨n, hn⟩
    exact ⟨n, by simpa [blockAt] using hn⟩
  · rintro ⟨h, hb⟩
    unfold blockAt at hb
    split at hb
    · exact ⟨_, hb⟩
    · cases hb

theorem BlockLedger.mem_orphans {p : BlockLedger} {h : Int} {hash : Uint256} :
    hash ∈ p.orphans h ↔ (h, hash) ∈ p.rejected ∧ hash ∉ p.hashes := by
  simp [orphans]

/-! ## Store updates, one family at a time -/

section Writes

variable (kv : KVDB) (h h' : Int) (hash hash' : Uint256) (ts ts' : Nat)

theorem apply_blockHeight (val : Option Uint256) :
    kv.apply ⟨.blockHeight h, val⟩ (.blockHeight h') =
      if h' = h then val else kv (.blockHeight h') := by
  by_cases heq : h' = h
  · rw [if_pos heq, heq, KVDB.apply_self]
  · rw [if_neg heq, KVDB.apply_of_ne _ _ (by simpa using heq)]

theorem apply_blockOrphan (val : Option (List Uint256)) :
    kv.apply ⟨.blockOrphan h, val⟩ (.blockOrphan h') =
      if h' = h then val else kv (.blockOrphan h') := by
  by_cases heq : h' = h
  · rw [if_pos heq, heq, KVDB.apply_self]
  · rw [if_neg heq, KVDB.apply_of_ne _ _ (by simpa using heq)]

theorem apply_blockTimestamp (val : Option Uint256) :
    kv.apply ⟨.blockTimestamp ts h, val⟩ (.blockTimestamp ts' h') =
      if ts' = ts ∧ h' = h then val else kv (.blockTimestamp ts' h') := by
  by_cases heq : ts' = ts ∧ h' = h
  · rw [if_pos heq, heq.1, heq.2, KVDB.apply_self]
  · rw [if_neg heq, KVDB.apply_of_ne _ _ (by simpa using heq)]

end Writes

/-! ## What the operations do to the block index -/

/-- Faults of a block without a valid coinbase. -/
def BlockFault (e : Fault) : Prop :=
  e = .undefinedBehaviour ∨ e = .valueOutOfRange ∨ e = .assertion .insertBlock

/-- What `_insertBlock` does to the block index. -/
structure BlockInserted (block : RawBlock) (height : Int) (kv kv' : KVDB) : Prop where
  height_key : ∀ h, kv' (.blockHeight h) =
    if h = height then some block.blockHash else kv (.blockHeight h)
  own : ∃ record : Block, kv' (.blockObject block.blockHash) = some record ∧
    record.nextBlockHash = 0 ∧ record.isOrphan = false
  prev : 0 < height → ∀ record : Block,
    kv (.blockObject block.blk.hashPrevBlock) = some record →
    kv' (.blockObject block.blk.hashPrevBlock) =
      some { record with nextBlockHash := block.blockHash }
  other : ∀ hash, hash ≠ block.blockHash →
    (0 < height → hash ≠ block.blk.hashPrevBlock) →
    kv' (.blockObject hash) = kv (.blockObject hash)
  orphan : ∀ h, kv' (.blockOrphan h) = kv (.blockOrphan h)
  timestamp : ∀ ts h, kv' (.blockTimestamp ts h) = kv (.blockTimestamp ts h)

/-- What `acceptBlock` does to the block index. -/
structure BlockAccepted (block : RawBlock) (txLog2 : TxLog2) (kv kv' : KVDB) :
    Prop where
  inserted : ∃ kv₁, BlockInserted block txLog2.blkHeight kv kv₁ ∧
    (∀ h, kv' (.blockHeight h) = kv₁ (.blockHeight h)) ∧
    ∀ hash, kv' (.blockObject hash) = kv₁ (.blockObject hash)
  orphan : ∀ h, kv' (.blockOrphan h) =
    if h = txLog2.blkHeight then
      ((kv (.blockOrphan h)).map (removeOrphanBlockHash block.blockHash)).filter
        (0 < ·.length)
    else kv (.blockOrphan h)
  timestamp : ∀ ts h, kv' (.blockTimestamp ts h) =
    if ts = txLog2.maxBlkTimestamp ∧ h = txLog2.blkHeight then some block.blockHash
    else kv (.blockTimestamp ts h)

/-- What `rejectBlock` does to the block index. -/
structure BlockRejected (block : RawBlock) (txLog2 : TxLog2) (kv kv' : KVDB) :
    Prop where
  height_key : ∀ h, kv' (.blockHeight h) =
    if h = txLog2.blkHeight then none else kv (.blockHeight h)
  own : ∀ record : Block, kv (.blockObject block.blockHash) = some record →
    kv' (.blockObject block.blockHash) = some { record with isOrphan := true }
  prev : 0 < txLog2.blkHeight → ∀ record : Block,
    kv (.blockObject block.blk.hashPrevBlock) = some record →
    kv' (.blockObject block.blk.hashPrevBlock) = some { record with nextBlockHash := 0 }
  other : ∀ hash, hash ≠ block.blockHash →
    (0 < txLog2.blkHeight → hash ≠ block.blk.hashPrevBlock) →
    kv' (.blockObject hash) = kv (.blockObject hash)
  orphan : ∀ h, kv' (.blockOrphan h) =
    if h = txLog2.blkHeight then
      some (insertOrphanBlockHash block.blockHash ((kv (.blockOrphan h)).getD []))
    else kv (.blockOrphan h)
  timestamp : ∀ ts h, kv' (.blockTimestamp ts h) =
    if ts = txLog2.maxBlkTimestamp ∧ h = txLog2.blkHeight then none
    else kv (.blockTimestamp ts h)

section Specs

variable {cfg : Config} {raw : RawTxs} {blocks : RawBlocks} {s : ParserState}
  {block : RawBlock}

theorem insertBlock_spec {height : Int} (ts : Nat)
    (hprev : 0 < height → block.blk.hashPrevBlock ≠ block.blockHash ∧
      (s.kv (.blockObject block.blk.hashPrevBlock)).isSome) :
    wp (insertBlock cfg raw block.blockHash block.blk height ts)
      (fun _ s' => BlockInserted block height s.kv s'.kv) BlockFault s := by
  unfold insertBlock
  rw [wp_bind]
  unfold coinbaseOf
  cases block.blk.vtx with
  | nil => exact .inl rfl
  | cons coinbase rest =>
      rw [wp_pure, wp_bind]
      apply wp_getValueOut_of _ fun _ => .inr (.inl rfl)
      intro valueOut
      rw [wp_bind, wp_assertion]
      refine ⟨fun _ => ?_, fun _ => .inr (.inr rfl)⟩
      simp only [wp_bind, wp_kvSet]
      generalize hnew : Block.mk _ _ _ _ _ _ _ _ _ = new
      have hnext : new.nextBlockHash = 0 := by rw [← hnew]
      have horphan : new.isOrphan = false := by rw [← hnew]
      by_cases hheight : 0 < height
      · obtain ⟨hne, hsome⟩ := hprev hheight
        obtain ⟨prevRecord, hrecord⟩ := Option.isSome_iff_exists.mp hsome
        rw [if_pos hheight, wp_bind]
        have hkept : ∀ val h v, ((s.write ⟨.blockObject block.blockHash, val⟩).write
            ⟨.blockHeight h, v⟩).kv (.blockObject block.blk.hashPrevBlock) =
              some prevRecord := by
          intro val h v
          rw [ParserState.write_kv_of_ne _ _ (by simp),
            ParserState.write_kv_of_ne _ _ (by simpa using hne), hrecord]
        refine wp_kvGet_of _ (fun prevBlock hprevBlock => ?_) fun hnone => by
          cases (hkept ..).symm.trans hnone
        obtain rfl : prevRecord = prevBlock :=
          Option.some.inj ((hkept ..).symm.trans hprevBlock)
        rw [wp_kvSet]
        constructor
        · intro h
          simp [KVDB.apply_of_ne, apply_blockHeight]
        · refine ⟨new, ?_, hnext, horphan⟩
          simp [KVDB.apply_of_ne, hne.symm]
        · intro _ record hrecord'
          cases hrecord.symm.trans hrecord'
          simp
        · intro hash hown hother
          simp [KVDB.apply_of_ne, hown, hother hheight]
        · intro h
          simp [KVDB.apply_of_ne]
        · intro ts h
          simp [KVDB.apply_of_ne]
      · rw [if_neg hheight, wp_pure]
        constructor
        · intro h
          simp [KVDB.apply_of_ne, apply_blockHeight]
        · refine ⟨new, ?_, hnext, horphan⟩
          simp [KVDB.apply_of_ne]
        · intro h
          exact absurd h hheight
        · intro hash hown _
          simp [KVDB.apply_of_ne, hown]
        · intro h
          simp [KVDB.apply_of_ne]
        · intro ts h
          simp [KVDB.apply_of_ne]

theorem removeOrphan_spec {E : Fault → Prop} (height : Int) (hash : Uint256) :
    wp (removeOrphan height hash) (fun _ s' =>
      (∀ h, s'.kv (.blockOrphan h) =
        if h = height then
          ((s.kv (.blockOrphan h)).map (removeOrphanBlockHash hash)).filter (0 < ·.length)
        else s.kv (.blockOrphan h)) ∧
      SameOn (fun key => ∀ h, key ≠ .blockOrphan h) s s') E s := by
  rw [removeOrphan, wp_bind, wp_kvGetMayNotExist]
  cases hvalue : s.kv (.blockOrphan height) with
  | none =>
      refine ⟨fun h => ?_, fun _ _ => rfl⟩
      by_cases heq : h = height
      · subst heq
        simp [hvalue]
      · simp [heq]
  | some value =>
      apply wp_ite
      · intro hpos
        refine ⟨fun h => ?_, fun key hkey => s.write_kv_of_ne _ (hkey height)⟩
        by_cases heq : h = height
        · subst heq
          simp [hvalue, Option.filter, hpos]
        · simp [heq, apply_blockOrphan]
      · intro hpos
        refine ⟨fun h => ?_, fun key hkey => s.write_kv_of_ne _ (hkey height)⟩
        by_cases heq : h = height
        · subst heq
          simp [hvalue, Option.filter, hpos]
        · simp [heq, apply_blockOrphan]

theorem acceptBlock_spec {txLog2 : TxLog2} (hblock : blocks txLog2.blkId = some block)
    (hprev : 0 < txLog2.blkHeight → block.blk.hashPrevBlock ≠ block.blockHash ∧
      (s.kv (.blockObject block.blk.hashPrevBlock)).isSome) :
    wp (acceptBlock cfg raw blocks txLog2)
      (fun _ s' => BlockAccepted block txLog2 s.kv s'.kv) BlockFault s := by
  unfold acceptBlock getBlockRawHexByBlockId
  rw [hblock, wp_bind, wp_pure]
  refine wp_seq (insertBlock_spec txLog2.maxBlkTimestamp hprev) ?_
  intro _ s1 hinserted
  refine wp_seq (insertBlockTxs_spec block.blockHash block.blk) ?_
  intro _ s2 h2
  refine wp_seq (removeOrphan_spec txLog2.blkHeight block.blockHash) ?_
  rintro _ s3 ⟨horphan, h3⟩
  rw [wp_bind, wp_kvSet]
  refine wp_mono (noteBlock_spec ..) ?_ fun _ he => he
  intro _ s4 h4
  rw [h4, ParserState.write_kv]
  refine ⟨⟨s1.kv, hinserted, fun h => ?_, fun hash => ?_⟩, fun h => ?_, fun ts h => ?_⟩
  · rw [KVDB.apply_of_ne _ _ (by simp), h3 _ (by simp)]
    exact h2 _ trivial
  · rw [KVDB.apply_of_ne _ _ (by simp), h3 _ (by simp)]
    exact h2 _ trivial
  · rw [KVDB.apply_of_ne _ _ (by simp), horphan, h2 (.blockOrphan h) trivial,
      hinserted.orphan]
  · rw [apply_blockTimestamp, h3 _ (by simp), h2 (.blockTimestamp ts h) trivial,
      hinserted.timestamp]

theorem rejectBlock_spec {E : Fault → Prop} {txLog2 : TxLog2}
    (hblock : blocks txLog2.blkId = some block)
    (hown : (s.kv (.blockObject block.blockHash)).isSome)
    (hprev : 0 < txLog2.blkHeight → block.blk.hashPrevBlock ≠ block.blockHash ∧
      (s.kv (.blockObject block.blk.hashPrevBlock)).isSome) :
    wp (rejectBlock blocks txLog2)
      (fun _ s' => BlockRejected block txLog2 s.kv s'.kv) E s := by
  obtain ⟨record, hrecord⟩ := Option.isSome_iff_exists.mp hown
  unfold rejectBlock getBlockRawHexByBlockId insertOrphan
  simp only [hblock, wp_bind, wp_pure, wp_kvSet, wp_kvDel]
  have hkept : ∀ hash v w, ((s.write ⟨.blockOrphan txLog2.blkHeight, v⟩).write
      ⟨.blockHeight txLog2.blkHeight, w⟩).kv (.blockObject hash) =
        s.kv (.blockObject hash) := by
    intro hash v w
    rw [ParserState.write_kv_of_ne _ _ (by simp), ParserState.write_kv_of_ne _ _ (by simp)]
  refine wp_kvGet_of _ (fun record' hrecord' => ?_) fun hnone => by
    cases hrecord.symm.trans ((hkept ..).symm.trans hnone)
  obtain rfl : record = record' :=
    Option.some.inj (hrecord.symm.trans ((hkept ..).symm.trans hrecord'))
  by_cases hheight : 0 < txLog2.blkHeight
  · obtain ⟨hne, hsome⟩ := hprev hheight
    obtain ⟨prevRecord, hprevRecord⟩ := Option.isSome_iff_exists.mp hsome
    rw [if_pos hheight, wp_bind]
    refine wp_kvGet_of _ (fun prevBlock hprevBlock => ?_) fun hnone => ?_
    · simp only [ParserState.write_kv] at hprevBlock
      rw [KVDB.apply_of_ne _ _ (by simp), KVDB.apply_of_ne _ _ (by simpa using hne),
        KVDB.apply_of_ne _ _ (by simp), KVDB.apply_of_ne _ _ (by simp)] at hprevBlock
      obtain rfl : prevRecord = prevBlock :=
        Option.some.inj (hprevRecord.symm.trans hprevBlock)
      rw [wp_bind, wp_kvSet]
      refine wp_mono (noteBlock_spec ..) ?_ fun _ he => he
      intro _ s' hs'
      rw [hs']
      constructor
      · intro h
        simp [KVDB.apply_of_ne, apply_blockHeight]
      · intro record' hrecord'
        cases hrecord.symm.trans hrecord'
        simp [KVDB.apply_of_ne, hne.symm]
      · intro _ record' hrecord'
        cases hprevRecord.symm.trans hrecord'
        simp
      · intro hash hown' hother
        simp [KVDB.apply_of_ne, hown', hother hheight]
      · intro h
        by_cases heq : h = txLog2.blkHeight
        · subst heq
          simp [KVDB.apply_of_ne]
        · simp [KVDB.apply_of_ne, heq]
      · intro ts h
        simp [KVDB.apply_of_ne, apply_blockTimestamp]
    · simp only [ParserState.write_kv] at hnone
      rw [KVDB.apply_of_ne _ _ (by simp), KVDB.apply_of_ne _ _ (by simpa using hne),
        KVDB.apply_of_ne _ _ (by simp), KVDB.apply_of_ne _ _ (by simp), hprevRecord] at hnone
      cases hnone
  · rw [if_neg hheight]
    refine wp_mono (noteBlock_spec ..) ?_ fun _ he => he
    intro _ s' hs'
    rw [hs']
    constructor
    · intro h
      simp [KVDB.apply_of_ne, apply_blockHeight]
    · intro record' hrecord'
      cases hrecord.symm.trans hrecord'
      simp [KVDB.apply_of_ne]
    · intro h
      exact absurd h hheight
    · intro hash hown' _
      simp [KVDB.apply_of_ne, hown']
    · intro h
      by_cases heq : h = txLog2.blkHeight
      · subst heq
        simp [KVDB.apply_of_ne]
      · simp [KVDB.apply_of_ne, heq]
    · intro ts h
      simp [KVDB.apply_of_ne, apply_blockTimestamp]

end Specs

/-! ## The invariant -/

structure BlockInv (blocks : RawBlocks) (p : BlockLedger) (kv : KVDB) : Prop where
  correct : BlockIndexCorrect p kv
  known : ∀ h b, blockAt p.chain h = some b → ∃ id block, blocks id = some block ∧
    block.blockHash = b.hash ∧ block.blockHeight = h ∧
    ∀ a, blockAt p.chain (h - 1) = some a → block.blk.hashPrevBlock = a.hash
  rejected : ∀ h hash, (h, hash) ∈ p.rejected → ∃ id block, blocks id = some block ∧
    block.blockHash = hash ∧ block.blockHeight = h

theorem blockInv_initial (blocks : RawBlocks) : BlockInv blocks .empty KVDB.empty where
  correct :=
    { height := fun h => by simp [BlockLedger.empty, blockAt, KVDB.empty]
      next_hash := fun h b hb => by simp [BlockLedger.empty, blockAt] at hb
      is_orphan := fun hash record h => by cases h
      orphans := fun h => by simp [BlockLedger.empty, BlockLedger.orphans, KVDB.empty]
      timestamp := fun ts h => by simp [BlockLedger.empty, blockAt, KVDB.empty] }
  known h b hb := by simp [BlockLedger.empty, blockAt] at hb
  rejected h hash hmem := by simp [BlockLedger.empty] at hmem

section Inv

variable {blocks : RawBlocks} {p : BlockLedger} {kv kv' : KVDB} {block : RawBlock}
  {id : Int} {txLog2 : TxLog2}

theorem BlockInv.height_eq (hinv : BlockInv blocks p kv) (hc : blocks.Consistent)
    (hblock : blocks id = some block) {h : Int} {b : MainBlock}
    (hb : blockAt p.chain h = some b) (hhash : b.hash = block.blockHash) :
    h = block.blockHeight ∧
      ∀ a, blockAt p.chain (h - 1) = some a → block.blk.hashPrevBlock = a.hash := by
  obtain ⟨id', block', hblock', hhash', hheight, hprev⟩ := hinv.known h b hb
  obtain ⟨hsame, hprevEq⟩ := hc _ _ _ _ hblock' hblock (hhash'.trans hhash)
  exact ⟨hheight.symm.trans hsame, fun a ha => hprevEq ▸ hprev a ha⟩

theorem BlockInv.hash_inj (hinv : BlockInv blocks p kv) (hc : blocks.Consistent)
    {h h' : Int} {b b' : MainBlock} (hb : blockAt p.chain h = some b)
    (hb' : blockAt p.chain h' = some b') (hhash : b.hash = b'.hash) : h = h' := by
  obtain ⟨id, block, hblock, hhash', hheight, -⟩ := hinv.known h' b' hb'
  exact ((hinv.height_eq hc hblock hb (hhash.trans hhash'.symm)).1).trans hheight

theorem BlockLedger.mem_hashes {hash : Uint256} :
    hash ∈ p.hashes ↔ ∃ h b, blockAt p.chain h = some b ∧ b.hash = hash := by
  simp only [hashes, List.mem_map, mem_chain_iff]
  constructor
  · rintro ⟨b, ⟨h, hb⟩, rfl⟩
    exact ⟨h, b, hb, rfl⟩
  · rintro ⟨h, b, hb, rfl⟩
    exact ⟨b, ⟨h, hb⟩, rfl⟩

theorem BlockInv.rejected_height (hinv : BlockInv blocks p kv) (hc : blocks.Consistent)
    (hblock : blocks id = some block) {h : Int}
    (hmem : (h, block.blockHash) ∈ p.rejected) : h = block.blockHeight := by
  obtain ⟨id', block', hblock', hhash, hheight⟩ := hinv.rejected h _ hmem
  exact hheight.symm.trans (hc _ _ _ _ hblock' hblock hhash).1

theorem BlockInv.fresh (hinv : BlockInv blocks p kv) (hc : blocks.Consistent)
    (hblock : blocks id = some block) (hheight : block.blockHeight = p.chain.length) :
    block.blockHash ∉ p.hashes := by
  rw [BlockLedger.mem_hashes]
  rintro ⟨h, b, hb, hhash⟩
  have := (hinv.height_eq hc hblock hb hhash).1
  have := blockAt_lt hb
  omega

theorem blockAt_length_sub_one (chain : List MainBlock) (h : 0 < chain.length) :
    ∃ tip, chain.getLast? = some tip ∧ blockAt chain (chain.length - 1) = some tip := by
  obtain ⟨rest, tip, rfl⟩ := List.eq_nil_or_concat' chain |>.resolve_left (by
    rintro rfl
    simp at h)
  refine ⟨tip, by simp, ?_⟩
  rw [blockAt_append, if_pos (by simp)]

theorem BlockInv.known_append (hinv : BlockInv blocks p kv)
    (hblock : blocks id = some block) (hheight : block.blockHeight = p.chain.length)
    (htip : ∀ tip, p.chain.getLast? = some tip → block.blk.hashPrevBlock = tip.hash)
    (ts : Nat) {h : Int} {b : MainBlock}
    (hb : blockAt (p.chain ++ [⟨block.blockHash, ts⟩]) h = some b) :
    ∃ id block', blocks id = some block' ∧ block'.blockHash = b.hash ∧
      block'.blockHeight = h ∧
      ∀ a, blockAt (p.chain ++ [⟨block.blockHash, ts⟩]) (h - 1) = some a →
        block'.blk.hashPrevBlock = a.hash := by
  rw [blockAt_append] at hb
  split at hb
  · rename_i heq
    cases hb
    refine ⟨id, block, hblock, rfl, hheight.trans heq.symm, fun a ha => ?_⟩
    rw [blockAt_append, if_neg (by omega)] at ha
    obtain ⟨tip, hlast, hat⟩ := blockAt_length_sub_one p.chain
      (by have := blockAt_lt ha; omega)
    rw [heq, hat] at ha
    cases ha
    exact htip a hlast
  · obtain ⟨id', block', hblock', hhash, hheight', hprev⟩ := hinv.known h b hb
    refine ⟨id', block', hblock', hhash, hheight', fun a ha => hprev a ?_⟩
    have := blockAt_lt hb
    rwa [blockAt_append, if_neg (by omega)] at ha

section Accept

variable (hinv : BlockInv blocks p kv) (hc : blocks.Consistent)
  (hblock : blocks id = some block) (hheight : block.blockHeight = p.chain.length)
  (hrow : txLog2.blkHeight = p.chain.length)
  (htip : ∀ tip, p.chain.getLast? = some tip → block.blk.hashPrevBlock = tip.hash)
  (haccepted : BlockAccepted block txLog2 kv kv')

include hinv hc hblock hheight hrow htip haccepted

theorem accept_object {h : Int} {b : MainBlock} (hb : blockAt p.chain h = some b)
    {record : Block} (hrecord : kv (.blockObject b.hash) = some record) :
    kv' (.blockObject b.hash) = some { record with nextBlockHash :=
      if h + 1 = p.chain.length then block.blockHash else record.nextBlockHash } := by
  obtain ⟨kv₁, hinserted, -, hobject⟩ := haccepted.inserted
  have hne : b.hash ≠ block.blockHash := fun heq =>
    hinv.fresh hc hblock hheight (BlockLedger.mem_hashes.mpr ⟨h, b, hb, heq⟩)
  have hrange := blockAt_lt hb
  obtain ⟨tip, hlast, hat⟩ := blockAt_length_sub_one p.chain (by omega)
  rw [hobject]
  by_cases heq : h + 1 = p.chain.length
  · rw [if_pos heq]
    have hh : h = p.chain.length - 1 := by omega
    rw [hh, hat] at hb
    cases hb
    rw [← htip _ hlast] at hrecord ⊢
    exact hinserted.prev (by omega) record hrecord
  · rw [if_neg heq, hinserted.other _ hne, hrecord]
    intro _ heq'
    have := hinv.hash_inj hc hb hat (heq'.trans (htip tip hlast))
    omega

theorem accept_is_orphan (hash : Uint256) (record : Block)
    (hrecord : kv' (.blockObject hash) = some record) :
    record.isOrphan = false ↔ hash ∈ p.hashes ∨ hash = block.blockHash := by
  obtain ⟨kv₁, hinserted, -, hobject⟩ := haccepted.inserted
  by_cases hmem : hash ∈ p.hashes
  · obtain ⟨h, b, hb, rfl⟩ := BlockLedger.mem_hashes.mp hmem
    obtain ⟨old, hold, -⟩ := hinv.correct.next_hash h b hb
    rw [accept_object hinv hc hblock hheight hrow htip haccepted hb hold] at hrecord
    cases hrecord
    exact iff_of_true ((hinv.correct.is_orphan _ old hold).mpr hmem) (.inl hmem)
  by_cases hown : hash = block.blockHash
  · subst hown
    obtain ⟨new, hnew, -, horphan⟩ := hinserted.own
    rw [hobject, hnew] at hrecord
    cases hrecord
    exact iff_of_true horphan (.inr rfl)
  · rw [hobject, hinserted.other hash hown] at hrecord
    · have := hinv.correct.is_orphan hash record hrecord
      simp [this, hmem, hown]
    · -- a predecessor is on the chain
      rintro hpos rfl
      obtain ⟨tip, hlast, hat⟩ := blockAt_length_sub_one p.chain (by omega)
      exact hmem (BlockLedger.mem_hashes.mpr ⟨_, tip, hat, (htip tip hlast).symm⟩)

omit htip in
theorem accept_orphans (ts : Nat) (h : Int) :
    let p' : BlockLedger := { p with chain := p.chain ++ [⟨block.blockHash, ts⟩] }
    kv' (.blockOrphan h) = if p'.orphans h = ∅ then none else some (p'.orphans h).sort := by
  intro p'
  have hmem : ∀ hash, hash ∈ p'.orphans h ↔
      hash ∈ p.orphans h ∧ hash ≠ block.blockHash := by
    intro hash
    simp [p', BlockLedger.mem_orphans, BlockLedger.hashes, and_assoc]
  rw [haccepted.orphan, hinv.correct.orphans]
  by_cases heq : h = txLog2.blkHeight
  · have herase : p'.orphans h = (p.orphans h).erase block.blockHash := by
      ext hash
      rw [hmem, Finset.mem_erase, and_comm]
    rw [if_pos heq, herase]
    by_cases hempty : p.orphans h = ∅
    · simp [hempty]
    · by_cases hrest : (p.orphans h).erase block.blockHash = ∅
      · simp [hempty, hrest, removeOrphanBlockHash]
      · have hcard : 0 < ((p.orphans h).erase block.blockHash).card :=
          Finset.card_pos.mpr (Finset.nonempty_iff_ne_empty.mpr hrest)
        simp [hempty, hrest, removeOrphanBlockHash, Option.filter, hcard]
  · have hsame : p'.orphans h = p.orphans h := by
      ext hash
      rw [hmem, and_iff_left_iff_imp]
      rintro hold rfl
      have := hinv.rejected_height hc hblock (BlockLedger.mem_orphans.mp hold).1
      omega
    rw [if_neg heq, hsame]

theorem accept_inv : BlockInv blocks
    { p with chain := p.chain ++ [⟨block.blockHash, txLog2.maxBlkTimestamp⟩] } kv' where
  correct := by
    obtain ⟨kv₁, hinserted, hheightKey, hobject⟩ := haccepted.inserted
    constructor
    · intro h
      rw [hheightKey, hinserted.height_key, blockAt_append, hrow, hinv.correct.height]
      split <;> rfl
    · intro h b hb
      rw [blockAt_append] at hb
      rw [blockAt_append]
      split at hb
      · rename_i heq
        cases hb
        obtain ⟨new, hnew, hnext, -⟩ := hinserted.own
        refine ⟨new, (hobject _).trans hnew, ?_⟩
        rw [hnext, if_neg (by omega), blockAt_none (by omega)]
        rfl
      · obtain ⟨old, hold, hnext⟩ := hinv.correct.next_hash h b hb
        refine ⟨_, accept_object hinv hc hblock hheight hrow htip haccepted hb hold, ?_⟩
        dsimp only
        split
        · rfl
        · exact hnext
    · intro hash record hrecord
      rw [accept_is_orphan hinv hc hblock hheight hrow htip haccepted hash record hrecord]
      simp [BlockLedger.hashes]
    · exact accept_orphans hinv hc hblock hheight hrow haccepted _
    · intro ts h
      rw [haccepted.timestamp, blockAt_append, hinv.correct.timestamp, hrow]
      by_cases heq : h = p.chain.length
      · have hnone : blockAt p.chain p.chain.length = none := blockAt_none le_rfl
        by_cases hts : ts = txLog2.maxBlkTimestamp
        · simp [heq, hts, Option.filter]
        · simp [heq, hts, Ne.symm hts, hnone, Option.filter]
      · simp [heq]
  known _ _ hb := hinv.known_append hblock hheight htip _ hb
  rejected := hinv.rejected

end Accept

section Reject

variable {rest : List MainBlock} (hinv : BlockInv blocks p kv) (hc : blocks.Consistent)
  (hblock : blocks id = some block)
  (htip : p.chain = rest ++ [⟨block.blockHash, txLog2.maxBlkTimestamp⟩])

include hinv hc hblock htip

theorem reject_tip : block.blockHeight = rest.length ∧
    ∀ a, blockAt rest (rest.length - 1) = some a → block.blk.hashPrevBlock = a.hash := by
  have hat : blockAt p.chain rest.length =
      some ⟨block.blockHash, txLog2.maxBlkTimestamp⟩ := by
    rw [htip, blockAt_append, if_pos rfl]
  obtain ⟨hheight, hprev⟩ := hinv.height_eq hc hblock hat rfl
  refine ⟨hheight.symm, fun a ha => hprev a ?_⟩
  rw [htip, blockAt_append, if_neg (by omega), ha]

theorem reject_fresh {h : Int} {b : MainBlock} (hb : blockAt rest h = some b) :
    b.hash ≠ block.blockHash := by
  intro heq
  have hat : blockAt p.chain h = some b := by
    rw [htip, blockAt_append, if_neg (by have := blockAt_lt hb; omega), hb]
  have := (hinv.height_eq hc hblock hat heq).1
  have := (reject_tip hinv hc hblock htip).1
  have := blockAt_lt hb
  omega

variable (hrow : txLog2.blkHeight = rest.length)
  (hrejected : BlockRejected block txLog2 kv kv')

include hrow hrejected

theorem reject_object {h : Int} {b : MainBlock} (hb : blockAt rest h = some b)
    {record : Block} (hrecord : kv (.blockObject b.hash) = some record) :
    kv' (.blockObject b.hash) = some { record with nextBlockHash :=
      if h + 1 = rest.length then 0 else record.nextBlockHash } := by
  have hrange := blockAt_lt hb
  obtain ⟨tip, -, hat⟩ := blockAt_length_sub_one rest (by omega)
  have hprev := (reject_tip hinv hc hblock htip).2 tip hat
  by_cases heq : h + 1 = rest.length
  · rw [if_pos heq]
    have hh : h = rest.length - 1 := by omega
    rw [hh, hat] at hb
    cases hb
    rw [← hprev] at hrecord ⊢
    exact hrejected.prev (by omega) record hrecord
  · rw [if_neg heq, hrejected.other _ (reject_fresh hinv hc hblock htip hb), hrecord]
    intro _ heq'
    have hb' : blockAt p.chain h = some b := by
      rw [htip, blockAt_append, if_neg (by omega), hb]
    have hat' : blockAt p.chain (rest.length - 1) = some tip := by
      rw [htip, blockAt_append, if_neg (by omega), hat]
    have := hinv.hash_inj hc hb' hat' (heq'.trans hprev)
    omega

theorem reject_is_orphan (hash : Uint256) (record : Block)
    (hrecord : kv' (.blockObject hash) = some record) :
    record.isOrphan = false ↔ hash ∈ rest.map (·.hash) := by
  have hiff : hash ∈ rest.map (·.hash) ↔ ∃ h b, blockAt rest h = some b ∧ b.hash = hash :=
    BlockLedger.mem_hashes (p := ⟨rest, []⟩)
  have hsplit : hash ∈ p.hashes ↔ hash ∈ rest.map (·.hash) ∨ hash = block.blockHash := by
    simp [BlockLedger.hashes, htip]
  by_cases hmem : hash ∈ rest.map (·.hash)
  · obtain ⟨h, b, hb, rfl⟩ := hiff.mp hmem
    have hat : blockAt p.chain h = some b := by
      rw [htip, blockAt_append, if_neg (by have := blockAt_lt hb; omega), hb]
    obtain ⟨old, hold, -⟩ := hinv.correct.next_hash h b hat
    rw [reject_object hinv hc hblock htip hrow hrejected hb hold] at hrecord
    cases hrecord
    exact iff_of_true ((hinv.correct.is_orphan _ old hold).mpr (hsplit.mpr (.inl hmem))) hmem
  by_cases hown : hash = block.blockHash
  · subst hown
    have hat : blockAt p.chain rest.length =
        some ⟨block.blockHash, txLog2.maxBlkTimestamp⟩ := by
      rw [htip, blockAt_append, if_pos rfl]
    obtain ⟨old, hold, -⟩ := hinv.correct.next_hash _ _ hat
    rw [hrejected.own old hold] at hrecord
    cases hrecord
    exact iff_of_false (by simp) hmem
  · rw [hrejected.other hash hown] at hrecord
    · rw [hinv.correct.is_orphan hash record hrecord, hsplit]
      simp [hmem, hown]
    · rintro hpos rfl
      obtain ⟨tip, -, hat⟩ := blockAt_length_sub_one rest (by omega)
      exact hmem (hiff.mpr ⟨_, tip, hat, ((reject_tip hinv hc hblock htip).2 tip hat).symm⟩)

theorem reject_orphans (h : Int) :
    let p' : BlockLedger := ⟨rest, (txLog2.blkHeight, block.blockHash) :: p.rejected⟩
    kv' (.blockOrphan h) = if p'.orphans h = ∅ then none else some (p'.orphans h).sort := by
  intro p'
  have hfresh : block.blockHash ∉ rest.map (·.hash) := by
    intro hmem
    obtain ⟨b, hb, heq⟩ := List.mem_map.mp hmem
    obtain ⟨h, hat⟩ := mem_chain_iff.mp hb
    exact reject_fresh hinv hc hblock htip hat heq
  have hmem : ∀ hash, hash ∈ p'.orphans h ↔
      hash ∈ p.orphans h ∨ h = txLog2.blkHeight ∧ hash = block.blockHash := by
    intro hash
    have hsplit : hash ∈ p.hashes ↔ hash ∈ rest.map (·.hash) ∨ hash = block.blockHash := by
      simp [BlockLedger.hashes, htip]
    have hp' : hash ∈ p'.orphans h ↔ ((h = txLog2.blkHeight ∧ hash = block.blockHash) ∨
        (h, hash) ∈ p.rejected) ∧ hash ∉ rest.map (·.hash) := by
      rw [BlockLedger.mem_orphans, List.mem_cons, Prod.mk.injEq]
      rfl
    rw [hp', BlockLedger.mem_orphans, hsplit]
    by_cases heq : hash = block.blockHash
    · subst heq
      have hheight : (h, block.blockHash) ∈ p.rejected → h = txLog2.blkHeight := fun hold => by
        rw [hinv.rejected_height hc hblock hold, hrow]
        exact (reject_tip hinv hc hblock htip).1
      simp only [hfresh, and_true, not_false_eq_true, false_or, not_true, and_false]
      exact ⟨fun h1 => h1.elim (fun h2 => h2) hheight, .inl⟩
    · simp [heq]
  rw [hrejected.orphan, hinv.correct.orphans]
  by_cases heq : h = txLog2.blkHeight
  · have hinsert : p'.orphans h = insert block.blockHash (p.orphans h) := by
      ext hash
      rw [hmem, Finset.mem_insert, or_comm]
      simp [heq]
    rw [if_pos heq, hinsert, if_neg (Finset.insert_ne_empty _ _)]
    by_cases hempty : p.orphans h = ∅
    · simp [hempty, insertOrphanBlockHash]
    · simp [hempty, insertOrphanBlockHash]
  · have hsame : p'.orphans h = p.orphans h := by
      ext hash
      rw [hmem]
      simp [heq]
    rw [if_neg heq, hsame]

theorem reject_inv : BlockInv blocks
    ⟨rest, (txLog2.blkHeight, block.blockHash) :: p.rejected⟩ kv' where
  correct := by
    have hat : ∀ h, blockAt p.chain h = if h = rest.length then
        some ⟨block.blockHash, txLog2.maxBlkTimestamp⟩ else blockAt rest h := fun h => by
      rw [htip, blockAt_append]
    constructor
    · intro h
      rw [hrejected.height_key, hrow, hinv.correct.height, hat]
      split
      · rename_i heq
        rw [blockAt_none heq.ge]
        rfl
      · rfl
    · intro h b hb
      have hlt : 0 ≤ h ∧ h < rest.length := blockAt_lt hb
      have hb' : blockAt p.chain h = some b := by rw [hat, if_neg (by omega), hb]
      obtain ⟨old, hold, hnext⟩ := hinv.correct.next_hash h b hb'
      refine ⟨_, reject_object hinv hc hblock htip hrow hrejected hb hold, ?_⟩
      rw [hat] at hnext
      dsimp only
      split
      · rename_i heq
        rw [blockAt_none heq.ge]
        rfl
      · rename_i hne
        rwa [if_neg hne] at hnext
    · exact reject_is_orphan hinv hc hblock htip hrow hrejected
    · exact reject_orphans hinv hc hblock htip hrow hrejected
    · intro ts h
      rw [hrejected.timestamp, hrow, hinv.correct.timestamp, hat]
      by_cases heq : h = rest.length
      · have hnone : blockAt rest rest.length = none := blockAt_none le_rfl
        by_cases hts : ts = txLog2.maxBlkTimestamp
        · simp [heq, hts, hnone]
        · simp [heq, hts, Ne.symm hts, hnone, Option.filter]
      · simp [heq]
  known h b hb := by
    have hlt : 0 ≤ h ∧ h < rest.length := blockAt_lt hb
    obtain ⟨id', block', hblock', hhash, hheight, hprev⟩ := hinv.known h b (by
      rw [htip, blockAt_append, if_neg (by omega), hb])
    refine ⟨id', block', hblock', hhash, hheight, fun a ha => hprev a ?_⟩
    rw [htip, blockAt_append, if_neg (by omega)]
    exact ha
  rejected h hash hmem := by
    rcases List.mem_cons.mp hmem with heq | hold
    · cases heq
      exact ⟨id, block, hblock, rfl, hrow ▸ (reject_tip hinv hc hblock htip).1⟩
    · exact hinv.rejected h hash hold

end Reject

end Inv

/-! ## Runs -/

section Runs

variable {cfg : Config} {raw : RawTxs} {blocks : RawBlocks} {p : BlockLedger}
  {s : ParserState} {row : BlockRow}

theorem applyBlockRow_inv (hc : blocks.Consistent) (hallowed : p.Allowed blocks row)
    (hinv : BlockInv blocks p s.kv) :
    wp (applyBlockRow cfg raw blocks row)
      (fun _ s' => BlockInv blocks (p.next blocks row) s'.kv) BlockFault s := by
  have hrecord : ∀ h b, blockAt p.chain h = some b →
      (s.kv (.blockObject b.hash)).isSome := by
    intro h b hb
    obtain ⟨record, hrecord, -⟩ := hinv.correct.next_hash h b hb
    rw [hrecord]
    rfl
  cases hallowed with
  | accept block hop hblock hheight hrow htip =>
      have hprev : 0 < row.txLog2.blkHeight →
          block.blk.hashPrevBlock ≠ block.blockHash ∧
            (s.kv (.blockObject block.blk.hashPrevBlock)).isSome := by
        intro hpos
        obtain ⟨tip, hlast, hat⟩ := blockAt_length_sub_one p.chain (by omega)
        have hfresh := hinv.fresh hc hblock (hheight.trans hrow)
        rw [htip tip hlast]
        refine ⟨fun heq => hfresh ?_, hrecord _ _ hat⟩
        exact BlockLedger.mem_hashes.mpr ⟨_, tip, hat, heq⟩
      simp only [applyBlockRow, hop, BlockLedger.next, hblock]
      exact wp_mono (acceptBlock_spec hblock hprev) (fun _ _ haccepted =>
        accept_inv hinv hc hblock (hheight.trans hrow) hrow htip haccepted) fun _ he => he
  | reject block rest hop hblock hheight htip =>
      obtain ⟨hrest, hprevTip⟩ := reject_tip hinv hc hblock htip
      have hat : ∀ {h b}, blockAt rest h = some b → blockAt p.chain h = some b := by
        intro h b hb
        rw [htip, blockAt_append, if_neg (by have := blockAt_lt hb; omega), hb]
      have hown : (s.kv (.blockObject block.blockHash)).isSome := by
        refine hrecord rest.length ⟨block.blockHash, row.txLog2.maxBlkTimestamp⟩ ?_
        rw [htip, blockAt_append, if_pos rfl]
      have hprev : 0 < row.txLog2.blkHeight →
          block.blk.hashPrevBlock ≠ block.blockHash ∧
            (s.kv (.blockObject block.blk.hashPrevBlock)).isSome := by
        intro hpos
        obtain ⟨tip, -, htipAt⟩ := blockAt_length_sub_one rest (by omega)
        rw [hprevTip tip htipAt]
        exact ⟨reject_fresh hinv hc hblock htip htipAt, hrecord _ _ (hat htipAt)⟩
      simp only [applyBlockRow, hop, BlockLedger.next, hblock, htip, List.dropLast_concat]
      exact wp_mono (rejectBlock_spec hblock hown hprev) (fun _ _ hrejected =>
        reject_inv hinv hc hblock htip (hheight.symm.trans hrest) hrejected) fun _ he => he

theorem applyBlockRows_inv (cfg : Config) (raw : RawTxs) {rows : List BlockRow}
    (hc : blocks.Consistent)
    (hrows : ObeysChain blocks rows) :
    wp (forM rows (applyBlockRow cfg raw blocks))
      (fun _ s' => BlockInv blocks (.after blocks rows) s'.kv) BlockFault .initial :=
  wp_forM_along (fun p (s : ParserState) => BlockInv blocks p s.kv)
    (fun _ _ _ hallowed hinv => applyBlockRow_inv hc hallowed hinv) hrows
    (by exact blockInv_initial blocks)

end Runs

/--
After every run of accepts on the tip and rejects of the tip, the block index is
that of the main chain.  A run ends early only at a block without a valid coinbase.
-/
theorem blockIndex_correct (cfg : Config) (raw : RawTxs) (blocks : RawBlocks)
    (rows : List BlockRow) (hblocks : blocks.Consistent) (hrows : ObeysChain blocks rows) :
    (∀ s, runBlockRows cfg raw blocks rows = .ok ((), s) →
      BlockIndexCorrect (.after blocks rows) s.kv) ∧
    ∀ e, runBlockRows cfg raw blocks rows = .error e → BlockFault e := by
  obtain ⟨hok, herror⟩ := wp_iff.mp
    (applyBlockRows_inv cfg raw hblocks hrows)
  exact ⟨fun s hs => (hok () s hs).correct, herror⟩

def exampleBlocks : RawBlocks := fun id =>
  match id with
  | 1 => some ⟨100, 0, ⟨0, 1231006505, [1]⟩⟩
  | 2 => some ⟨101, 1, ⟨100, 1231469665, [2]⟩⟩
  | 3 => some ⟨102, 1, ⟨100, 1231469744, [3]⟩⟩
  | _ => none

def exampleBlockRow (op : BlockOp) (blkId blkHeight : Int) (maxBlkTimestamp : Nat) :
    BlockRow where
  op := op
  txLog2 := fetchTxLog2 exampleRaw
    ⟨1, if op = .accept then .txConfirm else .txReject, blkHeight, blkId,
      maxBlkTimestamp, 1⟩

/-- The first block of height one goes, comes back, and is replaced by the second. -/
def exampleBlockRows : List BlockRow :=
  [exampleBlockRow .accept 1 0 1231006505,
   exampleBlockRow .accept 2 1 1231469665,
   exampleBlockRow .reject 2 1 1231469665,
   exampleBlockRow .accept 2 1 1231469665,
   exampleBlockRow .reject 2 1 1231469665,
   exampleBlockRow .accept 3 1 1231469744]

theorem exampleBlocks_consistent : exampleBlocks.Consistent := by
  have hcases : ∀ id block, exampleBlocks id = some block →
      block = ⟨100, 0, ⟨0, 1231006505, [1]⟩⟩ ∨ block = ⟨101, 1, ⟨100, 1231469665, [2]⟩⟩ ∨
        block = ⟨102, 1, ⟨100, 1231469744, [3]⟩⟩ := by
    intro id block hblock
    unfold exampleBlocks at hblock
    split at hblock <;> simp_all
  intro i j a b ha hb hhash
  rcases hcases i a ha with rfl | rfl | rfl <;> rcases hcases j b hb with rfl | rfl | rfl <;>
    first | exact ⟨rfl, rfl⟩ | exact absurd hhash (by decide)

theorem blockIndex_correct_example :
    ∃ s, runBlockRows exampleConfig exampleRaw exampleBlocks exampleBlockRows =
        .ok ((), s) ∧
      BlockIndexCorrect (.after exampleBlocks exampleBlockRows) s.kv := by
  have hrows : ObeysChain exampleBlocks exampleBlockRows := by
    refine ⟨.accept _ rfl rfl rfl rfl (by simp [BlockLedger.empty]),
      .accept _ rfl rfl rfl rfl ?_, .reject _ [_] rfl rfl rfl rfl,
      .accept _ rfl rfl rfl rfl ?_, .reject _ [_] rfl rfl rfl rfl,
      .accept _ rfl rfl rfl rfl ?_, trivial⟩ <;>
    · intro tip htip
      cases htip
      rfl
  obtain ⟨s, hs⟩ := exists_of_isOk (show (runBlockRows exampleConfig exampleRaw
    exampleBlocks exampleBlockRows).isOk = true by decide +kernel)
  exact ⟨s, hs, (blockIndex_correct exampleConfig exampleRaw exampleBlocks exampleBlockRows
    exampleBlocks_consistent hrows).1 s hs⟩

end ExplorerKV.Parser
