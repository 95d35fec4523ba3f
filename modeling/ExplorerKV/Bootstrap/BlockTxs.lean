import ExplorerKV.Bootstrap.PreParser
import ExplorerKV.Foundation.Chunks

/-!
# The transaction list of a block

`_insertBlockTxs` of the parser and of the importer: the hashes of a block go
into the `12_` records in chunks.
-/

namespace ExplorerKV.Bootstrap

open Bitcoin Foundation
open ExplorerKV.Parser (ParserState kBatchSize)

def blockTxsWrites (blockHash : Uint256) (chunks : List (List Uint256)) : List KVWrite :=
  chunks.zipIdx.map fun (chunk, i) => ⟨.blockTxsStr blockHash i, some chunk⟩

/-- The write of the `i`-th chunk of a block. -/
def chunkWrite (blockHash : Uint256) (vtx : List Uint256) (i : Nat) : KVWrite :=
  ⟨.blockTxsStr blockHash i, some (chunk kBatchSize vtx i)⟩

theorem kBatchSize_pos : 0 < kBatchSize := by decide

variable (blockHash : Uint256) (blk : CBlock)

theorem blockTxsWrites_chunks (vtx : List Uint256) :
    blockTxsWrites blockHash (chunks kBatchSize vtx) =
      (List.range (chunkCount kBatchSize vtx.length)).map (chunkWrite blockHash vtx) := by
  apply List.ext_getElem
  · simp [blockTxsWrites, chunks]
  · intro i hi hi'
    simp [blockTxsWrites, chunks, chunkWrite]

theorem foldl_blockTxsWrites {σ : Type} (write : σ → KVWrite → σ) (vtx : List Uint256) (s : σ) :
    (blockTxsWrites blockHash (chunks kBatchSize vtx)).foldl write s =
      afterChunks kBatchSize
        (fun i value s => write s ⟨.blockTxsStr blockHash i, some value⟩) vtx
        (chunkCount kBatchSize vtx.length) s := by
  rw [blockTxsWrites_chunks, List.foldl_map]
  rfl

theorem parser_insertBlockTxs_run (s : ParserState) :
    Parser.insertBlockTxs blockHash blk s =
      .ok ((),
        (blockTxsWrites blockHash (chunks kBatchSize blk.vtx)).foldl ParserState.write s) := by
  rw [foldl_blockTxsWrites]
  exact flushLoop_run kBatchSize_pos
    (fun i value (s : ParserState) => s.write ⟨.blockTxsStr blockHash i, some value⟩) blk.vtx s

theorem insertBlockTxs_run (s : PreParserState) :
    insertBlockTxs blockHash blk s =
      .ok ((), { s with
        kv := (blockTxsWrites blockHash (chunks kBatchSize blk.vtx)).foldl KVDB.apply s.kv }) := by
  have hrun : insertBlockTxs blockHash blk s = .ok ((), afterChunks kBatchSize
      (fun i value (s : PreParserState) => s.write (.blockTxsStr blockHash i) value) blk.vtx
      (chunkCount kBatchSize blk.vtx.length) s) :=
    flushLoop_run kBatchSize_pos
      (fun i value (s : PreParserState) => s.write (.blockTxsStr blockHash i) value) blk.vtx s
  have hkv : ∀ (writes : List KVWrite) (s : PreParserState),
      writes.foldl (fun s w => { s with kv := s.kv.apply w }) s =
        { s with kv := writes.foldl KVDB.apply s.kv } := by
    intro writes
    induction writes with
    | nil => exact fun _ => rfl
    | cons w writes ih => exact fun s => ih _
  rw [← hkv, foldl_blockTxsWrites]
  exact hrun

/--
The hashes of a block are cut into chunks of 500 and a last one of what is left;
both programs write these chunks, each under its index, and nothing else.
-/
theorem insertBlockTxs_chunks :
    ∃ chunks : List (List Uint256), chunks.flatten = blk.vtx ∧
      chunks.length = (blk.vtx.length + 499) / 500 ∧
      (∀ chunk ∈ chunks.dropLast, chunk.length = 500) ∧
      (∀ s, Parser.insertBlockTxs blockHash blk s =
        .ok ((), (blockTxsWrites blockHash chunks).foldl ParserState.write s)) ∧
      ∀ s, insertBlockTxs blockHash blk s =
        .ok ((), { s with kv := (blockTxsWrites blockHash chunks).foldl KVDB.apply s.kv }) := by
  refine ⟨chunks kBatchSize blk.vtx, flatten_chunks kBatchSize_pos _, ?_, ?_,
    parser_insertBlockTxs_run blockHash blk, insertBlockTxs_run blockHash blk⟩
  · rw [chunks, List.length_map, List.length_range]
    rfl
  · exact fun c hc => length_of_mem_dropLast kBatchSize_pos hc

end ExplorerKV.Bootstrap
