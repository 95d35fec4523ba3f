import ExplorerKV.Log2.Producer

/-!
# A transaction over a connection that may be lost

`MySQLConnection::execute` opens a new connection after errors 2006 and 2013 and
sends the statement again.  The server has then rolled the transaction back, and
what is still sent is committed statement by statement.  Here is what that makes
of the transaction of `commitBatch`, which is one step of the producer elsewhere.
-/

namespace ExplorerKV.Log2.MySQL

open Bitcoin Foundation ExplorerKV.Parser

variable {σ : Type}

/-! ## The server -/

/-- The tables as they are committed, and as the open transaction sees them. -/
structure Session (σ : Type) where
  committed : σ
  transaction : Option σ
  connected : Bool
  deriving DecidableEq, Repr

namespace Session

def visible (s : Session σ) : σ := s.transaction.getD s.committed

def put (s : Session σ) (v : σ) : Session σ :=
  if s.transaction.isSome then { s with transaction := some v } else { s with committed := v }

def lose (s : Session σ) : Session σ := { s with transaction := none, connected := false }

end Session

inductive Sql (σ : Type) where
  | startTransaction
  | commit
  /-- the new tables and the affected rows; `none` is an error other than a lost connection -/
  | change (f : σ → Option (σ × Nat))

def Session.answer (s : Session σ) : Sql σ → Option (Nat × Session σ)
  | .startTransaction => some (0, { s with committed := s.visible, transaction := some s.visible })
  | .commit => some (0, { s with committed := s.visible, transaction := none })
  | .change f => (f s.visible).map fun r => (r.2, s.put r.1)

/-! ## The client -/

inductive SqlFault where
  | sql
  | connect
  /-- the exception of `updateOrThrowEx` -/
  | affectedRows
  deriving DecidableEq, Repr

abbrev SqlM (σ : Type) := EStateM SqlFault (Session σ)

inductive Answer where
  | answered
  /-- 2006 or 2013, before the statement was executed or after it -/
  | lost (executed : Bool)
  deriving DecidableEq, Repr

/-- What one `execute` meets: two tries, and an `open` between them. -/
structure Trip where
  first : Answer
  opened : Bool
  second : Answer
  deriving DecidableEq, Repr

/-- `none` is a lost connection. -/
def mysqlQuery (sql : Sql σ) (answer : Answer) : SqlM σ (Option Nat) := fun s =>
  if s.connected then
    match answer, s.answer sql with
    | .answered, some (rows, s') => .ok (some rows) s'
    | .answered, none => .error .sql s
    | .lost true, some (_, s') => .ok none s'.lose
    | .lost _, _ => .ok none s.lose
  else .ok none s

def openConnection (opened : Bool) : SqlM σ Unit := fun s =>
  if opened then .ok () { s with connected := true } else .error .connect s

/-- The second time a lost connection is the result `false`. -/
def lastTry (sql : Sql σ) (answer : Answer) : SqlM σ (Bool × Nat) := do
  match ← mysqlQuery sql answer with
  | some rows => return (true, rows)
  | none => return (false, 0)

/-- `execute` with what `mysql_affected_rows` returns after it -/
def execute (sql : Sql σ) (trip : Trip) : SqlM σ (Bool × Nat) := do
  match ← mysqlQuery sql trip.first with
  | some rows => return (true, rows)
  | none =>
      openConnection trip.opened
      lastTry sql trip.second

/-- A statement of the transaction: checked by `updateOrThrowEx`, or not. -/
structure Update (σ : Type) where
  change : σ → Option (σ × Nat)
  affectedRows : Option Nat

def Update.run (u : Update σ) (trip : Trip) : SqlM σ Unit := do
  let (res, r) ← execute (.change u.change) trip
  match u.affectedRows with
  | none => return ()
  | some affectedRows =>
      if res = false ∨ affectedRows ≠ 0 ∧ r ≠ affectedRows then throw .affectedRows else return ()

def runUpdates : List (Update σ × Trip) → SqlM σ Unit
  | [] => return ()
  | (u, trip) :: rest => do
    u.run trip
    runUpdates rest

/-- The transaction of `commitBatch`; what `execute` returns of its ends is not looked at. -/
def runTransaction (start : Trip) (updates : List (Update σ × Trip)) (commit : Trip) :
    SqlM σ Unit := do
  let _ ← execute .startTransaction start
  runUpdates updates
  let _ ← execute .commit commit

/-! ## At most one lost connection -/

def kept : Trip := ⟨.answered, true, .answered⟩

def renewed (executed : Bool) : Trip := ⟨.lost executed, true, .answered⟩

/-- Where the connection is lost, in a transaction of `n` statements. -/
inductive Loss (n : Nat) where
  | nowhere
  | start (executed : Bool)
  | update (k : Fin n) (executed : Bool)
  | commit (executed : Bool)
  deriving DecidableEq, Repr

namespace Loss

def startTrip {n : Nat} : Loss n → Trip
  | .start executed => renewed executed
  | _ => kept

def commitTrip {n : Nat} : Loss n → Trip
  | .commit executed => renewed executed
  | _ => kept

def updateTrips (updates : List (Update σ)) : Loss updates.length → List (Update σ × Trip)
  | .update k executed =>
      (updates.take k).map (·, kept) ++ (updates.get k, renewed executed) ::
        (updates.drop (k + 1)).map (·, kept)
  | _ => updates.map (·, kept)

def survivors (updates : List (Update σ)) : Loss updates.length → List (Update σ)
  | .update k _ => updates.drop k
  | .commit false => []
  | _ => updates

def forgotten (updates : List (Update σ)) : Loss updates.length → List (Update σ)
  | .update k _ => updates.take k
  | .commit false => updates
  | _ => []

def IsUpdate {n : Nat} (loss : Loss n) : Prop := ∃ k executed, loss = .update k executed

end Loss

def Update.apply (u : Update σ) (v : σ) : Option σ :=
  match u.change v, u.affectedRows with
  | none, _ => none
  | some (v', _), none => some v'
  | some (v', r), some affectedRows =>
      if affectedRows ≠ 0 ∧ r ≠ affectedRows then none else some v'

def applyUpdates (updates : List (Update σ)) (v : σ) : Option σ :=
  updates.foldlM (fun v u => u.apply v) v

variable {s : Session σ} {u : Update σ} {v : σ} {updates : List (Update σ)}

namespace Session

@[simp] theorem put_visible (s : Session σ) : s.put s.visible = s := by
  obtain ⟨committed, transaction, connected⟩ := s
  cases transaction <;> rfl

@[simp] theorem visible_put (s : Session σ) (v : σ) : (s.put v).visible = v := by
  obtain ⟨committed, transaction, connected⟩ := s
  cases transaction <;> rfl

@[simp] theorem put_put (s : Session σ) (v w : σ) : (s.put v).put w = s.put w := by
  obtain ⟨committed, transaction, connected⟩ := s
  cases transaction <;> rfl

@[simp] theorem connected_put (s : Session σ) (v : σ) : (s.put v).connected = s.connected := by
  obtain ⟨committed, transaction, connected⟩ := s
  cases transaction <;> rfl

@[simp] theorem isSome_put (s : Session σ) (v : σ) :
    (s.put v).transaction.isSome = s.transaction.isSome := by
  obtain ⟨committed, transaction, connected⟩ := s
  cases transaction <;> rfl

theorem committed_put (h : s.transaction.isSome) (v : σ) : (s.put v).committed = s.committed := by
  rw [put, if_pos h]

end Session

theorem execute_kept (hc : s.connected) {sql : Sql σ} {rows : Nat} {s' : Session σ}
    (h : s.answer sql = some (rows, s')) : execute sql kept s = .ok (true, rows) s' := by
  simp [execute, mysqlQuery, kept, hc, h, bind, EStateM.bind, pure, EStateM.pure]

theorem execute_kept_none (hc : s.connected) {sql : Sql σ} (h : s.answer sql = none) :
    execute sql kept s = .error .sql s := by
  simp [execute, mysqlQuery, kept, hc, h, bind, EStateM.bind]

def Session.renew (s : Session σ) (sql : Sql σ) (executed : Bool) : Session σ :=
  match executed, s.answer sql with
  | true, some (_, s') => ⟨s'.committed, none, true⟩
  | _, _ => ⟨s.committed, none, true⟩

theorem execute_renewed (hc : s.connected) (sql : Sql σ) (executed : Bool) :
    execute sql (renewed executed) s = execute sql kept (s.renew sql executed) := by
  have hretry : ∀ t : Session σ, t.connected →
      execute sql kept t = lastTry sql .answered t := fun t ht => by
    cases h : t.answer sql <;>
      simp [execute, lastTry, kept, mysqlQuery, ht, h, bind, EStateM.bind, pure, EStateM.pure]
  cases executed <;> cases h : s.answer sql <;>
    (rw [hretry _ (by simp [Session.renew, h])]
     simp [execute, mysqlQuery, renewed, openConnection, hc, h, Session.renew, Session.lose, bind,
      EStateM.bind])

def Update.answer (u : Update σ) (s : Session σ) : EStateM.Result SqlFault (Session σ) Unit :=
  match u.change s.visible, u.affectedRows with
  | none, _ => .error .sql s
  | some (v, _), none => .ok () (s.put v)
  | some (v, r), some affectedRows =>
      if affectedRows ≠ 0 ∧ r ≠ affectedRows then .error .affectedRows (s.put v)
      else .ok () (s.put v)

theorem run_kept (hc : s.connected) (u : Update σ) : u.run kept s = u.answer s := by
  rw [Update.answer]
  cases hchange : u.change s.visible with
  | none =>
      have hexecute : execute (.change u.change) kept s = .error .sql s :=
        execute_kept_none hc (by simp [Session.answer, hchange])
      simp [Update.run, hexecute, bind, EStateM.bind]
  | some r =>
      have hexecute : execute (.change u.change) kept s = .ok (true, r.2) (s.put r.1) :=
        execute_kept hc (by simp [Session.answer, hchange])
      cases hrows : u.affectedRows with
      | none => simp [Update.run, hexecute, hrows, bind, EStateM.bind, pure, EStateM.pure]
      | some affectedRows =>
          simp only [Update.run, hexecute, hrows, bind, EStateM.bind, Bool.true_eq_false, false_or]
          split <;> rfl

theorem update_kept (hc : s.connected) (u : Update σ) :
    (∀ v, u.apply s.visible = some v → u.run kept s = .ok () (s.put v)) ∧
      (u.apply s.visible = none → ∃ e s', u.run kept s = .error e s' ∧
        (s.transaction.isSome → s'.committed = s.committed)) := by
  rw [run_kept hc, Update.answer, Update.apply]
  cases hchange : u.change s.visible with
  | none => exact ⟨fun v h => by simp at h, fun _ => ⟨_, _, rfl, fun _ => rfl⟩⟩
  | some r =>
      cases hrows : u.affectedRows with
      | none => exact ⟨fun v h => by simp_all, fun h => by simp at h⟩
      | some affectedRows =>
          by_cases hcheck : affectedRows ≠ 0 ∧ r.2 ≠ affectedRows
          · simp only [if_pos hcheck]
            exact ⟨fun v h => by simp at h,
              fun _ => ⟨_, _, rfl, fun hopen => Session.committed_put hopen _⟩⟩
          · simp only [if_neg hcheck]
            exact ⟨fun v h => by simp_all, fun h => by simp at h⟩

@[simp] theorem applyUpdates_nil (v : σ) : applyUpdates [] v = some v := rfl

theorem applyUpdates_cons (u : Update σ) (updates : List (Update σ)) (v : σ) :
    applyUpdates (u :: updates) v = (u.apply v).bind (applyUpdates updates) :=
  rfl

theorem runUpdates_append (updates updates' : List (Update σ × Trip)) (s : Session σ) :
    runUpdates (updates ++ updates') s = (do runUpdates updates; runUpdates updates') s := by
  induction updates generalizing s with
  | nil => rfl
  | cons first updates ih =>
      simp only [List.cons_append, runUpdates, bind, EStateM.bind] at ih ⊢
      cases first.1.run first.2 s with
      | ok _ s' => exact ih s'
      | error e s' => rfl

theorem updates_kept (hc : s.connected) (updates : List (Update σ)) :
    (∀ v, applyUpdates updates s.visible = some v →
      runUpdates (updates.map (·, kept)) s = .ok () (s.put v)) ∧
      (applyUpdates updates s.visible = none →
        ∃ e s', runUpdates (updates.map (·, kept)) s = .error e s' ∧
          (s.transaction.isSome → s'.committed = s.committed)) := by
  induction updates generalizing s with
  | nil =>
      refine ⟨fun v h => ?_, fun h => by simp at h⟩
      obtain rfl : s.visible = v := Option.some.inj h
      rw [Session.put_visible]
      rfl
  | cons u updates ih =>
      obtain ⟨hpass, hfail⟩ := update_kept hc u
      rw [applyUpdates_cons, List.map_cons, runUpdates]
      cases happly : u.apply s.visible with
      | none =>
          refine ⟨fun v h => by simp at h, fun _ => ?_⟩
          obtain ⟨e, s', hrun, hcommitted⟩ := hfail happly
          exact ⟨e, s', by simp only [bind, EStateM.bind, hrun], hcommitted⟩
      | some w =>
          have hrest := ih (s := s.put w) (by rwa [Session.connected_put])
          rw [Session.visible_put] at hrest
          simp only [bind, EStateM.bind, hpass w happly, Option.bind]
          refine ⟨fun v h => ?_, fun h => ?_⟩
          · rw [hrest.1 v h, Session.put_put]
          · obtain ⟨e, s', hrun, hcommitted⟩ := hrest.2 h
            refine ⟨e, s', hrun, fun hopen => ?_⟩
            rw [hcommitted (by rwa [Session.isSome_put]), Session.committed_put hopen]

/-! ## What is committed -/

/-- A connection at the start of `commitBatch`. -/
def Session.fresh (base : σ) : Session σ := ⟨base, none, true⟩

def Session.opened (base v : σ) : Session σ := ⟨base, some v, true⟩

theorem execute_start (loss : Loss updates.length) (base : σ) :
    execute .startTransaction loss.startTrip (Session.fresh base) =
      .ok (true, 0) (Session.opened base base) := by
  cases loss with
  | start executed =>
      rw [Loss.startTrip, execute_renewed rfl]
      cases executed <;> exact execute_kept rfl rfl
  | nowhere | update k executed | commit executed => exact execute_kept rfl rfl

theorem runUpdates_opened (updates : List (Update σ)) (base v : σ) :
    (∀ w, applyUpdates updates v = some w →
      runUpdates (updates.map (·, kept)) (Session.opened base v) = .ok () (Session.opened base w)) ∧
      (applyUpdates updates v = none →
        ∃ e s', runUpdates (updates.map (·, kept)) (Session.opened base v) = .error e s' ∧
          s'.committed = base) := by
  obtain ⟨hpass, hfail⟩ := updates_kept (s := Session.opened base v) rfl updates
  refine ⟨hpass, fun h => ?_⟩
  obtain ⟨e, s', hrun, hcommitted⟩ := hfail h
  exact ⟨e, s', hrun, hcommitted rfl⟩

theorem update_renewed (hc : s.connected) (u : Update σ) (executed : Bool) :
    u.run (renewed executed) s = u.run kept (s.renew (.change u.change) executed) := by
  simp only [Update.run, bind, EStateM.bind, execute_renewed hc]

theorem renew_opened (base v : σ) (f : σ → Option (σ × Nat)) (executed : Bool) :
    (Session.opened base v).renew (.change f) executed = Session.fresh base := by
  have hanswer : (Session.opened base v).answer (.change f) =
      (f v).map fun r => (r.2, Session.opened base r.1) := rfl
  cases executed <;> cases h : f v <;> simp [Session.renew, hanswer, h] <;> rfl

theorem runUpdates_lost (updates : List (Update σ)) (k : Fin updates.length) (executed : Bool)
    (base : σ) :
    runUpdates ((Loss.update k executed).updateTrips updates) (Session.opened base base) =
      (do runUpdates ((updates.take k).map (·, kept))
          set (Session.fresh base)
          runUpdates ((updates.drop k).map (·, kept)) : SqlM σ Unit)
        (Session.opened base base) := by
  rw [Loss.updateTrips, runUpdates_append]
  simp only [bind, EStateM.bind]
  cases htake : applyUpdates (updates.take k) base with
  | none =>
      obtain ⟨e, s', hrun, -⟩ := (runUpdates_opened (updates.take k) base base).2 htake
      rw [hrun]
  | some w =>
      rw [(runUpdates_opened (updates.take k) base base).1 w htake,
        List.drop_eq_getElem_cons k.isLt, List.map_cons, runUpdates, runUpdates]
      have hrenew : (updates.get k).run (renewed executed) (Session.opened base w) =
          (updates.get k).run kept (Session.fresh base) := by
        rw [update_renewed (s := Session.opened base w) rfl, renew_opened]
      simp only [bind, EStateM.bind, hrenew]
      rfl

theorem execute_commit_kept (hc : s.connected) :
    execute .commit kept s = .ok (true, 0) ⟨s.visible, none, true⟩ := by
  obtain ⟨committed, transaction, connected⟩ := s
  obtain rfl : connected = true := hc
  exact execute_kept rfl rfl

theorem execute_commit_renewed (base v : σ) (executed : Bool) :
    execute .commit (renewed executed) (Session.opened base v) =
      .ok (true, 0) (Session.fresh (if executed then v else base)) := by
  rw [execute_renewed rfl, execute_commit_kept (by cases executed <;> rfl)]
  cases executed <;> rfl

theorem runTransaction_eq (updates : List (Update σ)) (loss : Loss updates.length) (base : σ) :
    runTransaction loss.startTrip (loss.updateTrips updates) loss.commitTrip (Session.fresh base) =
      (do runUpdates (loss.updateTrips updates)
          let _ ← execute .commit loss.commitTrip : SqlM σ Unit) (Session.opened base base) := by
  simp only [runTransaction, bind, EStateM.bind, execute_start]

theorem runTransaction_committed (updates : List (Update σ)) (loss : Loss updates.length)
    (base v : σ) :
    ((∃ s, runTransaction loss.startTrip (loss.updateTrips updates) loss.commitTrip
          (Session.fresh base) = .ok () s ∧ s.committed = v) ↔
        (applyUpdates (loss.forgotten updates) base).isSome ∧
          applyUpdates (loss.survivors updates) base = some v) ∧
      ∀ e s, ¬loss.IsUpdate →
        runTransaction loss.startTrip (loss.updateTrips updates) loss.commitTrip
          (Session.fresh base) = .error e s → s.committed = base := by
  rw [runTransaction_eq]
  simp only [bind, EStateM.bind]
  have hkept : ∀ t : Session σ, t.connected → execute .commit kept t = .ok (true, 0)
      (Session.fresh t.visible) := fun t ht => execute_commit_kept ht
  have hopened := runUpdates_opened updates base base
  cases loss with
  | nowhere | start executed =>
      cases happly : applyUpdates updates base with
      | none =>
          obtain ⟨e, t, hrun, hbase⟩ := hopened.2 happly
          simp only [Loss.updateTrips, Loss.survivors, Loss.forgotten, hrun, happly]
          exact ⟨by simp, fun _ s _ heq => by cases heq; exact hbase⟩
      | some w =>
          simp only [Loss.updateTrips, Loss.survivors, Loss.forgotten, Loss.commitTrip,
            hopened.1 w happly, hkept (Session.opened base w) rfl, happly]
          exact ⟨by simp [Session.fresh, Session.visible, Session.opened, pure, EStateM.pure],
            fun _ s _ heq => by cases heq⟩
  | commit executed =>
      cases happly : applyUpdates updates base with
      | none =>
          obtain ⟨e, t, hrun, hbase⟩ := hopened.2 happly
          simp only [Loss.updateTrips, hrun]
          refine ⟨?_, fun _ s _ heq => by cases heq; exact hbase⟩
          cases executed <;> simp [Loss.survivors, Loss.forgotten, happly]
      | some w =>
          simp only [Loss.updateTrips, Loss.commitTrip, hopened.1 w happly, execute_commit_renewed]
          refine ⟨?_, fun _ s _ heq => by cases heq⟩
          cases executed <;>
            simp [Loss.survivors, Loss.forgotten, happly, Session.fresh, pure, EStateM.pure]
  | update k executed =>
      refine ⟨?_, fun _ _ h => absurd ⟨k, executed, rfl⟩ h⟩
      rw [runUpdates_lost]
      simp only [bind, EStateM.bind, Loss.survivors, Loss.forgotten, Loss.commitTrip]
      cases htake : applyUpdates (updates.take k) base with
      | none =>
          obtain ⟨e, t, hrun, -⟩ := (runUpdates_opened (updates.take k) base base).2 htake
          simp only [hrun]
          simp
      | some w =>
          have hdrop := updates_kept (s := Session.fresh base) rfl (updates.drop k)
          rw [(runUpdates_opened (updates.take k) base base).1 w htake]
          simp only [show (set (Session.fresh base) : SqlM σ PUnit) (Session.opened base w) =
            .ok ⟨⟩ (Session.fresh base) from rfl]
          cases happly : applyUpdates (updates.drop k) base with
          | none =>
              obtain ⟨e, t, hrun, -⟩ := hdrop.2 happly
              simp only [hrun]
              simp
          | some x =>
              rw [hdrop.1 x happly]
              simp only [hkept ((Session.fresh base).put x) rfl]
              simp [Session.fresh, Session.visible, Session.put, pure, EStateM.pure]

/-! ## The statements of `commitBatch` -/

/-- `Log2Tables` with the position in log1 as two rows of `0_explorer_meta`. -/
structure SqlTables where
  txlogs2 : List TxLogs2Entry
  nextTxlogs2Id : Int
  rawTxs : Finset Uint256
  rawBlocks : List (Int × RawBlock)
  nextRawBlockId : Int
  memrepoTxs : List Uint256
  log1FileIndex : Int
  log1FileOffset : Int

abbrev Log1Position := Nat → Nat × Nat

def sqlTables (position : Log1Position) (db : Log2Tables) : SqlTables where
  txlogs2 := db.txlogs2
  nextTxlogs2Id := db.nextTxlogs2Id
  rawTxs := db.rawTxs
  rawBlocks := db.rawBlocks
  nextRawBlockId := db.nextRawBlockId
  memrepoTxs := db.memrepoTxs
  log1FileIndex := (position db.offset).1
  log1FileOffset := (position db.offset).2

/-- The parts that a list of hashes is sent in. -/
structure Parts (hashes : List Uint256) where
  parts : List (List Uint256)
  flatten_eq : parts.flatten = hashes

/-- The `static` variables of `updateLog1FileStatus`: -1 in a new process. -/
structure LastStatus (db : SqlTables) where
  log1FileIndex : Int
  currLog1FileOffset : Int
  index_eq : log1FileIndex = -1 ∨ log1FileIndex = db.log1FileIndex
  offset_eq : currLog1FileOffset = -1 ∨ currLog1FileOffset = db.log1FileOffset

def updateBatchId (expectAffectedRows : Nat) : Update SqlTables where
  change db := some
    ({ db with txlogs2 := db.txlogs2.map fun entry => { entry with temporary := false } },
      (db.txlogs2.filter fun entry => entry.temporary).length)
  affectedRows := some expectAffectedRows

/-- `multiInsert`, which does not look at the affected rows -/
def insertTxs (hashes : List Uint256) : Update SqlTables where
  change db :=
    if hashes.any (· ∈ db.memrepoTxs) then none
    else some ({ db with memrepoTxs := db.memrepoTxs ++ hashes }, hashes.length)
  affectedRows := none

def deleteTxs (hashes : List Uint256) : Update SqlTables where
  change db := some ({ db with memrepoTxs := db.memrepoTxs.filter fun hash => hash ∉ hashes },
    hashes.countP (· ∈ db.memrepoTxs))
  affectedRows := some hashes.length

def updateLog1Index (index : Int) : Update SqlTables where
  change db := some ({ db with log1FileIndex := index }, 1)
  affectedRows := some 0

def updateLog1Offset (offset : Int) : Update SqlTables where
  change db := some ({ db with log1FileOffset := offset }, 1)
  affectedRows := some 1

def updateLog1FileStatus {db : SqlTables} (last : LastStatus db) (position : Nat × Nat) :
    List (Update SqlTables) :=
  (if last.log1FileIndex ≠ position.1 then [updateLog1Index position.1] else []) ++
    if last.currLog1FileOffset ≠ position.2 then [updateLog1Offset position.2] else []

def batchUpdates (position : Log1Position) (s : Log2Producer)
    (last : LastStatus (sqlTables position s.db)) (expectAffectedRows : Nat)
    (inserts : Parts (inOrder s.memRepo.unSyncTxsInsert))
    (deletes : Parts (inOrder s.memRepo.unSyncTxsDelete)) : List (Update SqlTables) :=
  updateBatchId expectAffectedRows :: (inserts.parts.map insertTxs ++
    (deletes.parts.map deleteTxs ++
      updateLog1FileStatus last (position s.currLog1FileOffset)))

theorem applyUpdates_append (updates updates' : List (Update σ)) (v : σ) :
    applyUpdates (updates ++ updates') v =
      (applyUpdates updates v).bind (applyUpdates updates') :=
  List.foldlM_append

theorem apply_unchecked (f : σ → Option (σ × Nat)) (v : σ) :
    (⟨f, none⟩ : Update σ).apply v = (f v).map Prod.fst := by
  cases h : f v <;> simp [Update.apply, h]

theorem apply_checked (f : σ → Option (σ × Nat)) (affectedRows : Nat) (v : σ) :
    (⟨f, some affectedRows⟩ : Update σ).apply v =
      (f v).bind fun r => if affectedRows ≠ 0 ∧ r.2 ≠ affectedRows then none else some r.1 := by
  cases h : f v <;> simp [Update.apply, h]

theorem apply_updateBatchId (position : Log1Position) (db : Log2Tables)
    (expectAffectedRows : Nat) :
    (updateBatchId expectAffectedRows).apply (sqlTables position db) =
      if expectAffectedRows ≠ 0 ∧
          (db.txlogs2.filter fun entry => entry.temporary).length ≠ expectAffectedRows then none
      else some (sqlTables position db.setBatchId) := by
  rw [updateBatchId, apply_checked, Option.bind_some]
  rfl

theorem apply_insertTxs (hashes : List Uint256) (db : SqlTables) :
    (insertTxs hashes).apply db = if hashes.any (· ∈ db.memrepoTxs) then none
      else some { db with memrepoTxs := db.memrepoTxs ++ hashes } := by
  rw [insertTxs, apply_unchecked]
  split <;> rfl

theorem apply_deleteTxs (hashes : List Uint256) (db : SqlTables) :
    (deleteTxs hashes).apply db = if hashes.all (· ∈ db.memrepoTxs) then
      some { db with memrepoTxs := db.memrepoTxs.filter fun hash => hash ∉ hashes } else none := by
  have hcount : hashes.countP (· ∈ db.memrepoTxs) = hashes.length ↔
      hashes.all (· ∈ db.memrepoTxs) := by
    rw [List.countP_eq_length, List.all_eq_true]
  rw [deleteTxs, apply_checked, Option.bind_some]
  by_cases h : hashes.all (· ∈ db.memrepoTxs)
  · rw [if_pos h, if_neg fun hne => hne.2 (hcount.mpr h)]
  · have hnil : hashes.length ≠ 0 := fun hlength => h (by
      rw [List.length_eq_zero_iff.mp hlength]; rfl)
    rw [if_neg h, if_pos ⟨hnil, fun heq => h (hcount.mp heq)⟩]

theorem applyUpdates_insertTxs (parts : List (List Uint256)) (hnodup : parts.flatten.Nodup)
    (db : SqlTables) : applyUpdates (parts.map insertTxs) db =
      if parts.flatten.any (· ∈ db.memrepoTxs) then none
      else some { db with memrepoTxs := db.memrepoTxs ++ parts.flatten } := by
  induction parts generalizing db with
  | nil => simp
  | cons hashes parts ih =>
      rw [List.flatten_cons, List.nodup_append] at hnodup
      rw [List.map_cons, applyUpdates_cons, apply_insertTxs, List.flatten_cons, List.any_append]
      by_cases h : hashes.any (· ∈ db.memrepoTxs)
      · rw [if_pos h, h, Bool.true_or, if_pos rfl, Option.bind_none]
      · have hany : parts.flatten.any (· ∈ db.memrepoTxs ++ hashes) =
            parts.flatten.any (· ∈ db.memrepoTxs) := by
          rw [Bool.eq_iff_iff]
          simp only [List.any_eq_true, decide_eq_true_eq, List.mem_append]
          exact ⟨fun ⟨hash, hin, hor⟩ => ⟨hash, hin, hor.resolve_right fun hmem =>
            hnodup.2.2 hash hmem hash hin rfl⟩, fun ⟨hash, hin, hdb⟩ => ⟨hash, hin, .inl hdb⟩⟩
        rw [if_neg h, Bool.eq_false_of_not_eq_true h, Bool.false_or, Option.bind_some,
          ih hnodup.2.1, hany, List.append_assoc]

theorem applyUpdates_deleteTxs (parts : List (List Uint256)) (hnodup : parts.flatten.Nodup)
    (db : SqlTables) : applyUpdates (parts.map deleteTxs) db =
      if parts.flatten.all (· ∈ db.memrepoTxs) then
        some { db with memrepoTxs := db.memrepoTxs.filter fun hash => hash ∉ parts.flatten }
      else none := by
  induction parts generalizing db with
  | nil => simp
  | cons hashes parts ih =>
      rw [List.flatten_cons, List.nodup_append] at hnodup
      rw [List.map_cons, applyUpdates_cons, apply_deleteTxs, List.flatten_cons, List.all_append]
      by_cases h : hashes.all (· ∈ db.memrepoTxs)
      · have hall : parts.flatten.all (· ∈ db.memrepoTxs.filter fun hash => hash ∉ hashes) =
            parts.flatten.all (· ∈ db.memrepoTxs) := by
          rw [Bool.eq_iff_iff]
          simp only [List.all_eq_true, decide_eq_true_eq, List.mem_filter]
          exact ⟨fun hdb hash hin => (hdb hash hin).1, fun hdb hash hin => ⟨hdb hash hin,
            fun hmem => hnodup.2.2 hash hmem hash hin rfl⟩⟩
        have hfilter : ((db.memrepoTxs.filter fun hash => hash ∉ hashes).filter
            fun hash => hash ∉ parts.flatten) =
              db.memrepoTxs.filter fun hash => hash ∉ hashes ++ parts.flatten := by
          rw [List.filter_filter]
          exact List.filter_congr fun hash _ => by
            simp only [List.mem_append, not_or, Bool.decide_and, Bool.and_comm]
        rw [if_pos h, h, Bool.true_and, Option.bind_some, ih hnodup.2.1, hall, hfilter]
      · rw [if_neg h, Bool.eq_false_of_not_eq_true h, Bool.false_and, if_neg Bool.false_ne_true,
          Option.bind_none]

theorem commitBatch_unexpected {s : Log2Producer} {expectAffectedRows : Nat}
    (h : expectAffectedRows ≠ 0 ∧
      (s.db.txlogs2.filter fun entry => entry.temporary).length ≠ expectAffectedRows) :
    (commitBatch expectAffectedRows).run s = .error .affectedRows := by
  simp only [commitBatch, StateT.run_bind, StateT.run_get, pure_bind, if_pos h]
  rfl

theorem commitBatch_run {s : Log2Producer} {expectAffectedRows : Nat}
    (h : ¬(expectAffectedRows ≠ 0 ∧
      (s.db.txlogs2.filter fun entry => entry.temporary).length ≠ expectAffectedRows))
    (position : Log1Position) (db : SqlTables) :
    (∃ s', (commitBatch expectAffectedRows).run s = .ok ((), s') ∧
        sqlTables position s'.db = db) ↔
      ∃ r, syncToDB s.memRepo s.db.memrepoTxs = .ok r ∧ sqlTables position
        { s.db.setBatchId with memrepoTxs := r.2, offset := s.currLog1FileOffset } = db := by
  simp only [commitBatch, StateT.run_bind, StateT.run_get, pure_bind, if_neg h, commit]
  cases syncToDB s.memRepo s.db.memrepoTxs with
  | error fault =>
      constructor
      · rintro ⟨_, h, -⟩
        cases h
      · rintro ⟨_, h, -⟩
        cases h
  | ok r =>
      constructor
      · rintro ⟨_, h, rfl⟩
        cases h
        exact ⟨r, rfl, rfl⟩
      · rintro ⟨_, h, rfl⟩
        cases h
        exact ⟨_, rfl, rfl⟩

theorem applyUpdates_status {db₀ : SqlTables} (last : LastStatus db₀) (position : Nat × Nat)
    (db : SqlTables) (hindex : db.log1FileIndex = db₀.log1FileIndex)
    (hoffset : db.log1FileOffset = db₀.log1FileOffset) :
    applyUpdates (updateLog1FileStatus last position) db =
      some { db with log1FileIndex := position.1, log1FileOffset := position.2 } := by
  have hsent : ∀ f : SqlTables → SqlTables × Nat, ∀ n v, (n = 0 ∨ (f v).2 = n) →
      (⟨fun v => some (f v), some n⟩ : Update SqlTables).apply v = some (f v).1 :=
    fun f n v hrows => by
      rw [apply_checked, Option.bind_some, if_neg fun h => hrows.elim h.1 h.2]
  have hindexSent : ∀ v : SqlTables, (updateLog1Index position.1).apply v =
      some { v with log1FileIndex := position.1 } := fun v => hsent _ _ _ (.inl rfl)
  have hoffsetSent : ∀ v : SqlTables, (updateLog1Offset position.2).apply v =
      some { v with log1FileOffset := position.2 } := fun v => hsent _ _ _ (.inr rfl)
  have hindexKept : last.log1FileIndex = position.1 → db.log1FileIndex = position.1 := fun h => by
    rw [hindex, ← h]
    exact (last.index_eq.resolve_left (by omega)).symm
  have hoffsetKept : last.currLog1FileOffset = position.2 → db.log1FileOffset = position.2 :=
    fun h => by
      rw [hoffset, ← h]
      exact (last.offset_eq.resolve_left (by omega)).symm
  rw [updateLog1FileStatus, applyUpdates_append]
  by_cases h₁ : last.log1FileIndex = position.1 <;>
    by_cases h₂ : last.currLog1FileOffset = position.2 <;>
    simp [h₁, h₂, applyUpdates_cons, hindexSent, hoffsetSent, ← hindexKept, ← hoffsetKept]

theorem applyUpdates_batch (position : Log1Position) (s : Log2Producer)
    (last : LastStatus (sqlTables position s.db)) (expectAffectedRows : Nat)
    (inserts : Parts (inOrder s.memRepo.unSyncTxsInsert))
    (deletes : Parts (inOrder s.memRepo.unSyncTxsDelete)) (db : SqlTables) :
    applyUpdates (batchUpdates position s last expectAffectedRows inserts deletes)
        (sqlTables position s.db) = some db ↔
      ∃ s', (commitBatch expectAffectedRows).run s = .ok ((), s') ∧
        sqlTables position s'.db = db := by
  have hinsert := applyUpdates_insertTxs inserts.parts
    (by rw [inserts.flatten_eq]; exact nodup_inOrder _) (sqlTables position s.db.setBatchId)
  have hdelete := applyUpdates_deleteTxs deletes.parts
    (by rw [deletes.flatten_eq]; exact nodup_inOrder _)
    { sqlTables position s.db.setBatchId with
      memrepoTxs := s.db.memrepoTxs ++ inOrder s.memRepo.unSyncTxsInsert }
  have hstatus := applyUpdates_status last (position s.currLog1FileOffset)
    { sqlTables position s.db.setBatchId with
      memrepoTxs := (s.db.memrepoTxs ++ inOrder s.memRepo.unSyncTxsInsert).filter fun hash =>
        hash ∉ s.memRepo.unSyncTxsDelete } rfl rfl
  have hmemrepoTxs : (sqlTables position s.db.setBatchId).memrepoTxs = s.db.memrepoTxs := rfl
  rw [inserts.flatten_eq, hmemrepoTxs] at hinsert
  simp only [deletes.flatten_eq, mem_inOrder] at hdelete
  rw [batchUpdates, applyUpdates_cons, apply_updateBatchId]
  by_cases hbatch : expectAffectedRows ≠ 0 ∧
      (s.db.txlogs2.filter fun entry => entry.temporary).length ≠ expectAffectedRows
  · rw [if_pos hbatch, Option.bind_none, commitBatch_unexpected hbatch]
    constructor
    · intro h
      cases h
    · rintro ⟨_, h, -⟩
      cases h
  · rw [if_neg hbatch, Option.bind_some, applyUpdates_append, hinsert, commitBatch_run hbatch,
      syncToDB]
    by_cases hany : (inOrder s.memRepo.unSyncTxsInsert).any (· ∈ s.db.memrepoTxs)
    · simp only [if_pos hany, Option.bind_none]
      simp
    · simp only [if_neg hany, Option.bind_some, applyUpdates_append, hdelete]
      by_cases hall : (inOrder s.memRepo.unSyncTxsDelete).all
          (· ∈ s.db.memrepoTxs ++ inOrder s.memRepo.unSyncTxsInsert)
      · simp only [if_pos hall, Option.bind_some]
        rw [hstatus, Option.some.injEq]
        constructor
        · exact fun h => ⟨_, rfl, h⟩
        · rintro ⟨_, hr, h⟩
          cases hr
          exact h
      · simp only [if_neg hall, Option.bind_none]
        simp

namespace Loss

theorem forgotten_of_survivors {loss : Loss updates.length}
    (h : loss.survivors updates = updates) : loss.forgotten updates = [] := by
  cases loss with
  | nowhere | start executed => rfl
  | update k executed =>
      have hlength := congrArg List.length h
      rw [survivors, List.length_drop] at hlength
      have hk : (k : Nat) = 0 := by omega
      rw [forgotten, hk, List.take_zero]
  | commit executed =>
      cases executed with
      | false => exact h.symm
      | true => rfl

end Loss

/-- A connection lost at the second statement commits the old index with the new offset. -/
example (db : SqlTables) : runTransaction kept
    [(updateLog1Index 1, kept), (updateLog1Offset 300, renewed true)]
    kept (Session.fresh db) = .ok () (Session.fresh { db with log1FileOffset := 300 }) := by
  rfl

section CommitBatch

variable (position : Log1Position) (s : Log2Producer)
  (last : LastStatus (sqlTables position s.db)) (expectAffectedRows : Nat)
  (inserts : Parts (inOrder s.memRepo.unSyncTxsInsert))
  (deletes : Parts (inOrder s.memRepo.unSyncTxsDelete))
  (loss : Loss (batchUpdates position s last expectAffectedRows inserts deletes).length)

/-- The transaction of `commitBatch`, statement by statement. -/
def commitBatchOver : SqlM SqlTables Unit :=
  runTransaction loss.startTrip (loss.updateTrips _) loss.commitTrip

end CommitBatch

end ExplorerKV.Log2.MySQL
