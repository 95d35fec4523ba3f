import ExplorerKV.Foundation.Machine
import ExplorerKV.Bitcoin.Base58

/-!
# Subscriptions

`Notify` keeps the rows of `app_subcribe` in memory as well, by address.  Both
sides are to be changed under the canonical spelling of an address;
`removeAddress` uses the caller's spelling for the memory.
-/

namespace ExplorerKV.Logs.Subscriptions

open Bitcoin Foundation

/-- The rows of `app_subcribe`, and the applications that have a table `event_app_<id>`. -/
structure Database where
  rows : List (Int32 × Bytes)
  eventApps : Finset Int32

structure Notify where
  addressTable : Bytes → Finset Int32
  appIds : Finset Int32
  db : Database

inductive Call where
  | insertAddress (appID : Int32) (address : CString)
  | removeAddress (appID : Int32) (address : CString)

/-! ## The statements -/

section Statements

-- `collate` is the collation of the column: texts of one weight are equal to MySQL
variable {κ : Type} [DecidableEq κ] (collate : Bytes → κ)

def Database.key (row : Int32 × Bytes) : Int32 × κ := (row.1, collate row.2)

/-- The insert fails on the unique key `app_id_address`. -/
def Database.insertRow (db : Database) (row : Int32 × Bytes) : Option Database :=
  if key collate row ∈ db.rows.map (key collate) then none
  else some { db with rows := db.rows ++ [row] }

/-- `updateOrThrowEx(sql, 1)` throws unless one row was deleted. -/
def Database.deleteRow (db : Database) (row : Int32 × Bytes) : Option Database :=
  if (db.rows.map (key collate)).count (key collate row) = 1 then
    some { db with rows := db.rows.filter fun r => key collate r ≠ key collate row }
  else none

end Statements

/-! ## The table in memory -/

section Table

variable {κ : Type} [DecidableEq κ] (Hash : Bytes → Digest) (network : Network)
  (collate : Bytes → κ)

namespace Notify

/-- The result of `insertAddress`; `none` is an exception of the database. -/
def insertAddress (s : Notify) (appID : Int32) (address : Bytes) (sync2mysql : Bool) :
    Option (Bool × Notify) :=
  match canonical? Hash network address with
  | none => some (false, s)
  | some a =>
      if appID ∈ s.addressTable a then some (false, s)
      else
        let s' : Notify := { s with
          addressTable := Function.update s.addressTable a (insert appID (s.addressTable a))
          appIds := insert appID s.appIds }
        if sync2mysql then
          let eventApps := if appID ∈ s.appIds then s.db.eventApps else insert appID s.db.eventApps
          (Database.insertRow collate { s.db with eventApps } (appID, a)).map fun db =>
            (true, { s' with db })
        else some (true, s')

def removeAddress (s : Notify) (appID : Int32) (address : Bytes) : Option (Bool × Notify) :=
  match canonical? Hash network address with
  | none => some (false, s)
  | some a =>
      if appID ∉ s.addressTable a then some (false, s)
      else
        -- the erased entry is looked up under `string(address)`, not under `a`
        let s' : Notify := { s with
          addressTable :=
            Function.update s.addressTable address ((s.addressTable address).erase appID) }
        (s.db.deleteRow collate (appID, a)).map fun db => (true, { s' with db })

/-- Without `sync2mysql` there is no statement that could fail. -/
def loadRow (s : Notify) (row : Int32 × Bytes) : Notify :=
  ((s.insertAddress Hash network collate row.1 row.2 false).map Prod.snd).getD s

def loadAddressTableFromDB (db : Database) : Notify :=
  db.rows.foldl (loadRow Hash network collate) ⟨fun _ => ∅, ∅, db⟩

def step (s : Notify) : Call → Option Notify
  | .insertAddress appID address =>
      (s.insertAddress Hash network collate appID address.bytes true).map Prod.snd
  | .removeAddress appID address =>
      (s.removeAddress Hash network collate appID address.bytes).map Prod.snd

def Mirrors (s : Notify) : Prop :=
  ∀ appID a, appID ∈ s.addressTable a ↔ (appID, a) ∈ s.db.rows

def MirrorsAfter (s : Notify) (call : Call) : Prop :=
  ∀ s' ∈ s.step Hash network collate call, s'.Mirrors

/-- A removal that finds its pair is given the canonical spelling. -/
def Spelled (s : Notify) : Call → Prop
  | .insertAddress _ _ => True
  | .removeAddress appID address =>
      ∀ a ∈ canonical? Hash network address.bytes, appID ∈ s.addressTable a → address.bytes = a

instance (s : Notify) : (call : Call) → Decidable (s.Spelled Hash network call)
  | .insertAddress _ _ => .isTrue trivial
  | .removeAddress _ address =>
      Option.decidableForallMem (canonical? Hash network address.bytes)

end Notify

/-- What `insertAddress` leaves in the table: canonical spellings, under the unique key. -/
structure Database.Stored (db : Database) : Prop where
  canonical : ∀ row ∈ db.rows, canonical? Hash network row.2 = some row.2
  unique : (db.rows.map (key collate)).Nodup

end Table

/-! ## What a change does -/

section Changes

variable {table : Bytes → Finset Int32} {a b : Bytes} {appID x : Int32}

theorem mem_update_insert :
    x ∈ Function.update table a (insert appID (table a)) b ↔
      x ∈ table b ∨ x = appID ∧ b = a := by
  by_cases h : b = a
  · subst h
    simp [or_comm]
  · simp [h]

theorem mem_update_erase :
    x ∈ Function.update table a ((table a).erase appID) b ↔
      x ∈ table b ∧ ¬(x = appID ∧ b = a) := by
  by_cases h : b = a
  · subst h
    simp [and_comm]
  · simp [h]

end Changes

namespace Database

variable {κ : Type} [DecidableEq κ] {collate : Bytes → κ} {db db' : Database}
  {row r : Int32 × Bytes}

theorem mem_insertRow (h : db.insertRow collate row = some db') :
    r ∈ db'.rows ↔ r ∈ db.rows ∨ r = row := by
  unfold insertRow at h
  split at h
  · cases h
  · rw [← Option.some.inj h, List.mem_append, List.mem_singleton]

theorem unique_insertRow (h : db.insertRow collate row = some db')
    (hunique : (db.rows.map (key collate)).Nodup) : (db'.rows.map (key collate)).Nodup := by
  unfold insertRow at h
  split at h
  · cases h
  · next hnew =>
      rw [← Option.some.inj h, List.map_append, List.map_singleton]
      exact hunique.append (List.nodup_singleton _) (List.disjoint_singleton.mpr hnew)

theorem deleteRow_of_mem (hunique : (db.rows.map (key collate)).Nodup) (h : row ∈ db.rows) :
    ∃ db', db.deleteRow collate row = some db' := by
  have hone : (db.rows.map (key collate)).count (key collate row) = 1 :=
    List.count_eq_one_of_mem hunique (List.mem_map_of_mem h)
  exact ⟨_, if_pos hone⟩

theorem rows_deleteRow (h : db.deleteRow collate row = some db') :
    db'.rows = db.rows.filter fun r => key collate r ≠ key collate row := by
  unfold deleteRow at h
  split at h
  · rw [← Option.some.inj h]
  · cases h

theorem mem_deleteRow (hunique : (db.rows.map (key collate)).Nodup) (hrow : row ∈ db.rows)
    (h : db.deleteRow collate row = some db') : r ∈ db'.rows ↔ r ∈ db.rows ∧ r ≠ row := by
  rw [rows_deleteRow h, List.mem_filter, decide_eq_true_iff]
  refine and_congr_right fun hr => not_congr ⟨fun hkey => ?_, fun heq => heq ▸ rfl⟩
  exact List.inj_on_of_nodup_map hunique hr hrow hkey

end Database

namespace Notify

variable {κ : Type} [DecidableEq κ] {Hash : Bytes → Digest} {network : Network}
  {collate : Bytes → κ} {s s' : Notify} {appID : Int32} {address : Bytes} {inserted : Bool}

theorem insertAddress_spec (h : s.insertAddress Hash network collate appID address true =
      some (inserted, s')) :
    s' = s ∨ ∃ a, canonical? Hash network address = some a ∧
      (∀ x b, x ∈ s'.addressTable b ↔ x ∈ s.addressTable b ∨ x = appID ∧ b = a) ∧
      ∃ eventApps, Database.insertRow collate { s.db with eventApps } (appID, a) = some s'.db := by
  unfold insertAddress at h
  cases hcanonical : canonical? Hash network address with
  | none =>
      rw [hcanonical] at h
      cases h
      exact .inl rfl
  | some a =>
      rw [hcanonical] at h
      dsimp only at h
      split at h
      · cases h
        exact .inl rfl
      · obtain ⟨db, hdb, heq⟩ := Option.map_eq_some_iff.mp h
        cases heq
        exact .inr ⟨a, rfl, fun x b => mem_update_insert, _, hdb⟩

theorem removeAddress_spec (h : s.removeAddress Hash network collate appID address =
      some (inserted, s')) :
    s' = s ∨ ∃ a, canonical? Hash network address = some a ∧ appID ∈ s.addressTable a ∧
      (∀ x b, x ∈ s'.addressTable b ↔ x ∈ s.addressTable b ∧ ¬(x = appID ∧ b = address)) ∧
      s.db.deleteRow collate (appID, a) = some s'.db := by
  unfold removeAddress at h
  cases hcanonical : canonical? Hash network address with
  | none =>
      rw [hcanonical] at h
      cases h
      exact .inl rfl
  | some a =>
      rw [hcanonical] at h
      dsimp only at h
      split at h
      · cases h
        exact .inl rfl
      · next hfound =>
          obtain ⟨db, hdb, heq⟩ := Option.map_eq_some_iff.mp h
          cases heq
          exact .inr ⟨a, rfl, not_not.mp hfound, fun x b => mem_update_erase, hdb⟩

theorem removeAddress_of_found {a : Bytes} {db : Database}
    (hcanonical : canonical? Hash network address = some a) (hfound : appID ∈ s.addressTable a)
    (hdb : s.db.deleteRow collate (appID, a) = some db) :
    s.removeAddress Hash network collate appID address =
      some (true, ⟨Function.update s.addressTable address ((s.addressTable address).erase appID),
        s.appIds, db⟩) := by
  unfold removeAddress
  rw [hcanonical]
  dsimp only
  rw [if_neg (not_not.mpr hfound), hdb]
  rfl

theorem stored_step (hstored : s.db.Stored Hash network collate) {call : Call}
    (h : s.step Hash network collate call = some s') : s'.db.Stored Hash network collate := by
  cases call with
  | insertAddress appID address =>
      obtain ⟨⟨inserted, s''⟩, hcall, rfl⟩ := Option.map_eq_some_iff.mp h
      rcases insertAddress_spec hcall with heq | ⟨a, hcanonical, -, eventApps, hdb⟩
      · rwa [heq]
      · constructor
        · intro row hrow
          rcases (Database.mem_insertRow hdb).mp hrow with hrow | rfl
          · exact hstored.canonical row hrow
          · exact canonical?_idem Hash network hcanonical
        · exact Database.unique_insertRow hdb hstored.unique
  | removeAddress appID address =>
      obtain ⟨⟨removed, s''⟩, hcall, rfl⟩ := Option.map_eq_some_iff.mp h
      rcases removeAddress_spec hcall with heq | ⟨a, -, -, -, hdb⟩
      · rwa [heq]
      · have hrows := Database.rows_deleteRow hdb
        constructor
        · intro row hrow
          rw [hrows] at hrow
          exact hstored.canonical row (List.mem_filter.mp hrow).1
        · rw [hrows]
          exact hstored.unique.sublist (List.filter_sublist.map _)

theorem mirrorsAfter_iff (hmirrors : s.Mirrors) (hstored : s.db.Stored Hash network collate)
    (call : Call) :
    s.MirrorsAfter Hash network collate call ↔ s.Spelled Hash network call := by
  cases call with
  | insertAddress appID address =>
      refine iff_of_true (fun s' h => ?_) trivial
      obtain ⟨⟨inserted, s''⟩, hcall, rfl⟩ := Option.map_eq_some_iff.mp h
      rcases insertAddress_spec hcall with heq | ⟨a, -, htable, eventApps, hdb⟩
      · rwa [heq]
      · intro x b
        rw [htable, Database.mem_insertRow hdb, hmirrors x b, Prod.mk.injEq]
  | removeAddress appID address =>
      constructor
      · intro hafter a hcanonical hfound
        have hrow : (appID, a) ∈ s.db.rows := (hmirrors appID a).mp hfound
        obtain ⟨db', hdb'⟩ := Database.deleteRow_of_mem hstored.unique hrow
        have hcall := removeAddress_of_found hcanonical hfound hdb'
        have hmirrors' := hafter _ (Option.map_eq_some_iff.mpr ⟨_, hcall, rfl⟩)
        by_contra hspelling
        have hkept : appID ∈ Function.update s.addressTable address.bytes
            ((s.addressTable address.bytes).erase appID) a :=
          mem_update_erase.mpr ⟨hfound, fun h => hspelling h.2.symm⟩
        have hgone : (appID, a) ∉ db'.rows := fun h =>
          ((Database.mem_deleteRow hstored.unique hrow hdb').mp h).2 rfl
        exact hgone ((hmirrors' appID a).mp hkept)
      · intro hspelled s' h
        obtain ⟨⟨removed, s''⟩, hcall, rfl⟩ := Option.map_eq_some_iff.mp h
        rcases removeAddress_spec hcall with heq | ⟨a, hcanonical, hfound, htable, hdb⟩
        · rwa [heq]
        · have hrow : (appID, a) ∈ s.db.rows := (hmirrors appID a).mp hfound
          have hspelling : address.bytes = a := hspelled a hcanonical hfound
          intro x b
          rw [htable, Database.mem_deleteRow hstored.unique hrow hdb, hmirrors x b, hspelling, Ne,
            Prod.mk.injEq]

theorem loadRow_spec (collate : Bytes → κ) (s : Notify) {row : Int32 × Bytes}
    (h : canonical? Hash network row.2 = some row.2) :
    (∀ x b, x ∈ (s.loadRow Hash network collate row).addressTable b ↔
      x ∈ s.addressTable b ∨ (x, b) = row) ∧ (s.loadRow Hash network collate row).db = s.db := by
  obtain ⟨appID, a⟩ := row
  unfold loadRow insertAddress
  rw [h]
  dsimp only
  by_cases hfound : appID ∈ s.addressTable a
  · rw [if_pos hfound]
    refine ⟨fun x b => ⟨.inl, ?_⟩, rfl⟩
    rintro (hx | heq)
    · exact hx
    · cases heq
      exact hfound
  · rw [if_neg hfound]
    refine ⟨fun x b => ?_, rfl⟩
    rw [Prod.mk.injEq]
    exact mem_update_insert

theorem loadRows_spec (collate : Bytes → κ) (s : Notify) {rows : List (Int32 × Bytes)}
    (h : ∀ row ∈ rows, canonical? Hash network row.2 = some row.2) :
    (∀ x b, x ∈ (rows.foldl (loadRow Hash network collate) s).addressTable b ↔
      x ∈ s.addressTable b ∨ (x, b) ∈ rows) ∧
      (rows.foldl (loadRow Hash network collate) s).db = s.db := by
  induction rows generalizing s with
  | nil => simp
  | cons row rows ih =>
      obtain ⟨hrow, hrows⟩ := List.forall_mem_cons.mp h
      obtain ⟨htable, hdb⟩ := loadRow_spec collate s hrow
      obtain ⟨htables, hdbs⟩ := ih (s.loadRow Hash network collate row) hrows
      constructor
      · intro x b
        rw [List.foldl_cons, htables, htable, List.mem_cons, or_assoc]
      · rw [List.foldl_cons, hdbs, hdb]

theorem mirrors_load {db : Database} (hstored : db.Stored Hash network collate) :
    (loadAddressTableFromDB Hash network collate db).Mirrors ∧
      (loadAddressTableFromDB Hash network collate db).db = db := by
  obtain ⟨htable, hdb⟩ := loadRows_spec collate ⟨fun _ => ∅, ∅, db⟩ hstored.canonical
  refine ⟨fun x b => ?_, hdb⟩
  rw [loadAddressTableFromDB, htable, hdb]
  simp

/-- The mirror stays whole over a sequence of calls exactly if every removal is spelled so. -/
theorem mirrors_iff_spelled (Hash : Bytes → Digest) (network : Network) (collate : Bytes → κ)
    (db : Database) (hstored : db.Stored Hash network collate) (calls : List Call) :
    EachStep (step Hash network collate) (MirrorsAfter Hash network collate)
        (loadAddressTableFromDB Hash network collate db) calls ↔
      EachStep (step Hash network collate) (Spelled Hash network)
        (loadAddressTableFromDB Hash network collate db) calls := by
  obtain ⟨hmirrors, hdb⟩ := mirrors_load hstored
  apply eachStep_iff_of_kept (fun s => s.Mirrors ∧ s.db.Stored Hash network collate)
  · exact ⟨hmirrors, hdb.symm ▸ hstored⟩
  · intro call t t' hinv hafter hstep
    exact ⟨hafter t' hstep, stored_step hinv.2 hstep⟩
  · intro t call hinv
    exact mirrorsAfter_iff hinv.1 hinv.2 call

end Notify

/-! ## A blank before the address -/

def exampleDatabase : Database := ⟨[(7, exampleAddress)], {7}⟩

theorem exampleDatabase_stored : exampleDatabase.Stored exampleHash .main id := by
  constructor <;> decide +kernel

def blankAddress : CString := ⟨32 :: exampleAddress, by decide⟩

theorem mirrors_iff_spelled_example :
    EachStep (Notify.step exampleHash .main id) (Notify.MirrorsAfter exampleHash .main id)
      (Notify.loadAddressTableFromDB exampleHash .main id exampleDatabase)
      [.insertAddress 9 blankAddress, .removeAddress 7 ⟨exampleAddress, by decide⟩] :=
  (Notify.mirrors_iff_spelled exampleHash .main id exampleDatabase exampleDatabase_stored
    [.insertAddress 9 blankAddress, .removeAddress 7 ⟨exampleAddress, by decide⟩]).mpr
      (by decide +kernel)

/-- The row is deleted, the pair stays in memory. -/
theorem blank_keeps_pair : ¬∀ (db : Database) (calls : List Call),
    db.Stored exampleHash .main id →
      EachStep (Notify.step exampleHash .main id) (Notify.MirrorsAfter exampleHash .main id)
        (Notify.loadAddressTableFromDB exampleHash .main id db) calls := by
  intro h
  have heach := h exampleDatabase [.removeAddress 7 blankAddress] exampleDatabase_stored
  obtain ⟨hmirrors, hdb⟩ := Notify.mirrors_load exampleDatabase_stored
  have hspelled := (Notify.mirrorsAfter_iff hmirrors (hdb.symm ▸ exampleDatabase_stored)
    (.removeAddress 7 blankAddress)).mp (eachStep_cons.mp heach).1
  exact absurd hspelled (by decide +kernel)

end ExplorerKV.Logs.Subscriptions
