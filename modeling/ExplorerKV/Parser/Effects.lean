import ExplorerKV.Parser.Primitives

/-!
# What a phase of an operation may change

`Effects K P s s'`: the parser went from `s` to `s'` by writes under keys in
`K` and by changes of address information allowed by `P`.  Each helper gets one
lemma that bounds its effects; what it leaves alone then follows from `K` and
`P` without looking at the helper again.
-/

namespace ExplorerKV

/-- `02_`, `23_` and `24_` -/
def Key.OfUtxo : Key → Prop
  | .txSpend _ _ | .addrUnspent _ _ | .addrUnspentIndex _ _ _ => True
  | _ => False

/-- `21_` and `22_` -/
def Key.OfAddrTx : Key → Prop
  | .addrTx _ _ | .addrTxIndex _ _ => True
  | _ => False

def AddressInfo.txPart (info : AddressInfo) : AddressInfo :=
  { info with unspentTxCount := 0, unspentTxIndex := -1 }

/-- `unspentTxCount_` and `unspentTxIndex_` -/
def AddressInfo.unspentPart (info : AddressInfo) : Int × Int :=
  (info.unspentTxCount, info.unspentTxIndex)

namespace Parser

open Bitcoin Foundation

namespace ParserState

theorem cached_touch (s : ParserState) (address : Address) :
    ((s.touch address).cachedInfo address).isSome := by
  simp [touch_cachedInfo]

theorem put_infoOf {s : ParserState} {address : Address}
    (hcached : (s.cachedInfo address).isSome) (info : AddressInfo)
    (other : Address) :
    (s.put address info).infoOf other =
      if other = address then info else s.infoOf other := by
  unfold infoOf
  rw [put_cachedInfo]
  by_cases heq : other = address
  · obtain ⟨old, hold⟩ := Option.isSome_iff_exists.mp hcached
    simp [heq, hold]
  · simp [heq]

end ParserState

inductive Effects (K : Key → Prop)
    (P : Address → AddressInfo → AddressInfo → Prop) :
    ParserState → ParserState → Prop
  | refl (s : ParserState) : Effects K P s s
  | write {s s' : ParserState} (h : Effects K P s s') {key : Key}
      (hkey : K key) (val : Option key.Val) : Effects K P s (s'.write ⟨key, val⟩)
  | touch {s s' : ParserState} (h : Effects K P s s') (address : Address) :
      Effects K P s (s'.touch address)
  | put {s s' : ParserState} (h : Effects K P s s') {address : Address}
      {info : AddressInfo} (hcached : (s'.cachedInfo address).isSome)
      (hinfo : P address (s'.infoOf address) info) :
      Effects K P s (s'.put address info)

namespace Effects

variable {K K' : Key → Prop} {P P' : Address → AddressInfo → AddressInfo → Prop}
  {s s' s'' : ParserState}

theorem trans (h : Effects K P s s') (h' : Effects K P s' s'') :
    Effects K P s s'' := by
  induction h' with
  | refl => exact h
  | write _ hkey val ih => exact ih.write hkey val
  | touch _ address ih => exact ih.touch address
  | put _ hcached hinfo ih => exact ih.put hcached hinfo

theorem mono (h : Effects K P s s') (hK : ∀ key, K key → K' key)
    (hP : ∀ a info info', P a info info' → P' a info info') :
    Effects K' P' s s' := by
  induction h with
  | refl => exact .refl _
  | write _ hkey val ih => exact ih.write (hK _ hkey) val
  | touch _ address ih => exact ih.touch address
  | put _ hcached hinfo ih => exact ih.put hcached (hP _ _ _ hinfo)

theorem kv_eq (h : Effects K P s s') {key : Key} (hkey : ¬K key) :
    s'.kv key = s.kv key := by
  induction h with
  | refl => rfl
  | write _ hkey' val ih =>
      rw [ParserState.write_kv, KVDB.apply_of_ne, ih]
      rintro rfl
      exact hkey hkey'
  | touch _ address ih => rw [ParserState.touch_kv, ih]
  | put _ _ _ ih => rw [ParserState.put_kv, ih]

/-- A reading `g` of an address's information that no allowed change alters. -/
theorem infoOf_eq {β : Type} (h : Effects K P s s')
    (hK : ∀ address, ¬K (.addrObject address)) (address : Address)
    (g : AddressInfo → β) (hg : ∀ info info', P address info info' → g info' = g info) :
    g (s'.infoOf address) = g (s.infoOf address) := by
  induction h with
  | refl => rfl
  | write _ hkey val ih =>
      rw [ParserState.write_infoOf _ _ _ (fun a ha => hK a (ha ▸ hkey)), ih]
  | touch _ other ih => rw [ParserState.touch_infoOf, ih]
  | @put s' _ other info hcached hinfo ih =>
      rw [ParserState.put_infoOf hcached]
      by_cases heq : address = other
      · subst heq
        rw [if_pos rfl, hg _ _ hinfo, ih]
      · rw [if_neg heq, ih]

theorem cached (h : Effects K P s s') {address : Address}
    (hcached : (s.cachedInfo address).isSome) :
    (s'.cachedInfo address).isSome := by
  induction h with
  | refl => exact hcached
  | write _ _ _ ih => exact ih
  | touch _ other ih =>
      rw [ParserState.touch_cachedInfo]
      split
      · rfl
      · exact ih
  | put _ _ _ ih =>
      rw [ParserState.put_cachedInfo]
      split
      · rwa [Option.isSome_map]
      · exact ih

end Effects

/-- Changes of the unspent fields of addresses in `D`. -/
def UtxoChange (D : Address → Prop) (address : Address)
    (info info' : AddressInfo) : Prop :=
  D address ∧ info'.txPart = info.txPart

/-- Changes of the other fields of addresses in `D`. -/
def TxChange (D : Address → Prop) (address : Address)
    (info info' : AddressInfo) : Prop :=
  D address ∧ info'.unspentPart = info.unspentPart

/-! ## The unspent-output helpers -/

section Utxo

variable {cfg : Config} {D : Address → Prop} {E : Fault → Prop}
  {s s' : ParserState}

abbrev UtxoEffects (D : Address → Prop) : ParserState → ParserState → Prop :=
  Effects Key.OfUtxo (UtxoChange D)

theorem insertAddressUnspent_effects (hcfg : cfg.kMaxCacheCount = none)
    (nValue : Int) {address : Address} (haddress : D address) (hash : Uint256)
    (position position2 : Nat) (h : UtxoEffects D s s') :
    wp (insertAddressUnspent cfg nValue address hash position position2)
      (fun _ s'' => UtxoEffects D s s'') E s' := by
  simp only [insertAddressUnspent, wp_bind, wp_getAddressInfo hcfg,
    wp_putAddressInfo, wp_kvSet]
  refine .write (.write (.put (h.touch address) (s'.cached_touch address) ?_)
    (by trivial) _) (by trivial) _
  exact ⟨haddress, by simp [AddressInfo.txPart]⟩

theorem acceptTxOutputs_effects (hcfg : cfg.kMaxCacheCount = none)
    {txLog2 : TxLog2} (balance : BalanceMap)
    (hD : ∀ out ∈ txLog2.tx.vout, ∀ a ∈ outputAddresses cfg out, D a) :
    wp (acceptTxOutputs cfg txLog2 balance)
      (fun balance' s' => balance' = receiveBalance cfg txLog2.tx balance ∧
        UtxoEffects D s s') E s := by
  refine wp_foldlM_zipIdx (fun done balance' s' =>
    balance' = done.foldl (fun balance out =>
      (outputAddresses cfg out).foldl (fun balance address =>
        balance.add address out.nValue) balance) balance ∧
    UtxoEffects D s s') ⟨rfl, .refl s⟩ ?_
  rintro done out rest _ s' hxs ⟨rfl, h⟩
  have hout : out ∈ txLog2.tx.vout := by rw [hxs]; simp
  rw [List.foldl_append]
  generalize done.foldl _ balance = balance
  refine wp_foldlM_zipIdx (fun done balance' s' =>
    balance' = done.foldl (fun balance address =>
      balance.add address out.nValue) balance ∧
    UtxoEffects D s s') ⟨rfl, h⟩ ?_
  rintro done' address rest' _ s' hys ⟨rfl, h⟩
  have haddress : address ∈ outputAddresses cfg out := by rw [hys]; simp
  refine wp_seq
    (insertAddressUnspent_effects hcfg _ (hD out hout _ haddress) _ _ _ h)
    fun _ _ h => ⟨?_, h⟩
  rw [List.foldl_append]
  rfl

theorem removeUnspentOutputs_effects (hcfg : cfg.kMaxCacheCount = none)
    {tx : CTransaction} {prevTxOutputs : List TxOutput}
    (hlength : prevTxOutputs.length = tx.vin.length)
    (hD : ∀ output ∈ prevTxOutputs, ∀ a ∈ output.addresses, D a)
    (hE : ∀ a hash n, E (.notFoundKey (.addrUnspentIndex a hash n))) :
    wp (removeUnspentOutputs cfg tx prevTxOutputs)
      (fun _ s' => UtxoEffects D s s') E s := by
  rw [removeUnspentOutputs, wp_bind, wp_assertion]
  refine ⟨fun _ => ?_, fun hne => absurd hlength hne⟩
  refine wp_forM_const (UtxoEffects D s) (.refl s) ?_
  rintro ⟨input, output⟩ hmem s' h
  have houtput := (List.of_mem_zip hmem).2
  refine wp_forM_const (UtxoEffects D s) h ?_
  intro address haddress s' h
  simp only [wp_bind, wp_getAddressInfo hcfg, wp_putAddressInfo, wp_kvDel]
  refine wp_kvGet_of _ (fun index _ => ?_) (fun _ => hE ..)
  · refine .write (.write (.put (h.touch address) (s'.cached_touch address) ?_)
      (by trivial) _) (by trivial) _
    exact ⟨hD _ houtput _ haddress, by simp [AddressInfo.txPart]⟩

theorem insertSpendTxs_effects (hash : Uint256) (tx : CTransaction) :
    wp (insertSpendTxs hash tx) (fun _ s' => UtxoEffects D s s') E s := by
  refine wp_forM_const (UtxoEffects D s) (.refl s) ?_
  rintro ⟨input, n⟩ _ s' h
  exact h.write (by trivial) _

theorem acceptTxInputs_effects (hcfg : cfg.kMaxCacheCount = none)
    {txLog2 : TxLog2} {prevTxOutputs : List TxOutput}
    (hlength : ¬txLog2.tx.isCoinBase →
      prevTxOutputs.length = txLog2.tx.vin.length)
    (hD : ∀ output ∈ prevTxOutputs, ∀ a ∈ output.addresses, D a)
    (hE : ∀ a hash n, E (.notFoundKey (.addrUnspentIndex a hash n))) :
    wp (acceptTxInputs cfg txLog2 prevTxOutputs)
      (fun _ s' => UtxoEffects D s s') E s := by
  refine wp_ite (fun _ => .refl s) (fun hcb => ?_)
  refine wp_seq (removeUnspentOutputs_effects hcfg (hlength hcb) hD hE) ?_
  intro _ s1 h
  exact wp_mono (insertSpendTxs_effects ..) (fun _ _ h' => h.trans h') fun _ he => he

theorem rejectTxInputs_effects (hcfg : cfg.kMaxCacheCount = none)
    {tx : CTransaction} {prevTxOutputs : List TxOutput} (balance : BalanceMap)
    (hcoinbase : tx.isCoinBase → prevTxOutputs = [])
    (hlength : ¬tx.isCoinBase → prevTxOutputs.length = tx.vin.length)
    (hD : ∀ output ∈ prevTxOutputs, ∀ a ∈ output.addresses, D a) :
    wp (rejectTxInputs cfg tx prevTxOutputs balance)
      (fun balance' s' => balance' = spendBalance prevTxOutputs balance ∧
        UtxoEffects D s s') E s := by
  unfold rejectTxInputs
  split
  · rename_i hcb
    rw [hcoinbase hcb]
    exact ⟨rfl, .refl s⟩
  rename_i hcb
  refine wp_mono (wp_foldlM (fun done balance' s' =>
      balance' = spendBalance (done.map Prod.snd) balance ∧
      UtxoEffects D s s') ⟨rfl, .refl s⟩ ?_)
    (fun _ _ h => by rwa [List.map_snd_zip (hlength hcb).le] at h) fun _ he => he
  rintro done ⟨input, output⟩ rest _ s' hxs ⟨rfl, h⟩
  have hzip : (input, output) ∈ tx.vin.zip prevTxOutputs := by rw [hxs]; simp
  have houtput := (List.of_mem_zip hzip).2
  simp only [wp_bind, wp_kvDel, List.map_append]
  unfold spendBalance
  rw [List.foldl_append]
  generalize (done.map Prod.snd).foldl _ balance = balance
  refine wp_foldlM_zipIdx (fun done balance' s' =>
    balance' = done.foldl (fun balance address =>
      balance.add address (output.value * -1)) balance ∧
    UtxoEffects D s s') ⟨rfl, h.write (by trivial) _⟩ ?_
  rintro done' address rest' _ s' hys ⟨rfl, h⟩
  have haddress : address ∈ output.addresses := by rw [hys]; simp
  refine wp_seq
    (insertAddressUnspent_effects hcfg _ (hD output houtput _ haddress) _ _ _ h)
    fun _ _ h => ⟨?_, h⟩
  rw [List.foldl_append]
  rfl

theorem rejectTxOutputs_effects (D : Address → Prop) {txLog2 : TxLog2}
    (balance : BalanceMap)
    (hE : ∀ a hash n, E (.notFoundKey (.addrUnspentIndex a hash n))) :
    wp (rejectTxOutputs cfg txLog2 balance)
      (fun balance' s' => balance' = receiveBalance cfg txLog2.tx balance ∧
        UtxoEffects D s s') E s := by
  refine wp_foldlM_zipIdx (fun done balance' s' =>
    balance' = done.foldl (fun balance out =>
      (outputAddresses cfg out).foldl (fun balance address =>
        balance.add address out.nValue) balance) balance ∧
    UtxoEffects D s s') ⟨rfl, .refl s⟩ ?_
  rintro done out rest _ s' hxs ⟨rfl, h⟩
  rw [List.foldl_append]
  generalize done.foldl _ balance = balance
  refine wp_foldlM (fun done balance' s' =>
    balance' = done.foldl (fun balance address =>
      balance.add address out.nValue) balance ∧
    UtxoEffects D s s') ⟨rfl, h⟩ ?_
  rintro done' address rest' _ s' hys ⟨rfl, h⟩
  simp only [wp_bind, wp_kvDel]
  refine wp_kvGet_of _ (fun index _ => ⟨?_, ?_⟩) (fun _ => hE ..)
  · rw [List.foldl_append]
    rfl
  · exact (h.write (by trivial) _).write (by trivial) _

end Utxo

end Parser

end ExplorerKV
