import Memero.Blockchain.Scan

/-!
# Rings

The ring of an input is the list of outputs at its absolute indices. This module says what
`check_ringct_inputs` has found out about the rings of a transaction when it comes to the
signatures, and when the indices of a ring increase: the indices are running sums of 64-bit
offsets, so they increase as long as the sum of all the offsets fits in 64 bits.
-/

namespace Memero

open List Nat Option Word

namespace ChainTables

variable {env : Env} {db : ChainTables}

/-! ## Absolute indices -/

theorem absoluteOffsetsFrom_length (previous : Nat) (offsets : List Nat) :
    (absoluteOffsetsFrom previous offsets).length = offsets.length := by
  induction offsets generalizing previous with
  | nil => rfl
  | cons offset rest ih => simp [absoluteOffsetsFrom, ih]

theorem relativeOutputOffsetsToAbsolute_length (offsets : List Nat) :
    (relativeOutputOffsetsToAbsolute offsets).length = offsets.length := by
  cases offsets with
  | nil => rfl
  | cons first rest => simp [relativeOutputOffsetsToAbsolute, absoluteOffsetsFrom_length]

variable {offsets : List Nat} {amount start : Nat} {scanTable : ScanTable} {txPrefixHash : Hash}
  {ring : List OutputPublicData × Nat} {inputs : List TxinFromKey}
  {rings : List (List OutputPublicData)}
variable {previous index value size : Nat} {output : OutputData}

/-- Running sums of non-zero offsets increase exactly if the last one does not wrap. -/
theorem absoluteOffsetsFrom_increasing_iff (start : previous < 2 ^ 64)
    (words : ∀ offset ∈ offsets, offset < 2 ^ 64) (nonzero : ∀ offset ∈ offsets, offset ≠ 0) :
    (previous :: absoluteOffsetsFrom previous offsets).IsChain (· < ·) ↔
      previous + offsets.sum < 2 ^ 64 := by
  induction offsets generalizing previous with
  | nil => simpa [absoluteOffsetsFrom] using start
  | cons offset rest ih =>
    have word : offset < 2 ^ 64 := words offset mem_cons_self
    have positive : offset ≠ 0 := nonzero offset mem_cons_self
    have others := @ih (add 64 offset previous) (wrap_lt _)
      (fun other member => words other (mem_cons_of_mem _ member))
      (fun other member => nonzero other (mem_cons_of_mem _ member))
    rw [absoluteOffsetsFrom, isChain_cons_cons, others, sum_cons]
    rcases lt_or_ge (offset + previous) (2 ^ 64) with fits | wraps
    · rw [add_of_lt fits]
      omega
    · -- the running sum wraps here, so the next index is below the one before it
      rw [add_of_ge word start wraps]
      omega

/-- The absolute indices of an input increase exactly if the sum of its offsets fits. -/
theorem relativeOutputOffsetsToAbsolute_increasing_iff (words : ∀ offset ∈ offsets, offset < 2 ^ 64)
    (nonzero : rule7 offsets = true) :
    (relativeOutputOffsetsToAbsolute offsets).Pairwise (· < ·) ↔ offsets.sum < 2 ^ 64 := by
  rw [← isChain_iff_pairwise]
  cases offsets with
  | nil => simp [relativeOutputOffsetsToAbsolute]
  | cons first rest =>
    simp only [rule7, List.all_eq_true, decide_eq_true_eq] at nonzero
    exact absoluteOffsetsFrom_increasing_iff (words first mem_cons_self)
      (fun other member => words other (mem_cons_of_mem _ member)) nonzero

/-- Running sums that do not wrap do not decrease. -/
theorem absoluteOffsetsFrom_ascending (fits : previous + offsets.sum < 2 ^ 64) :
    (previous :: absoluteOffsetsFrom previous offsets).IsChain (· ≤ ·) := by
  induction offsets generalizing previous with
  | nil => exact .singleton previous
  | cons offset rest ih =>
    rw [sum_cons] at fits
    have next : add 64 offset previous = offset + previous := add_of_lt (by omega)
    rw [absoluteOffsetsFrom, next]
    exact .cons_cons (le_add_left _ _) (ih (by omega))

theorem relativeOutputOffsetsToAbsolute_ascending (fits : offsets.sum < 2 ^ 64) :
    (relativeOutputOffsetsToAbsolute offsets).Pairwise (· ≤ ·) := by
  rw [← isChain_iff_pairwise]
  cases offsets with
  | nil => exact .nil
  | cons first rest =>
    exact absoluteOffsetsFrom_ascending fits

/-! ## Heights of outputs -/

/-- Among the outputs of an amount a newer one has a larger index and is not lower, and every
output is below `limit`. -/
structure Ascending (db : ChainTables) (limit : Nat) : Prop where
  numbered : db.Numbered
  order : db.outputAmounts.Pairwise fun newer older => newer.1 = older.1 →
    older.2.amountIndex < newer.2.amountIndex ∧ older.2.data.height ≤ newer.2.data.height
  bounded : ∀ row ∈ db.outputAmounts, row.2.data.height < limit

variable {limit used : Nat} {visited : List OutputData} {input : TxinFromKey} {values : List Nat}
  {tx : Transaction} {data : RctDataSizeChecked × Nat}

theorem Ascending.of_eq {after : ChainTables} {other : Nat} (ascending : db.Ascending limit)
    (same : after.outputAmounts = db.outputAmounts) (more : limit ≤ other) :
    after.Ascending other where
  numbered := ascending.numbered.of_eq same
  order := same ▸ ascending.order
  bounded := fun row member => lt_of_lt_of_le (ascending.bounded row (same ▸ member)) more

theorem Ascending.pushOutput (ascending : db.Ascending (db.height + 1)) (txHash : Hash)
    (out : TxOut) (localIndex unlockHeight : Nat) (commitment : Option EcPoint) :
    (db.pushOutput txHash out localIndex unlockHeight commitment).Ascending (db.height + 1) where
  numbered := ascending.numbered.pushOutput txHash out localIndex unlockHeight commitment
  order := by
    refine pairwise_cons.mpr ⟨fun older member same => ?_, ascending.order⟩
    have index := ascending.numbered older member
    rw [← same] at index
    exact ⟨index, le_of_lt_succ (ascending.bounded older member)⟩
  bounded := by
    intro row member
    rcases Table.mem_put.mp member with rfl | old
    · exact lt_succ_self _
    · exact ascending.bounded row old

theorem ofLedger_ascending (env : Env) (ledger : Ledger) :
    (ofLedger env ledger).Ascending ledger.length := by
  induction ledger using reverseRecOn with
  | nil =>
    constructor
    case numbered => exact fun row member => absurd member not_mem_nil
    case order => exact .nil
    case bounded => exact fun row member => absurd member not_mem_nil
  | append_singleton rest entry ih =>
    have height : (ofLedger env rest).height = rest.length := ofLedger_height env rest
    have filled : ((ofLedger env rest).fillBlock env entry).Ascending
        (((ofLedger env rest).fillBlock env entry).height + 1) := by
      refine fillBlock_induction (P := fun db => db.Ascending (db.height + 1)) ?_ ?_ env entry ?_
      · intro db after rows blocks ascending
        exact ascending.of_eq rows (le_of_eq (by simp [ChainTables.height, blocks]))
      · intro db txHash out localIndex unlockHeight commitment ascending
        exact ascending.pushOutput txHash out localIndex unlockHeight commitment
      · exact ih.of_eq rfl (by rw [height]; exact le_succ _)
    rw [(fillBlock_sameBlocks env _ entry).height, height] at filled
    rw [ofLedger_append, length_append]
    exact filled.of_eq rfl (le_refl _)

/-- The row of an output that `get_output_key` returns. -/
theorem getOutputKey_row (found : db.getOutputKey env amount index = some output) :
    ∃ row, (amount, row) ∈ db.outputAmounts ∧ row.amountIndex = index ∧
      row.data.height = output.height := by
  obtain ⟨row, rowFound, same⟩ := map_eq_some_iff.mp found
  obtain ⟨member, rowIndex⟩ := mem_of_findOutput rowFound
  refine ⟨row, member, rowIndex, ?_⟩
  rw [← same]
  split <;> rfl

/-- An output with a larger index is not lower. -/
theorem Ascending.height_le (ascending : db.Ascending limit) {first second : Nat}
    {lower upper : OutputData} (lowerFound : db.getOutputKey env amount first = some lower)
    (upperFound : db.getOutputKey env amount second = some upper) (le : first ≤ second) :
    lower.height ≤ upper.height := by
  obtain ⟨row, member, index, height⟩ := getOutputKey_row lowerFound
  obtain ⟨other, otherMember, otherIndex, otherHeight⟩ := getOutputKey_row upperFound
  rw [← height, ← otherHeight]
  obtain ⟨position, bound, here⟩ := mem_iff_getElem.mp member
  obtain ⟨otherPosition, otherBound, there⟩ := mem_iff_getElem.mp otherMember
  have pairs := pairwise_iff_getElem.mp ascending.order
  -- of two different rows one is newer, and by its index that is the upper one
  rcases lt_trichotomy position otherPosition with newer | same | older
  · have related := pairs position otherPosition bound otherBound newer
    rw [here, there] at related
    have contradiction := (related rfl).1
    dsimp only at contradiction
    omega
  · subst same
    cases here.symm.trans there
    exact le_refl _
  · have related := pairs otherPosition position otherBound bound older
    rw [here, there] at related
    exact (related rfl).2

/-! ## The members of a ring -/

theorem visitOutputs_length {outputs : List OutputData}
    (found : db.visitOutputs env amount outputs offsets = some visited) :
    visited.length = offsets.length := by
  induction offsets generalizing outputs visited with
  | nil =>
    cases found
    rfl
  | cons offset rest ih =>
    unfold visitOutputs at found
    split at found
    · cases found
    split at found
    · obtain ⟨others, visitedRest, rfl⟩ := map_eq_some_iff.mp found
      rw [length_cons, length_cons, ih visitedRest]
    · cases found

/-- A ring has a member for every offset of the input. -/
theorem scanOutputkeysForIndexes_length
    (found : db.scanOutputkeysForIndexes env scanTable input txPrefixHash = some ring) :
    ring.1.length = input.outputRelativeOffsets.length := by
  unfold scanOutputkeysForIndexes at found
  split at found
  · cases found
  · obtain ⟨outputs, -, visitedRing⟩ := bind_eq_some_iff.mp found
    obtain ⟨visited, visiting, rfl⟩ := map_eq_some_iff.mp visitedRing
    rw [length_map, visitOutputs_length visiting, relativeOutputOffsetsToAbsolute_length]

theorem checkInputs_rings
    (found : db.checkInputs env scanTable txPrefixHash inputs start = some (rings, used)) :
    Forall₂ (fun input ring => ring.length = input.outputRelativeOffsets.length)
      inputs rings := by
  induction inputs generalizing start rings used with
  | nil =>
    cases found
    exact .nil
  | cons input rest ih =>
    unfold checkInputs at found
    split at found
    · cases found
    · obtain ⟨ring, scanned, others⟩ := bind_eq_some_iff.mp found
      obtain ⟨⟨otherRings, otherUsed⟩, checkedRest, same⟩ := map_eq_some_iff.mp others
      cases same
      exact .cons (scanOutputkeysForIndexes_length scanned) (ih checkedRest)

/-- The members of a ring exist and are unlocked. -/
theorem ringAt_members (ring : db.ringAt env amount offsets = some visited) :
    Forall₂ (fun offset output => db.getOutputKey env amount offset = some output ∧
      db.isTxSpendtimeUnlocked output.unlockHeight = true) offsets visited := by
  induction offsets generalizing visited with
  | nil =>
    cases ring
    exact .nil
  | cons offset rest ih =>
    unfold ringAt at ring
    cases found : db.getOutputKey env amount offset with
    | none => simp [found] at ring
    | some output =>
      simp only [found, ite_none_right_eq_some] at ring
      obtain ⟨unlocked, others⟩ := ring
      obtain ⟨visitedRest, ringRest, rfl⟩ := map_eq_some_iff.mp others
      exact .cons ⟨found, unlocked⟩ (ih ringRest)

section

variable (found : db.scanOutputkeysForIndexes env [] input txPrefixHash = some ring)
include found

/-- The scan returns the height of the last member of the ring. -/
theorem ringAt_of_scan :
    input.outputRelativeOffsets ≠ [] ∧ ∃ visited,
      db.ringAt env input.amount
        (relativeOutputOffsetsToAbsolute input.outputRelativeOffsets) = some visited ∧
      ring.2 = (visited.getLast?.map (·.height)).getD 0 := by
  unfold scanOutputkeysForIndexes at found
  rw [ite_none_left_eq_some] at found
  obtain ⟨nonempty, found⟩ := found
  refine ⟨fun empty => nonempty (by simp [empty]), ?_⟩
  obtain ⟨outputs, prefetched, visitedRing⟩ := bind_eq_some_iff.mp found
  obtain ⟨visited, visiting, rfl⟩ := map_eq_some_iff.mp visitedRing
  have agreed := @prefetchedOutputs_bind (relativeOutputOffsetsToAbsolute input.outputRelativeOffsets)
    [] txPrefixHash env db input fun _ row => by cases row
  rw [prefetched, bind_some, visiting] at agreed
  exact ⟨visited, agreed.symm, rfl⟩

/-- The last member of the ring, whose height the scan returns. -/
theorem lastMember_of_scan :
    ∃ index output,
      (relativeOutputOffsetsToAbsolute input.outputRelativeOffsets).getLast? = some index ∧
        db.getOutputKey env input.amount index = some output ∧ ring.2 = output.height := by
  obtain ⟨nonempty, visited, ringAt, lastHeight⟩ := ringAt_of_scan found
  have members := ringAt_members ringAt
  have size := relativeOutputOffsetsToAbsolute_length input.outputRelativeOffsets
  have positive : 0 < input.outputRelativeOffsets.length := length_pos_of_ne_nil nonempty
  have bound : (relativeOutputOffsetsToAbsolute input.outputRelativeOffsets).length - 1 <
      (relativeOutputOffsetsToAbsolute input.outputRelativeOffsets).length := by omega
  have visitedBound : visited.length - 1 < visited.length := by
    rw [← members.length_eq]
    exact bound
  have same : visited.length - 1 =
      (relativeOutputOffsetsToAbsolute input.outputRelativeOffsets).length - 1 := by
    rw [members.length_eq]
  have related := members.get bound (same ▸ visitedBound)
  refine ⟨_, _, ?_, related.1, ?_⟩
  · rw [getLast?_eq_getElem?, getElem?_eq_getElem bound, get_eq_getElem]
  · rw [lastHeight, getLast?_eq_getElem?, getElem?_eq_getElem visitedBound]
    simp only [map_some, getD_some, get_eq_getElem, same]

end

section

variable (found : db.checkInputs env scanTable txPrefixHash inputs start = some (rings, used))
include found

/-- Every input is scanned, and no last member is above the height that is returned. -/
theorem checkInputs_scanned :
    start ≤ used ∧ ∀ input ∈ inputs, ∃ ring,
      db.scanOutputkeysForIndexes env scanTable input txPrefixHash = some ring ∧ ring.2 ≤ used := by
  induction inputs generalizing start rings used with
  | nil =>
    cases found
    exact ⟨le_refl _, fun input member => by cases member⟩
  | cons input rest ih =>
    unfold checkInputs at found
    split at found
    · cases found
    · obtain ⟨ring, scanned, others⟩ := bind_eq_some_iff.mp found
      obtain ⟨⟨otherRings, otherUsed⟩, checkedRest, same⟩ := map_eq_some_iff.mp others
      cases same
      obtain ⟨higher, scannedRest⟩ := ih checkedRest
      refine ⟨le_trans (le_max_left _ _) higher, fun other member => ?_⟩
      rcases mem_cons.mp member with rfl | later
      · exact ⟨ring, scanned, le_trans (le_max_right _ _) higher⟩
      · exact scannedRest other later

theorem checkInputs_le {bound : Nat} (low : start ≤ bound)
    (below : ∀ input ring, db.scanOutputkeysForIndexes env scanTable input txPrefixHash = some ring → ring.2 ≤ bound) :
    used ≤ bound := by
  induction inputs generalizing start rings used with
  | nil =>
    cases found
    exact low
  | cons input rest ih =>
    unfold checkInputs at found
    split at found
    · cases found
    · obtain ⟨ring, scanned, others⟩ := bind_eq_some_iff.mp found
      obtain ⟨⟨otherRings, otherUsed⟩, checkedRest, same⟩ := map_eq_some_iff.mp others
      cases same
      exact ih checkedRest (Nat.max_le.mpr ⟨low, below input ring scanned⟩)

end

/-- An output that is found is below the limit. -/
theorem Ascending.height_lt (ascending : db.Ascending limit)
    (found : db.getOutputKey env amount index = some output) : output.height < limit := by
  obtain ⟨row, member, -, height⟩ := getOutputKey_row found
  rw [← height]
  exact ascending.bounded _ member

/-! ## The size of a ring -/

theorem foldl_min_le (member : value ∈ values) : values.foldl min start ≤ value := by
  rw [foldl_min]
  obtain ⟨least, found⟩ := isSome_iff_exists.mp (isSome_min?_of_mem member)
  rw [found]
  exact le_trans (min_le_right _ _) ((min?_eq_some_iff.mp found).2 value member)

theorem le_foldl_max (member : value ∈ values) : value ≤ values.foldl max start := by
  rw [foldl_max]
  obtain ⟨greatest, found⟩ := isSome_iff_exists.mp (isSome_max?_of_mem member)
  rw [found]
  exact le_trans ((max?_eq_some_iff.mp found).2 value member) (le_max_right _ _)

theorem foldl_max_mem (nonempty : values ≠ []) : values.foldl max 0 ∈ values := by
  rw [foldl_max]
  obtain ⟨greatest, found⟩ := isSome_iff_exists.mp (isSome_max?_of_ne_nil nonempty)
  rw [found]
  exact (max?_eq_some_iff.mp found).1

theorem mixins_of_range (typed : tx.vin.mapM TxIn.fromKey? = some inputs)
    (least : minActualMixin tx = mixin) (greatest : maxActualMixin tx = mixin) :
    ∀ input ∈ inputs, sub 64 input.outputRelativeOffsets.length 1 = mixin := by
  intro input member
  have listed : sub 64 input.outputRelativeOffsets.length 1 ∈ ringMixins tx := by
    rw [ringMixins, vin_of_typed typed, filterMap_map]
    refine mem_map.mpr ⟨input, mem_filterMap.mpr ⟨input, member, rfl⟩, rfl⟩
  exact le_antisymm (greatest ▸ le_foldl_max listed) (least ▸ foldl_min_le listed)

theorem two_le_of_mixin (mixed : sub 64 size 1 = mixin) : 2 ≤ size := by
  have small : sub 64 0 1 ≠ mixin ∧ sub 64 1 1 ≠ mixin := by decide
  rcases size with _ | _ | size
  · exact absurd mixed small.1
  · exact absurd mixed small.2
  · exact le_add_left 2 size

/-- A list with as many members as the mixin asks for, unless it is too long to be one. -/
theorem length_of_mixin (mixed : sub 64 size 1 = mixin) (bounded : size ≤ 2 ^ 64) :
    size = mixin + 1 := by
  simp only [sub, wrap, mixin] at mixed ⊢
  omega

/-! ## What `check_ringct_inputs` has checked -/

/-- What the checks before the signatures have found. -/
structure InputsChecked (env : Env) (db : ChainTables) (scanTable : ScanTable)
    (tx : Transaction) (inputs : List TxinFromKey) (rings : List (List OutputPublicData))
    (used : Nat) : Prop where
  typed : tx.vin.mapM TxIn.fromKey? = some inputs
  mixins : ∀ input ∈ inputs, Word.sub 64 input.outputRelativeOffsets.length 1 = mixin
  sorted : rule18 (inputs.map (·.outputKeyImage)) = true
  scanned : db.checkInputs env scanTable (env.getTransactionPrefixHash tx) inputs 0 =
    some (rings, used)
  aged : Word.add 64 used defaultTxSpendableAge ≤ db.height

theorem inputsChecked (collected : db.collectRingct env scanTable tx = .ok (some data)) :
    ∃ inputs rings reconstructed, InputsChecked env db scanTable tx inputs rings data.2 ∧
      expandTransaction2 tx inputs (env.getTransactionPrefixHash tx) rings = some reconstructed ∧
      maybeSizeCheckedRctData tx.ringct reconstructed = some data.1 := by
  unfold collectRingct at collected
  split at collected
  · cases collected
  split at collected
  · cases collected
  rename_i same
  split at collected
  · cases collected
  rename_i least
  split at collected
  · cases collected
  split at collected
  · cases collected
  rename_i inputs typed
  split at collected
  · cases collected
  rename_i sorted
  split at collected
  · cases collected
  rename_i rings used checked
  split at collected
  · cases collected
  rename_i aged
  rw [Except.ok.injEq] at collected
  obtain ⟨reconstructed, expanded, sized⟩ := bind_eq_some_iff.mp collected
  obtain ⟨sizeChecked, checking, rfl⟩ := map_eq_some_iff.mp sized
  have mixins := mixins_of_range typed (not_not.mp least)
    ((not_not.mp same).symm.trans (not_not.mp least))
  exact ⟨inputs, rings, reconstructed, ⟨typed, mixins, not_not.mp sorted, checked,
    Nat.le_of_not_lt aged⟩, expanded, checking⟩

/-- A transaction that `check_ringct_inputs` accepts has come to the signatures. -/
theorem collected_of_checkRingctInputs {uninit : Uninit}
    (checked : db.checkRingctInputs env scanTable uninit tx = .ok (some used)) :
    ∃ data, db.collectRingct env scanTable tx = .ok (some (data, used)) ∧
      (env.verifyClsagSignatures data).value uninit = true := by
  unfold checkRingctInputs at checked
  cases collected : db.collectRingct env scanTable tx with
  | error exception => simp [collected, Except.map] at checked
  | ok result =>
    cases result with
    | none => simp [collected, Except.map] at checked
    | some data =>
      simp only [collected, Except.map, bind_some, Except.ok.injEq,
        ite_none_right_eq_some, some.injEq] at checked
      obtain ⟨verified, rfl⟩ := checked
      exact ⟨data.1, rfl, verified⟩

/-- What `check_ringct_inputs` has collected when it comes to the signatures. -/
structure CollectedRingct (tx : Transaction) (inputs : List TxinFromKey)
    (data : RctDataSizeChecked) : Prop where
  typed : tx.vin.mapM TxIn.fromKey? = some inputs
  mixins : ∀ input ∈ inputs, Word.sub 64 input.outputRelativeOffsets.length 1 = mixin
  images : data.signerKeyImages = inputs.map (·.outputKeyImage)
  signatures : data.clsags.length = inputs.length
  commits : data.pseudoInputCommits.length = inputs.length
  rings : List.Forall₂ (fun input ring => ring.length = input.outputRelativeOffsets.length)
    inputs data.decoys

theorem collectedRingct (collected : db.collectRingct env scanTable tx = .ok (some data)) :
    ∃ inputs, CollectedRingct tx inputs data.1 := by
  obtain ⟨inputs, rings, reconstructed, checked, expanded, sized⟩ := inputsChecked collected
  obtain ⟨data, used⟩ := data
  simp only [expandTransaction2, ite_none_left_eq_some, some.injEq, not_not] at expanded
  obtain ⟨-, -, signatures, rfl⟩ := expanded
  unfold maybeSizeCheckedRctData at sized
  split at sized
  · cases sized
  split at sized
  · split at sized
    · cases sized
    rename_i commits
    split at sized
    · cases sized
    cases sized
    have sizes : tx.ringct.p.clsags.length = inputs.length := by
      rw [signatures, vin_of_typed checked.typed, length_map]
    exact ⟨inputs, checked.typed, checked.mixins, rfl, sizes, (not_not.mp commits).trans sizes,
      checkInputs_rings checked.scanned⟩
  · cases sized

end ChainTables

end Memero
