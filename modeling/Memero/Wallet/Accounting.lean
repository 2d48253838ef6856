import Memero.Lib.SumTable
import Memero.Wallet.Verdicts

/-!
# The sums of a transaction

The scan adds up what the accepted outputs pay to each address. While the outputs are recorded, the
sums of an address always cover what is still to be recorded for it, so no check on them fails, and
the two totals at the end agree modulo the size of a word.
-/

namespace Memero

open List Word Table Nat

/-- The amounts of outputs for the address with an index. -/
def amountsTo (index : SubaddressIndex) (infos : List TxScanInfo) : List Nat :=
  (infos.filter fun info => decide (info.received.map SubaddressReceiveInfo.index = some index)).map
    TxScanInfo.amount

section AmountsTo

variable {info : TxScanInfo} {received : SubaddressReceiveInfo}
  (isReceived : info.received = some received)

include isReceived

variable (infos : List TxScanInfo)

theorem amountsTo_cons_self :
    amountsTo received.index (info :: infos) = info.amount :: amountsTo received.index infos := by
  simp [amountsTo, isReceived]

variable {index : SubaddressIndex}

theorem amountsTo_cons_of_ne (different : index ≠ received.index) (infos : List TxScanInfo) :
    amountsTo index (info :: infos) = amountsTo index infos := by
  simp [amountsTo, isReceived, different.symm]

theorem amountsTo_append_self :
    amountsTo received.index (infos ++ [info]) = amountsTo received.index infos ++ [info.amount] := by
  simp [amountsTo, isReceived]

theorem amountsTo_append_of_ne (different : index ≠ received.index) (infos : List TxScanInfo) :
    amountsTo index (infos ++ [info]) = amountsTo index infos := by
  simp [amountsTo, isReceived, different.symm]

end AmountsTo

/-! ## The scan -/

/-- The scan has added up the outputs that were accepted. -/
structure ScannedOutputs.Tallies (scanned : ScannedOutputs) (infos : List TxScanInfo) : Prop where
  keys : (scanned.moneyGot.map Prod.fst).Perm (scanned.individual.map Prod.fst)
  unique : (scanned.moneyGot.map Prod.fst).Nodup
  fits : ∀ index, scanned.moneyGot.sumOf index < 2 ^ 64
  got : ∀ index, scanned.moneyGot.sumOf index = (amountsTo index infos).sum
  listed : ∀ index, scanned.individual.members index = amountsTo index infos
  total : scanned.moneyGot.total = (infos.map TxScanInfo.amount).sum

namespace ScannedOutputs.Tallies

theorem empty : ScannedOutputs.empty.Tallies [] where
  keys := .refl _
  unique := .nil
  fits := fun _ => Nat.two_pow_pos 64
  got := fun _ => rfl
  listed := fun _ => rfl
  total := rfl

variable {scanned final : ScannedOutputs} {infos : List TxScanInfo}

theorem accept (tallies : scanned.Tallies infos) {i : Nat} {info : TxScanInfo}
    {received : SubaddressReceiveInfo} (isReceived : info.received = some received)
    (money : info.moneyTransfered = info.amount) (small : info.amount < 2 ^ 64)
    (accepted : scanned.accept i info received.index = .ok final) :
    final.Tallies (infos ++ [info]) := by
  unfold ScannedOutputs.accept at accepted
  rw [money] at accepted
  dsimp only at accepted
  split at accepted
  · cases accepted
  · rename_i room
    cases accepted
    rw [sub_of_le (by omega) (by decide)] at room
    have below : scanned.moneyGot.sumOf received.index + info.amount < 2 ^ 64 := by
      have got : scanned.moneyGot.sumOf received.index =
        (scanned.moneyGot.find received.index).getD 0 := rfl
      omega
    have sum : add 64 ((scanned.moneyGot.find received.index).getD 0) info.amount =
        scanned.moneyGot.sumOf received.index + info.amount := add_of_lt below
    rw [sum]
    refine ⟨keys_set_perm tallies.keys _ _ _, nodup_keys_set tallies.unique _ _, ?_, ?_,
      ?_, ?_⟩
    · intro index
      by_cases same : index = received.index
      · rwa [same, sumOf_set_self]
      · rw [sumOf_set_of_ne _ _ same]
        exact tallies.fits index
    · intro index
      by_cases same : index = received.index
      · rw [same, sumOf_set_self, amountsTo_append_self isReceived, List.sum_append,
          tallies.got, sum_singleton]
      · rw [sumOf_set_of_ne _ _ same, amountsTo_append_of_ne isReceived same]
        exact tallies.got index
    · intro index
      by_cases same : index = received.index
      · rw [same, members_set_self, amountsTo_append_self isReceived]
        exact congrArg (· ++ [info.amount]) (tallies.listed received.index)
      · rw [members_set_of_ne _ _ same, amountsTo_append_of_ne isReceived same]
        exact tallies.listed index
    · have changed := total_set tallies.unique received.index
        (scanned.moneyGot.sumOf received.index + info.amount)
      have before := tallies.total
      rw [map_append, List.sum_append]
      change _ = _ + (info.amount + 0)
      dsimp only
      omega

theorem collect {verdicts : List Verdict} {i : Nat} (tallies : scanned.Tallies infos)
    (known : ∀ info, .accepted info ∈ verdicts → info.moneyTransfered = info.amount ∧ info.amount < 2 ^ 64)
    (collected : ScannedOutputs.collect i verdicts scanned = .ok final) :
    final.Tallies (infos ++ (acceptedFrom i verdicts).map Prod.snd) := by
  induction verdicts generalizing i scanned infos with
  | nil =>
    cases collected
    rw [acceptedFrom, map_nil, append_nil]
    exact tallies
  | cons verdict rest ih =>
    rw [ScannedOutputs.collect, except_bind_eq_ok] at collected
    obtain ⟨middle, taken, collected⟩ := collected
    have others : ∀ info, .accepted info ∈ rest →
        info.moneyTransfered = info.amount ∧ info.amount < 2 ^ 64 :=
      fun info member => known info (mem_cons_of_mem _ member)
    cases verdict with
    | foreign entry =>
      cases taken
      have same : ScannedOutputs.Tallies { scanned with infos := scanned.infos ++ [entry] } infos :=
        ⟨tallies.keys, tallies.unique, tallies.fits, tallies.got, tallies.listed, tallies.total⟩
      exact ih same others collected
    | failed =>
      cases taken
      exact ih tallies others collected
    | accepted info =>
      rw [ScannedOutputs.take] at taken
      split at taken
      · cases taken
      · rename_i received isReceived
        obtain ⟨money, small⟩ := known info mem_cons_self
        have later := ih (tallies.accept isReceived money small taken) others collected
        rwa [append_assoc] at later

end ScannedOutputs.Tallies

/-! ## The recording -/

/-- The sums cover what is still to be recorded. -/
structure Received.Covers (sums : Received) (rest : List TxScanInfo) : Prop where
  keys : (sums.moneyGot.map Prod.fst).Perm (sums.individual.map Prod.fst)
  unique : (sums.moneyGot.map Prod.fst).Nodup
  fits : ∀ index, sums.moneyGot.sumOf index < 2 ^ 64
  got : ∀ index, (amountsTo index rest).sum ≤ sums.moneyGot.sumOf index
  listed : ∀ index, (amountsTo index rest).Subperm (sums.individual.members index)
  word : sums.total < 2 ^ 64
  total : Word.wrap 64 (sums.total + (rest.map TxScanInfo.amount).sum) =
    Word.wrap 64 sums.moneyGot.total

theorem ScannedOutputs.Tallies.covers {scanned : ScannedOutputs} {infos : List TxScanInfo}
    (tallies : scanned.Tallies infos) :
    Received.Covers
      { moneyGot := scanned.moneyGot, individual := scanned.individual, total := 0 } infos where
  keys := tallies.keys
  unique := tallies.unique
  fits := tallies.fits
  got := fun index => le_of_eq (tallies.got index).symm
  listed := fun index => tallies.listed index ▸ Subperm.refl _
  word := Nat.two_pow_pos 64
  total := by rw [zero_add, tallies.total]

namespace Received.Covers

variable {sums : Received} {info : TxScanInfo} {rest : List TxScanInfo}
  {received : SubaddressReceiveInfo}

section First

variable (covers : sums.Covers (info :: rest)) (isReceived : info.received = some received)

include covers isReceived

theorem amount_le : info.amount ≤ sums.moneyGot.sumOf received.index := by
  have bound := covers.got received.index
  rw [amountsTo_cons_self isReceived, sum_cons] at bound
  omega

theorem amount_mem : info.amount ∈ sums.individual.members received.index := by
  have contained := covers.listed received.index
  rw [amountsTo_cons_self isReceived] at contained
  exact contained.subset mem_cons_self

theorem key_mem (positive : 0 < info.amount) : received.index ∈ sums.moneyGot.map Prod.fst := by
  have bound := covers.amount_le isReceived
  by_contra missing
  rw [← find_eq_none_iff] at missing
  rw [sumOf, missing] at bound
  exact absurd bound (Nat.not_le_of_lt positive)

/-- What is left for an address once the first output has been recorded. -/
theorem rest_le (index : SubaddressIndex) :
    (amountsTo index rest).sum ≤ sums.moneyGot.sumOf index ∧
      (amountsTo index rest).Subperm (sums.individual.members index) := by
  have bound := covers.got index
  have contained := covers.listed index
  by_cases same : index = received.index
  · subst same
    rw [amountsTo_cons_self isReceived] at bound contained
    rw [sum_cons] at bound
    exact ⟨by omega, (sublist_cons_self _ _).subperm.trans contained⟩
  · rw [amountsTo_cons_of_ne isReceived same] at bound contained
    exact ⟨bound, contained⟩

/-- The first output was new. -/
theorem counted :
    Received.Covers { sums with total := add 64 sums.total info.amount } rest where
  keys := covers.keys
  unique := covers.unique
  fits := covers.fits
  got := fun index => (covers.rest_le isReceived index).1
  listed := fun index => (covers.rest_le isReceived index).2
  word := wrap_lt _
  total := by
    have before := covers.total
    rw [map_cons, sum_cons, ← add_assoc] at before
    rw [← before]
    simp [add, wrap]

variable {old : Nat}

/-- The sums still cover the rest if at most the amount of the first output is taken off. -/
theorem less (smaller : old ≤ info.amount) {after : Table SubaddressIndex Nat}
    (set : after = sums.moneyGot.set received.index (sub 64 (sums.moneyGot.sumOf received.index) old)) :
    (∀ index, after.sumOf index < 2 ^ 64) ∧ (∀ index, (amountsTo index rest).sum ≤ after.sumOf index) ∧
      sums.moneyGot.total = after.total + old := by
  have enough := covers.amount_le isReceived
  rw [sub_of_le (le_trans smaller enough) (covers.fits received.index)] at set
  subst set
  refine ⟨?_, ?_, ?_⟩
  · intro index
    have small := covers.fits index
    by_cases same : index = received.index
    · subst same
      rw [sumOf_set_self]
      omega
    · rwa [sumOf_set_of_ne _ _ same]
  · intro index
    by_cases same : index = received.index
    · have bound := covers.got received.index
      rw [amountsTo_cons_self isReceived, sum_cons] at bound
      rw [same, sumOf_set_self]
      omega
    · rw [sumOf_set_of_ne _ _ same]
      exact (covers.rest_le isReceived index).1
  · have changed := total_set covers.unique received.index
      (sums.moneyGot.sumOf received.index - old)
    omega

/-- The first output was ignored. -/
theorem dropped :
    Received.Covers
      { sums with
        moneyGot := sums.moneyGot.set received.index
          (sub 64 (sums.moneyGot.sumOf received.index) info.amount)
        individual := sums.individual.set received.index
          ((sums.individual.members received.index).erase info.amount) } rest := by
  obtain ⟨fits, got, total⟩ := covers.less isReceived le_rfl rfl
  refine ⟨keys_set_perm covers.keys _ _ _, nodup_keys_set covers.unique _ _, fits, got,
    ?_, covers.word, ?_⟩
  · intro index
    by_cases same : index = received.index
    · have contained := (covers.listed received.index).erase info.amount
      rw [amountsTo_cons_self isReceived, erase_cons_head] at contained
      rwa [same, members_set_self]
    · rw [members_set_of_ne _ _ same]
      exact (covers.rest_le isReceived index).2
  · have before := covers.total
    rw [map_cons, sum_cons, total, add_left_comm, add_comm info.amount] at before
    exact ModEq.add_right_cancel' info.amount before

/-- The first output replaced one of the amount `old`. -/
theorem exchanged (positive : 0 < info.amount) (larger : old < info.amount) :
    Received.Covers
      { sums with
        moneyGot := sums.moneyGot.set received.index
          (sub 64 (sums.moneyGot.sumOf received.index) old)
        total := add 64 sums.total (sub 64 info.amount old) } rest := by
  obtain ⟨fits, got, total⟩ := covers.less isReceived (le_of_lt larger) rfl
  have small := lt_of_le_of_lt (covers.amount_le isReceived) (covers.fits received.index)
  refine ⟨(keys_set_perm_self covers.unique (covers.key_mem isReceived positive) _).trans
    covers.keys, nodup_keys_set covers.unique _ _, fits, got,
    fun index => (covers.rest_le isReceived index).2, wrap_lt _, ?_⟩
  have before := covers.total
  have same : sums.total + (info.amount + (rest.map TxScanInfo.amount).sum) =
      sums.total + (info.amount - old) + (rest.map TxScanInfo.amount).sum + old := by omega
  rw [map_cons, sum_cons, total, same] at before
  refine Eq.trans ?_ (ModEq.add_right_cancel' old before)
  rw [sub_of_le (le_of_lt larger) small]
  simp [add, wrap]

end First

end Received.Covers

end Memero
