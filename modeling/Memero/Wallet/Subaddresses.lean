import Memero.Crypto.Subaddress
import Memero.Lib.Table
import Memero.Lib.Word

/-!
# The table of subaddresses

`m_subaddresses` and `m_subaddress_labels` of `wallet2`: which spend keys the wallet looks for, and
which accounts and subaddresses it has handed out. An account is extended by a number of
subaddresses that nobody was given yet, so that an output to one of them is still found.
-/

namespace Memero

open List Nat Option

/-- `std::numeric_limits<uint32_t>::max()`. -/
def uint32Max : Nat := 2 ^ 32 - 1

/-- The members of `wallet2` that are about subaddresses. A label is given by its bytes. -/
structure SubaddressBook where
  subaddresses : Table EcPoint SubaddressIndex
  labels : List (List (List UInt8))
  lookaheadMajor : Nat
  lookaheadMinor : Nat
  deriving DecidableEq, Repr

/-- A new `wallet2`. -/
def SubaddressBook.new : SubaddressBook where
  subaddresses := []
  labels := []
  lookaheadMajor := 16
  lookaheadMinor := 512

/-- `std::vector::resize`. -/
def resize {α : Type} (xs : List α) (size : Nat) (fill : α) : List α :=
  xs.take size ++ List.replicate (size - xs.length) fill

/-- `get_subaddress_clamped_sum`. -/
def getSubaddressClampedSum (idx extra : Nat) : Nat :=
  if uint32Max - extra < idx then uint32Max else idx + extra

/-- The index of the address to which `transfer_selected_rct` sends the change. -/
def changeSubaddressIndex (subaddrAccount : Nat) : SubaddressIndex where
  major := subaddrAccount
  minor := if subaddrAccount = 0 then 1 else 0

namespace SubaddressBook

variable (sodium : Sodium) (sha3 : List UInt8 → Hash) (keys : SpendViewSecretKeys)

/-- Enter the spend keys of an account from `get_subaddress_spend_public_keys`. -/
def enter (account first last : Nat) (table : Table EcPoint SubaddressIndex) :
    Table EcPoint SubaddressIndex :=
  (List.range' first (last - first)).foldl (fun table minor =>
    table.set (sodium.getSubaddressSpendPublicKey sha3 keys ⟨account, minor⟩) ⟨account, minor⟩) table

/-- The accounts that `expand_subaddresses` adds. -/
def enterAccounts (book : SubaddressBook) (index : SubaddressIndex) : Table EcPoint SubaddressIndex :=
  let majorEnd := getSubaddressClampedSum index.major book.lookaheadMajor
  (List.range' book.labels.length (majorEnd - book.labels.length)).foldl (fun table major =>
    enter sodium sha3 keys major 0 (getSubaddressClampedSum
      (if major = index.major then index.minor else 0) book.lookaheadMinor) table) book.subaddresses

/-- `expand_subaddresses`. -/
def expandSubaddresses (book : SubaddressBook) (index : SubaddressIndex) : SubaddressBook :=
  match book.labels[index.major]? with
  | none =>
    { book with
      subaddresses := book.enterAccounts sodium sha3 keys index
      labels := (resize book.labels (Word.add 32 index.major 1) []).modify index.major
        fun account => resize account (Word.add 32 index.minor 1) [] }
  | some account =>
    if account.length ≤ index.minor then
      { book with
        subaddresses := enter sodium sha3 keys index.major account.length
          (getSubaddressClampedSum index.minor book.lookaheadMinor) book.subaddresses
        labels := book.labels.modify index.major
          fun account => resize account (Word.add 32 index.minor 1) [] }
    else
      book

/-- `should_expand`. The last index of an account without subaddresses wraps around. -/
def shouldExpand (book : SubaddressBook) (index : SubaddressIndex) : Bool :=
  let last (count lookahead : Nat) : Nat :=
    if uint32Max - lookahead < Word.sub 64 count 1 then uint32Max else count + lookahead - 1
  let nsub := ((book.labels[index.major]?).map List.length).getD 0
  index.major ≤ last book.labels.length book.lookaheadMajor &&
    index.minor ≤ last nsub book.lookaheadMinor

/-- What `process_new_transaction` does about the index of an output that it records. -/
def receive (book : SubaddressBook) (index : SubaddressIndex) : SubaddressBook :=
  if book.shouldExpand index then book.expandSubaddresses sodium sha3 keys index else book

/-- `add_subaddress_account`. -/
def addSubaddressAccount (book : SubaddressBook) (label : List UInt8) : SubaddressBook :=
  let indexMajor := Word.wrap 32 book.labels.length
  let expanded := book.expandSubaddresses sodium sha3 keys ⟨indexMajor, 0⟩
  { expanded with labels := expanded.labels.modify indexMajor fun account => account.set 0 label }

/-- `add_subaddress`. -/
def addSubaddress (book : SubaddressBook) (indexMajor : Nat) (label : List UInt8) :
    Option SubaddressBook :=
  match book.labels[indexMajor]? with
  | none => none
  | some account =>
    let indexMinor := Word.wrap 32 account.length
    let expanded := book.expandSubaddresses sodium sha3 keys ⟨indexMajor, indexMinor⟩
    some { expanded with
      labels := expanded.labels.modify indexMajor fun account => account.set indexMinor label }

/-- `create_one_off_subaddress`. -/
def createOneOffSubaddress (book : SubaddressBook) (index : SubaddressIndex) : SubaddressBook :=
  { book with
    subaddresses :=
      book.subaddresses.set (sodium.getSubaddressSpendPublicKey sha3 keys index) index }

/-- `set_subaddress_lookahead`. -/
def setSubaddressLookahead (book : SubaddressBook) (major minor : Nat) : Option SubaddressBook :=
  if major = 0 ∨ uint32Max < major ∨ minor = 0 ∨ uint32Max < minor then
    none
  else
    some { book with lookaheadMajor := major, lookaheadMinor := minor }

/-- `clear`. -/
def clear (book : SubaddressBook) : SubaddressBook :=
  { book with subaddresses := [], labels := [] }

/-- `setup_new_blockchain`. -/
def setupNewBlockchain (book : SubaddressBook) : SubaddressBook :=
  book.addSubaddressAccount sodium sha3 keys []

end SubaddressBook

/-! ## The life of a wallet -/

/-- A wallet and its files. The keys file has the lookahead; of the cache file only the table and
the labels are read back. -/
structure WalletFiles where
  book : SubaddressBook
  keysFile : Option (Nat × Nat)
  cacheFile : Option SubaddressBook
  deriving DecidableEq, Repr

/-- What can be done with a wallet, as far as subaddresses are concerned. -/
inductive WalletAction where
  | generate (named : Bool)
  | load
  | removeCacheFile
  | store
  | storeKeys
  | rescanBlockchain (hard : Bool)
  | addSubaddressAccount (label : List UInt8)
  | addSubaddress (indexMajor : Nat) (label : List UInt8)
  | receive (index : SubaddressIndex)
  | createOneOffSubaddress (index : SubaddressIndex)
  | setSubaddressLookahead (major minor : Nat)
  deriving DecidableEq, Repr

namespace WalletFiles

variable (sodium : Sodium) (sha3 : List UInt8 → Hash) (keys : SpendViewSecretKeys)

/-- The lookahead that `get_keys_file_data` writes. -/
def keysFileData (wallet : WalletFiles) : Nat × Nat :=
  (wallet.book.lookaheadMajor, wallet.book.lookaheadMinor)

/-- `generate`: a wallet with a name is written to its files. -/
def generate (wallet : WalletFiles) (named : Bool) : Option WalletFiles :=
  if named && (wallet.keysFile.isSome || wallet.cacheFile.isSome) then
    none
  else
    let book := wallet.book.clear.setupNewBlockchain sodium sha3 keys
    if named then
      some { book := book, keysFile := some wallet.keysFileData, cacheFile := some book }
    else
      some { wallet with book := book }

/-- `load`. -/
def load (wallet : WalletFiles) : Option WalletFiles :=
  match wallet.keysFile with
  | none => none
  | some (major, minor) =>
    let empty : SubaddressBook :=
      { subaddresses := [], labels := [], lookaheadMajor := major, lookaheadMinor := minor }
    match wallet.cacheFile with
    | none => some { wallet with book := empty }
    | some cache =>
      some { wallet with
        book := { empty with subaddresses := cache.subaddresses, labels := cache.labels } }

/-- One action, or nothing where it throws. -/
def act (wallet : WalletFiles) : WalletAction → Option WalletFiles
  | .generate named => wallet.generate sodium sha3 keys named
  | .load => wallet.load
  | .removeCacheFile => some { wallet with cacheFile := none }
  | .store => some { wallet with cacheFile := some wallet.book }
  | .storeKeys => some { wallet with keysFile := some wallet.keysFileData }
  | .rescanBlockchain hard =>
    some { wallet with
      book := if hard then wallet.book.clear.setupNewBlockchain sodium sha3 keys else wallet.book }
  | .addSubaddressAccount label =>
    some { wallet with book := wallet.book.addSubaddressAccount sodium sha3 keys label }
  | .addSubaddress indexMajor label =>
    (wallet.book.addSubaddress sodium sha3 keys indexMajor label).map fun book =>
      { wallet with book := book }
  | .receive index => some { wallet with book := wallet.book.receive sodium sha3 keys index }
  | .createOneOffSubaddress index =>
    some { wallet with book := wallet.book.createOneOffSubaddress sodium sha3 keys index }
  | .setSubaddressLookahead major minor =>
    (wallet.book.setSubaddressLookahead major minor).map fun book => { wallet with book := book }

/-- Actions one after the other, none of which throws. -/
def run (wallet : WalletFiles) : List WalletAction → Option WalletFiles
  | [] => some wallet
  | action :: rest => (wallet.act sodium sha3 keys action).bind fun next => next.run rest

end WalletFiles

/-! ## What the table covers -/

section Coverage

variable (sodium : Sodium) (sha3 : List UInt8 → Hash) (keys : SpendViewSecretKeys)

/-- The table has an entry under the spend key of a pair of indices. Only if two pairs had one key
could it be the entry of another pair. -/
def Listed (table : Table EcPoint SubaddressIndex) (index : SubaddressIndex) : Prop :=
  ∃ found, table.find (sodium.getSubaddressSpendPublicKey sha3 keys index) = some found ∧
    sodium.getSubaddressSpendPublicKey sha3 keys found =
      sodium.getSubaddressSpendPublicKey sha3 keys index

/-- There is an account, every account has a label, the subaddresses handed out and those that
follow them are listed, and so is the change address of every account. -/
structure SubaddressBook.Covers (book : SubaddressBook) : Prop where
  accounts : book.labels ≠ []
  labelled : ∀ account ∈ book.labels, account ≠ []
  listed : ∀ major account, book.labels[major]? = some account →
    ∀ minor, minor < account.length + book.lookaheadMinor - 1 →
      Listed sodium sha3 keys book.subaddresses ⟨major, minor⟩
  change : ∀ major, major < book.labels.length →
    Listed sodium sha3 keys book.subaddresses (changeSubaddressIndex major)

variable {sodium sha3 keys} {table : Table EcPoint SubaddressIndex}
variable {index : SubaddressIndex}

theorem Listed.set (listed : Listed sodium sha3 keys table index) (other : SubaddressIndex) :
    Listed sodium sha3 keys
      (table.set (sodium.getSubaddressSpendPublicKey sha3 keys other) other) index := by
  obtain ⟨found, held, own⟩ := listed
  by_cases same : sodium.getSubaddressSpendPublicKey sha3 keys index =
      sodium.getSubaddressSpendPublicKey sha3 keys other
  · refine ⟨other, ?_, same.symm⟩
    rw [same, Table.find_set_self]
  · refine ⟨found, ?_, own⟩
    rw [Table.find_set_of_ne _ _ same, held]

theorem listed_set_self (index : SubaddressIndex) : Listed sodium sha3 keys
    (table.set (sodium.getSubaddressSpendPublicKey sha3 keys index) index) index :=
  ⟨index, Table.find_set_self _ _ _, rfl⟩

/-- Entering subaddresses keeps what is listed and lists them. -/
theorem listed_foldl {indices : List SubaddressIndex}
    (listed : Listed sodium sha3 keys table index ∨ index ∈ indices) :
    Listed sodium sha3 keys (indices.foldl (fun table index =>
      table.set (sodium.getSubaddressSpendPublicKey sha3 keys index) index) table) index := by
  induction indices generalizing table with
  | nil =>
    rcases listed with listed | member
    · exact listed
    · cases member
  | cons first rest ih =>
    apply ih
    rcases listed with listed | member
    · exact .inl (listed.set first)
    · rcases mem_cons.mp member with rfl | later
      · exact .inl (listed_set_self index)
      · exact .inr later

namespace SubaddressBook

theorem enter_eq (account first last : Nat) :
    enter sodium sha3 keys account first last table =
      ((range' first (last - first)).map (SubaddressIndex.mk account)).foldl (fun table index =>
        table.set (sodium.getSubaddressSpendPublicKey sha3 keys index) index) table := by
  rw [enter, foldl_map]

variable {index : SubaddressIndex} {idx extra : Nat}

theorem listed_enter {account first last : Nat}
    (listed : Listed sodium sha3 keys table index ∨ index.major = account ∧ first ≤ index.minor ∧ index.minor < last) :
    Listed sodium sha3 keys (enter sodium sha3 keys account first last table) index := by
  rw [enter_eq]
  apply listed_foldl
  rcases listed with listed | ⟨same, lower, upper⟩
  · exact .inl listed
  · refine .inr (mem_map.mpr ⟨index.minor, ?_, by rw [← same]⟩)
    rw [mem_range'_1]
    omega

variable {book : SubaddressBook}

/-- The subaddresses of the accounts that are added. -/
theorem listed_enterAccounts {wanted : SubaddressIndex}
    (listed : Listed sodium sha3 keys book.subaddresses wanted ∨ (book.labels.length ≤ wanted.major ∧ wanted.major < getSubaddressClampedSum index.major book.lookaheadMajor ∧ wanted.minor < getSubaddressClampedSum (if wanted.major = index.major then index.minor else 0) book.lookaheadMinor)) :
    Listed sodium sha3 keys (book.enterAccounts sodium sha3 keys index) wanted := by
  rw [enterAccounts]
  generalize getSubaddressClampedSum index.major book.lookaheadMajor = last at listed ⊢
  have range : Listed sodium sha3 keys book.subaddresses wanted ∨
      (wanted.major ∈ range' book.labels.length (last - book.labels.length) ∧
        wanted.minor < getSubaddressClampedSum
          (if wanted.major = index.major then index.minor else 0) book.lookaheadMinor) := by
    rcases listed with listed | ⟨lower, upper, minor⟩
    · exact .inl listed
    · refine .inr ⟨?_, minor⟩
      rw [mem_range'_1]
      omega
  generalize range' book.labels.length (last - book.labels.length) = majors at range ⊢
  generalize book.subaddresses = table at range ⊢
  induction majors generalizing table with
  | nil =>
    rcases range with listed | ⟨member, -⟩
    · exact listed
    · cases member
  | cons major rest ih =>
    apply ih
    rcases range with listed | ⟨member, minor⟩
    · exact .inl (listed_enter (.inl listed))
    · rcases mem_cons.mp member with rfl | later
      · exact .inl (listed_enter (.inr ⟨rfl, zero_le _, minor⟩))
      · exact .inr ⟨later, minor⟩

theorem resize_of_le {α : Type} {xs : List α} {size : Nat} (le : xs.length ≤ size) (fill : α) :
    resize xs size fill = xs ++ replicate (size - xs.length) fill := by
  rw [resize, take_of_length_le le]

theorem getSubaddressClampedSum_of_le (room : idx + extra ≤ uint32Max) :
    getSubaddressClampedSum idx extra = idx + extra := by
  rw [getSubaddressClampedSum, if_neg (by omega)]

theorem lt_getSubaddressClampedSum (positive : 1 ≤ extra) (below : idx < uint32Max) :
    idx < getSubaddressClampedSum idx extra := by
  rw [getSubaddressClampedSum]
  split <;> omega

theorem add_one_of_lt {n : Nat} (below : n < uint32Max) : Word.add 32 n 1 = n + 1 := by
  rw [uint32Max] at below
  exact Word.add_of_lt (by omega)

/-- The subaddresses handed out and those that follow them are listed. -/
structure Kept (sodium : Sodium) (sha3 : List UInt8 → Hash) (keys : SpendViewSecretKeys)
    (book : SubaddressBook) : Prop where
  labelled : ∀ (m : Nat) (account : List (List UInt8)), book.labels[m]? = some account →
    1 ≤ account.length
  listed : ∀ (m : Nat) (account : List (List UInt8)), book.labels[m]? = some account →
    ∀ minor, minor < account.length + book.lookaheadMinor - 1 →
      Listed sodium sha3 keys book.subaddresses ⟨m, minor⟩
  aheadMajor : 1 ≤ book.lookaheadMajor
  aheadMinor : 1 ≤ book.lookaheadMinor
  limited : book.lookaheadMinor ≤ uint32Max
  counted : book.labels.length ≤ uint32Max

section Expand

variable {book : SubaddressBook} {index : SubaddressIndex}

/-- The accounts after an expansion that skips no account: the account of the index has one more
subaddress than the index says or had as many already, and the others are what they were. -/
theorem labels_expandSubaddresses (next : index.major ≤ book.labels.length)
    (major : index.major < uint32Max) (minor : index.minor < uint32Max) {m : Nat}
    {account : List (List UInt8)}
    (found : (book.expandSubaddresses sodium sha3 keys index).labels[m]? = some account) :
    m = index.major ∧ account.length = index.minor + 1 ∨
      book.labels[m]? = some account ∧ (m = index.major → index.minor < account.length) := by
  unfold expandSubaddresses at found
  split at found
  · rename_i missing
    have new : index.major = book.labels.length :=
      Nat.le_antisymm next (List.getElem?_eq_none_iff.mp missing)
    rw [add_one_of_lt major, add_one_of_lt minor, resize_of_le (by omega), new,
      Nat.add_sub_cancel_left, List.replicate_one, List.getElem?_modify] at found
    by_cases same : book.labels.length = m
    · subst same
      simp only [if_true, List.getElem?_append_right (Nat.le_refl _), Nat.sub_self,
        List.getElem?_cons_zero, Option.map_eq_map, Option.map_some] at found
      cases found
      refine .inl ⟨new.symm, ?_⟩
      rw [resize_of_le (Nat.zero_le _), List.nil_append, List.length_replicate]
      rfl
    · simp only [if_neg same, Option.map_eq_map, Option.map_id'] at found
      have below : m < book.labels.length := by
        have bound := (List.getElem?_eq_some_iff.mp found).1
        rw [List.length_append, List.length_singleton] at bound
        omega
      rw [List.getElem?_append_left below] at found
      exact .inr ⟨found, fun equal => absurd (equal.trans new).symm same⟩
  · rename_i present held
    split at found
    · rename_i short
      rw [add_one_of_lt minor, List.getElem?_modify] at found
      by_cases same : index.major = m
      · subst same
        rw [held] at found
        simp only [if_true, Option.map_eq_map, Option.map_some] at found
        cases found
        refine .inl ⟨rfl, ?_⟩
        rw [resize_of_le (by omega), List.length_append, List.length_replicate]
        omega
      · simp only [if_neg same, Option.map_eq_map, Option.map_id'] at found
        exact .inr ⟨found, fun equal => absurd equal.symm same⟩
    · rename_i long
      refine .inr ⟨found, fun same => ?_⟩
      rw [same, held] at found
      cases found
      omega

/-- What was listed before an expansion is listed after it. -/
theorem listed_expandSubaddresses {wanted : SubaddressIndex}
    (listed : Listed sodium sha3 keys book.subaddresses wanted) :
    Listed sodium sha3 keys (book.expandSubaddresses sodium sha3 keys index).subaddresses wanted := by
  unfold expandSubaddresses
  split
  · exact listed_enterAccounts (.inl listed)
  · split
    · exact listed_enter (.inl listed)
    · exact listed

theorem lookahead_expandSubaddresses :
    (book.expandSubaddresses sodium sha3 keys index).lookaheadMajor = book.lookaheadMajor ∧
      (book.expandSubaddresses sodium sha3 keys index).lookaheadMinor = book.lookaheadMinor := by
  unfold expandSubaddresses
  split
  · exact ⟨rfl, rfl⟩
  · split <;> exact ⟨rfl, rfl⟩

/-- The subaddresses of the expanded account behind those that it had. -/
theorem listed_expanded (wanted : SubaddressIndex) (ahead : 1 ≤ book.lookaheadMajor)
    (major : index.major < uint32Max)
    (minor : index.minor + book.lookaheadMinor ≤ uint32Max)
    (short : ∀ account, book.labels[index.major]? = some account → account.length ≤ index.minor)
    (same : wanted.major = index.major)
    (behind : ∀ account, book.labels[index.major]? = some account → account.length ≤ wanted.minor)
    (below : wanted.minor < index.minor + book.lookaheadMinor) :
    Listed sodium sha3 keys (book.expandSubaddresses sodium sha3 keys index).subaddresses wanted := by
  unfold expandSubaddresses
  split
  · rename_i missing
    have new := getElem?_eq_none_iff.mp missing
    apply listed_enterAccounts
    rw [if_pos same, getSubaddressClampedSum_of_le minor, same]
    exact .inr ⟨new, lt_getSubaddressClampedSum ahead major, below⟩
  · rename_i account held
    rw [if_pos (short account held)]
    apply listed_enter
    rw [getSubaddressClampedSum_of_le minor]
    exact .inr ⟨same, behind account held, below⟩

/-- An expansion at the next account adds one account, and other expansions none. -/
theorem length_expandSubaddresses (next : index.major ≤ book.labels.length)
    (major : index.major < uint32Max) :
    (book.expandSubaddresses sodium sha3 keys index).labels.length =
      if index.major = book.labels.length then book.labels.length + 1 else book.labels.length := by
  unfold expandSubaddresses
  split
  · rename_i missing
    have new : index.major = book.labels.length :=
      le_antisymm next (getElem?_eq_none_iff.mp missing)
    rw [if_pos new, length_modify, add_one_of_lt major, resize_of_le (by omega),
      length_append, length_replicate]
    omega
  · rename_i account held
    have present := (List.getElem?_eq_some_iff.mp held).1
    rw [if_neg (c := index.major = book.labels.length) (by omega)]
    split
    · exact length_modify ..
    · rfl

/-- An expansion keeps the book covered if it skips no account and no sum is clamped. -/
theorem Kept.expand (kept : book.Kept sodium sha3 keys) (next : index.major ≤ book.labels.length)
    (major : index.major < uint32Max) (minor : index.minor + book.lookaheadMinor ≤ uint32Max) :
    (book.expandSubaddresses sodium sha3 keys index).Kept sodium sha3 keys := by
  have positive := kept.aheadMinor
  obtain ⟨sameMajor, sameMinor⟩ := @lookahead_expandSubaddresses sodium sha3 keys book index
  constructor
  · intro m account found
    rcases labels_expandSubaddresses next major (by omega) found with ⟨-, length⟩ | ⟨old, -⟩
    · omega
    · exact kept.labelled m account old
  · intro m account found wanted below
    rw [sameMinor] at below
    rcases labels_expandSubaddresses next major (by omega) found with ⟨rfl, length⟩ | ⟨old, -⟩
    · -- Behind what the account had covered before, the subaddresses are new.
      by_cases covered : ∃ before, book.labels[index.major]? = some before ∧
          wanted < before.length + book.lookaheadMinor - 1
      · obtain ⟨before, held, covered⟩ := covered
        exact listed_expandSubaddresses (kept.listed _ before held wanted covered)
      · push Not at covered
        have short : ∀ before, book.labels[index.major]? = some before →
            before.length ≤ index.minor ∧ before.length ≤ wanted := by
          intro before held
          have := covered before held
          omega
        exact listed_expanded ⟨index.major, wanted⟩ kept.aheadMajor major minor
          (fun before held => (short before held).1) rfl (fun before held => (short before held).2)
          (by dsimp only; omega)
    · exact listed_expandSubaddresses (kept.listed m account old wanted below)
  · rw [sameMajor]
    exact kept.aheadMajor
  · rw [sameMinor]
    exact positive
  · rw [sameMinor]
    exact kept.limited
  · have counted := kept.counted
    rw [length_expandSubaddresses next major]
    split <;> omega

end Expand

/-- Only the numbers of subaddresses matter. -/
theorem Kept.relabel (kept : book.Kept sodium sha3 keys) {m : Nat}
    {change : List (List UInt8) → List (List UInt8)}
    (same : ∀ account, (change account).length = account.length) :
    Kept sodium sha3 keys { book with labels := book.labels.modify m change } := by
  have lengths : ∀ (k : Nat) (account : List (List UInt8)),
      (book.labels.modify m change)[k]? = some account →
      ∃ old, book.labels[k]? = some old ∧ account.length = old.length := by
    intro k account found
    rw [getElem?_modify] at found
    obtain ⟨old, held, rfl⟩ := map_eq_some_iff.mp found
    refine ⟨old, held, ?_⟩
    split
    · exact same old
    · rfl
  constructor
  · intro k account found
    obtain ⟨old, held, equal⟩ := lengths k account found
    rw [equal]
    exact kept.labelled k old held
  · intro k account found minor below
    obtain ⟨old, held, equal⟩ := lengths k account found
    rw [equal] at below
    exact kept.listed k old held minor below
  · exact kept.aheadMajor
  · exact kept.aheadMinor
  · exact kept.limited
  · have counted := kept.counted
    rwa [length_modify]

/-- A smaller lookahead asks for less. -/
theorem Kept.shorten (kept : book.Kept sodium sha3 keys) {major minor : Nat} (one : 1 ≤ major)
    (two : 1 ≤ minor) (less : minor ≤ book.lookaheadMinor) :
    Kept sodium sha3 keys { book with lookaheadMajor := major, lookaheadMinor := minor } where
  labelled := kept.labelled
  listed m account found wanted below :=
    kept.listed m account found wanted (by dsimp only at below; omega)
  aheadMajor := one
  aheadMinor := two
  limited := le_trans less kept.limited
  counted := kept.counted

/-- A wallet with a first account. -/
structure Steady (sodium : Sodium) (sha3 : List UInt8 → Hash) (keys : SpendViewSecretKeys)
    (book : SubaddressBook) : Prop extends book.Kept sodium sha3 keys where
  accounts : book.labels ≠ []
  spare : Listed sodium sha3 keys book.subaddresses (changeSubaddressIndex 0)

theorem Steady.covers (steady : book.Steady sodium sha3 keys) :
    book.Covers sodium sha3 keys where
  accounts := steady.accounts
  labelled := by
    intro account member empty
    obtain ⟨m, found⟩ := getElem?_of_mem member
    have := steady.labelled m account found
    rw [empty] at this
    exact absurd this (by decide)
  listed := steady.listed
  change := by
    intro major below
    by_cases zero : major = 0
    · rw [zero]
      exact steady.spare
    · have found := getElem?_eq_getElem below
      have labelled := steady.labelled _ _ found
      have ahead := steady.aheadMinor
      rw [changeSubaddressIndex, if_neg zero]
      exact steady.listed _ _ found 0 (by omega)

section Steps

variable {book : SubaddressBook} {index : SubaddressIndex}

theorem Steady.expand (steady : book.Steady sodium sha3 keys)
    (next : index.major ≤ book.labels.length) (major : index.major < uint32Max)
    (minor : index.minor + book.lookaheadMinor ≤ uint32Max) :
    (book.expandSubaddresses sodium sha3 keys index).Steady sodium sha3 keys := by
  refine ⟨steady.toKept.expand next major minor, ?_, listed_expandSubaddresses steady.spare⟩
  apply length_pos_iff.mp
  rw [length_expandSubaddresses next major]
  split <;> omega

theorem Steady.relabel (steady : book.Steady sodium sha3 keys) {m : Nat}
    {change : List (List UInt8) → List (List UInt8)}
    (same : ∀ account, (change account).length = account.length) :
    Steady sodium sha3 keys { book with labels := book.labels.modify m change } := by
  refine ⟨steady.toKept.relabel same, ?_, steady.spare⟩
  have positive := length_pos_iff.mpr steady.accounts
  apply length_pos_iff.mp
  rwa [length_modify]

theorem wrap_of_le {n : Nat} (le : n ≤ uint32Max) : Word.wrap 32 n = n := by
  rw [uint32Max] at le
  exact Word.wrap_of_lt (by omega)

variable {label : List UInt8}

theorem Steady.addSubaddressAccount (steady : book.Steady sodium sha3 keys)
    (room : book.labels.length < uint32Max) :
    (book.addSubaddressAccount sodium sha3 keys label).Steady sodium sha3 keys := by
  have limited := steady.limited
  unfold SubaddressBook.addSubaddressAccount
  rw [wrap_of_le steady.counted]
  apply Steady.relabel
  · exact steady.expand (le_refl _) room (by dsimp only; omega)
  · intro account
    exact length_set

theorem Steady.addSubaddress (steady : book.Steady sodium sha3 keys) {indexMajor : Nat}
    {after : SubaddressBook}
    (room : ∀ account, book.labels[indexMajor]? = some account → account.length + book.lookaheadMinor ≤ uint32Max)
    (added : book.addSubaddress sodium sha3 keys indexMajor label = some after) :
    after.Steady sodium sha3 keys := by
  unfold SubaddressBook.addSubaddress at added
  split at added
  · cases added
  · rename_i account held
    have fits := room account held
    have present := (List.getElem?_eq_some_iff.mp held).1
    have counted := steady.counted
    rw [wrap_of_le (by omega)] at added
    cases added
    apply Steady.relabel
    · exact steady.expand (by dsimp only; omega) (by dsimp only; omega) fits
    · intro account
      exact length_set

/-- A new wallet has the account 0, with at least two subaddresses in the table. -/
theorem steady_setupNewBlockchain (one : 1 ≤ book.lookaheadMajor) (two : 2 ≤ book.lookaheadMinor)
    (limited : book.lookaheadMinor ≤ uint32Max) :
    (book.clear.setupNewBlockchain sodium sha3 keys).Steady sodium sha3 keys := by
  have empty : book.clear.Kept sodium sha3 keys :=
    { labelled := fun _ _ found => nomatch found
      listed := fun _ _ found => nomatch found
      aheadMajor := one
      aheadMinor := le_of_succ_le two
      limited := limited
      counted := zero_le _ }
  have positive : 0 < uint32Max := by decide
  have fits : (⟨0, 0⟩ : SubaddressIndex).minor + book.clear.lookaheadMinor ≤ uint32Max := by
    rw [zero_add]
    exact limited
  have first : (book.clear.expandSubaddresses sodium sha3 keys ⟨0, 0⟩).Steady sodium sha3 keys := by
    refine ⟨empty.expand (le_refl 0) positive fits, ?_, ?_⟩
    · apply length_pos_iff.mp
      exact one_pos
    · apply listed_expanded (changeSubaddressIndex 0) empty.aheadMajor positive fits
      · exact fun _ found => nomatch found
      · rfl
      · exact fun _ found => nomatch found
      · rw [zero_add]
        exact two
  exact first.relabel fun account => length_set

theorem Steady.receive (steady : book.Steady sodium sha3 keys)
    (fair : book.shouldExpand index → index.major ≤ book.labels.length ∧ index.major < uint32Max ∧
      index.minor + book.lookaheadMinor ≤ uint32Max) :
    (book.receive sodium sha3 keys index).Steady sodium sha3 keys := by
  unfold SubaddressBook.receive
  split
  · rename_i expands
    obtain ⟨next, major, minor⟩ := fair expands
    exact steady.expand next major minor
  · exact steady

theorem Steady.createOneOffSubaddress (steady : book.Steady sodium sha3 keys) :
    (book.createOneOffSubaddress sodium sha3 keys index).Steady sodium sha3 keys :=
  { steady with
    listed := fun m account found minor below =>
      (steady.listed m account found minor below).set index
    spare := steady.spare.set index }

end Steps

end SubaddressBook

namespace WalletFiles

/-- The wallet and its cache file are covered, and the keys file has a lookahead. -/
structure Steady (sodium : Sodium) (sha3 : List UInt8 → Hash) (keys : SpendViewSecretKeys)
    (wallet : WalletFiles) : Prop where
  book : wallet.book.Steady sodium sha3 keys
  keysFile : ∀ major minor, wallet.keysFile = some (major, minor) → 1 ≤ major ∧ 1 ≤ minor
  cacheFile : ∀ cache, wallet.cacheFile = some cache → cache.Steady sodium sha3 keys

end WalletFiles

/-- What is asked of an action in the state before it. A new wallet needs a minor lookahead of at
least two; a wallet is loaded from a cache file that was written with no smaller lookahead than the
keys file has; the lookahead is not raised; an output that expands the table is of an account that
is there or of the next one; and no sum is clamped. -/
def WalletAction.Fair (wallet : WalletFiles) : WalletAction → Prop
  | .generate _ => 2 ≤ wallet.book.lookaheadMinor
  | .rescanBlockchain hard => hard = true → 2 ≤ wallet.book.lookaheadMinor
  | .load => ∃ cache, wallet.cacheFile = some cache ∧
      ∀ major minor, wallet.keysFile = some (major, minor) → minor ≤ cache.lookaheadMinor
  | .addSubaddressAccount _ => wallet.book.labels.length < uint32Max
  | .addSubaddress indexMajor _ => ∀ account, wallet.book.labels[indexMajor]? = some account →
      account.length + wallet.book.lookaheadMinor ≤ uint32Max
  | .receive index => wallet.book.shouldExpand index → index.major ≤ wallet.book.labels.length ∧
      index.major < uint32Max ∧ index.minor + wallet.book.lookaheadMinor ≤ uint32Max
  | .setSubaddressLookahead _ minor => minor ≤ wallet.book.lookaheadMinor
  | .removeCacheFile | .store | .storeKeys | .createOneOffSubaddress _ => True

namespace WalletFiles

variable (sodium sha3 keys) in
/-- Every action of a run meets its condition. -/
def FairRun (wallet : WalletFiles) : List WalletAction → Prop
  | [] => True
  | action :: rest => action.Fair wallet ∧
      ∀ next, wallet.act sodium sha3 keys action = some next → next.FairRun rest

variable {wallet after : WalletFiles}

theorem Steady.withBook (steady : wallet.Steady sodium sha3 keys) {book : SubaddressBook}
    (new : book.Steady sodium sha3 keys) :
    Steady sodium sha3 keys { wallet with book := book } :=
  ⟨new, steady.keysFile, steady.cacheFile⟩

theorem steady_generate {named : Bool} (one : 1 ≤ wallet.book.lookaheadMajor)
    (two : 2 ≤ wallet.book.lookaheadMinor) (limited : wallet.book.lookaheadMinor ≤ uint32Max)
    (keysFile : ∀ major minor, wallet.keysFile = some (major, minor) → 1 ≤ major ∧ 1 ≤ minor)
    (cacheFile : ∀ cache, wallet.cacheFile = some cache → cache.Steady sodium sha3 keys)
    (made : wallet.generate sodium sha3 keys named = some after) :
    after.Steady sodium sha3 keys := by
  have new : (wallet.book.clear.setupNewBlockchain sodium sha3 keys).Steady sodium sha3 keys :=
    SubaddressBook.steady_setupNewBlockchain one two limited
  unfold WalletFiles.generate at made
  split at made
  · cases made
  · dsimp only at made
    split at made
    · cases made
      refine ⟨new, ?_, ?_⟩
      · intro major minor stored
        cases stored
        exact ⟨one, le_of_succ_le two⟩
      · intro cache stored
        cases stored
        exact new
    · cases made
      exact ⟨new, keysFile, cacheFile⟩

theorem Steady.load (steady : wallet.Steady sodium sha3 keys)
    (fair : WalletAction.Fair wallet .load) (loaded : wallet.load = some after) :
    after.Steady sodium sha3 keys := by
  obtain ⟨cache, stored, smaller⟩ := fair
  have cached := steady.cacheFile cache stored
  unfold WalletFiles.load at loaded
  split at loaded
  · cases loaded
  · rename_i major minor keysFile
    rw [stored] at loaded
    cases loaded
    obtain ⟨one, two⟩ := steady.keysFile major minor keysFile
    have shortened := cached.toKept.shorten one two (smaller major minor keysFile)
    refine ⟨⟨shortened, cached.accounts, cached.spare⟩, steady.keysFile, ?_⟩
    intro other same
    cases same
    exact cached

/-- One action. -/
theorem Steady.act (steady : wallet.Steady sodium sha3 keys) {action : WalletAction}
    (fair : action.Fair wallet) (acted : wallet.act sodium sha3 keys action = some after) :
    after.Steady sodium sha3 keys := by
  have book := steady.book
  cases action with
  | generate named =>
    exact steady_generate book.aheadMajor fair book.limited steady.keysFile steady.cacheFile acted
  | load => exact steady.load fair acted
  | removeCacheFile =>
    cases acted
    exact ⟨book, steady.keysFile, fun _ stored => nomatch stored⟩
  | store =>
    cases acted
    refine ⟨book, steady.keysFile, ?_⟩
    intro cache stored
    cases stored
    exact book
  | storeKeys =>
    cases acted
    refine ⟨book, ?_, steady.cacheFile⟩
    intro major minor stored
    cases stored
    exact ⟨book.aheadMajor, book.aheadMinor⟩
  | rescanBlockchain hard =>
    cases acted
    apply steady.withBook
    split
    · rename_i isHard
      exact SubaddressBook.steady_setupNewBlockchain book.aheadMajor (fair isHard) book.limited
    · exact book
  | addSubaddressAccount label =>
    cases acted
    exact steady.withBook (book.addSubaddressAccount fair)
  | addSubaddress indexMajor label =>
    obtain ⟨expanded, added, rfl⟩ := map_eq_some_iff.mp acted
    exact steady.withBook (book.addSubaddress fair added)
  | receive index =>
    cases acted
    exact steady.withBook (book.receive fair)
  | createOneOffSubaddress index =>
    cases acted
    exact steady.withBook book.createOneOffSubaddress
  | setSubaddressLookahead major minor =>
    obtain ⟨changed, set, rfl⟩ := map_eq_some_iff.mp acted
    unfold SubaddressBook.setSubaddressLookahead at set
    split at set
    · cases set
    · cases set
      apply steady.withBook
      exact ⟨book.toKept.shorten (by omega) (by omega) fair, book.accounts, book.spare⟩

theorem Steady.run : ∀ {actions : List WalletAction} {wallet : WalletFiles},
    wallet.Steady sodium sha3 keys → wallet.FairRun sodium sha3 keys actions →
    wallet.run sodium sha3 keys actions = some after → after.Steady sodium sha3 keys
  | [], _, steady, _, ran => by
    cases ran
    exact steady
  | action :: rest, wallet, steady, fair, ran => by
    obtain ⟨next, acted, ran⟩ := bind_eq_some_iff.mp ran
    exact (steady.act fair.1 acted).run (fair.2 next acted) ran

/-- A wallet that is generated with any lookahead that is accepted covers what it hands out after any
actions that meet their conditions. -/
theorem covers_run {major minor : Nat} {book : SubaddressBook}
    (accepted : SubaddressBook.new.setSubaddressLookahead major minor = some book) (named : Bool)
    (actions : List WalletAction)
    (fair : FairRun sodium sha3 keys ⟨book, none, none⟩ (.generate named :: actions))
    (ran : run sodium sha3 keys ⟨book, none, none⟩ (.generate named :: actions) = some after) :
    after.book.Covers sodium sha3 keys := by
  unfold SubaddressBook.setSubaddressLookahead at accepted
  split at accepted
  · cases accepted
  cases accepted
  obtain ⟨next, made, ran⟩ := bind_eq_some_iff.mp ran
  have start : next.Steady sodium sha3 keys := by
    refine steady_generate ?_ fair.1 ?_ (fun _ _ stored => nomatch stored)
      (fun _ stored => nomatch stored) made
    · dsimp only
      omega
    · dsimp only
      omega
  exact (start.run (fair.2 next made) ran).book.covers

end WalletFiles

end Coverage

namespace WalletFiles

/-- A wallet with the smallest lookahead for which there is a change address. -/
def small : WalletFiles where
  book := { SubaddressBook.new with lookaheadMajor := 1, lookaheadMinor := 2 }
  keysFile := none
  cacheFile := none

theorem covers_run_small :
    ∃ after, run (cyclicSodium 7) (fun _ => 0) ⟨1, 1⟩ small
        [.generate true, .addSubaddressAccount [97], .store] = some after ∧
      after.book.labels = [[[]], [[97]]] ∧
      after.book.Covers (cyclicSodium 7) (fun _ => 0) ⟨1, 1⟩ := by
  refine ⟨_, rfl, rfl, ?_⟩
  have accepted : SubaddressBook.new.setSubaddressLookahead 1 2 = some small.book := rfl
  refine covers_run accepted true [.addSubaddressAccount [97], .store] ?_ rfl
  refine ⟨le_refl 2, fun next made => ?_⟩
  cases made
  refine ⟨show 1 < uint32Max by decide, fun next acted => ?_⟩
  cases acted
  exact ⟨trivial, fun _ _ => trivial⟩

/-- Without its cache file, a wallet is loaded without any account. -/
theorem load_without_cache_file :
    ∃ after, run (cyclicSodium 7) (fun _ => 0) ⟨1, 1⟩ small [.generate true, .removeCacheFile, .load] =
        some after ∧ ¬ after.book.Covers (cyclicSodium 7) (fun _ => 0) ⟨1, 1⟩ :=
  ⟨_, rfl, fun covers => covers.accounts rfl⟩

end WalletFiles

end Memero
