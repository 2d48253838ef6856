import Memero.Net.PortableStorage

/-!
# Storages and their bytes

Whether `load_from_binary` gives back the tree that `store_to_binary` wrote. Reading what was written
fails in one place only: an array of strings is refused if fewer than two bytes for each string
follow its size, although an empty string is written as a single byte.
-/

namespace Memero.Storage

open List Nat Option

/-! ## Trees that can be stored -/

mutual

/-- Names have 1 to 254 bytes and are listed in their order, strings are below the length limit, and
there is no array of arrays. -/
def StorageEntry.Storable : StorageEntry → Prop
  | .pod _ _ => True
  | .string v => v.length < MAX_STRING_LEN_POSSIBLE
  | .object v => v.Storable
  | .array v => v.Storable

def ArrayEntry.Storable : ArrayEntry → Prop
  | .pods _ _ => True
  | .strings values => ∀ v ∈ values, v.length < MAX_STRING_LEN_POSSIBLE
  | .objects values => SectionsStorable values
  | .arrays _ => False

def SectionsStorable : List Section → Prop
  | [] => True
  | v :: rest => v.Storable ∧ SectionsStorable rest

def Section.Storable : Section → Prop
  | .mk entries => entries.Storable

def Entries.Storable : Entries → Prop
  | .nil => True
  | .cons name entry rest => 1 ≤ name.length ∧ name.length ≤ 254 ∧
      (∀ other ∈ rest.names, name < other) ∧ entry.Storable ∧ rest.Storable

end

mutual

/-- How many guards the reader takes at most at a time. -/
def StorageEntry.depth : StorageEntry → Nat
  | .pod _ _ => 4
  | .string _ => 8
  | .object v => v.depth + 2
  | .array v => v.depth + 1

def ArrayEntry.depth : ArrayEntry → Nat
  | .pods _ _ => 6
  | .strings values => if values = [] then 6 else 8
  | .objects values => max 4 (sectionsDepth values) + 2
  | .arrays _ => 6

def sectionsDepth : List Section → Nat
  | [] => 0
  | v :: rest => max (v.depth + 1) (sectionsDepth rest)

def Section.depth : Section → Nat
  | .mk entries => max 4 entries.depth + 1

def Entries.depth : Entries → Nat
  | .nil => 0
  | .cons _ entry rest => max (max 3 entry.depth) rest.depth

end

/-- The number of bytes of a packed number. -/
def varintLength (val : Nat) : Nat :=
  if val ≤ 63 then 1 else if val ≤ 16383 then 2 else if val ≤ 1073741823 then 4 else 8

/-- The number of bytes of some strings, each behind its length. -/
def stringsSize (values : List (List UInt8)) : Nat :=
  (values.map fun v => varintLength v.length + v.length).sum

mutual

/-- The number of bytes of a tree. -/
def StorageEntry.size : StorageEntry → Nat
  | .pod type _ => 1 + type.size
  | .string v => 1 + (varintLength v.length + v.length)
  | .object v => 1 + v.size
  | .array v => v.size

def ArrayEntry.size : ArrayEntry → Nat
  | .pods type values => 1 + (varintLength values.length + values.length * type.size)
  | .strings values => 1 + (varintLength values.length + stringsSize values)
  | .objects values => 1 + (varintLength values.length + sectionsSize values)
  | .arrays values => 1 + (varintLength values.length + arraysSize values)

def sectionsSize : List Section → Nat
  | [] => 0
  | v :: rest => v.size + sectionsSize rest

def arraysSize : List ArrayEntry → Nat
  | [] => 0
  | v :: rest => v.size + arraysSize rest

def Section.size : Section → Nat
  | .mk entries => varintLength entries.length + entries.size

def Entries.size : Entries → Nat
  | .nil => 0
  | .cons name entry rest => 1 + (name.length + (entry.size + rest.size))

end

/-- The largest number that `pack_varint` takes. -/
def maxVarint : Nat := 4611686018427387903

mutual

/-- Every size can be packed, and two bytes for each string of an array follow the size of the
array, where `behind` bytes follow the tree. -/
def StorageEntry.Roomy : StorageEntry → Nat → Prop
  | .pod _ _, _ => True
  | .string _, _ => True
  | .object v, behind => v.Roomy behind
  | .array v, behind => v.Roomy behind

def ArrayEntry.Roomy : ArrayEntry → Nat → Prop
  | .pods _ values, _ => values.length ≤ maxVarint
  | .strings values, behind =>
    values.length ≤ maxVarint ∧ 2 * values.length ≤ stringsSize values + behind
  | .objects values, behind => values.length ≤ maxVarint ∧ SectionsRoomy values behind
  | .arrays _, _ => True

def SectionsRoomy : List Section → Nat → Prop
  | [], _ => True
  | v :: rest, behind => v.Roomy (sectionsSize rest + behind) ∧ SectionsRoomy rest behind

def Section.Roomy : Section → Nat → Prop
  | .mk entries, behind => entries.length ≤ maxVarint ∧ entries.Roomy behind

def Entries.Roomy : Entries → Nat → Prop
  | .nil, _ => True
  | .cons _ entry rest, behind => entry.Roomy (rest.size + behind) ∧ rest.Roomy behind

end

/-! ## Numbers and strings -/

theorem littleEndian_succ (width value : Nat) :
    littleEndian (width + 1) value = UInt8.ofNat value :: littleEndian width (value / 256) := by
  rw [littleEndian, bigEndian, reverse_append]
  rfl

section Primitives

variable {α : Type} {left : Nat} {bytes rest : List UInt8} {c m : Tally}

theorem readRaw_append (guards : 1 ≤ left) (bytes : List UInt8) :
    readRaw bytes.length left ⟨bytes ++ rest, c, m⟩ = some (bytes, ⟨rest, c, m⟩) := by
  obtain ⟨left, rfl⟩ := Nat.exists_eq_add_of_le' guards
  rw [readRaw, if_neg (by rw [length_append]; omega), take_left, drop_left]

variable {size : Nat} {ofBytes : List UInt8 → α}

theorem readRef_append (guards : 2 ≤ left) (length : bytes.length = size) :
    readRef size ofBytes left ⟨bytes ++ rest, c, m⟩ = some (ofBytes bytes, ⟨rest, c, m⟩) := by
  obtain ⟨left, rfl⟩ := Nat.exists_eq_add_of_le' (Nat.le_of_succ_le guards)
  rw [readRef, ← length, readRaw_append (by omega)]
  rfl

theorem readNew_append (guards : 3 ≤ left) (length : bytes.length = size) :
    readNew size ofBytes left ⟨bytes ++ rest, c, m⟩ = some (ofBytes bytes, ⟨rest, c, m⟩) := by
  obtain ⟨left, rfl⟩ := Nat.exists_eq_add_of_le' (show 1 ≤ left by omega)
  rw [readNew, readRef_append (by omega) length]

theorem readByte_cons (guards : 2 ≤ left) (byte : UInt8) :
    readByte left ⟨byte :: rest, c, m⟩ = some (byte, ⟨rest, c, m⟩) :=
  @readRef_append UInt8 left [byte] rest c m 1 _ guards rfl

variable {val : Nat}

/-- The first byte of a packed number tells how many bytes there are. -/
theorem readVarint_littleEndian {width mark : Nat} (guards : 4 ≤ left)
    (size : varintSize (UInt8.ofNat mark) = width + 1) (small : mark < 4)
    (fits : val * 4 + mark < 256 ^ (width + 1)) :
    readVarint left ⟨littleEndian (width + 1) (val * 4 + mark) ++ rest, c, m⟩ =
      some (val, ⟨rest, c, m⟩) := by
  obtain ⟨left, rfl⟩ := Nat.exists_eq_add_of_le' (show 1 ≤ left by omega)
  have first : varintSize (UInt8.ofNat (val * 4 + mark)) = width + 1 := by
    rw [← size]
    unfold varintSize
    rw [UInt8.toNat_ofNat', UInt8.toNat_ofNat']
    congr 1
    omega
  have read := @readNew_append _ left _ rest c m _ (fun bytes => ofBigEndian bytes.reverse) (by omega)
    (littleEndian_length (width + 1) (val * 4 + mark))
  rw [ofBigEndian_littleEndian fits] at read
  rw [littleEndian_succ] at read ⊢
  rw [readVarint]
  simp only [cons_append] at read ⊢
  rw [first, read]
  simp only [bind_eq_bind, bind_some]
  rw [show (val * 4 + mark) / 4 = val by omega]

/-- The two lowest bits of a packed number tell how many bytes there are. -/
theorem packVarint_cases (packed : packVarint val = some bytes) :
    ∃ width mark, bytes = littleEndian (width + 1) (val * 4 + mark) ∧ mark < 4 ∧
      varintSize (UInt8.ofNat mark) = width + 1 ∧ varintLength val = width + 1 ∧
      val * 4 + mark < 256 ^ (width + 1) := by
  unfold packVarint at packed
  unfold varintLength
  split_ifs at packed with one two four eight <;> cases packed
  · exact ⟨0, 0, rfl, by decide, rfl, if_pos one, by omega⟩
  · exact ⟨1, 1, rfl, by decide, rfl, by rw [if_neg one, if_pos two], by omega⟩
  · exact ⟨3, 2, rfl, by decide, rfl, by rw [if_neg one, if_neg two, if_pos four], by omega⟩
  · exact ⟨7, 3, rfl, by decide, rfl, by rw [if_neg one, if_neg two, if_neg four], by omega⟩

theorem readVarint_pack (guards : 4 ≤ left) (packed : packVarint val = some bytes) :
    readVarint left ⟨bytes ++ rest, c, m⟩ = some (val, ⟨rest, c, m⟩) := by
  obtain ⟨width, mark, rfl, small, size, -, fits⟩ := packVarint_cases packed
  exact readVarint_littleEndian guards size small fits

theorem packVarint_eq_some : (∃ bytes, packVarint val = some bytes) ↔ val ≤ maxVarint := by
  unfold packVarint maxVarint
  constructor
  · rintro ⟨bytes, packed⟩
    by_contra large
    rw [if_neg (by omega), if_neg (by omega), if_neg (by omega), if_neg (by omega)] at packed
    cases packed
  · intro small
    repeat' split
    all_goals exact ⟨_, rfl⟩

theorem length_packVarint (packed : packVarint val = some bytes) :
    bytes.length = varintLength val := by
  obtain ⟨width, mark, rfl, -, -, length, -⟩ := packVarint_cases packed
  rw [length, littleEndian_length]

theorem varintLength_pos (val : Nat) : 1 ≤ varintLength val := by
  unfold varintLength
  repeat' split
  all_goals decide

theorem readString_put {v : List UInt8} (guards : 5 ≤ left)
    (short : v.length < MAX_STRING_LEN_POSSIBLE)
    (packed : putString v = some bytes) :
    readString left ⟨bytes ++ rest, c, m⟩ = some (v, ⟨rest, c, m⟩) := by
  obtain ⟨left, rfl⟩ := Nat.exists_eq_add_of_le' (show 1 ≤ left by omega)
  obtain ⟨size, number, rfl⟩ : ∃ size, packVarint v.length = some size ∧ bytes = size ++ v := by
    obtain ⟨size, number, written⟩ := bind_eq_some_iff.mp packed
    cases written
    exact ⟨size, number, rfl⟩
  rw [readString, append_assoc, readVarint_pack (by omega) number]
  simp only [bind_eq_bind, bind_some]
  rw [if_neg (by omega), if_neg (by rw [length_append]; omega), take_left, drop_left]

end Primitives

/-! ## Counting -/

namespace Tally

instance : Add Tally where
  add left right :=
    ⟨left.objects + right.objects, left.fields + right.fields, left.strings + right.strings⟩

instance : Zero Tally where
  zero := ⟨0, 0, 0⟩

/-- Nothing is counted more often than allowed. -/
def Within (count max : Tally) : Prop :=
  count.objects ≤ max.objects ∧ count.fields ≤ max.fields ∧ count.strings ≤ max.strings

theorem add_def (left right : Tally) : left + right =
    ⟨left.objects + right.objects, left.fields + right.fields, left.strings + right.strings⟩ :=
  rfl

protected theorem add_assoc (one two three : Tally) : one + two + three = one + (two + three) := by
  simp only [add_def, add_assoc]

theorem Within.left {count more max : Tally} (within : (count + more).Within max) :
    count.Within max := by
  obtain ⟨objects, fields, strings⟩ := within
  simp only [add_def] at objects fields strings
  exact ⟨by omega, by omega, by omega⟩

end Tally

mutual

/-- What the reader counts while it reads a tree. -/
def StorageEntry.tally : StorageEntry → Tally
  | .pod _ _ => 0
  | .string _ => ⟨0, 0, 1⟩
  | .object v => ⟨1, 0, 0⟩ + v.tally
  | .array v => v.tally

def ArrayEntry.tally : ArrayEntry → Tally
  | .pods _ _ => 0
  | .strings values => ⟨0, 0, values.length⟩
  | .objects values => ⟨values.length, 0, 0⟩ + sectionsTally values
  | .arrays _ => 0

def sectionsTally : List Section → Tally
  | [] => 0
  | v :: rest => v.tally + sectionsTally rest

def Section.tally : Section → Tally
  | .mk entries => ⟨0, entries.length, 0⟩ + entries.tally

def Entries.tally : Entries → Tally
  | .nil => 0
  | .cons _ entry rest => entry.tally + rest.tally

end

/-! ## Reading what was written

Each statement says what a function of the reader does with what was written, whatever follows it:
where there is room it gives the tree back and has counted it, and otherwise it throws. -/

/-- Reading `bytes` gives `x` exactly where there is room for what follows. -/
def Reads {α : Type} (read : Read α) (bytes : List UInt8) (x : α) (tally : Tally)
    (Roomy : Nat → Prop) : Prop :=
  ∀ rest c m, (c + tally).Within m →
    (Roomy rest.length → read ⟨bytes ++ rest, c, m⟩ = some (x, ⟨rest, c + tally, m⟩)) ∧
    (¬ Roomy rest.length → read ⟨bytes ++ rest, c, m⟩ = none)

namespace Reads

variable {α : Type} {element : Read α} {read : Read α} {bytes others : List UInt8} {x : α}
  {xs : List α} {tally more : Tally} {Roomy Later : Nat → Prop} {size : Nat}

/-- A read that cannot fail. -/
theorem always (succeeds : ∀ rest c m, read ⟨bytes ++ rest, c, m⟩ = some (x, ⟨rest, c, m⟩)) :
    Reads read bytes x 0 fun _ => True := by
  intro rest c m _
  constructor
  · intro _
    exact succeeds rest c m
  · intro none
    exact absurd trivial none

theorem of_iff (reads : Reads read bytes x tally Roomy)
    (same : ∀ behind, Roomy behind ↔ Later behind) :
    Reads read bytes x tally Later := by
  have equal : Roomy = Later := funext fun behind => propext (same behind)
  rwa [← equal]

theorem map {β : Type} {wrapped : Read β} (f : α → β) (reads : Reads read bytes x tally Roomy)
    (same : ∀ s, wrapped s = (read s).bind fun found => some (f found.1, found.2)) :
    Reads wrapped bytes (f x) tally Roomy := by
  intro rest c m within
  obtain ⟨found, missed⟩ := reads rest c m within
  rw [same]
  constructor
  · intro room
    rw [found room]
    rfl
  · intro cramped
    rw [missed cramped]
    rfl

/-- One byte in front decides what is read. -/
theorem tagged {tagged : Read α} {tag : UInt8} (reads : Reads read bytes x tally Roomy)
    (same : ∀ input c m, tagged ⟨tag :: input, c, m⟩ = read ⟨input, c, m⟩) :
    Reads tagged (tag :: bytes) x tally Roomy := by
  intro rest c m within
  rw [cons_append, same]
  exact reads rest c m within

/-- Something is counted before it is read. -/
theorem counted {counted : Read α} (reads : Reads read bytes x tally Roomy)
    (same : ∀ input c m, (c + more).Within m → counted ⟨input, c, m⟩ = read ⟨input, c + more, m⟩) :
    Reads counted bytes x (more + tally) Roomy := by
  intro rest c m within
  rw [← Tally.add_assoc] at within ⊢
  rw [same _ c m within.left]
  exact reads rest (c + more) m within

theorem many_nil : Reads (readMany element 0) [] [] 0 fun _ => True :=
  always fun _ _ _ => rfl

/-- Bytes in front that are read alike whatever follows them. -/
theorem behind {front : List UInt8}
    (reads : Reads (fun s => read { s with input := front ++ s.input }) bytes x tally Roomy) :
    Reads read (front ++ bytes) x tally Roomy := by
  intro rest c m within
  rw [append_assoc]
  exact reads rest c m within

/-- One read after another. -/
theorem seq {β : Type} {both next : Read β} {y : β} (first : Reads read bytes x tally Roomy)
    (later : Reads next others y more Later)
    (goesOn : ∀ s s', read s = some (x, s') → both s = next s')
    (fails : ∀ s, read s = none → both s = none) :
    Reads both (bytes ++ others) y (tally + more)
      fun behind => Roomy (others.length + behind) ∧ Later behind := by
  intro rest c m within
  rw [← Tally.add_assoc] at within
  obtain ⟨found, missed⟩ := first (others ++ rest) c m within.left
  obtain ⟨foundLater, missedLater⟩ := later rest (c + tally) m within
  rw [length_append] at found missed
  rw [append_assoc]
  constructor
  · rintro ⟨room, roomLater⟩
    rw [goesOn _ _ (found room), foundLater roomLater, Tally.add_assoc]
  · intro cramped
    by_cases room : Roomy (others.length + rest.length)
    · rw [goesOn _ _ (found room), missedLater fun roomLater => cramped ⟨room, roomLater⟩]
    · exact fails _ (missed room)

theorem many_cons (first : Reads element bytes x tally Roomy)
    (later : Reads (readMany element size) others xs more Later) :
    Reads (readMany element (size + 1)) (bytes ++ others) (x :: xs) (tally + more)
      fun behind => Roomy (others.length + behind) ∧ Later behind := by
  apply first.seq (later.map (x :: ·) fun _ => rfl)
  · intro s s' found
    rw [readMany, found]
    rfl
  · intro s missed
    rw [readMany, missed]
    rfl

/-- An array is refused where its elements may not fit into what follows its size. -/
theorem array {left minBytes : Nat} {number : List UInt8} {count : Nat → Tally} (guards : 4 ≤ left)
    (packed : packVarint size = some number) (fields : (count size).fields = 0)
    (many : Reads (readMany element size) bytes xs tally Roomy) :
    Reads (readArray minBytes count (readVarint left) element) (number ++ bytes) xs
      (count size + tally)
      fun behind => size ≤ (bytes.length + behind) / minBytes ∧ Roomy behind := by
  intro rest c m within
  rw [← Tally.add_assoc] at within
  obtain ⟨found, missed⟩ := many rest (c + count size) m within
  obtain ⟨objects, -, strings⟩ := within.left
  simp only [Tally.add_def] at objects strings
  have counted : (⟨c.objects + (count size).objects, c.fields, c.strings + (count size).strings⟩ :
      Tally) = c + count size := by
    rw [Tally.add_def, fields, add_zero]
  rw [readArray, append_assoc, readVarint_pack guards packed]
  simp only [bind_eq_bind, bind_some, length_append]
  constructor
  · rintro ⟨enough, room⟩
    rw [if_neg (by omega), if_neg (by omega), if_neg (by omega), counted, found room, Tally.add_assoc]
  · intro cramped
    by_cases enough : size ≤ (bytes.length + rest.length) / minBytes
    · rw [if_neg (by omega), if_neg (by omega), if_neg (by omega), counted,
        missed fun room => cramped ⟨enough, room⟩]
    · rw [if_pos (by omega)]

end Reads

namespace PodType

theorem toBytes_length (type : PodType) (value : type.Value) :
    (type.toBytes value).length = type.size := by
  cases type <;> first | exact littleEndian_length _ _ | rfl

theorem bitsOfBytes_bitsToBytes {size : Nat} (bits : BitVec (8 * size)) :
    bitsOfBytes size (bitsToBytes bits) = bits := by
  have below : bits.toNat < 256 ^ size := by
    have bound := bits.isLt
    rwa [pow_mul] at bound
  rw [bitsOfBytes, bitsToBytes, ofBigEndian_littleEndian below]
  rw [BitVec.ofNat_toNat, BitVec.setWidth_eq]

theorem ofBytes_toBytes (type : PodType) (value : type.Value) :
    type.ofBytes (type.toBytes value) = value := by
  cases type with
  | bool => cases (show Bool from value) <;> rfl
  | _ => exact bitsOfBytes_bitsToBytes value

end PodType

variable {left : Nat} {bytes number body : List UInt8}

theorem reads_pods (type : PodType) (guards : 3 ≤ left) (values : List type.Value) :
    Reads (readMany (readNew type.size type.ofBytes left) values.length)
      (values.flatMap type.toBytes) values 0 fun _ => True := by
  induction values with
  | nil => exact .many_nil
  | cons value values ih =>
    have first : Reads (readNew type.size type.ofBytes left) (type.toBytes value) value 0
        fun _ => True := by
      apply Reads.always
      intro rest c m
      rw [readNew_append guards (type.toBytes_length value), type.ofBytes_toBytes]
    exact (first.many_cons ih).of_iff fun _ => and_self_iff

theorem pods_length (type : PodType) (values : List type.Value) :
    (values.flatMap type.toBytes).length = values.length * type.size := by
  induction values with
  | nil => simp
  | cons value values ih =>
    rw [flatMap_cons, length_append, type.toBytes_length, ih, length_cons, succ_mul, add_comm]

/-- Two parts are written one behind the other. -/
theorem parts_of_pack {one two : Option (List UInt8)} {join : List UInt8 → List UInt8 → List UInt8}
    (packed : (one.bind fun first => two.bind fun others => some (join first others)) =
      some bytes) :
    ∃ first others, one = some first ∧ two = some others ∧ bytes = join first others := by
  obtain ⟨first, found, later⟩ := bind_eq_some_iff.mp packed
  obtain ⟨others, more, written⟩ := bind_eq_some_iff.mp later
  cases written
  exact ⟨first, others, found, more, rfl⟩

theorem reads_strings (values : List (List UInt8)) (guards : values ≠ [] → 6 ≤ left)
    (short : ∀ v ∈ values, v.length < MAX_STRING_LEN_POSSIBLE)
    (packed : putStrings values = some bytes) :
    Reads (readMany (readNewString left) values.length) bytes values 0 fun _ => True := by
  induction values generalizing bytes with
  | nil =>
    cases packed
    exact .many_nil
  | cons v values ih =>
    obtain ⟨first, others, one, more, rfl⟩ := parts_of_pack packed
    have enough := guards (cons_ne_nil _ _)
    obtain ⟨left, rfl⟩ := Nat.exists_eq_add_of_le' (show 1 ≤ left by omega)
    have head : Reads (readNewString (left + 1)) first v 0 fun _ => True := by
      apply Reads.always
      intro rest c m
      exact readString_put (by omega) (short v (by simp)) one
    have tail := ih (fun _ => enough) (fun v member => short v (by simp [member])) more
    exact (head.many_cons tail).of_iff fun _ => and_self_iff

/-! ## Fields -/

namespace Entries

/-- The fields of one section behind those of another. -/
def append : Entries → Entries → Entries
  | .nil, others => others
  | .cons name entry rest, others => .cons name entry (rest.append others)

theorem names_append : ∀ entries others : Entries,
    (entries.append others).names = entries.names ++ others.names
  | .nil, _ => rfl
  | .cons name entry rest, others => by
    rw [append, names, names_append rest others, names, cons_append]

theorem append_assoc : ∀ one two three : Entries,
    (one.append two).append three = one.append (two.append three)
  | .nil, _, _ => rfl
  | .cons name entry rest, two, three => by
    rw [append, append, append_assoc rest two three, append]

theorem append_nil : ∀ entries : Entries, entries.append .nil = entries
  | .nil => rfl
  | .cons name entry rest => by rw [append, append_nil rest]

variable {name : List UInt8} {entry : StorageEntry}

/-- A name behind all others is added at the end. -/
theorem insert_of_lt : ∀ {entries : Entries},
    (∀ other ∈ entries.names, other < name) →
    entries.insert name entry = entries.append (.cons name entry .nil)
  | .nil, _ => rfl
  | .cons other found rest, before => by
    rw [insert, if_pos (before other (by simp [names])),
      insert_of_lt fun n member => before n (by simp [names, member]), append]

theorem pack_cons {rest : Entries} {bytes : List UInt8}
    (packed : (Entries.cons name entry rest).pack = some bytes) : ∃ first others,
      name.length < 255 ∧ entry.pack = some first ∧ rest.pack = some others ∧
        bytes = UInt8.ofNat name.length :: (name ++ (first ++ others)) := by
  rw [pack] at packed
  split at packed
  · cases packed
  · rename_i named
    obtain ⟨first, others, one, more, rfl⟩ := parts_of_pack packed
    exact ⟨first, others, by omega, one, more, rfl⟩

end Entries

variable {name v input : List UInt8} {c m tally : Tally} {Roomy : Nat → Prop}

theorem readSecName_append {rest : List UInt8} (guards : 3 ≤ left) (some : 1 ≤ name.length)
    (short : name.length ≤ 254) :
    readSecName left ⟨UInt8.ofNat name.length :: (name ++ rest), c, m⟩ =
      .some (name, ⟨rest, c, m⟩) := by
  obtain ⟨left, rfl⟩ := Nat.exists_eq_add_of_le' (show 1 ≤ left by omega)
  have length : (UInt8.ofNat name.length).toNat = name.length := by
    rw [UInt8.toNat_ofNat']
    omega
  have nonzero : UInt8.ofNat name.length ≠ 0 := by
    intro zero
    rw [zero] at length
    have : (0 : UInt8).toNat = 0 := rfl
    omega
  rw [readSecName, readByte_cons (by omega)]
  simp only [bind_eq_bind, bind_some]
  rw [if_neg nonzero, length, readRaw_append (by omega)]

variable {entry : StorageEntry} {rest before : Entries} {type : UInt8}

/-- One more field. -/
theorem Reads.entries_cons {load : Read StorageEntry} {first others : List UInt8} {more : Tally}
    {Later : Nat → Prop} (guards : 3 ≤ left) (some : 1 ≤ name.length) (short : name.length ≤ 254)
    (greater : ∀ other ∈ before.names, other < name) (one : Reads load first entry tally Roomy)
    (later : Reads (readEntries (readSecName left) load rest.length (before.append (.cons name entry .nil))) others (before.append (.cons name entry rest)) more Later) :
    Reads (readEntries (readSecName left) load (rest.length + 1) before)
      (UInt8.ofNat name.length :: (name ++ (first ++ others)))
      (before.append (.cons name entry rest)) (tally + more)
      fun behind => Roomy (others.length + behind) ∧ Later behind := by
  have new : name ∉ before.names := fun member => List.lt_irrefl name (greater name member)
  have step : ∀ s, readEntries (readSecName left) load (rest.length + 1) before
      { s with input := (UInt8.ofNat name.length :: name) ++ s.input } = (load s).bind fun found =>
        readEntries (readSecName left) load rest.length (before.insert name found.1) found.2 := by
    intro s
    rw [readEntries, cons_append, readSecName_append guards some short]
    simp only [bind_eq_bind, bind_some]
    rw [if_neg new]
  rw [← cons_append]
  apply Reads.behind
  apply one.seq later
  · intro s s' found
    rw [step, found, bind_some, Entries.insert_of_lt greater]
  · intro s missed
    rw [step, missed, bind_none]

/-! ## Trees -/

theorem length_putString (packed : putString v = some bytes) :
    bytes.length = varintLength v.length + v.length := by
  obtain ⟨size, number, written⟩ := bind_eq_some_iff.mp packed
  cases written
  rw [length_append, length_packVarint number]

theorem length_putStrings : ∀ {values : List (List UInt8)} {bytes : List UInt8},
    putStrings values = some bytes → bytes.length = stringsSize values
  | [], _, packed => by
    cases packed
    rfl
  | v :: values, bytes, packed => by
    obtain ⟨first, others, one, more, rfl⟩ := parts_of_pack packed
    rw [length_append, length_putString one, length_putStrings more, stringsSize, stringsSize,
      map_cons, sum_cons]

mutual

theorem StorageEntry.length_pack : ∀ (entry : StorageEntry) {bytes : List UInt8},
    entry.pack = some bytes → bytes.length = entry.size
  | .pod type value, _, packed => by
    cases packed
    rw [StorageEntry.size, length_cons, type.toBytes_length, add_comm]
  | .string v, _, packed => by
    obtain ⟨body, put, written⟩ := bind_eq_some_iff.mp packed
    cases written
    rw [StorageEntry.size, length_cons, length_putString put, add_comm]
  | .object v, _, packed => by
    obtain ⟨body, put, written⟩ := bind_eq_some_iff.mp packed
    cases written
    rw [StorageEntry.size, length_cons, v.length_pack put, add_comm]
  | .array v, _, packed => by
    rw [StorageEntry.size, v.length_pack packed]

theorem ArrayEntry.length_pack : ∀ (array : ArrayEntry) {bytes : List UInt8},
    array.pack = some bytes → bytes.length = array.size
  | .pods type values, _, packed => by
    obtain ⟨number, size, written⟩ := bind_eq_some_iff.mp packed
    cases written
    rw [ArrayEntry.size, length_cons, length_append, length_packVarint size, pods_length,
      add_comm]
  | .strings values, _, packed => by
    obtain ⟨number, body, size, put, rfl⟩ := parts_of_pack packed
    rw [ArrayEntry.size, length_cons, length_append, length_packVarint size,
      length_putStrings put, add_comm]
  | .objects values, _, packed => by
    obtain ⟨number, body, size, put, rfl⟩ := parts_of_pack packed
    rw [ArrayEntry.size, length_cons, length_append, length_packVarint size,
      length_packSections values put, add_comm]
  | .arrays values, _, packed => by
    obtain ⟨number, body, size, put, rfl⟩ := parts_of_pack packed
    rw [ArrayEntry.size, length_cons, length_append, length_packVarint size,
      length_packArrays values put, add_comm]

theorem length_packSections : ∀ (values : List Section) {bytes : List UInt8},
    packSections values = some bytes → bytes.length = sectionsSize values
  | [], _, packed => by
    cases packed
    rw [sectionsSize, length_nil]
  | v :: values, _, packed => by
    obtain ⟨first, others, one, more, rfl⟩ := parts_of_pack packed
    rw [sectionsSize, length_append, v.length_pack one, length_packSections values more]

theorem length_packArrays : ∀ (values : List ArrayEntry) {bytes : List UInt8},
    packArrays values = some bytes → bytes.length = arraysSize values
  | [], _, packed => by
    cases packed
    rw [arraysSize, length_nil]
  | v :: values, _, packed => by
    obtain ⟨first, others, one, more, rfl⟩ := parts_of_pack packed
    rw [arraysSize, length_append, v.length_pack one, length_packArrays values more]

theorem Section.length_pack : ∀ (sec : Section) {bytes : List UInt8},
    sec.pack = some bytes → bytes.length = sec.size
  | .mk entries, _, packed => by
    obtain ⟨number, body, size, put, rfl⟩ := parts_of_pack packed
    rw [Section.size, length_append, length_packVarint size, entries.length_pack put]

theorem Entries.length_pack : ∀ (entries : Entries) {bytes : List UInt8},
    entries.pack = some bytes → bytes.length = entries.size
  | .nil, _, packed => by
    cases packed
    rw [Entries.size, length_nil]
  | .cons name entry rest, _, packed => by
    obtain ⟨first, others, -, one, more, rfl⟩ := Entries.pack_cons packed
    rw [Entries.size, length_cons, length_append, length_append,
      entry.length_pack one, rest.length_pack more, add_comm]

end

theorem length_le_sectionsSize : ∀ values : List Section, values.length ≤ sectionsSize values
  | [] => zero_le _
  | .mk entries :: values => by
    have tail := length_le_sectionsSize values
    have head := varintLength_pos entries.length
    rw [sectionsSize, Section.size, length_cons]
    omega

theorem length_le_stringsSize : ∀ values : List (List UInt8), values.length ≤ stringsSize values
  | [] => zero_le _
  | v :: values => by
    have tail := length_le_stringsSize values
    have head := varintLength_pos v.length
    rw [stringsSize] at tail ⊢
    rw [map_cons, sum_cons, length_cons]
    omega

theorem readSePod_reads (type : PodType) (value : type.Value) (guards : 3 ≤ left) :
    Reads (readSePod type left) (type.toBytes value) (.pod type value) 0 fun _ => True := by
  obtain ⟨left, rfl⟩ := Nat.exists_eq_add_of_le' (show 1 ≤ left by omega)
  apply Reads.always
  intro rest c m
  rw [readSePod, readRef_append (by omega) (type.toBytes_length value), type.ofBytes_toBytes]
  rfl

theorem readSeString_reads (guards : 7 ≤ left) (short : v.length < MAX_STRING_LEN_POSSIBLE)
    (packed : putString v = some bytes) :
    Reads (readSeString left) bytes (.string v) ⟨0, 0, 1⟩ fun _ => True := by
  obtain ⟨left, rfl⟩ := Nat.exists_eq_add_of_le' (show 2 ≤ left by omega)
  have inner : Reads (readNewString (left + 1)) bytes v 0 fun _ => True := by
    apply Reads.always
    intro rest c m
    exact readString_put (by omega) short packed
  have entry := inner.map StorageEntry.string fun _ => rfl
  have counted : Reads (readSeString (left + 2)) bytes (.string v) (⟨0, 0, 1⟩ + 0) fun _ => True := by
    apply entry.counted
    intro input c m within
    have strings : ¬ m.strings < c.strings + 1 := not_lt.mpr within.2.2
    rw [readSeString, if_neg strings]
    rfl
  exact counted

theorem loadStorageEntry_cons (guards : 2 ≤ left) :
    loadStorageEntry (left + 1) ⟨type :: input, c, m⟩ =
      if type &&& SERIALIZE_FLAG_ARRAY ≠ 0 then loadStorageArrayEntry type left ⟨input, c, m⟩
      else if type = SERIALIZE_TYPE_STRING then readSeString left ⟨input, c, m⟩
      else if type = SERIALIZE_TYPE_OBJECT then readSeSection left ⟨input, c, m⟩
      else if type = SERIALIZE_TYPE_ARRAY then readSeArray left ⟨input, c, m⟩
      else (PodType.ofCode type).bind fun pod => readSePod pod left ⟨input, c, m⟩ := by
  rw [loadStorageEntry, readByte_cons guards]
  simp only [bind_eq_bind, bind_some]
  cases PodType.ofCode type <;> rfl

theorem loadStorageEntry_pod (type : PodType) (guards : 2 ≤ left) :
    loadStorageEntry (left + 1) ⟨type.code :: input, c, m⟩ = readSePod type left ⟨input, c, m⟩ := by
  rw [loadStorageEntry_cons guards]
  cases type <;> rfl

theorem loadStorageEntry_array (guards : 2 ≤ left) (array : type &&& SERIALIZE_FLAG_ARRAY ≠ 0) :
    loadStorageEntry (left + 1) ⟨type :: input, c, m⟩ =
      loadStorageArrayEntry type left ⟨input, c, m⟩ := by
  rw [loadStorageEntry_cons guards, if_pos array]

theorem loadStorageArrayEntry_pod (type : PodType) :
    loadStorageArrayEntry (type.code ||| SERIALIZE_FLAG_ARRAY) (left + 1) = readAePods type left := by
  funext s
  cases type <;> rfl

theorem readAePods_reads (type : PodType) {values : List type.Value} (guards : 5 ≤ left)
    (packed : packVarint values.length = some number) :
    Reads (readAePods type left) (number ++ values.flatMap type.toBytes)
      (.array (.pods type values)) 0 fun _ => values.length ≤ maxVarint := by
  obtain ⟨left, rfl⟩ := Nat.exists_eq_add_of_le' (show 1 ≤ left by omega)
  have array : Reads (readArray type.size (fun _ => ⟨0, 0, 0⟩) (readVarint left)
      (readNew type.size type.ofBytes left)) _ values _ _ :=
    .array (by omega) packed rfl (reads_pods type (by omega) values)
  have entry : Reads (readAePods type (left + 1)) _ (.array (.pods type values)) _ _ :=
    array.map (fun values => StorageEntry.array (.pods type values)) fun _ => rfl
  apply entry.of_iff
  intro behind
  have positive : 0 < type.size := by cases type <;> decide
  have small := packVarint_eq_some.mp ⟨number, packed⟩
  rw [pods_length, le_div_iff_mul_le positive]
  exact ⟨fun _ => small, fun _ => ⟨le_add_right _ _, trivial⟩⟩

theorem readAeStrings_reads {values : List (List UInt8)} (guards : 5 ≤ left)
    (deeper : values ≠ [] → 7 ≤ left) (short : ∀ v ∈ values, v.length < MAX_STRING_LEN_POSSIBLE)
    (packed : packVarint values.length = some number) (put : putStrings values = some body) :
    Reads (readAeStrings left) (number ++ body) (.array (.strings values))
      ⟨0, 0, values.length⟩ fun behind => values.length ≤ maxVarint ∧
        2 * values.length ≤ stringsSize values + behind := by
  obtain ⟨left, rfl⟩ := Nat.exists_eq_add_of_le' (show 1 ≤ left by omega)
  have strings : Reads (readMany (readNewString left) values.length) body values 0 fun _ => True :=
    reads_strings values (fun nonempty => le_of_succ_le_succ (deeper nonempty)) short put
  have array : Reads (readArray 2 (fun size => ⟨0, 0, size⟩) (readVarint left)
      (readNewString left)) _ values _ _ :=
    .array (by omega) packed rfl strings
  have entry : Reads (readAeStrings (left + 1)) _ (.array (.strings values)) _ _ :=
    array.map (fun values => StorageEntry.array (.strings values)) fun _ => rfl
  apply entry.of_iff
  intro behind
  have small := packVarint_eq_some.mp ⟨number, packed⟩
  rw [← length_putStrings put, and_true]
  omega

theorem readAeSections_reads {values : List Section} (guards : 4 ≤ left)
    (packed : packVarint values.length = some number) (put : packSections values = some body)
    (many : Reads (readMany (readNewSection left) values.length) body values (sectionsTally values)
      (SectionsRoomy values)) :
    Reads (readAeSections (left + 1)) (number ++ body) (.array (.objects values))
      (⟨values.length, 0, 0⟩ + sectionsTally values)
      fun behind => values.length ≤ maxVarint ∧ SectionsRoomy values behind := by
  have array : Reads (readArray 1 (fun size => ⟨size, 0, 0⟩) (readVarint left)
      (readNewSection left)) _ values _ _ :=
    .array (by omega) packed rfl many
  have entry : Reads (readAeSections (left + 1)) _ (.array (.objects values)) _ _ :=
    array.map (fun values => StorageEntry.array (.objects values)) fun _ => rfl
  apply entry.of_iff
  intro behind
  have small := packVarint_eq_some.mp ⟨number, packed⟩
  have enough := length_le_sectionsSize values
  rw [length_packSections values put]
  exact ⟨fun room => ⟨small, room.2⟩, fun room => ⟨by omega, room.2⟩⟩

/-- `read_se<section>` counts the section and reads it. -/
theorem readSeSection_reads {v : Section} (reads : Reads (readSection left) bytes v tally Roomy) :
    Reads (readSeSection (left + 1)) bytes (.object v) (⟨1, 0, 0⟩ + tally) Roomy := by
  apply (reads.map StorageEntry.object fun _ => rfl).counted
  intro input c m within
  have objects : ¬ m.objects ≤ c.objects := not_le.mpr within.1
  rw [readSeSection, if_neg objects]
  rfl

/-- `read(section&)` reads the number of the fields, counts them and reads them. -/
theorem readSection_reads {entries : Entries} (guards : 4 ≤ left)
    (packed : packVarint entries.length = some number)
    (fields : Reads (readEntries (readSecName left) (loadStorageEntry left) entries.length .nil) body entries tally Roomy) :
    Reads (readSection (left + 1)) (number ++ body) (.mk entries)
      (⟨0, entries.length, 0⟩ + tally) Roomy := by
  apply Reads.behind
  apply (fields.map Section.mk fun _ => rfl).counted
  intro input c m within
  have enough : ¬ m.fields - c.fields < entries.length := by
    have fields : c.fields + entries.length ≤ m.fields := within.2.1
    omega
  rw [readSection, readVarint_pack guards packed]
  simp only [bind_eq_bind, bind_some]
  rw [if_neg enough]
  rfl

theorem Section.depth_ge (sec : Section) : 5 ≤ sec.depth := by
  cases sec
  rw [Section.depth]
  omega

theorem ArrayEntry.depth_ge (array : ArrayEntry) : 6 ≤ array.depth := by
  cases array with
  | strings values =>
    rw [ArrayEntry.depth]
    split <;> decide
  | objects values =>
    rw [ArrayEntry.depth]
    omega
  | pods => exact le_refl 6
  | arrays => exact le_refl 6

theorem Entries.ordered_behind
    (ordered : ∀ n ∈ before.names, ∀ other ∈ (Entries.cons name entry rest).names, n < other)
    (least : ∀ other ∈ rest.names, name < other) :
    ∀ n ∈ (before.append (.cons name entry .nil)).names, ∀ other ∈ rest.names, n < other := by
  intro n found other member
  rw [Entries.names_append, mem_append] at found
  rcases found with found | found
  · exact ordered n found other (by simp [Entries.names, member])
  · simp only [Entries.names, mem_singleton] at found
    rw [found]
    exact least other member

mutual

theorem StorageEntry.reads : ∀ (entry : StorageEntry) {left : Nat} {bytes : List UInt8},
    entry.Storable → entry.depth ≤ left → entry.pack = some bytes →
    Reads (loadStorageEntry left) bytes entry entry.tally entry.Roomy
  | .pod type value, left, bytes, _, deep, packed => by
    rw [StorageEntry.depth] at deep
    obtain ⟨left, rfl⟩ := Nat.exists_eq_add_of_le' (show 1 ≤ left by omega)
    cases packed
    have read := (readSePod_reads type value (by omega : 3 ≤ left)).tagged fun input c m =>
      loadStorageEntry_pod type (by omega)
    apply read.of_iff
    intro behind
    rw [StorageEntry.Roomy]
  | .string v, left, bytes, storable, deep, packed => by
    rw [StorageEntry.depth] at deep
    obtain ⟨left, rfl⟩ := Nat.exists_eq_add_of_le' (show 1 ≤ left by omega)
    obtain ⟨body, put, written⟩ := bind_eq_some_iff.mp packed
    cases written
    have read : Reads (loadStorageEntry (left + 1)) (SERIALIZE_TYPE_STRING :: body) (.string v)
        ⟨0, 0, 1⟩ fun _ => True :=
      (readSeString_reads (by omega) storable put).tagged fun input c m =>
        loadStorageEntry_cons (by omega)
    apply read.of_iff
    intro behind
    rw [StorageEntry.Roomy]
  | .object v, left, bytes, storable, deep, packed => by
    rw [StorageEntry.depth] at deep
    obtain ⟨left, rfl⟩ := Nat.exists_eq_add_of_le' (show 2 ≤ left by omega)
    obtain ⟨body, put, written⟩ := bind_eq_some_iff.mp packed
    cases written
    have section' := v.reads storable (by omega : v.depth ≤ left) put
    have three := v.depth_ge
    have read : Reads (loadStorageEntry (left + 2)) (SERIALIZE_TYPE_OBJECT :: body) (.object v)
        (⟨1, 0, 0⟩ + v.tally) v.Roomy := by
      apply Reads.tagged (readSeSection_reads section')
      intro input c m
      exact loadStorageEntry_cons (by omega)
    apply read.of_iff
    intro behind
    rw [StorageEntry.Roomy]
  | .array v, left, bytes, storable, deep, packed => by
    rw [StorageEntry.depth] at deep
    obtain ⟨left, rfl⟩ := Nat.exists_eq_add_of_le' (show 1 ≤ left by omega)
    obtain ⟨type, body, rfl, array, read⟩ := v.reads storable (by omega : v.depth ≤ left) packed
    have six := v.depth_ge
    apply (read.tagged fun input c m => loadStorageEntry_array (by omega) array).of_iff
    intro behind
    rw [StorageEntry.Roomy]

/-- An array starts with its type. -/
theorem ArrayEntry.reads : ∀ (array : ArrayEntry) {left : Nat} {bytes : List UInt8},
    array.Storable → array.depth ≤ left → array.pack = some bytes →
    ∃ type body, bytes = type :: body ∧ type &&& SERIALIZE_FLAG_ARRAY ≠ 0 ∧
      Reads (loadStorageArrayEntry type left) body (.array array) array.tally array.Roomy
  | .pods type values, left, bytes, _, deep, packed => by
    rw [ArrayEntry.depth] at deep
    obtain ⟨left, rfl⟩ := Nat.exists_eq_add_of_le' (show 1 ≤ left by omega)
    obtain ⟨number, size, written⟩ := bind_eq_some_iff.mp packed
    cases written
    refine ⟨_, _, rfl, by cases type <;> decide, ?_⟩
    rw [loadStorageArrayEntry_pod]
    apply (readAePods_reads type (by omega) size).of_iff
    intro behind
    rw [ArrayEntry.Roomy]
  | .strings values, left, bytes, storable, deep, packed => by
    rw [ArrayEntry.depth] at deep
    obtain ⟨left, rfl⟩ := Nat.exists_eq_add_of_le' (show 1 ≤ left by split at deep <;> omega)
    obtain ⟨number, body, size, put, rfl⟩ := parts_of_pack packed
    refine ⟨_, _, rfl, by decide, ?_⟩
    have deeper : values ≠ [] → 7 ≤ left := fun nonempty => by
      rw [if_neg nonempty] at deep
      omega
    have read := readAeStrings_reads (by split at deep <;> omega) deeper storable size put
    apply read.of_iff
    intro behind
    rw [ArrayEntry.Roomy]
  | .objects values, left, bytes, storable, deep, packed => by
    rw [ArrayEntry.depth] at deep
    obtain ⟨left, rfl⟩ := Nat.exists_eq_add_of_le' (show 2 ≤ left by omega)
    obtain ⟨number, body, size, put, rfl⟩ := parts_of_pack packed
    refine ⟨_, _, rfl, by decide, ?_⟩
    have many := sections_reads values storable (by omega : sectionsDepth values ≤ left) put
    have read := readAeSections_reads (by omega) size put many
    apply read.of_iff
    intro behind
    rw [ArrayEntry.Roomy]
  | .arrays _, _, _, storable, _, _ => by
    exact storable.elim

theorem sections_reads : ∀ (values : List Section) {left : Nat} {bytes : List UInt8},
    SectionsStorable values → sectionsDepth values ≤ left → packSections values = some bytes →
    Reads (readMany (readNewSection left) values.length) bytes values (sectionsTally values)
      (SectionsRoomy values)
  | [], left, bytes, _, _, packed => by
    cases packed
    apply Reads.many_nil.of_iff
    intro behind
    rw [SectionsRoomy]
  | v :: values, left, bytes, storable, deep, packed => by
    rw [sectionsDepth] at deep
    obtain ⟨left, rfl⟩ := Nat.exists_eq_add_of_le' (show 1 ≤ left by omega)
    obtain ⟨first, others, one, more, rfl⟩ := parts_of_pack packed
    have head := v.reads storable.1 (by omega : v.depth ≤ left) one
    have tail := sections_reads values storable.2 (by omega : sectionsDepth values ≤ left + 1) more
    have read : Reads (readMany (readNewSection (left + 1)) (values.length + 1)) _ (v :: values) _ _ :=
      Reads.many_cons head tail
    apply read.of_iff
    intro behind
    rw [SectionsRoomy, length_packSections values more]

theorem Section.reads : ∀ (sec : Section) {left : Nat} {bytes : List UInt8},
    sec.Storable → sec.depth ≤ left → sec.pack = some bytes →
    Reads (readSection left) bytes sec sec.tally sec.Roomy
  | .mk entries, left, bytes, storable, deep, packed => by
    rw [Section.depth] at deep
    obtain ⟨left, rfl⟩ := Nat.exists_eq_add_of_le' (show 1 ≤ left by omega)
    obtain ⟨number, body, size, put, rfl⟩ := parts_of_pack packed
    have fields := entries.reads .nil storable (by omega : entries.depth ≤ left)
      (fun _ member => absurd member (not_mem_nil)) put
    apply (readSection_reads (by omega) size fields).of_iff
    intro behind
    have small := packVarint_eq_some.mp ⟨number, size⟩
    exact ⟨fun room => ⟨small, room⟩, fun room => room.2⟩

/-- The fields are read behind those that are already there. -/
theorem Entries.reads : ∀ (entries before : Entries) {left : Nat} {bytes : List UInt8},
    entries.Storable → entries.depth ≤ left →
    (∀ name ∈ before.names, ∀ other ∈ entries.names, name < other) → entries.pack = some bytes →
    Reads (readEntries (readSecName left) (loadStorageEntry left) entries.length before) bytes
      (before.append entries) entries.tally entries.Roomy
  | .nil, before, left, bytes, _, _, _, packed => by
    cases packed
    rw [Entries.append_nil]
    apply (Reads.always fun rest c m => rfl).of_iff
    intro behind
    rw [Entries.Roomy]
  | .cons name entry rest, before, left, bytes, storable, deep, ordered, packed => by
    obtain ⟨some, short, least, storableOne, storableLater⟩ := storable
    rw [Entries.depth] at deep
    obtain ⟨first, others, -, one, more, rfl⟩ := Entries.pack_cons packed
    have head := entry.reads storableOne (by omega : entry.depth ≤ left) one
    have tail := rest.reads (before.append (.cons name entry .nil)) storableLater
      (by omega : rest.depth ≤ left) (Entries.ordered_behind ordered least) more
    rw [Entries.append_assoc] at tail
    have read := Reads.entries_cons (by omega) some short
      (fun other member => ordered other member name (by simp [Entries.names])) head tail
    apply read.of_iff
    intro behind
    rw [Entries.Roomy, rest.length_pack more]

end

/-! ## Limits

Everything that is counted takes a byte, so what is read from memory stays below the default limits. -/

/-- Everything counted together. -/
def Tally.total (count : Tally) : Nat :=
  count.objects + count.fields + count.strings

theorem Tally.total_mk (objects fields strings : Nat) :
    (⟨objects, fields, strings⟩ : Tally).total = objects + fields + strings :=
  rfl

theorem Tally.total_add (left right : Tally) : (left + right).total = left.total + right.total := by
  simp only [Tally.total, Tally.add_def]
  omega

theorem Tally.within_of_total {count : Tally} {max : Nat} (small : count.total ≤ max) :
    count.Within ⟨max, max, max⟩ := by
  rw [Tally.total] at small
  exact ⟨by dsimp only; omega, by dsimp only; omega, by dsimp only; omega⟩

mutual

theorem StorageEntry.total_le : ∀ entry : StorageEntry, entry.tally.total ≤ entry.size
  | .pod _ _ => by
    exact zero_le _
  | .string _ => by
    rw [StorageEntry.tally, StorageEntry.size, Tally.total_mk]
    omega
  | .object v => by
    have inner := v.total_lt
    rw [StorageEntry.tally, StorageEntry.size, Tally.total_add, Tally.total_mk]
    omega
  | .array v => by
    exact v.total_le

theorem ArrayEntry.total_le : ∀ array : ArrayEntry, array.tally.total ≤ array.size
  | .pods _ _ => by
    exact zero_le _
  | .strings values => by
    have inner := length_le_stringsSize values
    rw [ArrayEntry.tally, ArrayEntry.size, Tally.total_mk]
    omega
  | .objects values => by
    have inner := sections_total_le values
    rw [ArrayEntry.tally, ArrayEntry.size, Tally.total_add, Tally.total_mk]
    omega
  | .arrays _ => by
    exact zero_le _

theorem sections_total_le : ∀ values : List Section,
    values.length + (sectionsTally values).total ≤ sectionsSize values
  | [] => by
    exact zero_le _
  | v :: values => by
    have head := v.total_lt
    have tail := sections_total_le values
    rw [sectionsTally, sectionsSize, Tally.total_add, length_cons]
    omega

theorem Section.total_lt : ∀ sec : Section, sec.tally.total < sec.size
  | .mk entries => by
    have inner := entries.total_le
    have := varintLength_pos entries.length
    rw [Section.tally, Section.size, Tally.total_add, Tally.total_mk]
    omega

theorem Entries.total_le : ∀ entries : Entries,
    entries.length + entries.tally.total ≤ entries.size
  | .nil => by
    exact zero_le _
  | .cons name entry rest => by
    have head := entry.total_le
    have tail := rest.total_le
    rw [Entries.tally, Entries.size, Entries.length, Tally.total_add]
    omega

end

/-! ## Writing

Nothing but a size that cannot be packed keeps a tree from being written. -/

theorem putString_of_lt (short : v.length < MAX_STRING_LEN_POSSIBLE) :
    ∃ bytes, putString v = some bytes := by
  have small : v.length ≤ maxVarint := le_of_lt (lt_trans short (by decide))
  obtain ⟨number, size⟩ := packVarint_eq_some.mpr small
  exact ⟨number ++ v, by rw [putString, size]; rfl⟩

theorem putStrings_of_lt : ∀ {values : List (List UInt8)},
    (∀ v ∈ values, v.length < MAX_STRING_LEN_POSSIBLE) → ∃ bytes, putStrings values = some bytes
  | [], _ => ⟨[], rfl⟩
  | v :: values, short => by
    obtain ⟨first, one⟩ := putString_of_lt (short v (by simp))
    obtain ⟨others, more⟩ : ∃ others, putStrings values = some others :=
      putStrings_of_lt fun v member => short v (by simp [member])
    exact ⟨first ++ others, by rw [putStrings, one, more]; rfl⟩

mutual

theorem StorageEntry.packs : ∀ (entry : StorageEntry) {behind : Nat}, entry.Storable →
    entry.Roomy behind → ∃ bytes, entry.pack = some bytes
  | .pod type value, _, _, _ => by
    exact ⟨_, rfl⟩
  | .string v, _, storable, _ => by
    obtain ⟨body, put⟩ := putString_of_lt storable
    rw [StorageEntry.pack, put]
    exact ⟨_, rfl⟩
  | .object v, _, storable, room => by
    obtain ⟨body, put⟩ := v.packs storable room
    rw [StorageEntry.pack, put]
    exact ⟨_, rfl⟩
  | .array v, _, storable, room => by
    exact v.packs storable room

theorem ArrayEntry.packs : ∀ (array : ArrayEntry) {behind : Nat}, array.Storable →
    array.Roomy behind → ∃ bytes, array.pack = some bytes
  | .pods type values, _, _, room => by
    obtain ⟨number, size⟩ := packVarint_eq_some.mpr room
    rw [ArrayEntry.pack, size]
    exact ⟨_, rfl⟩
  | .strings values, _, storable, room => by
    obtain ⟨number, size⟩ := packVarint_eq_some.mpr room.1
    obtain ⟨body, put⟩ := putStrings_of_lt storable
    rw [ArrayEntry.pack, size, put]
    exact ⟨_, rfl⟩
  | .objects values, _, storable, room => by
    obtain ⟨number, size⟩ := packVarint_eq_some.mpr room.1
    obtain ⟨body, put⟩ := sections_pack values storable room.2
    rw [ArrayEntry.pack, size, put]
    exact ⟨_, rfl⟩
  | .arrays _, _, storable, _ => by
    exact storable.elim

theorem sections_pack : ∀ (values : List Section) {behind : Nat}, SectionsStorable values →
    SectionsRoomy values behind → ∃ bytes, packSections values = some bytes
  | [], _, _, _ => by
    exact ⟨_, rfl⟩
  | v :: values, _, storable, room => by
    obtain ⟨first, one⟩ := v.packs storable.1 room.1
    obtain ⟨others, more⟩ := sections_pack values storable.2 room.2
    rw [packSections, one, more]
    exact ⟨_, rfl⟩

theorem Section.packs : ∀ (sec : Section) {behind : Nat}, sec.Storable → sec.Roomy behind →
    ∃ bytes, sec.pack = some bytes
  | .mk entries, _, storable, room => by
    obtain ⟨number, size⟩ := packVarint_eq_some.mpr room.1
    obtain ⟨body, put⟩ := entries.packs storable room.2
    rw [Section.pack, size, put]
    exact ⟨_, rfl⟩

theorem Entries.packs : ∀ (entries : Entries) {behind : Nat}, entries.Storable →
    entries.Roomy behind → ∃ bytes, entries.pack = some bytes
  | .nil, _, _, _ => by
    exact ⟨_, rfl⟩
  | .cons name entry rest, _, storable, room => by
    obtain ⟨named, short, -, storableOne, storableLater⟩ := storable
    obtain ⟨first, one⟩ := entry.packs storableOne room.1
    obtain ⟨others, more⟩ := rest.packs storableLater room.2
    have allowed : ¬ (255 ≤ name.length ∨ name = []) := by
      rw [← length_eq_zero_iff]
      omega
    rw [Entries.pack, if_neg allowed, one, more]
    exact ⟨_, rfl⟩

end

/-! ## Whole storages -/

/-- Without limits of the caller, loading a blob is reading its root section. -/
theorem loadFromBinary_pack {root : Section} (packed : root.pack = some body) :
    loadFromBinary (storageBlockHeader ++ body) none =
      (readSection (EPEE_PORTABLE_STORAGE_RECURSION_LIMIT - 1)
        ⟨body ++ [], 0, ⟨SIZE_MAX, SIZE_MAX, SIZE_MAX⟩⟩).bind fun found => some found.1 := by
  have nonempty : body ≠ [] := by
    intro empty
    have positive := root.total_lt
    rw [← root.length_pack packed, empty] at positive
    exact not_lt_zero _ positive
  rw [loadFromBinary, drop_left, append_nil]
  rw [if_neg nonempty]
  rfl

/-- A tree survives being written and read exactly if two bytes for each string of each array follow
the size of the array and no size is too large to be packed. -/
theorem storeToBinary_loadFromBinary (root : Section) (storable : root.Storable)
    (nested : root.depth < EPEE_PORTABLE_STORAGE_RECURSION_LIMIT)
    (addressable : ∀ blob, storeToBinary root = some blob → blob.length ≤ SIZE_MAX) :
    (∃ blob, storeToBinary root = some blob ∧ loadFromBinary blob none = some root) ↔
      root.Roomy 0 := by
  have stored : ∀ body, root.pack = some body →
      storeToBinary root = some (storageBlockHeader ++ body) := by
    intro body packed
    rw [storeToBinary, packed]
    rfl
  have read : ∀ body, root.pack = some body → Reads
      (readSection (EPEE_PORTABLE_STORAGE_RECURSION_LIMIT - 1)) body root root.tally root.Roomy :=
    fun body packed => root.reads storable (le_sub_one_of_lt nested) packed
  have within : ∀ body, root.pack = some body →
      ((0 : Tally) + root.tally).Within ⟨SIZE_MAX, SIZE_MAX, SIZE_MAX⟩ := by
    intro body packed
    apply Tally.within_of_total
    have size := addressable _ (stored body packed)
    have counted := root.total_lt
    rw [length_append, root.length_pack packed] at size
    have : ((0 : Tally) + root.tally).total = root.tally.total := by
      rw [Tally.total_add]
      exact zero_add _
    omega
  constructor
  · rintro ⟨blob, written, loaded⟩
    by_contra cramped
    obtain ⟨body, packed, -⟩ := bind_eq_some_iff.mp written
    have missed := (read body packed [] 0 _ (within body packed)).2 cramped
    cases (stored body packed).symm.trans written
    rw [loadFromBinary_pack packed, missed] at loaded
    cases loaded
  · intro room
    obtain ⟨body, packed⟩ := root.packs storable room
    have found := (read body packed [] 0 _ (within body packed)).1 room
    refine ⟨_, stored body packed, ?_⟩
    rw [loadFromBinary_pack packed, found]
    rfl

/-- A storage with one field, which holds an array of strings. -/
def stringArray (values : List (List UInt8)) : Section :=
  .mk (.cons [97] (.array (.strings values)) .nil)

theorem storeToBinary_loadFromBinary_string :
    ∃ blob, storeToBinary (stringArray [[98]]) = some blob ∧
      loadFromBinary blob none = some (stringArray [[98]]) := by
  refine (storeToBinary_loadFromBinary (stringArray [[98]]) ?_ (by decide) ?_).mpr ?_
  · simp [stringArray, Section.Storable, Entries.Storable, Entries.names, StorageEntry.Storable,
      ArrayEntry.Storable, MAX_STRING_LEN_POSSIBLE]
  · intro blob stored
    cases stored
    decide
  · simp [stringArray, Section.Roomy, Entries.Roomy, StorageEntry.Roomy, ArrayEntry.Roomy,
      Entries.length, stringsSize, varintLength, maxVarint]

/-- An array with one empty string at the end of the blob: one byte follows the size, and half of it
is less than 1. -/
theorem loadFromBinary_empty_string :
    (stringArray [[]]).Storable ∧
      (stringArray [[]]).depth < EPEE_PORTABLE_STORAGE_RECURSION_LIMIT ∧
      storeToBinary (stringArray [[]]) = some (storageBlockHeader ++ [4, 1, 97, 138, 4, 0]) ∧
      loadFromBinary (storageBlockHeader ++ [4, 1, 97, 138, 4, 0]) none = none := by
  refine ⟨?_, by decide, by decide, rfl⟩
  simp [stringArray, Section.Storable, Entries.Storable, Entries.names, StorageEntry.Storable,
    ArrayEntry.Storable, MAX_STRING_LEN_POSSIBLE]

end Memero.Storage
