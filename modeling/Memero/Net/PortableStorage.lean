import Memero.Basic.Bytes

/-!
# Portable storage

The binary form of the section trees in which the nodes exchange their messages: the writer of
`portable_storage_to_bin.h`, the `throwable_buffer_reader` of `portable_storage_from_bin.cpp`, and
`store_to_binary` and `load_from_binary`.

Every function of the reader takes a `recursuion_limitation_guard`. Here the functions are given how
many guards can still be taken, so that running out of them ends the recursion.
-/

namespace Memero.Storage

def PORTABLE_STORAGE_SIGNATUREA : Nat := 0x01011101
def PORTABLE_STORAGE_SIGNATUREB : Nat := 0x01020101
def PORTABLE_STORAGE_FORMAT_VER : UInt8 := 1
def MAX_STRING_LEN_POSSIBLE : Nat := 2000000000
def EPEE_PORTABLE_STORAGE_RECURSION_LIMIT : Nat := 100

def SERIALIZE_TYPE_STRING : UInt8 := 10
def SERIALIZE_TYPE_OBJECT : UInt8 := 12
def SERIALIZE_TYPE_ARRAY : UInt8 := 13
def SERIALIZE_FLAG_ARRAY : UInt8 := 0x80

/-- The types whose values are written as they are in memory. -/
inductive PodType where
  | int64
  | int32
  | int16
  | int8
  | uint64
  | uint32
  | uint16
  | uint8
  | double
  | bool
  deriving DecidableEq, Repr

namespace PodType

/-- `sizeof`, which is also `ps_min_bytes`. -/
def size : PodType → Nat
  | .int64 | .uint64 | .double => 8
  | .int32 | .uint32 => 4
  | .int16 | .uint16 => 2
  | .int8 | .uint8 | .bool => 1

/-- `SERIALIZE_TYPE_INT64` to `SERIALIZE_TYPE_DUOBLE`, and `SERIALIZE_TYPE_BOOL`. -/
def code : PodType → UInt8
  | .int64 => 1
  | .int32 => 2
  | .int16 => 3
  | .int8 => 4
  | .uint64 => 5
  | .uint32 => 6
  | .uint16 => 7
  | .uint8 => 8
  | .double => 9
  | .bool => 11

/-- The type that a code stands for. -/
def ofCode (code : UInt8) : Option PodType :=
  [int64, int32, int16, int8, uint64, uint32, uint16, uint8, double, bool].find?
    fun type => type.code == code

/-- The values: the bits of a number, whatever its sign. -/
def Value : PodType → Type
  | .bool => Bool
  | type => BitVec (8 * type.size)

/-- The bytes of some bits in memory. -/
def bitsToBytes {size : Nat} (bits : BitVec (8 * size)) : List UInt8 :=
  littleEndian size bits.toNat

/-- The bits in memory. -/
def bitsOfBytes (size : Nat) (bytes : List UInt8) : BitVec (8 * size) :=
  BitVec.ofNat _ (ofBigEndian bytes.reverse)

/-- A value in memory. -/
def toBytes : (type : PodType) → type.Value → List UInt8
  | .bool, value => [UInt8.ofNat (Bool.toNat value)]
  | .int64, value | .uint64, value | .double, value => bitsToBytes value
  | .int32, value | .uint32, value => bitsToBytes value
  | .int16, value | .uint16, value => bitsToBytes value
  | .int8, value | .uint8, value => bitsToBytes value

/-- The value that is in memory. -/
def ofBytes : (type : PodType) → List UInt8 → type.Value
  | .bool, bytes => bytes.headD 0 != 0
  | .int64, bytes | .uint64, bytes | .double, bytes => bitsOfBytes 8 bytes
  | .int32, bytes | .uint32, bytes => bitsOfBytes 4 bytes
  | .int16, bytes | .uint16, bytes => bitsOfBytes 2 bytes
  | .int8, bytes | .uint8, bytes => bitsOfBytes 1 bytes

end PodType

mutual

/-- `storage_entry`. -/
inductive StorageEntry where
  | pod (type : PodType) (value : type.Value)
  | string (value : List UInt8)
  | object (value : Section)
  | array (value : ArrayEntry)

/-- `array_entry`. -/
inductive ArrayEntry where
  | pods (type : PodType) (values : List type.Value)
  | strings (values : List (List UInt8))
  | objects (values : List Section)
  | arrays (values : List ArrayEntry)

/-- `section`. -/
inductive Section where
  | mk (entries : Entries)

/-- `m_entries`, in the order of the names. -/
inductive Entries where
  | nil
  | cons (name : List UInt8) (entry : StorageEntry) (rest : Entries)

end

namespace Entries

def length : Entries → Nat
  | .nil => 0
  | .cons _ _ rest => rest.length + 1

def names : Entries → List (List UInt8)
  | .nil => []
  | .cons name _ rest => name :: rest.names

/-- `emplace_hint`. -/
def insert (name : List UInt8) (entry : StorageEntry) : Entries → Entries
  | .nil => .cons name entry .nil
  | .cons other found rest =>
    if other < name then .cons other found (rest.insert name entry)
    else .cons name entry (.cons other found rest)

end Entries

/-! ## Writing -/

/-- `pack_varint`: the lowest two bits tell how many bytes there are. -/
def packVarint (val : Nat) : Option (List UInt8) :=
  if val ≤ 63 then
    some (littleEndian 1 (val * 4))
  else if val ≤ 16383 then
    some (littleEndian 2 (val * 4 + 1))
  else if val ≤ 1073741823 then
    some (littleEndian 4 (val * 4 + 2))
  else if val ≤ 4611686018427387903 then
    some (littleEndian 8 (val * 4 + 3))
  else
    none

/-- `put_string`. -/
def putString (v : List UInt8) : Option (List UInt8) := do
  let size ← packVarint v.length
  some (size ++ v)

/-- The strings of an array. -/
def putStrings : List (List UInt8) → Option (List UInt8)
  | [] => some []
  | v :: rest => do
      let first ← putString v
      let others ← putStrings rest
      some (first ++ others)

mutual

/-- `storage_entry_store_visitor`. -/
def StorageEntry.pack : StorageEntry → Option (List UInt8)
  | .pod type value => some (type.code :: type.toBytes value)
  | .string v => do
      let body ← putString v
      some (SERIALIZE_TYPE_STRING :: body)
  | .object v => do
      let body ← v.pack
      some (SERIALIZE_TYPE_OBJECT :: body)
  | .array v => v.pack

/-- `array_entry_store_visitor`. -/
def ArrayEntry.pack : ArrayEntry → Option (List UInt8)
  | .pods type values => do
      let size ← packVarint values.length
      some ((type.code ||| SERIALIZE_FLAG_ARRAY) :: (size ++ values.flatMap type.toBytes))
  | .strings values => do
      let size ← packVarint values.length
      let body ← putStrings values
      some ((SERIALIZE_TYPE_STRING ||| SERIALIZE_FLAG_ARRAY) :: (size ++ body))
  | .objects values => do
      let size ← packVarint values.length
      let body ← packSections values
      some ((SERIALIZE_TYPE_OBJECT ||| SERIALIZE_FLAG_ARRAY) :: (size ++ body))
  | .arrays values => do
      let size ← packVarint values.length
      let body ← packArrays values
      some ((SERIALIZE_TYPE_ARRAY ||| SERIALIZE_FLAG_ARRAY) :: (size ++ body))

def packSections : List Section → Option (List UInt8)
  | [] => some []
  | v :: rest => do
      let first ← v.pack
      let others ← packSections rest
      some (first ++ others)

def packArrays : List ArrayEntry → Option (List UInt8)
  | [] => some []
  | v :: rest => do
      let first ← v.pack
      let others ← packArrays rest
      some (first ++ others)

/-- `pack_entry_to_buff` of a section. -/
def Section.pack : Section → Option (List UInt8)
  | .mk entries => do
      let size ← packVarint entries.length
      let body ← entries.pack
      some (size ++ body)

/-- The fields of a section, each with its name. -/
def Entries.pack : Entries → Option (List UInt8)
  | .nil => some []
  | .cons name entry rest => do
      if 255 ≤ name.length ∨ name = [] then
        none
      else
        let first ← entry.pack
        let others ← rest.pack
        some (UInt8.ofNat name.length :: (name ++ (first ++ others)))

end

/-! ## Reading -/

/-- The number of objects, fields and strings read, or the number allowed: `limits_t`. -/
structure Tally where
  objects : Nat
  fields : Nat
  strings : Nat
  deriving DecidableEq, Repr

/-- The members of `throwable_buffer_reader`: the rest of the input, what has been counted, and the
maxima. -/
structure BufferReader where
  input : List UInt8
  count : Tally
  max : Tally
  deriving DecidableEq, Repr

/-- What a function of the reader returns, or nothing where it throws. -/
abbrev Read (α : Type) : Type := BufferReader → Option (α × BufferReader)

/-- `read(void*, size_t)`. -/
def readRaw (count : Nat) : Nat → Read (List UInt8)
  | 0, _ => none
  | _ + 1, s =>
    if s.input.length < count then none
    else some (s.input.take count, { s with input := s.input.drop count })

/-- `read(t_pod_type&)`. -/
def readRef {α : Type} (size : Nat) (ofBytes : List UInt8 → α) : Nat → Read α
  | 0, _ => none
  | left + 1, s => do
      let (bytes, s) ← readRaw size left s
      some (ofBytes bytes, s)

/-- `read<t_type>()`, for a number. -/
def readNew {α : Type} (size : Nat) (ofBytes : List UInt8 → α) : Nat → Read α
  | 0, _ => none
  | left + 1, s => readRef size ofBytes left s

/-- A `uint8_t`. -/
def readByte (left : Nat) : Read UInt8 :=
  readRef 1 (fun bytes => bytes.headD 0) left

/-- How many bytes a varint has, by its first byte. -/
def varintSize (first : UInt8) : Nat :=
  match first.toNat % 4 with
  | 0 => 1
  | 1 => 2
  | 2 => 4
  | _ => 8

/-- `read_varint`. -/
def readVarint : Nat → Read Nat
  | 0, _ => none
  | left + 1, s =>
    match s.input with
    | [] => none
    | first :: _ => do
        let (v, s) ← readNew (varintSize first) (fun bytes => ofBigEndian bytes.reverse) left s
        some (v / 4, s)

/-- `read(std::string&)`. -/
def readString : Nat → Read (List UInt8)
  | 0, _ => none
  | left + 1, s => do
      let (len, s) ← readVarint left s
      if MAX_STRING_LEN_POSSIBLE ≤ len then none
      else if s.input.length < len then none
      else some (s.input.take len, { s with input := s.input.drop len })

/-- `read<std::string>()`. -/
def readNewString : Nat → Read (List UInt8)
  | 0, _ => none
  | left + 1, s => readString left s

/-- `read_sec_name`. -/
def readSecName : Nat → Read (List UInt8)
  | 0, _ => none
  | left + 1, s => do
      let (nameLen, s) ← readByte left s
      if nameLen = 0 then none
      else readRaw nameLen.toNat left s

/-- `read_se` of a number. -/
def readSePod (type : PodType) : Nat → Read StorageEntry
  | 0, _ => none
  | left + 1, s => do
      let (value, s) ← readRef type.size type.ofBytes left s
      some (.pod type value, s)

/-- `read_se<std::string>`. -/
def readSeString : Nat → Read StorageEntry
  | 0, _ => none
  | left + 1, s =>
    if s.max.strings < s.count.strings + 1 then none
    else do
      let s := { s with count := { s.count with strings := s.count.strings + 1 } }
      let (value, s) ← readNewString left s
      some (.string value, s)

/-- The loop of `read_ae`. -/
def readMany {α : Type} (element : Read α) : Nat → Read (List α)
  | 0, s => some ([], s)
  | size + 1, s => do
      let (first, s) ← element s
      let (others, s) ← readMany element size s
      some (first :: others, s)

/-- `read_ae` behind its guard, with `ps_min_bytes` and what is counted of such elements. -/
def readArray {α : Type} (minBytes : Nat) (tally : Nat → Tally) (varint : Read Nat)
    (element : Read α) : Read (List α) := fun s => do
  let (size, s) ← varint s
  if s.input.length / minBytes < size then none
  else if s.max.objects - s.count.objects < (tally size).objects then none
  else if s.max.strings - s.count.strings < (tally size).strings then none
  else
    readMany element size { s with count :=
      { s.count with
        objects := s.count.objects + (tally size).objects
        strings := s.count.strings + (tally size).strings } }

/-- `read_ae` of numbers. -/
def readAePods (type : PodType) : Nat → Read StorageEntry
  | 0, _ => none
  | left + 1, s => do
      let (values, s) ← readArray type.size (fun _ => ⟨0, 0, 0⟩) (readVarint left)
        (readNew type.size type.ofBytes left) s
      some (.array (.pods type values), s)

/-- `read_ae<std::string>`. -/
def readAeStrings : Nat → Read StorageEntry
  | 0, _ => none
  | left + 1, s => do
      let (values, s) ← readArray 2 (fun size => ⟨0, 0, size⟩) (readVarint left)
        (readNewString left) s
      some (.array (.strings values), s)

/-- `read_ae<array_entry>`: reading an array in an array is not supported. -/
def readAeArrays : Nat → Read StorageEntry
  | 0, _ => none
  | left + 1, s => do
      let (values, s) ← readArray 1 (fun _ => ⟨0, 0, 0⟩) (readVarint left) (fun _ => none) s
      some (.array (.arrays values), s)

/-- The loop of `read(section&)`. -/
def readEntries (secName : Read (List UInt8)) (load : Read StorageEntry) :
    Nat → Entries → Read Entries
  | 0, entries, s => some (entries, s)
  | count + 1, entries, s => do
      let (name, s) ← secName s
      if name ∈ entries.names then none
      else
        let (entry, s) ← load s
        readEntries secName load count (entries.insert name entry) s

mutual

/-- `read(section&)`. -/
def readSection : Nat → Read Section
  | 0, _ => none
  | left + 1, s => do
      let (count, s) ← readVarint left s
      if s.max.fields - s.count.fields < count then none
      else
        let s := { s with count := { s.count with fields := s.count.fields + count } }
        let (entries, s) ← readEntries (readSecName left) (loadStorageEntry left) count .nil s
        some (.mk entries, s)

/-- `load_storage_entry`. -/
def loadStorageEntry : Nat → Read StorageEntry
  | 0, _ => none
  | left + 1, s => do
      let (type, s) ← readByte left s
      if type &&& SERIALIZE_FLAG_ARRAY ≠ 0 then
        loadStorageArrayEntry type left s
      else if type = SERIALIZE_TYPE_STRING then
        readSeString left s
      else if type = SERIALIZE_TYPE_OBJECT then
        readSeSection left s
      else if type = SERIALIZE_TYPE_ARRAY then
        readSeArray left s
      else
        match PodType.ofCode type with
        | some pod => readSePod pod left s
        | none => none

/-- `load_storage_array_entry`. -/
def loadStorageArrayEntry (type : UInt8) : Nat → Read StorageEntry
  | 0, _ => none
  | left + 1, s =>
    let type := type &&& ~~~SERIALIZE_FLAG_ARRAY
    if type = SERIALIZE_TYPE_STRING then
      readAeStrings left s
    else if type = SERIALIZE_TYPE_OBJECT then
      readAeSections left s
    else if type = SERIALIZE_TYPE_ARRAY then
      readAeArrays left s
    else
      match PodType.ofCode type with
      | some pod => readAePods pod left s
      | none => none

/-- `read_se<section>`. -/
def readSeSection : Nat → Read StorageEntry
  | 0, _ => none
  | left + 1, s =>
    if s.max.objects ≤ s.count.objects then none
    else do
      let s := { s with count := { s.count with objects := s.count.objects + 1 } }
      let (value, s) ← readSection left s
      some (.object value, s)

/-- `read_se<array_entry>`. -/
def readSeArray : Nat → Read StorageEntry
  | 0, _ => none
  | left + 1, s => do
      let (type, s) ← readByte left s
      if type &&& SERIALIZE_FLAG_ARRAY = 0 then none
      else loadStorageArrayEntry type left s

/-- `read_ae<section>`. -/
def readAeSections : Nat → Read StorageEntry
  | 0, _ => none
  | left + 1, s => do
      let (values, s) ← readArray 1 (fun size => ⟨size, 0, 0⟩) (readVarint left)
        (readNewSection left) s
      some (.array (.objects values), s)

/-- `read<section>()`. -/
def readNewSection : Nat → Read Section
  | 0, _ => none
  | left + 1, s => readSection left s

end

/-! ## Whole storages -/

/-- `storage_block_header`. -/
def storageBlockHeader : List UInt8 :=
  littleEndian 4 PORTABLE_STORAGE_SIGNATUREA ++ (littleEndian 4 PORTABLE_STORAGE_SIGNATUREB ++
    [PORTABLE_STORAGE_FORMAT_VER])

/-- `store_to_binary`. -/
def storeToBinary (root : Section) : Option (List UInt8) := do
  let body ← root.pack
  some (storageBlockHeader ++ body)

/-- The largest `size_t`. -/
def SIZE_MAX : Nat := 2 ^ 64 - 1

/-- `load_from_binary`. The signatures and the version are compared one by one, which is comparing
the headers. -/
def loadFromBinary (source : List UInt8) (limits : Option Tally) : Option Section := do
  if source.length < storageBlockHeader.length then
    none
  else if source.take storageBlockHeader.length ≠ storageBlockHeader then
    none
  else
    let input := source.drop storageBlockHeader.length
    -- `throwable_buffer_reader` throws where there is nothing to read
    if input = [] then
      none
    else
      let max := limits.getD ⟨SIZE_MAX, SIZE_MAX, SIZE_MAX⟩
      let (root, _) ← readSection (EPEE_PORTABLE_STORAGE_RECURSION_LIMIT - 1)
        { input := input, count := ⟨0, 0, 0⟩, max := max }
      some root

end Memero.Storage
