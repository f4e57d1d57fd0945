import Unscramble.Packing.Bzip
import Unscramble.Packing.Inflate
import Unscramble.Packing.Lzma
import Unscramble.Packing.Xz
import Unscramble.Packing.Zstd.Frame
import Unscramble.Zip.Basic
import Unscramble.Zip.Extra

/-! # Reading and writing archives

An archive ends with a record that tells where its directory is. Where a number does not fit into
that record, another one in front of it leads to a record with room for large numbers. What stands
in front of the archive is skipped, and so may be what stands behind it. The directory lists the
entries, and each is found behind a record of its own. Entries are written one after the other
without packing them, with the directory at the end.

Main definitions: `Place`, `placeAt`, `Zip.read`, `Zip.bytes`. -/

namespace Unscramble.Zip

/-- Where a directory is. -/
structure Place where
  /-- Where the archive starts in its file. -/
  origin : Nat
  /-- Where the first record of the directory starts in the file. -/
  start : Nat
  /-- How many records the directory has. -/
  count : Nat
deriving DecidableEq, Repr, Inhabited

/-- The record at the end of an archive. -/
structure EndRecord where
  /-- The part of the archive that the record is in. -/
  part : Nat
  /-- The part of the archive that the directory starts in. -/
  directoryPart : Nat
  /-- How many records the directory has in this part. -/
  countHere : Nat
  /-- How many records the directory has in all. -/
  count : Nat
  /-- Where the directory starts, from the start of the archive on. -/
  start : Nat
deriving DecidableEq, Repr, Inhabited

/-- The record at the end of an archive that starts at a position. Its comment has to end within
the file. -/
def endRecordAt (file : Array UInt8) (position : Nat) : Option EndRecord := do
  let number := fun start count => numberAt file (position + start) count
  if (← number 0 4) ≠ endMark then none
  let comment ← number 20 2
  if file.size < position + 22 + comment then none
  return ⟨← number 4 2, ← number 6 2, ← number 8 2, ← number 10 2, ← number 16 4⟩

/-- The directory that the record at `position` leads to by itself. It is the first place that looks
like one, because what stands in front of the archive moves it back. -/
def smallPlace (file : Array UInt8) (position : Nat) (e : EndRecord) : Option Place := do
  if e.part ≠ e.directoryPart then none
  if e.count = 0 then
    let origin := position - e.start
    return ⟨origin, e.start + origin, e.countHere⟩
  let start ← findMark file directoryMark (fun _ => true) e.start (position - e.start)
  return ⟨start - e.start, start, e.countHere⟩

/-- The length of the record with large numbers in front of what may follow in it. -/
def largeEndSize : Nat := 56

/-- The length of the record that leads to the large numbers. -/
def locatorSize : Nat := 20

/-- The length of a record of the directory without what varies. -/
def listedSize : Nat := 46

/-- Whether the record with large numbers at a position is consistent: it ends where the record
that leads to it starts, is in the same part and leaves room for the directory. -/
def fitsLocator (file : Array UInt8) (locator part position : Nat) : Bool :=
  let number := fun start count => numberAt file (position + start) count
  match number 4 8, number 20 4, number 32 8, number 48 8 with
  | some size, some directoryPart, some count, some start =>
    largeEndSize ≤ size + 12 && position + size + 12 == locator && directoryPart == part &&
      count * listedSize + start ≤ position
  | _, _, _, _ => false

/-- The directory that large numbers lead to. The record in front of the end tells where they
are. -/
def largePlace (file : Array UInt8) (locator : Nat) : Option Place := do
  let part ← numberAt file (locator + 4) 4
  let offset ← numberAt file (locator + 8) 8
  let parts ← numberAt file (locator + 16) 4
  if locator ≤ offset || 1 < parts then none
  let position ← findMark file largeEndMark (fitsLocator file locator part) offset
    (locator - offset)
  let number := fun start count => numberAt file (position + start) count
  let made ← number 12 2
  let needed ← number 14 2
  let countHere ← number 24 8
  let count ← number 32 8
  if (← number 16 4) ≠ part || count < countHere || made < needed then none
  let origin := position - offset
  return ⟨origin, origin + (← number 48 8), count⟩

/-- Whether the record at a position is there and leads to large numbers. -/
def isLocator (file : Array UInt8) (position : Nat) : Bool :=
  locatorSize ≤ position && numberAt file (position - locatorSize) 4 == some locatorMark

/-- The directory that the record at a position leads to. -/
def placeAt (file : Array UInt8) (position : Nat) : Option Place := do
  let e ← endRecordAt file position
  if (e.count = max16 || e.start = max32) && isLocator file position then
    largePlace file (position - locatorSize)
  else smallPlace file position e

/-! ### Ways of packing

The ways of packing the content of an archive entry, by their numbers.

Main definitions: `Method`, `Method.unpack`. -/

/-- A way of packing content. -/
inductive Method where
  /-- The content is there as it is. -/
  | stored
  /-- Repetitions and prefix codes. -/
  | deflated
  /-- Repetitions, which can be longer, and prefix codes. -/
  | deflatedWide
  /-- Sorted blocks. -/
  | bzip
  /-- Repetitions and a range coder. -/
  | lzma
  /-- Repetitions and a range coder, in checked blocks. -/
  | xz
  /-- Repetitions and finite-state codes. -/
  | zstd
  /-- Contexts of bytes and a range coder. Such content is known, but not unpacked. -/
  | ppmd
deriving DecidableEq, Repr, Inhabited

namespace Method

/-- The way of packing that has a number. -/
def ofNumber? : Nat → Option Method
  | 0 => some .stored
  | 8 => some .deflated
  | 9 => some .deflatedWide
  | 12 => some .bzip
  | 14 => some .lzma
  | 93 => some .zstd
  | 95 => some .xz
  | 98 => some .ppmd
  | _ => none

/-- Unpacks content of which the length is said to be `size`; `none` if it is damaged or cannot be
unpacked. -/
def unpack (m : Method) (size : Nat) (data : Array UInt8) : Option (Array UInt8) :=
  match m with
  | .stored => some data
  | .deflated => Packing.inflate data
  | .deflatedWide => Packing.inflateWide data
  | .bzip => Packing.unbzip data
  | .lzma => Packing.unlzma size data
  | .xz => Packing.unxz data
  | .zstd => Packing.unzstd data
  | .ppmd => none

end Method

/-! ### Reading archives -/

/-- The number of the way of packing that says that an extra field tells how the content is
encrypted. -/
def lockedMethod : Nat := 99

/-- Offsets in an archive are below this. -/
def offsetLimit : Nat := 18446744073709551616

/-- Reads a record of the directory and moves on behind it. Offsets count from `origin`. -/
def readListed (file : Array UInt8) (origin position : Nat) : Option (Listed × Nat) := do
  let number := fun start count => numberAt file (position + start) count
  if (← number 0 4) ≠ directoryMark then none
  let flags ← number 8 2
  let marked := flags / 2048 % 2 == 1
  let nameLength ← number 28 2
  let extraLength ← number 30 2
  let commentLength ← number 32 2
  let start := position + listedSize
  let written ← slice file start nameLength
  let extra ← slice file (start + nameLength) extraLength
  let comment ← slice file (start + nameLength + extraLength) commentLength
  let listed : Listed :=
    { written, name := nameOf marked written, comment := nameOf marked comment,
      encrypted := flags % 2 == 1, method := ← number 10 2, checksum := ← number 16 4,
      packedSize := ← number 20 4, size := ← number 24 4, start := ← number 42 4 }
  let listed ← listed.readExtra extra
  if listed.method = lockedMethod && !listed.locked then none
  if offsetLimit ≤ origin + listed.start then none
  return ({ listed with start := origin + listed.start },
    start + nameLength + extraLength + commentLength)

/-- Reads `count` records of the directory. -/
def readDirectory (file : Array UInt8) (origin : Nat) :
    (count position : Nat) → Option (List Listed)
  | 0, _ => some []
  | count + 1, position => do
    let (listed, position) ← readListed file origin position
    return listed :: (← readDirectory file origin count position)

/-- The directory of an archive, found by the last record that leads to one among those that start
before `bound`. -/
def findDirectory (file : Array UInt8) : (bound : Nat) → Option (List Listed)
  | 0 => none
  | bound + 1 =>
    let found := do
      let place ← placeAt file bound
      readDirectory file place.origin place.count place.start
    match found with
    | some listed => some listed
    | none => findDirectory file bound

/-- Keeps one entry for each name: the place of the first and the content of the last. -/
def insertListed (done : List Listed) (listed : Listed) : List Listed :=
  if done.any (·.name == listed.name) then
    done.map fun l => if l.name == listed.name then listed else l
  else done ++ [listed]

/-- The packed content of an entry. -/
def packed (file : Array UInt8) (l : Listed) : Option (Array UInt8) := do
  if (← numberAt file l.start 4) ≠ entryMark then none
  let nameLength ← numberAt file (l.start + 26) 2
  let extraLength ← numberAt file (l.start + 28) 2
  let start := l.start + 30 + nameLength + extraLength
  return file.extract start (start + l.packedSize)

/-- The content of an entry. -/
def readEntry (file : Array UInt8) (l : Listed) : Except Fault Entry := do
  let some data := packed file l | throw (.badRecord l.name)
  let some method := Method.ofNumber? l.method | throw (.unsupported l.name)
  if l.encrypted || l.locked then throw (.unsupported l.name)
  if Entry.isFolder ⟨l.name, []⟩ then return ⟨l.name, []⟩
  let some content := method.unpack l.size data | throw (.damaged l.name)
  let content := content.toList
  if Checksum.crc32 content = l.checksum then return ⟨l.name, content⟩
  else throw (.damaged l.name)

/-- The entries of an archive in the order of its directory. -/
def read (bs : Bytes) : Except Fault (List Entry) := do
  let file := bs.toArray
  let some listed := findDirectory file file.size | throw .noArchive
  (listed.foldl insertListed []).mapM (readEntry file)

end Unscramble.Zip

/-! ### Writing -/

namespace Unscramble.Zip

/-- Whether a name has to be marked as UTF-8. -/
def needsMark (name : String) : Bool :=
  name.toList.any fun c => 128 ≤ c.toNat

/-- The fields that both records of an entry share: the version that is needed to read it, flags,
packing, date, checksum, sizes and the length of the name. -/
def sharedFields (e : Entry) : Bytes :=
  littleBytes 2 20 ++ littleBytes 2 (if needsMark e.name then 2048 else 0) ++ littleBytes 2 0 ++
    littleBytes 2 0 ++ littleBytes 2 33 ++ littleBytes 4 (Checksum.crc32 e.data) ++
    littleBytes 4 e.data.length ++ littleBytes 4 e.data.length ++ littleBytes 2 e.name.utf8ByteSize

/-- An entry behind its record. -/
def entryBytes (e : Entry) : Bytes :=
  littleBytes 4 entryMark ++ sharedFields e ++ littleBytes 2 0 ++ e.name.toUTF8.toList ++ e.data

/-- The record of an entry in the directory. -/
def listedBytes (start : Nat) (e : Entry) : Bytes :=
  littleBytes 4 directoryMark ++ littleBytes 2 20 ++ sharedFields e ++ littleBytes 2 0 ++
    littleBytes 2 0 ++ littleBytes 2 0 ++ littleBytes 2 0 ++ littleBytes 4 0 ++
    littleBytes 4 start ++ e.name.toUTF8.toList

/-- The directory of entries of which the first starts at `start`. -/
def directoryBytes : (start : Nat) → List Entry → Bytes
  | _, [] => []
  | start, e :: rest =>
    listedBytes start e ++ directoryBytes (start + (entryBytes e).length) rest

/-- The record at the end of an archive. -/
def endBytes (count size start : Nat) : Bytes :=
  littleBytes 4 endMark ++ littleBytes 2 0 ++ littleBytes 2 0 ++ littleBytes 2 count ++
    littleBytes 2 count ++ littleBytes 4 size ++ littleBytes 4 start ++ littleBytes 2 0

/-- The greatest length of an archive, up to the record at its end. -/
def maxSize : Nat := 4294967295

/-- The first name that an earlier entry has too. -/
def repeated? (seen : List String) : List Entry → Option String
  | [] => none
  | e :: rest => if seen.contains e.name then some e.name else repeated? (e.name :: seen) rest

/-- The archive of some entries. Their names have to differ. -/
def bytes (entries : List Entry) : Except Fault Bytes :=
  match repeated? [] entries with
  | some name => .error (.duplicate name)
  | none =>
    let content := entries.flatMap entryBytes
    let directory := directoryBytes 0 entries
    if entries.any (65535 < ·.name.utf8ByteSize) || 65535 < entries.length ||
        maxSize < content.length + directory.length then .error .tooLarge
    else .ok (content ++ directory ++ endBytes entries.length directory.length content.length)

end Unscramble.Zip
