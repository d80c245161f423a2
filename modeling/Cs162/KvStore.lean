import Cs162.KvConstants
import Cs162.Lib.Directory

/-!
# The hash-chain store

`kvstore.c`. Each entry is a file `hash-chainpos.entry` holding a `kventry_t`: a four-byte length
and then the key and the value, each with its terminator. Keys of one hash form a chain, numbered
from 0. `strhash64` is a parameter, so any number of keys may share a chain.

`kvstore_put` and `kvstore_del` look the key up under the read lock (`findEntry`) and update the
chain under the write lock; `kvstorePutLocked` and `kvstoreDelLocked` are the second sections.
Chain positions are counted without a bound: they fit their `unsigned int` while a chain has
fewer than `2^31` entries. The directory name is left out of a file's name, and with it the
buffers of `MAX_FILENAME` bytes that names are printed into.
-/

namespace Cs162

open CLib

/-- The files a follower keeps in its directory: entries of its store and of its log. -/
inductive FileName
  | entry (hashval : UInt64) (chainpos : ℕ)
  | log (id : ℕ)
deriving DecidableEq

abbrev Dir := Directory FileName

/-- `kventry_t`. -/
structure KvEntry where
  length : ℕ
  data : List UInt8

/-- `sizeof(kventry_t)`. -/
def sizeofKventry : ℕ := 4

/-- The bytes `fwrite` stores for an entry. -/
def KvEntry.dump (e : KvEntry) : List UInt8 := leBytes sizeofKventry e.length ++ e.data

/-- The entry the two `fread`s of `find_entry` load. -/
def KvEntry.load (file : List UInt8) : KvEntry :=
  let length := leNat (file.take sizeofKventry)
  ⟨length, (file.drop sizeofKventry).take length⟩

/-- The string at `entry->data`. -/
def KvEntry.key (e : KvEntry) : CStr := cstr e.data

/-- The string at `entry->data + strlen(entry->data) + 1`. -/
def KvEntry.value (e : KvEntry) : CStr := cstr (e.data.drop (e.key.strlen + 1))

/-- The entry `kvstore_put` builds. -/
def KvEntry.make (key value : CStr) : KvEntry :=
  ⟨key.strlen + value.strlen + 2, key.layout ++ value.layout⟩

/-- `kvstore_init` on the store's directory. -/
def kvstoreInit (d : Dir) : Dir := if d.present then d else ⟨true, ∅⟩

section Store

variable (strhash64 : CStr → UInt64) (d : Dir)

/-- The loop of `find_entry` from a chain position: the position found, or an error, and what is
stored through `value`. -/
def findEntryLoop (hashval : UInt64) (key : CStr) : ℕ → ℕ → ℤ × Option CStr
  | 0, _ => (errNokey, none)
  | fuel + 1, counter =>
    match d.lookup (.entry hashval counter) with
    | none => (errNokey, none)
    | some file =>
      let entry := KvEntry.load file.bytes
      if entry.key = key then ((counter : ℤ), some entry.value)
      else findEntryLoop hashval key fuel (counter + 1)

def findEntry (key : CStr) : ℤ × Option CStr :=
  if maxKeylen < key.strlen then (errKeylen, none)
  else if d.present = false then (errFilaccess, none)
  else findEntryLoop d (strhash64 key) key (d.files.keys.card + 1) 0

def kvstoreHaskey (key : CStr) : Bool := decide (0 ≤ (findEntry strhash64 d key).1)

def kvstoreGet (key : CStr) : ℤ × Option CStr :=
  let found := findEntry strhash64 d key
  if found.1 < 0 then (found.1, none) else (0, found.2)

def kvstorePutCheck (key value : CStr) : ℤ :=
  if maxKeylen < key.strlen then errKeylen
  else if maxVallen < value.strlen then errVallen
  else if d.present = false then errFilaccess
  else 0

/-- `kvstore_put` from taking the write lock on, with the position the lookup returned. -/
def kvstorePutLocked (key value : CStr) (counter : ℤ) : Dir × ℤ :=
  let hashval := strhash64 key
  let chainpos := if 0 ≤ counter then counter.toNat else d.firstFree (.entry hashval) 0
  match d.overwrite (.entry hashval chainpos) (KvEntry.make key value).dump with
  | none => (d, errFilaccess)
  | some d' => (d', 0)

def kvstorePut (key value : CStr) : Dir × ℤ :=
  let check := kvstorePutCheck d key value
  if check < 0 then (d, check)
  else kvstorePutLocked strhash64 d key value (findEntry strhash64 d key).1

def kvstoreDelCheck (key : CStr) : ℤ :=
  if maxKeylen < key.strlen then errKeylen
  else if d.present = false then errFilaccess
  else if kvstoreHaskey strhash64 d key = false then errNokey
  else 0

/-- `ENOENT`, which a failed `remove` or `rename` leaves in `errno`. -/
def enoent : ℤ := 2

/-- `kvstore_del` from taking the write lock on, with the position the lookup returned. -/
def kvstoreDelLocked (key : CStr) (chainpos : ℕ) : Dir × ℤ :=
  let hashval := strhash64 key
  let counter := d.firstFree (.entry hashval) (chainpos + 1)
  let moved :=
    if counter = chainpos + 1 then d.remove (.entry hashval chainpos)
    else d.rename (.entry hashval (counter - 1)) (.entry hashval chainpos)
  match moved with
  | none => (d, enoent)
  | some d' => (d', 0)

def kvstoreDel (key : CStr) : Dir × ℤ :=
  let chainpos := (findEntry strhash64 d key).1
  if chainpos < 0 then (d, chainpos)
  else kvstoreDelLocked strhash64 d key chainpos.toNat

end Store

end Cs162
