import Cs162.KvStore

/-!
# The store and its failures

`kvstore.c` again, with what the file operations of `kvstore_put` and `kvstore_del` may do. Any
`fopen` may fail, `fwrite` may store less than it was given, and `remove` or `rename` may fail and
leave a reason in `errno`. `stat` tells the truth.
-/

namespace Cs162

open CLib

/-- The outcomes of the file operations of one call: whether `find_entry` can open the file of a chain
position, whether `kvstore_put` can open the one it writes, what becomes of the write, and the `errno`
that `remove` or `rename` leaves if it fails. -/
structure StoreOutcome where
  reads : ℕ → Bool
  opens : Bool
  write : WriteResult
  errno : Option ℕ

/-- All of them succeed. -/
def StoreOutcome.success : StoreOutcome := ⟨fun _ => true, true, .full, none⟩

section Store

variable (strhash64 : CStr → UInt64) (d : Dir) (o : StoreOutcome)

/-- The loop of `find_entry` from a chain position, when the value is not asked for. -/
def findEntryLoopIo (hashval : UInt64) (key : CStr) : ℕ → ℕ → ℤ
  | 0, _ => errNokey
  | fuel + 1, counter =>
    match d.lookup (.entry hashval counter) with
    | none => errNokey
    | some file =>
      if o.reads counter = false then errFilaccess
      else if (KvEntry.load file.bytes).key = key then counter
      else findEntryLoopIo hashval key fuel (counter + 1)

def findEntryIo (key : CStr) : ℤ :=
  if maxKeylen < key.strlen then errKeylen
  else if d.present = false then errFilaccess
  else findEntryLoopIo d o (strhash64 key) key (d.files.keys.card + 1) 0

def kvstorePutIo (key value : CStr) : Dir × ℤ :=
  let check := kvstorePutCheck d key value
  if check < 0 then (d, check)
  else
    let hashval := strhash64 key
    let counter := findEntryIo strhash64 d o key
    let chainpos := if 0 ≤ counter then counter.toNat else d.firstFree (.entry hashval) 0
    let entry := (KvEntry.make key value).dump
    let written := if o.opens then
        d.overwrite (.entry hashval chainpos) (entry.take (o.write.count entry.length))
      else none
    match written with
    | none => (d, errFilaccess)
    | some d' => (d', 0)

def kvstoreDelIo (key : CStr) : Dir × ℤ :=
  let chainpos := findEntryIo strhash64 d o key
  if chainpos < 0 then (d, chainpos)
  else match o.errno with
    | none => kvstoreDelLocked strhash64 d key chainpos.toNat
    | some errno => (d, errno)

end Store

end Cs162
