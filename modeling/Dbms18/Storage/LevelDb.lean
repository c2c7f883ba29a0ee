import Dbms18.Lib.Block
import Dbms18.Lib.Overlay

/-!
# What the storage layer uses of leveldb

A database is a map from keys to values, both byte strings, ordered bytewise. `write` applies a batch
in order. An iterator is a snapshot of the records in key order and a position in it; it is valid
while the position is on a record.
-/

namespace Dbms18

abbrev Database := Std.ExtTreeMap Bytes Bytes compare

abbrev WriteOp := Overlay.Op Bytes Bytes

/-- `DB::Write` of a batch. -/
def Database.write (db : Database) (batch : List WriteOp) : Database := Overlay.overlay db batch

/-- `leveldb::Iterator`. -/
structure Cursor where
  records : List (Bytes × Bytes)
  pos : Nat
deriving DecidableEq

namespace Cursor

/-- `DB::NewIterator`: the records of the database in key order, and no position yet. -/
def ofDatabase (db : Database) : Cursor := ⟨db.toList, db.toList.length⟩

def valid (c : Cursor) : Bool := c.pos < c.records.length

def seekToFirst (c : Cursor) : Cursor := { c with pos := 0 }

def seekToLast (c : Cursor) : Cursor := { c with pos := c.records.length - 1 }

def next (c : Cursor) : Cursor := { c with pos := c.pos + 1 }

/-- Before the first record the iterator is not valid. -/
def prev (c : Cursor) : Cursor := { c with pos := if c.pos = 0 then c.records.length else c.pos - 1 }

def current (c : Cursor) : Option (Bytes × Bytes) := c.records[c.pos]?

def key (c : Cursor) : Option Bytes := c.current.map Prod.fst

def value (c : Cursor) : Option Bytes := c.current.map Prod.snd

end Cursor

end Dbms18
