import Pintos.Lib.WriteBack

/-! # The buffer cache

`bcache_read`, `bcache_write_at` and `bcache_sync` over the file system device. A device panics on a sector
past its end, which is `none` here, as are the use of an index that no entry has set and a `memcpy` past the
end of a sector. -/

namespace Pintos.Filesys.Bcache

open Pintos.Lib

def blockSectorSize : ℕ := 512

abbrev SectorData := Fin blockSectorSize → UInt8

/-! ### The device -/

structure Device where
  size : ℕ
  sectors : ℕ → SectorData

def blockRead (d : Device) (sector : ℕ) : Option SectorData :=
  if sector ≥ d.size then none else some (d.sectors sector)

def blockWrite (d : Device) (sector : ℕ) (data : SectorData) : Option Device :=
  if sector ≥ d.size then none else some { d with sectors := Function.update d.sectors sector data }

/-! ### bcache.c -/

structure BcacheEntry where
  inUse : Bool
  lastUse : ℤ
  sector : ℕ
  data : SectorData

def bcacheMaxEntries : ℕ := 0x40

abbrev Slot := Fin bcacheMaxEntries

structure Cache where
  bcache : Slot → BcacheEntry
  fsDevice : Device

def int64Max : ℤ := 2 ^ 63 - 1

/-- `memcpy (&data[offset], bytes, length)`. -/
def memcpyAt (data : SectorData) (offset : ℕ) (bytes : List UInt8) : SectorData := fun i =>
  if h : offset ≤ i ∧ i < offset + bytes.length then bytes.get ⟨i - offset, by omega⟩ else data i

/-- The local variables of the search. An index that is not set is not initialised, or `-1`. -/
structure Scan where
  minLastUse : ℤ
  lruIndex : Option Slot
  freeIdx : Option Slot

def Scan.start : Scan := ⟨int64Max, none, none⟩

/-- Whether the entry is the one searched for. -/
def BcacheEntry.hit (cur : BcacheEntry) (sector : ℕ) : Bool := cur.inUse && cur.sector == sector

/-- One turn of the search, at an entry that is not a hit. -/
def Scan.visit (s : Scan) (i : Slot) (cur : BcacheEntry) : Scan :=
  if cur.inUse ∧ cur.lastUse < s.minLastUse then
    { s with minLastUse := cur.lastUse, lruIndex := some i }
  else if cur.inUse = false then { s with freeIdx := some i }
  else s

def Scan.victim (s : Scan) : Option Slot :=
  match s.freeIdx with
  | some i => some i
  | none => s.lruIndex

/-- The search: the entry that holds the sector, or what is known after the last one. -/
def search (bcache : Slot → BcacheEntry) (sector : ℕ) : List Slot → Scan → Slot ⊕ Scan
  | [], s => .inr s
  | i :: is, s =>
    if (bcache i).hit sector then .inl i else search bcache sector is (s.visit i (bcache i))

def Cache.set (b : Cache) (i : Slot) (e : BcacheEntry) : Cache :=
  { b with bcache := Function.update b.bcache i e }

def Cache.touch (b : Cache) (i : Slot) (ticks : ℤ) : Cache :=
  b.set i { b.bcache i with lastUse := ticks }

/-- The `block_write` of an entry that is in use. -/
def Cache.writeBack (b : Cache) (i : Slot) : Option Device :=
  if (b.bcache i).inUse then blockWrite b.fsDevice (b.bcache i).sector (b.bcache i).data
  else some b.fsDevice

/-- `bcache_entry_occupy`. -/
def entryOccupy (b : Cache) (i : Slot) (sector : ℕ) (ticks : ℤ) : Option Cache :=
  (b.writeBack i).bind fun d =>
    (blockRead d sector).map fun data => { b with fsDevice := d }.set i ⟨true, ticks, sector, data⟩

/-- `bcache_entry_release`. -/
def entryRelease (b : Cache) (i : Slot) : Option Cache :=
  (b.writeBack i).map fun d =>
    { b with fsDevice := d }.set i { b.bcache i with inUse := false }

/-- What reads and writes have in common: the entry of the sector, found or made, and just used. -/
def lookup (b : Cache) (sector : ℕ) (ticks : ℤ) : Option (Slot × Cache) :=
  match search b.bcache sector (List.finRange bcacheMaxEntries) .start with
  | .inl i => some (i, b.touch i ticks)
  | .inr s => do
    let i ← s.victim
    let b ← entryOccupy b i sector ticks
    some (i, b)

def bcacheRead (b : Cache) (sector : ℕ) (ticks : ℤ) : Option (Cache × SectorData) :=
  (lookup b sector ticks).map fun (i, b) => (b, (b.bcache i).data)

/-- The entry `i` is written to. -/
def Cache.store (b : Cache) (i : Slot) (offset : ℕ) (bytes : List UInt8) : Cache :=
  b.set i { b.bcache i with data := memcpyAt (b.bcache i).data offset bytes }

def bcacheWriteAt (b : Cache) (sector : ℕ) (bytes : List UInt8) (offset : ℕ) (ticks : ℤ) :
    Option Cache :=
  if offset + bytes.length ≤ blockSectorSize then
    (lookup b sector ticks).map fun (i, b) => b.store i offset bytes
  else none

def bcacheWrite (b : Cache) (sector : ℕ) (data : SectorData) (ticks : ℤ) : Option Cache :=
  bcacheWriteAt b sector (List.ofFn data) 0 ticks

def bcacheSync (b : Cache) : Option Cache := (List.finRange bcacheMaxEntries).foldlM entryRelease b

/-- `bcache_init`: `calloc`, and `bcache_entry_init` of every entry. -/
def bcacheInit (d : Device) : Cache := ⟨fun _ => ⟨false, 0, 0, fun _ => 0⟩, d⟩

end Pintos.Filesys.Bcache
