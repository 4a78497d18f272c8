import Pintos.Lib.Ops
import Pintos.Lib.Words

/-! # Partition tables

`devices/partition.c`: the scan of a device for partitions. A table is read from a sector and its entries may
point to further tables. The scan keeps a log: which sector it is asked to read a table from and which one it
reads, which tables it interprets, and what it registers. `malloc` succeeds and messages are left out. -/

namespace Pintos.Devices.Partition

open Pintos.Lib.Ops Pintos.Lib.Words

/-- `block_sector_t`. -/
abbrev Sector := BitVec 32

/-- A block device: its size in sectors and the bytes of its sectors. -/
structure Device where
  size : Sector
  bytes : Sector → ℕ → UInt8

/-- `struct partition_table_entry`, but for the fields that are not looked at. -/
structure Entry where
  type : UInt8
  offset : BitVec 32
  size : BitVec 32

/-- The entry `i` of a table, behind the 446 bytes of the loader. -/
def entry (pt : ℕ → UInt8) (i : ℕ) : Entry :=
  ⟨pt (446 + 16 * i + 4), wordOf pt (446 + 16 * i + 8), wordOf pt (446 + 16 * i + 12)⟩

/-- `pt->signature`. -/
def signature (pt : ℕ → UInt8) : BitVec 16 := (pt 511).toBitVec ++ (pt 510).toBitVec

/-- `enum block_type`, of what partitions can be. -/
inductive BlockType where
  | kernel
  | filesys
  | scratch
  | swap
  | foreign
  deriving DecidableEq, Repr

/-- What `block_register` is called with. -/
structure Registered where
  type : BlockType
  start : Sector
  size : Sector
  partNr : ℕ
  deriving DecidableEq, Repr

/-- A table that is read: the sector it was asked for, and the sector it is read from. -/
structure TableRead where
  asked : Sector
  read : Sector
  deriving DecidableEq, Repr

/-- What a scan has done so far, with `*part_nr`. -/
structure Log where
  reads : List TableRead
  interpreted : List Sector
  registered : List Registered
  partNr : ℕ

/-- `block_read` for the table that the scan wants from `asked`; `check_sector` panics. -/
def blockRead (d : Device) (asked sector : Sector) : Op Log (ℕ → UInt8) := do
  assert (sector < d.size)
  modify fun s => { s with reads := s.reads ++ [⟨asked, sector⟩] }
  pure (d.bytes sector)

/-- The type of block device that a partition of the given type is. -/
def blockType (partType : UInt8) : BlockType :=
  if partType = 0x20 then .kernel
  else if partType = 0x21 then .filesys
  else if partType = 0x22 then .scratch
  else if partType = 0x23 then .swap
  else .foreign

/-- `found_partition`. -/
def foundPartition (d : Device) (partType : UInt8) (start size : Sector) (partNr : ℕ) : Op Log PUnit :=
  if d.size ≤ start then pure ⟨⟩
  else if start + size < start ∨ d.size < start + size then pure ⟨⟩
  else modify fun s => { s with registered := s.registered ++ [⟨blockType partType, start, size, partNr⟩] }

/-- The types of extended partitions. -/
def isExtended (type : UInt8) : Bool := type = 0x05 || type = 0x0f || type = 0x85 || type = 0xc5

/-- The body of the loop of `read_partition_table`, which calls itself for the table of an extended partition. -/
def readEntry (d : Device) (readPartitionTable : Sector → Sector → Op Log PUnit)
    (sector primaryExtendedSector : Sector)
    (e : Entry) : Op Log PUnit :=
  if e.size = 0 ∨ e.type = 0 then pure ⟨⟩
  else if isExtended e.type then
    if sector = 0 then readPartitionTable e.offset e.offset
    else readPartitionTable (e.offset + primaryExtendedSector) primaryExtendedSector
  else do
    modify fun s => { s with partNr := s.partNr + 1 }
    let s ← get
    foundPartition d e.type (e.offset + sector) e.size s.partNr

/-- `read_partition_table`, with calls nested at most `fuel` deep. -/
def readPartitionTable (d : Device) : (fuel : ℕ) → (sector primaryExtendedSector : Sector) → Op Log PUnit
  | 0, _, _ => halt
  | fuel + 1, sector, primaryExtendedSector =>
    if d.size ≤ sector then pure ⟨⟩
    else do
      -- the sector that is read is 0, whatever `sector` is
      let pt ← blockRead d sector 0
      if signature pt ≠ 0xaa55 then pure ⟨⟩
      else do
        modify fun s => { s with interpreted := s.interpreted ++ [0] }
        (List.range 4).forM fun i => readEntry d (readPartitionTable d fuel) sector primaryExtendedSector (entry pt i)

/-- `partition_scan`. -/
def partitionScan (fuel : ℕ) (d : Device) : Op Log PUnit := readPartitionTable d fuel 0 0

/-- The log of a scan that begins. -/
def Log.empty : Log := ⟨[], [], [], 0⟩

/-- **A good scan** ends; it reads inside the device, reads each table from the sector it was asked for and interprets
no table twice. -/
def GoodScan (d : Device) : Prop :=
  ∃ fuel, Yields (partitionScan fuel d) Log.empty fun _ log =>
    (∀ r ∈ log.reads, r.read < d.size) ∧ (∀ r ∈ log.reads, r.read = r.asked) ∧ log.interpreted.Nodup

/-- An entry for an extended partition that is not empty. -/
def Entry.Extended (e : Entry) : Prop := e.size ≠ 0 ∧ e.type ≠ 0 ∧ isExtended e.type = true

/-- **The sector of the table is not the one that is read**: the table in sector 0 is valid and has an extended
partition whose table is on the device. -/
def Linked (d : Device) : Prop :=
  d.size ≠ 0 ∧ signature (d.bytes 0) = 0xaa55 ∧ ∃ i < 4,
    (entry (d.bytes 0) i).Extended ∧ (entry (d.bytes 0) i).offset < d.size

variable {d : Device} {s s' : Log} {sector primary : Sector} {fuel : ℕ} {e : Entry}
  {readTable : Sector → Sector → Op Log PUnit}

/-! ### Scans that are good -/

theorem foundPartition_yields {partType : UInt8} {start size : Sector} {partNr : ℕ} :
    Yields (foundPartition d partType start size partNr) s fun _ s' =>
      s'.reads = s.reads ∧ s'.interpreted = s.interpreted := by
  unfold foundPartition
  split_ifs
  · exact Yields.pure ⟨rfl, rfl⟩
  · exact Yields.pure ⟨rfl, rfl⟩
  · exact Yields.modify ⟨rfl, rfl⟩

theorem blockRead_yields (h : 0 < d.size) : Yields (blockRead d sector 0) s fun pt s' =>
    pt = d.bytes 0 ∧ s' = { s with reads := s.reads ++ [⟨sector, 0⟩] } :=
  Yields.bind (Yields.assert (decide_eq_true h) (Yields.bind (Yields.modify (Yields.pure ⟨rfl, rfl⟩))))

/-- A table past the end of the device is not read. -/
theorem readPartitionTable_past (h : d.size ≤ sector) (fuel : ℕ) :
    Yields (readPartitionTable d (fuel + 1) sector primary) s fun _ s' => s' = s := by
  rw [readPartitionTable, if_pos h]
  exact Yields.pure rfl

theorem readEntry_yields (h : e.Extended → d.size ≤ e.offset) (fuel : ℕ) :
    Yields (readEntry d (readPartitionTable d (fuel + 1)) 0 primary e) s fun _ s' =>
      s'.reads = s.reads ∧ s'.interpreted = s.interpreted := by
  unfold readEntry
  split_ifs with hempty hext hzero
  · exact Yields.pure ⟨rfl, rfl⟩
  · obtain ⟨hsize, htype⟩ := not_or.mp hempty
    refine (readPartitionTable_past (h ⟨hsize, htype, hext⟩) fuel).mono ?_
    rintro _ s' rfl
    exact ⟨rfl, rfl⟩
  · exact absurd rfl hzero
  · refine Yields.bind (Yields.modify (Yields.bind (Yields.get (foundPartition_yields.mono ?_))))
    exact fun _ s' h => h

/-- **A scan that is not led astray is good**: it reads one table. -/
theorem goodScan_of_not_linked (h : ¬Linked d) : GoodScan d := by
  refine ⟨2, ?_⟩
  rw [partitionScan, readPartitionTable]
  split_ifs with hsize
  · exact Yields.pure ⟨by simp [Log.empty], by simp [Log.empty], List.nodup_nil⟩
  have hpos : 0 < d.size := by bv_omega
  have hne : d.size ≠ 0 := by bv_omega
  refine Yields.bind ((blockRead_yields hpos).mono ?_)
  rintro pt s ⟨rfl, rfl⟩
  split_ifs with hsig
  · exact Yields.pure ⟨fun r hr => List.mem_singleton.mp hr ▸ hpos, fun r hr => List.mem_singleton.mp hr ▸ rfl,
      List.nodup_nil⟩
  have hsig' : signature (d.bytes 0) = 0xaa55 := not_not.mp hsig
  refine Yields.bind (Yields.modify ((Yields.forM_range (I := fun _ s => s.reads = [⟨0, 0⟩] ∧ s.interpreted = [0])
    ⟨rfl, rfl⟩ ?_).mono ?_))
  · rintro i hi s ⟨hreads, hinterpreted⟩
    have hpast : (entry (d.bytes 0) i).Extended → d.size ≤ (entry (d.bytes 0) i).offset := fun hext =>
      BitVec.not_lt.mp fun hlt => h ⟨hne, hsig', i, hi, hext, hlt⟩
    refine (readEntry_yields hpast 0).mono ?_
    rintro _ s' ⟨h1, h2⟩
    exact ⟨h1.trans hreads, h2.trans hinterpreted⟩
  · rintro _ s' ⟨hreads, hinterpreted⟩
    rw [hreads, hinterpreted]
    exact ⟨fun r hr => List.mem_singleton.mp hr ▸ hpos, fun r hr => List.mem_singleton.mp hr ▸ rfl,
      List.nodup_singleton 0⟩

/-! ### Scans that are led astray -/

/-- What was interpreted before stays in the log. -/
def Grows (s s' : Log) : Prop := s.interpreted <+: s'.interpreted

theorem foundPartition_grows {partType : UInt8} {start size : Sector} {partNr : ℕ} :
    Ensures (foundPartition d partType start size partNr) s fun _ s' => Grows s s' := by
  refine foundPartition_yields.ensures.mono ?_
  rintro _ s' ⟨-, hinterpreted⟩
  rw [Grows, hinterpreted]

theorem readEntry_grows (hread : ∀ sector primary s, Ensures (readTable sector primary) s fun _ s' => Grows s s') :
    Ensures (readEntry d readTable sector primary e) s fun _ s' => Grows s s' := by
  unfold readEntry
  split_ifs
  · exact Ensures.pure (List.prefix_refl _)
  · exact hread _ _ s
  · exact hread _ _ s
  · refine Ensures.bind (Ensures.modify (Ensures.bind (Ensures.get (foundPartition_grows.mono ?_))))
    exact fun _ s' h => h

/-- The loop over the entries keeps what was interpreted before it. -/
theorem entries_grow {l : List Sector} (hread : ∀ sector primary s, Ensures (readTable sector primary) s fun _ s' =>
    Grows s s') (hl : l <+: s.interpreted) :
    Ensures ((List.range 4).forM fun i => readEntry d readTable sector primary (entry (d.bytes 0) i)) s fun _ s' =>
      l <+: s'.interpreted :=
  Ensures.forM (I := fun s' : Log => l <+: s'.interpreted) _ hl fun _ _ _ h₂ =>
    (readEntry_grows hread).mono fun _ _ h₃ => h₂.trans h₃

/-- The first part of `read_partition_table`, up to its loop. -/
theorem readPartitionTable_ensures {Q : PUnit → Log → Prop} (hpast : d.size ≤ sector → Q ⟨⟩ s)
    (hsig : ∀ s' : Log, s'.interpreted = s.interpreted → signature (d.bytes 0) ≠ 0xaa55 → Q ⟨⟩ s')
    (hloop : ∀ s' : Log, s'.interpreted = s.interpreted ++ [0] → Ensures ((List.range 4).forM fun i =>
      readEntry d (readPartitionTable d fuel) sector primary (entry (d.bytes 0) i)) s' Q) :
    Ensures (readPartitionTable d (fuel + 1) sector primary) s Q := by
  rw [readPartitionTable]
  split_ifs with hsize
  · exact Ensures.pure (hpast hsize)
  have hread : Ensures (blockRead d sector 0) s fun pt s' => pt = d.bytes 0 ∧ s'.interpreted = s.interpreted :=
    Ensures.bind (Ensures.assert fun _ => Ensures.bind (Ensures.modify (Ensures.pure ⟨rfl, rfl⟩)))
  refine Ensures.bind (hread.mono ?_)
  rintro pt s₁ ⟨rfl, h₁⟩
  split_ifs with hs
  · exact Ensures.pure (hsig s₁ h₁ hs)
  · exact Ensures.bind (Ensures.modify (hloop _ (congrArg (· ++ [0]) h₁)))

theorem readPartitionTable_grows : ∀ {fuel : ℕ} {sector primary : Sector} {s : Log},
    Ensures (readPartitionTable d fuel sector primary) s fun _ s' => Grows s s'
  | 0, _, _, _ => Ensures.halt
  | fuel + 1, sector, primary, s => by
    refine readPartitionTable_ensures (fun _ => List.prefix_refl _) (fun s' h _ => by rw [Grows, h]) fun s₁ h₁ => ?_
    exact entries_grow (fun _ _ _ => readPartitionTable_grows) (by rw [h₁]; exact List.prefix_append _ _)

/-- **A call for a table on the device interprets the table in sector 0.** -/
theorem readPartitionTable_interprets (hsize : sector < d.size) (hsig : signature (d.bytes 0) = 0xaa55) :
    ∀ {fuel : ℕ}, Ensures (readPartitionTable d fuel sector primary) s fun _ s' =>
      s.interpreted ++ [0] <+: s'.interpreted
  | 0 => Ensures.halt
  | fuel + 1 => by
    refine readPartitionTable_ensures (fun h => absurd h (BitVec.not_le.mpr hsize)) (fun _ _ h => absurd hsig h)
      fun s₁ h₁ => ?_
    exact entries_grow (fun _ _ _ => readPartitionTable_grows) (by rw [h₁])

/-- **The table in sector 0 is interpreted twice.** The invariant of the loop counts the second time from the round
of the extended partition on. -/
theorem partitionScan_of_linked (h : Linked d) (fuel : ℕ) :
    Ensures (partitionScan fuel d) Log.empty fun _ log => [0, 0].Sublist log.interpreted := by
  obtain ⟨hne, hsig, i₀, hi₀, ⟨hsize, htype, hext⟩, hoffset⟩ := h
  cases fuel with
  | zero => exact Ensures.halt
  | succ fuel =>
    have hpos : ¬d.size ≤ 0 := by bv_omega
    refine readPartitionTable_ensures (fun h => absurd h hpos) (fun _ _ h => absurd hsig h) fun s₁ h₁ => ?_
    have hstart : [0] <+: s₁.interpreted := by rw [h₁]; exact List.prefix_append _ _
    refine (Ensures.forM_range (I := fun i s => [0] <+: s.interpreted ∧ (i₀ < i → [0, 0].Sublist s.interpreted))
      ⟨hstart, fun hlt => absurd hlt (Nat.not_lt_zero i₀)⟩ fun i hi s₂ h₂ => ?_).mono fun _ s₃ h₃ => h₃.2 hi₀
    obtain ⟨hone, htwo⟩ := h₂
    have hgrows : Ensures (readEntry d (readPartitionTable d fuel) 0 0 (entry (d.bytes 0) i)) s₂ fun _ s' =>
      Grows s₂ s' :=
      readEntry_grows fun _ _ _ => readPartitionTable_grows
    by_cases hi₀i : i = i₀
    · subst hi₀i
      have hinterprets : Ensures (readEntry d (readPartitionTable d fuel) 0 0 (entry (d.bytes 0) i)) s₂ fun _ s' =>
          s₂.interpreted ++ [0] <+: s'.interpreted := by
        rw [readEntry, if_neg (not_or.mpr ⟨hsize, htype⟩), if_pos hext, if_pos rfl]
        exact readPartitionTable_interprets hoffset hsig
      refine hinterprets.mono fun _ s₃ h₃ => ⟨hone.trans ((List.prefix_append _ _).trans h₃), fun _ => ?_⟩
      exact (hone.sublist.append (List.Sublist.refl [0])).trans h₃.sublist
    · refine hgrows.mono fun _ s₃ h₃ => ⟨hone.trans h₃, fun hlt => ?_⟩
      exact (htwo (by omega)).trans h₃.sublist

theorem not_goodScan_of_linked (h : Linked d) : ¬GoodScan d := by
  rintro ⟨fuel, hyields⟩
  obtain ⟨_, log, hrun, -, -, hnodup⟩ := hyields
  exact absurd (hnodup.sublist (partitionScan_of_linked h fuel _ log hrun)) (by simp)

/-- **A scan is good exactly where sector 0 links to no table on the device.** -/
theorem goodScan_iff (d : Device) : GoodScan d ↔ ¬Linked d :=
  ⟨fun hgood h => not_goodScan_of_linked h hgood, goodScan_of_not_linked⟩

/-- A device of 100 sectors. The table in sector 0 is valid and has one entry, an extended partition from sector 8 on
whose table in sector 8 is valid and empty. -/
def linkedDevice : Device where
  size := 100
  bytes sector p :=
    if p = 510 then 0x55
    else if p = 511 then 0xaa
    else if sector = 0 ∧ p = 446 + 4 then 0x05
    else if sector = 0 ∧ p = 446 + 8 then 8
    else if sector = 0 ∧ p = 446 + 12 then 50
    else 0

theorem not_goodScan : ¬∀ d, GoodScan d := fun h =>
  not_goodScan_of_linked ⟨by decide, by decide, 0, by decide, ⟨by decide, by decide, by decide⟩, by decide⟩
    (h linkedDevice)

end Pintos.Devices.Partition
