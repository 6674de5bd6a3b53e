/-
# Aqa.Storage.StorageReader — parsing records out of slotted pages.

The reader looks at a page through a handle of the engine and trusts what it finds there: the slot
count, the slot, the lengths of the record header. `parseRecord` follows those fields; a field that
lies outside the page makes it `outside`, since the bytes read there are not the page's.
-/
import Aqa.Storage.StorageEngine
import Aqa.Storage.StorageWriter

namespace Aqa

open Aqa.Lib

/-- What following a slot of a page gives: no record, a record, or a read outside the page. -/
inductive RecordRead where
  | absent
  | found (record : Record)
  | outside
  deriving DecidableEq, Repr

namespace StorageReader

/-- The slot count a page states. -/
def slotCount (page : RawPage) : Nat := page.readU16 PAGE_HEADER_SIZE

/-- Where a slot entry is read. -/
def slotOffset (slotId : Nat) : Nat := PAGE_HEADER_SIZE + 2 + slotId * SLOT_SIZE

/-- The slot entry at an offset. -/
def readSlot (page : RawPage) (off : Nat) : SlotEntry := ⟨page.readU16 off, page.readU16 (off + 2)⟩

/-- The record header at an offset. -/
def readHeader (page : RawPage) (off : Nat) : RecordHeader :=
  ⟨leNat (page.read off 1), page.readU16 (off + 1), page.readU16 (off + 3)⟩

/-- The record at an offset: header, key, value. -/
def parseRecordAt (page : RawPage) (off : Nat) : RecordRead :=
  let header := readHeader page off
  if header.metaByte = 0x01 then .absent
  else if off + RECORD_HEADER_SIZE + header.keyLen + header.valLen > PAGE_SIZE then .outside
  else
    .found
      ⟨page.read (off + RECORD_HEADER_SIZE) header.keyLen,
        page.read (off + RECORD_HEADER_SIZE + header.keyLen) header.valLen⟩

/-- The part of `read_record` behind the fetch of the page. The length of a slot is looked at only
when its offset passes. -/
def parseRecord (page : RawPage) (slotId : Nat) : RecordRead :=
  if slotId ≥ slotCount page then .absent
  else if slotOffset slotId + 2 > PAGE_SIZE then .outside
  else if page.readU16 (slotOffset slotId) ≥ PAGE_SIZE then .absent
  else if slotOffset slotId + SLOT_SIZE > PAGE_SIZE then .outside
  else
    let slot := readSlot page (slotOffset slotId)
    if slot.offset + slot.length > PAGE_SIZE then .absent
    else parseRecordAt page slot.offset

/-- `StorageReader::read_record`. -/
def readRecord (rid : RecordID) : EStateM Error StorageEngine (Option Record) := fun e =>
  if rid.pageId ≥ e.getTotalPages then .ok none e
  else
    match StorageEngine.fetchPage rid.pageId e with
    | .error err e => .error err e
    | .ok h e =>
        let result := parseRecord (e.pageOf h) rid.slotId
        let e := e.releasePage h
        match result with
        | .absent => .ok none e
        | .found record => .ok (some record) e
        | .outside => .error (.undefinedBehaviour "read outside the page") e

/-- A scan callback: it gets the record id, the key and the value. -/
abbrev Callback (σ : Type) := RecordID → Bytes → Bytes → σ → σ

/-- The inner loop of `scan`: the slots `sid`, `sid + 1`, … of one page, `n` of them. -/
def scanSlots {σ : Type} (callback : Callback σ) (pid : Nat) :
    Nat → Nat → EStateM Error (StorageEngine × σ) Unit
  | 0, _ => fun s => .ok () s
  | n + 1, sid => fun (e, s) =>
      match readRecord ⟨pid, sid⟩ e with
      | .error err e => .error err (e, s)
      | .ok none e => scanSlots callback pid n (sid + 1) (e, s)
      | .ok (some record) e =>
          scanSlots callback pid n (sid + 1) (e, callback ⟨pid, sid⟩ record.key record.value s)

/-- One iteration of the outer loop of `scan`: the page stays pinned while its slots are read. -/
def scanPage {σ : Type} (callback : Callback σ) (pid : Nat) :
    EStateM Error (StorageEngine × σ) Unit := fun (e, s) =>
  match StorageEngine.fetchPage pid e with
  | .error err e => .error err (e, s)
  | .ok h e =>
      match scanSlots callback pid (slotCount (e.pageOf h)) 0 (e, s) with
      | .error err (e, s) => .error err (e.releasePage h, s)
      | .ok () (e, s) => .ok () (e.releasePage h, s)

/-- The outer loop of `scan`: the pages `pid`, `pid + 1`, …, `n` of them. -/
def scanPages {σ : Type} (callback : Callback σ) :
    Nat → Nat → EStateM Error (StorageEngine × σ) Unit
  | 0, _ => fun s => .ok () s
  | n + 1, pid => fun s =>
      match scanPage callback pid s with
      | .error err s => .error err s
      | .ok () s => scanPages callback n (pid + 1) s

/-- `StorageReader::scan`, without the prefetch threads. -/
def scan {σ : Type} (callback : Callback σ) : EStateM Error (StorageEngine × σ) Unit := fun s =>
  scanPages callback s.1.getTotalPages 0 s

end StorageReader

end Aqa
