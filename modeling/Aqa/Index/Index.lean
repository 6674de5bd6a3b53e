/-
# Aqa.Index.Index — the in-memory index from keys to record ids.

The hash map is an association list without repeated keys; hashing and iteration order play no part
in what the index answers.
-/
import Aqa.Lib.History
import Aqa.Storage.StorageReader

namespace Aqa

open Aqa.Lib

/-- `Index`. -/
structure Index where
  map : AList (fun _ : Bytes => RecordID)

namespace Index

/-- `Index::Index`. -/
def new : Index := ⟨∅⟩

/-- `Index::insert`. -/
def insert (ix : Index) (key : Bytes) (rid : RecordID) : Index := ⟨ix.map.insert key rid⟩

/-- `Index::lookup`. -/
def lookup (ix : Index) (key : Bytes) : Option RecordID := ix.map.lookup key

/-- `Index::size`. -/
def size (ix : Index) : Nat := keyCount ix.map

/-- `Index::rebuild`. -/
def rebuild : EStateM Error (StorageEngine × Index) Unit := fun (e, _) =>
  StorageReader.scan (fun rid key _ ix => ix.insert key rid) (e, new)

end Index

end Aqa
