/-
# Aqa.Storage.FileObjects — mapped files as objects that own a descriptor and a mapping.

`Aqa.Storage.MappedFile` is about what a mapped file holds; here a `MappedFile` is an object that
owns a file descriptor and a mapping, and the system calls are events on these. A descriptor stands
for one `open` and a mapping for one `mmap`: a number or an address that the system hands out again
is a new one. `FileProgram` is the objects a program has constructed, in that order.

The outcome of a system call is an argument. A member that throws keeps what it did until then, and
an object whose constructor throws is not destroyed.
-/
import Aqa.Lib.Ledger
import Aqa.Lib.Schedule
import Aqa.Storage.Page

namespace Aqa

open Aqa.Lib Aqa.Lib.Ledger

/-! ## System calls -/

/-- What the system hands out. A mapping is unmapped with the length it was made with. -/
inductive Resource where
  | descriptor (id : Nat)
  | mapping (id size : Nat)
  deriving DecidableEq, Repr

/-- The name the system gave a resource. -/
def Resource.id : Resource → Nat
  | descriptor id => id
  | mapping id _ => id

/-- The system calls so far, and the next name. -/
structure System where
  ledger : List (Event Resource)
  fresh : Nat
  deriving Repr

namespace System

def acquire (s : System) (r : Resource) : System := ⟨s.ledger ++ [.acquire r], s.fresh + 1⟩

def use (s : System) (r : Resource) : System := { s with ledger := s.ledger ++ [.use r] }

def release (s : System) (r : Resource) : System := { s with ledger := s.ledger ++ [.release r] }

/-- `open`. -/
def openFile (s : System) : Nat × System := (s.fresh, s.acquire (.descriptor s.fresh))

/-- `close`; on `-1` it fails. -/
def close (fd : Option Nat) (s : System) : System :=
  match fd with
  | some fd => s.release (.descriptor fd)
  | none => s

/-- `mmap` of a file. -/
def mmap (fd size : Nat) (s : System) : Nat × System :=
  (s.fresh, (s.use (.descriptor fd)).acquire (.mapping s.fresh size))

/-- `ftruncate` or `fsync`. -/
def onDescriptor (fd : Nat) (s : System) : System := s.use (.descriptor fd)

/-- `msync`. -/
def msync (data size : Nat) (s : System) : System := s.use (.mapping data size)

/-- `munmap`. -/
def munmap (data size : Nat) (s : System) : System := s.release (.mapping data size)

end System

/-- The state behind a call that returned or threw. -/
def resultState {ε α σ : Type} : EStateM.Result ε σ α → σ
  | .ok _ s => s
  | .error _ s => s

/-! ## The members -/

/-- `MappedFile`: `none` is the descriptor -1 and the null pointer. -/
structure MappedFileObject where
  path : String
  fd : Option Nat
  data : Option Nat
  fileSize : Nat
  pageCount : Nat
  deriving DecidableEq, Repr

/-- How the system calls of the constructor end: `open`, then `fstat` with a size, then `mmap`. -/
inductive Opening where
  | openFails
  | statFails
  | statted (size : Nat) (maps : Bool)
  deriving DecidableEq, Repr

namespace MappedFileObject

/-- `map_memory`. -/
def mapMemory (maps : Bool) : EStateM Error (MappedFileObject × System) Unit := fun (o, s) =>
  if o.fileSize = 0 then .ok () (o, s)
  else
    match o.fd with
    | some fd =>
        if maps then
          let (data, s) := s.mmap fd o.fileSize
          .ok () ({ o with data := some data }, s)
        else
          .error (.runtimeError ("mmap failed for file: " ++ o.path))
            ({ o with data := none }, s.onDescriptor fd)
    | none =>
        .error (.runtimeError ("mmap failed for file: " ++ o.path)) ({ o with data := none }, s)

/-- `unmap_memory`. -/
def unmapMemory (o : MappedFileObject) (s : System) : MappedFileObject × System :=
  match o.data with
  | some data => ({ o with data := none }, (s.msync data o.fileSize).munmap data o.fileSize)
  | none => (o, s)

/-- The end of the constructor: the members of an object that is not constructed are gone, and its
destructor does not run. -/
def constructed : EStateM.Result Error (MappedFileObject × System) Unit →
    EStateM.Result Error System MappedFileObject
  | .ok () (o, s) => .ok o s
  | .error err (_, s) => .error err s

/-- `MappedFile::MappedFile(const std::string&)`. -/
def new (path : String) (opening : Opening) : EStateM Error System MappedFileObject := fun s =>
  match opening with
  | .openFails => .error (.runtimeError ("Failed to open file: " ++ path)) s
  | .statFails =>
      let (fd, s) := s.openFile
      .error (.runtimeError ("Failed to stat file: " ++ path)) ((s.onDescriptor fd).close (some fd))
  | .statted size maps =>
      let (fd, s) := s.openFile
      let o := { path := path, fd := some fd, data := none, fileSize := size,
                 pageCount := u32 (size / PAGE_SIZE) }
      let s := s.onDescriptor fd
      if o.fileSize > 0 then constructed (mapMemory maps (o, s)) else .ok o s

/-- `MappedFile::~MappedFile`. -/
def destroy (o : MappedFileObject) (s : System) : System :=
  let (o, s) := o.unmapMemory s
  if o.fd ≠ none then s.close o.fd else s

/-- What a move leaves behind. -/
def movedFrom : MappedFileObject :=
  { path := "", fd := none, data := none, fileSize := 0, pageCount := 0 }

/-- The part of `MappedFile::operator=(MappedFile&&)` before the members of the other object are
taken over. -/
def letGo (o : MappedFileObject) (s : System) : System :=
  let (o, s) := o.unmapMemory s
  if o.fd = none then s.close o.fd else s

/-- `grow_file`. -/
def growFile (newPageCount : Nat) (resizes maps : Bool) :
    EStateM Error (MappedFileObject × System) Unit := fun (o, s) =>
  if newPageCount ≤ o.pageCount then .ok () (o, s)
  else
    let newSize := u32 (newPageCount * PAGE_SIZE)
    let (o, s) := if o.data ≠ none then o.unmapMemory s else (o, s)
    match o.fd with
    | some fd =>
        let s := s.onDescriptor fd
        if resizes then
          mapMemory maps
            ({ o with fileSize := newSize, pageCount := newPageCount }, s.onDescriptor fd)
        else .error (.runtimeError ("Failed to resize file: " ++ o.path)) (o, s)
    | none => .error (.runtimeError ("Failed to resize file: " ++ o.path)) (o, s)

/-- Reading or writing a page through the mapping. -/
def touchPage (o : MappedFileObject) (s : System) : System :=
  match o.data with
  | some data => s.use (.mapping data o.fileSize)
  | none => s

/-- `flush`. -/
def flush (syncs : Bool) : EStateM Error (MappedFileObject × System) Unit := fun (o, s) =>
  match o.data with
  | some data =>
      let s := s.msync data o.fileSize
      if syncs then
        match o.fd with
        | some fd => .ok () (o, s.onDescriptor fd)
        | none => .ok () (o, s)
      else .error (.runtimeError "msync failed") (o, s)
  | none => .ok () (o, s)

end MappedFileObject

/-! ## Programs -/

/-- The objects of a program, a destroyed one being `none`, and the system. -/
structure FileProgram where
  objects : List (Option MappedFileObject)
  system : System

/-- What a program can do with `MappedFile` objects. -/
inductive FileOp where
  | new (path : String) (opening : Opening)
  | moveConstruct (src : Nat)
  | moveAssign (dst src : Nat)
  | growFile (i newPageCount : Nat) (resizes maps : Bool)
  | touchPage (i : Nat)
  | flush (i : Nat) (syncs : Bool)
  | destroy (i : Nat)
  deriving DecidableEq, Repr

namespace FileProgram

/-- An object that has been constructed and not destroyed. -/
def object (s : FileProgram) (i : Nat) : Option MappedFileObject := (s.objects[i]?).join

/-- `MappedFile::MappedFile(const std::string&)` in a program: only an object whose constructor
returned is there to be destroyed. -/
def new (s : FileProgram) (path : String) (opening : Opening) : FileProgram :=
  match MappedFileObject.new path opening s.system with
  | .ok o system => ⟨s.objects ++ [some o], system⟩
  | .error _ system => { s with system := system }

/-- `MappedFile::MappedFile(MappedFile&&)`. -/
def moveConstruct (s : FileProgram) (src : Nat) : FileProgram :=
  match s.object src with
  | some o => { s with objects := s.objects.set src (some .movedFrom) ++ [some o] }
  | none => s

/-- `MappedFile::operator=(MappedFile&&)`. -/
def moveAssign (s : FileProgram) (dst src : Nat) : FileProgram :=
  if dst = src then s
  else
    match s.object dst, s.object src with
    | some old, some o =>
        { objects := (s.objects.set dst (some o)).set src (some .movedFrom)
          system := old.letGo s.system }
    | _, _ => s

/-- A member that changes one object. -/
def onObject (s : FileProgram) (i : Nat)
    (m : EStateM Error (MappedFileObject × System) Unit) : FileProgram :=
  match s.object i with
  | some o =>
      { objects := s.objects.set i (some (resultState (m (o, s.system))).1)
        system := (resultState (m (o, s.system))).2 }
  | none => s

/-- One operation. An operation on an object that does not exist does nothing. -/
def step (s : FileProgram) : FileOp → FileProgram
  | .new path opening => s.new path opening
  | .moveConstruct src => s.moveConstruct src
  | .moveAssign dst src => s.moveAssign dst src
  | .growFile i newPageCount resizes maps =>
      s.onObject i (MappedFileObject.growFile newPageCount resizes maps)
  | .touchPage i => s.onObject i fun (o, system) => .ok () (o, o.touchPage system)
  | .flush i syncs => s.onObject i (MappedFileObject.flush syncs)
  | .destroy i =>
      match s.object i with
      | some o => ⟨s.objects.set i none, o.destroy s.system⟩
      | none => s

/-- A program before its first operation. -/
def start : FileProgram := ⟨[], ⟨[], 0⟩⟩

/-- A program. -/
def run (ops : List FileOp) (s : FileProgram) : FileProgram := Schedule.run step ops s

end FileProgram

end Aqa
