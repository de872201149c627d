import Mathlib.Logic.Function.Basic
import Mathlib.Tactic

/-!
# The file descriptor table

This module embeds `fd_findfree`, `fd_ref`, `fd2fp`, `open` and `close` of
`sys/file.c`, `pipe` of `sys/pipe.c`, `sio_open` and `sio_close` of `dev/sio.c`
and `ff_open` and `ff_close` of `fs/ff_glue.c`.

Objects on the heap are named by numbers that are never reused, so a pointer to
a freed object stays recognisable: using it is a `Fault`, and so is a call
through a NULL operation.  Which allocations fail and what the file system
answers are arguments of the calls.
-/

namespace F32c
namespace Files

inductive Errno where
  | ebadf | einval | enfile | enomem | eio | enoent | enametoolong | eacces | eexist | erofs
  | eopnotsupp
deriving DecidableEq, Repr

/-- Results of the file system (`FRESULT`). -/
inductive FResult where
  | ok | diskErr | intErr | notReady | noFile | noPath | invalidName | denied | exist
  | invalidObject | writeProtected | invalidDrive | notEnabled | noFilesystem | mkfsAborted
  | timeout | locked | notEnoughCore | tooManyOpenFiles | invalidParameter
deriving DecidableEq, Repr

def ffres2errno : FResult → Except Errno Unit
  | .ok => .ok ()
  | .diskErr | .intErr | .notReady => .error .eio
  | .noFile | .noPath => .error .enoent
  | .invalidName => .error .enametoolong
  | .denied => .error .eacces
  | .exist => .error .eexist
  | .writeProtected => .error .erofs
  | .invalidParameter => .error .einval
  | _ => .error .eopnotsupp

/-- The operation tables of the devices. -/
inductive Fileops where
  | ff | sio | pipe
deriving DecidableEq, Repr

/-- Private data of a file; `s_io_port` is the only field the calls below read. -/
inductive Priv where
  | fil
  | sio (ioPort : Nat)
  | pipe
deriving DecidableEq, Repr

/-- `struct file`. -/
structure File where
  fOps : Option Fileops
  fPriv : Option Nat
  /-- `F_MF_FILE_MALLOCED` in `f_mflags` -/
  fileMalloced : Bool
  fRefc : Nat
deriving DecidableEq, Repr

/-- What a call does to the heap, and the calls through `fo_close`. -/
inductive Event where
  | foClose (p : Nat) (ops : Fileops)
  | freePriv (q : Nat)
  | freeFile (p : Nat)
  | freeTable (t : Nat)
deriving DecidableEq, Repr

/-- A use of memory that the C program must never make. -/
inductive Fault where
  | nullCall
  | badPointer
deriving DecidableEq, Repr

/-- The heap, the descriptor table of the task and the static data of the devices. -/
structure Kernel where
  files : Nat → Option File
  privs : Nat → Option Priv
  next : Nat
  /-- `ts_files`, of `ts_maxfiles` entries -/
  slots : List (Option Nat)
  /-- where `ts_files` lives; `none` for the static `stdfiles` -/
  tsFiles : Option Nat
  sioFiles : List (Option Nat)
  /-- `sio_fileops.fo_close` is set -/
  sioFoClose : Bool
  events : List Event

def sioPorts : Nat := 4

def ioSio0 : Nat := 0xfffffb00

/-- The file `__sio0_file` and its state `sio0_state`, both static. -/
def sio0File : Nat := 0

def sio0State : Nat := 1

/-- `task0` at boot: standard input, output and error on the serial port. -/
def boot : Kernel where
  files := Function.update (fun _ => none) sio0File
    (some { fOps := some .sio, fPriv := some sio0State, fileMalloced := false, fRefc := 3 })
  privs := Function.update (fun _ => none) sio0State (some (.sio ioSio0))
  next := 2
  slots := [some sio0File, some sio0File, some sio0File]
  tsFiles := none
  sioFiles := [some sio0File, none, none, none]
  sioFoClose := false
  events := []

section Heap

def callocFile (ok : Bool) (k : Kernel) : Option Nat × Kernel :=
  if ok then
    (some k.next,
      { k with
        files := Function.update k.files k.next
          (some { fOps := none, fPriv := none, fileMalloced := false, fRefc := 0 })
        next := k.next + 1 })
  else (none, k)

def allocPriv (ok : Bool) (v : Priv) (k : Kernel) : Option Nat × Kernel :=
  if ok then
    (some k.next, { k with privs := Function.update k.privs k.next (some v), next := k.next + 1 })
  else (none, k)

def freeFile (fp : Option Nat) (k : Kernel) : Except Fault Kernel :=
  match fp with
  | none => .ok k
  | some p =>
      match k.files p with
      | none => .error .badPointer
      | some _ =>
          .ok { k with
            files := Function.update k.files p none
            events := k.events ++ [.freeFile p] }

def freePriv (fp : Option Nat) (k : Kernel) : Except Fault Kernel :=
  match fp with
  | none => .ok k
  | some q =>
      match k.privs q with
      | none => .error .badPointer
      | some _ =>
          .ok { k with
            privs := Function.update k.privs q none
            events := k.events ++ [.freePriv q] }

def derefFile (p : Nat) (k : Kernel) : Except Fault File :=
  match k.files p with
  | none => .error .badPointer
  | some f => .ok f

def storeFile (p : Nat) (f : File) (k : Kernel) : Kernel :=
  { k with files := Function.update k.files p (some f) }

end Heap

section Descriptors

/-- The first free slot from `min` on. -/
def fdFindfree (k : Kernel) (min : Nat) : Option Nat :=
  (List.range' min (k.slots.length - min)).find? (fun fd => k.slots[fd]? == some none)

/-- `ts_files[fd] = fp; fp->f_refc++`. -/
def fdStore (fd : Nat) (p : Nat) (k : Kernel) : Except Fault Kernel := do
  let f ← derefFile p k
  let k := storeFile p { f with fRefc := (f.fRefc + 1) % 2 ^ 16 } k
  .ok { k with slots := k.slots.set fd (some p) }

/-- Replace the table by one of twice its size; the static table is not freed. -/
def fdExpand (k : Kernel) : Except Fault Kernel :=
  let fd := k.slots.length
  let k' :=
    { k with
      slots := k.slots ++ List.replicate fd none
      tsFiles := some k.next
      next := k.next + 1 }
  if fd > 3 then
    match k.tsFiles with
    | none => .error .badPointer
    | some t => .ok { k' with events := k.events ++ [.freeTable t] }
  else .ok k'

def fdRef (tableOk : Bool) (fp : Option Nat) (k : Kernel) :
    Except Fault (Option Nat × Kernel) :=
  match fp with
  | none => .ok (none, k)
  | some p =>
      match fdFindfree k 0 with
      | some fd => do
          let k ← fdStore fd p k
          .ok (some fd, k)
      | none =>
          if tableOk then do
            let fd := k.slots.length
            let k ← fdExpand k
            let k ← fdStore fd p k
            .ok (some fd, k)
          else .ok (none, k)

def fd2fp (fd : Int) (k : Kernel) : Except Errno Nat :=
  if fd < 0 || fd ≥ k.slots.length then .error .ebadf
  else
    match k.slots[fd.toNat]? with
    | some (some p) => .ok p
    | _ => .error .ebadf

end Descriptors

section Devices

def ffOpen (filOk : Bool) (res : FResult) (p : Nat) (k : Kernel) :
    Except Fault (Except Errno Unit × Kernel) :=
  match allocPriv filOk .fil k with
  | (none, k) => .ok (.error .enomem, k)
  | (some q, k) => do
      let f ← derefFile p k
      .ok (ffres2errno res, storeFile p { f with fOps := some .ff, fPriv := some q } k)

/-- The state of the serial port behind a file. -/
def sioState (f : File) (k : Kernel) : Except Fault Nat :=
  match f.fPriv.bind k.privs with
  | some (.sio port) => .ok port
  | _ => .error .badPointer

def sioClose (f : File) (k : Kernel) : Except Fault (Except Errno Unit × Kernel) := do
  let port ← sioState f k
  .ok (.ok (), { k with sioFiles := k.sioFiles.set ((port - ioSio0) / 16) none })

/-- A call through `fo_close`; `res` is the answer of `f_close`. -/
def foClose (res : FResult) (p : Nat) (f : File) (k : Kernel) :
    Except Fault (Except Errno Unit × Kernel) :=
  match f.fOps with
  | some .ff => .ok (ffres2errno res, { k with events := k.events ++ [.foClose p .ff] })
  | some .sio =>
      if k.sioFoClose then
        sioClose f { k with events := k.events ++ [.foClose p .sio] }
      else .error .nullCall
  -- `pipe_fileops` has no `fo_close`
  | some .pipe => .error .nullCall
  | none => .error .badPointer

end Devices

section Calls

def openFile (fileOk tableOk filOk : Bool) (res : FResult) (k : Kernel) :
    Except Fault (Except Errno Int × Kernel) := do
  let (fp, k) := callocFile fileOk k
  let (r, k) ← fdRef tableOk fp k
  match r, fp with
  | some fd, some p =>
      let f ← derefFile p k
      let k := storeFile p { f with fileMalloced := true } k
      let (r, k) ← ffOpen filOk res p k
      match r with
      | .ok _ => .ok (.ok fd, k)
      | .error e =>
          let k := { k with slots := k.slots.set fd none }
          let f ← derefFile p k
          let k ← freePriv f.fPriv k
          let k ← freeFile p k
          .ok (.error e, k)
  | _, _ =>
      let k ← freeFile fp k
      .ok (.error .enfile, k)

def close (fd : Int) (res : FResult) (k : Kernel) : Except Fault (Except Errno Int × Kernel) :=
  match fd2fp fd k with
  | .error e => .ok (.error e, k)
  | .ok p => do
      let k := { k with slots := k.slots.set fd.toNat none }
      let f ← derefFile p k
      let f := { f with fRefc := (f.fRefc + (2 ^ 16 - 1)) % 2 ^ 16 }
      let k := storeFile p f k
      if f.fRefc ≠ 0 then .ok (.ok 0, k)
      else if f.fileMalloced = false then .ok (.ok 0, k)
      else do
        let (r, k) ← foClose res p f k
        let k ← freePriv f.fPriv k
        let k ← freeFile p k
        .ok (r.map (fun _ => 0), k)

def pipe (pipeOk fileOk table0Ok table1Ok : Bool) (k : Kernel) :
    Except Fault (Except Errno Int × Kernel) :=
  match allocPriv pipeOk .pipe k with
  | (none, k) => .ok (.error .enomem, k)
  | (some q, k) => do
      let (fp, k) := callocFile fileOk k
      let (fd0, k) ← fdRef table0Ok fp k
      let (fd1, k) ← fdRef table1Ok fp k
      match fd0, fd1, fp with
      | some _, some _, some p =>
          let f ← derefFile p k
          .ok (.ok 0,
            storeFile p { f with fPriv := some q, fileMalloced := true, fOps := some .pipe } k)
      | _, _, _ =>
          let k ← freeFile fp k
          let k ← freePriv (some q) k
          .ok (.error .enfile, k)

def sioOpen (unit : Int) (sioOk fileOk tableOk : Bool) (k : Kernel) :
    Except Fault (Except Errno Int × Kernel) :=
  if unit < 0 || unit ≥ sioPorts || k.sioFiles[unit.toNat]? != some none then
    .ok (.error .einval, k)
  else
    match allocPriv sioOk (.sio 0) k with
    | (none, k) => .ok (.error .einval, k)
    | (some q, k) => do
        let (fp, k) := callocFile fileOk k
        let (r, k) ← fdRef tableOk fp k
        match r, fp with
        | some fd, some p =>
            let f ← derefFile p k
            let k :=
              { k with
                sioFiles := k.sioFiles.set unit.toNat (some p)
                privs := Function.update k.privs q (some (.sio (ioSio0 + 16 * unit.toNat)))
                sioFoClose := true }
            .ok (.ok fd,
              storeFile p { f with fPriv := some q, fileMalloced := true, fOps := some .sio } k)
        | _, _ =>
            let k ← freeFile fp k
            let k ← freePriv (some q) k
            .ok (.error .enfile, k)

end Calls

/-- A call of a program, with the allocations that succeed and the answers of the file system. -/
inductive Call where
  | openFile (fileOk tableOk filOk : Bool) (res : FResult)
  | pipe (pipeOk fileOk table0Ok table1Ok : Bool)
  | sioOpen (unit : Int) (sioOk fileOk tableOk : Bool)
  | close (fd : Int) (res : FResult)
deriving DecidableEq, Repr

def Call.exec : Call → Kernel → Except Fault (Except Errno Int × Kernel)
  | .openFile fileOk tableOk filOk res => Files.openFile fileOk tableOk filOk res
  | .pipe pipeOk fileOk table0Ok table1Ok => Files.pipe pipeOk fileOk table0Ok table1Ok
  | .sioOpen unit sioOk fileOk tableOk => Files.sioOpen unit sioOk fileOk tableOk
  | .close fd res => Files.close fd res

end Files
end F32c
