import Ohmylib.Files.Stream
import Ohmylib.Libc

/-! The readers of `lib/sysreg.c`. A variable of four bytes is given by its bytes; the
one on the stack that `sysreg_read_scratch` reads into starts with arbitrary ones. The
argument of `sysreg_read_info` is not `NULL`. -/

namespace Ohmylib.Sysreg

open Files

/-- The files under `/proc/sysreg`. -/
inductive Path
  | scratch
  | project
  | board
  | version
  | timedate
  deriving DecidableEq

/-- `struct sysreg_info_s`, with `datetime` as its `raw` bytes. -/
structure SysregInfoS where
  project : Vector UInt8 4
  board : Vector UInt8 4
  version : Vector UInt8 4
  datetime : Vector UInt8 4
  deriving DecidableEq

/-- The members of `struct sysreg_info_s`. -/
inductive Member
  | project
  | board
  | version
  | datetime
  deriving DecidableEq

/-- The file a member is read from. -/
def Member.path : Member → Path
  | .project => .project
  | .board => .board
  | .version => .version
  | .datetime => .timedate

def SysregInfoS.get (i : SysregInfoS) : Member → Vector UInt8 4
  | .project => i.project
  | .board => i.board
  | .version => i.version
  | .datetime => i.datetime

def SysregInfoS.set (i : SysregInfoS) (bytes : Vector UInt8 4) : Member → SysregInfoS
  | .project => { i with project := bytes }
  | .board => { i with board := bytes }
  | .version => { i with version := bytes }
  | .datetime => { i with datetime := bytes }

/-- The return value, the structure and the files opened and closed. -/
structure InfoRead where
  ret : ℤ
  info : SysregInfoS
  log : List (Event Path)
  deriving DecidableEq

/-- Read the given members, one after the other, each by opening its file, reading it,
testing the count and closing it; `ret` is the variable. Both ends of a stage close the
file: the one that goes on and the label `err_fclose`, to which the last stage falls
through. -/
def readMembers (files : Path → File) : List Member → ℤ → SysregInfoS → InfoRead
  | [], ret, i => { ret := ret, info := i, log := [] }
  | m :: ms, _, i =>
    if (files m.path).opens then
      let (n, bytes) := fread (files m.path) (i.get m)
      let ret := toInt n
      let i := i.set bytes m
      if ret < 0 then { ret := ret, info := i, log := [.opened m.path, .closed m.path] }
      else
        let rest := readMembers files ms ret i
        { rest with log := .opened m.path :: .closed m.path :: rest.log }
    else { ret := -1, info := i, log := [] }

def sysregReadInfo (files : Path → File) (i : SysregInfoS) : InfoRead :=
  readMembers files [.project, .board, .version, .datetime] 0 i

/-- The return value, what `val` points to and the files opened and closed. -/
structure ScratchRead where
  ret : ℤ
  val : Option (Vector UInt8 4)
  log : List (Event Path)
  deriving DecidableEq

/-- `sysreg_read_scratch`, from the value behind `val`, if it is not `NULL`, and the
bytes of the uninitialised variable `retval`. -/
def sysregReadScratch (files : Path → File) (retval : Vector UInt8 4)
    (val : Option (Vector UInt8 4)) : ScratchRead :=
  if (files .scratch).opens then
    let (ret, retval) := Files.read (files .scratch) retval
    let log := [.opened .scratch, .closed .scratch]
    if ret < 0 then { ret := ret, val := val, log := log }
    else { ret := 0, val := val.map fun _ => retval, log := log }
  else { ret := -1, val := val, log := [] }

end Ohmylib.Sysreg
