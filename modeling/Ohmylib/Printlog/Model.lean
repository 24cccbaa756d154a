import Ohmylib.Libc
import Ohmylib.Loop.While

/-! The memory dumps of `lib/printlog.c`. A buffer gives the byte at each offset that
may be read; reading elsewhere faults. A call writes a text to one stream. What the
caller's format prints is a parameter, and flushing the stream leaves no trace. -/

namespace Ohmylib.Printlog

open Loop

abbrev Text := List Char

/-- The bytes a pointer gives access to. -/
abbrev Buffer := ℕ → Option UInt8

/-- The stream a call prints to: the standard output or a file. -/
inductive Stream
  | stdout
  | file (f : ℕ)
  deriving DecidableEq, Repr

/-- `%0<width>x`. -/
def hex (width n : ℕ) : Text := (Nat.toDigits 16 n).leftpad width '0'

/-- What `fmt` prints, with a line feed, unless `fmt` is `NULL`. -/
def titleText (title : Option Text) : Text := title.elim [] fun t => t ++ ['\n']

/-- The line of column numbers behind an indentation. -/
def header (indent : ℕ) : Text :=
  List.replicate indent ' ' ++ (List.range 16).flatMap (fun i => hex 2 i ++ [' ']) ++ ['\n']

/-- The label of a row, on a new line but for the first one. -/
def label (width offset shown : ℕ) : Text :=
  (if offset = 0 then [] else ['\n']) ++ hex width shown ++ [' ']

/-! ### `dump` and `fdump` -/

/-- The variables of the loop of `dump` and the text so far. -/
structure DumpS where
  buf : ℕ
  len : ℕ
  out : Text
  deriving DecidableEq

/-- One round of the inner loop, which reads before it tests `len`. -/
def dumpByte (p : Buffer) (s : DumpS) : Option DumpS :=
  (p s.buf).map fun val =>
    if s.len > 0 then
      { buf := s.buf + 1, len := s.len - 1, out := s.out ++ hex 2 val.toNat ++ [' '] }
    else s

def dumpRow (p : Buffer) (size : ℕ) (s : DumpS) : Option DumpS :=
  forLoop (dumpByte p) 0x10
    (if (size - s.len) % 0x10 = 0 then
      { s with out := s.out ++ label 2 (size - s.len) ((size - s.len) % 0x100) } else s)

/-- The text that both functions print. -/
def dumpText (title : Option Text) (p : Buffer) (size fuel : ℕ) : Outcome Text :=
  (whileLoop (fun s => s.len ≠ 0) (dumpRow p size) fuel
    { buf := 0, len := size, out := titleText title ++ header 3 }).map fun s => s.out ++ ['\n']

def dump (title : Option Text) (p : Buffer) (size fuel : ℕ) : Outcome (Stream × Text) :=
  (dumpText title p size fuel).map fun t => (.stdout, t)

def fdump (f : ℕ) (title : Option Text) (p : Buffer) (size fuel : ℕ) : Outcome (Stream × Text) :=
  (dumpText title p size fuel).map fun t => (.file f, t)

/-! ### `hexdump` and `fhexdump` -/

/-- The variables of the loop of `hexdump` and the text so far. -/
structure HexdumpS where
  hbuf : ℕ
  cbuf : ℕ
  hlen : ℕ
  tlen : ℕ
  out : Text
  deriving DecidableEq

/-- One cell of the hexadecimal column. -/
def hexCell (p : Buffer) (s : HexdumpS) : Option HexdumpS :=
  (p s.hbuf).map fun val =>
    if s.hlen > 0 then
      { s with hbuf := s.hbuf + 1, hlen := s.hlen - 1, out := s.out ++ hex 2 val.toNat ++ [' '] }
    else { s with out := s.out ++ [' ', ' ', ' '] }

/-- `val` where it prints as a visible character. A byte from 0x80 on never does,
whatever the sign of `char`. -/
def glyph (val : UInt8) : Char := if 0x20 < val ∧ val < 0x7e then Char.ofNat val.toNat else '.'

/-- One round of the character column, whose gaps do not depend on `tlen`. -/
def charCell (p : Buffer) (size : ℕ) (s : HexdumpS) : Option HexdumpS :=
  (p s.cbuf).map fun val =>
    let out := s.out ++ if (size - s.tlen) % 0x8 = 0 then [' '] else []
    if s.tlen > 0 then
      { s with cbuf := s.cbuf + 1, tlen := s.tlen - 1, out := out ++ [glyph val] }
    else { s with out := out }

def hexdumpRow (p : Buffer) (size : ℕ) (s : HexdumpS) : Option HexdumpS :=
  (forLoop (hexCell p) 0x10
    (if (size - s.tlen) % 0x10 = 0 then
      { s with out := s.out ++ label 4 (size - s.tlen) (u32 (size - s.tlen)) }
    else s)).bind fun s =>
  forLoop (charCell p size) 0x10 { s with out := s.out ++ [' ', ' '] }

/-- The text that both functions print. -/
def hexdumpText (title : Option Text) (p : Buffer) (size fuel : ℕ) : Outcome Text :=
  (whileLoop (fun s => s.tlen ≠ 0) (hexdumpRow p size) fuel
    { hbuf := 0, cbuf := 0, hlen := size, tlen := size, out := titleText title ++ header 5 }).map
    fun s => s.out ++ ['\n']

def hexdump (title : Option Text) (p : Buffer) (size fuel : ℕ) : Outcome (Stream × Text) :=
  (hexdumpText title p size fuel).map fun t => (.stdout, t)

def fhexdump (f : ℕ) (title : Option Text) (p : Buffer) (size fuel : ℕ) :
    Outcome (Stream × Text) :=
  (hexdumpText title p size fuel).map fun t => (.file f, t)

end Ohmylib.Printlog
