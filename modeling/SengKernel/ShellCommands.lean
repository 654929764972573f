import SengKernel.ShellText
import SengKernel.FsRefinement

/- The file commands of the shell in kernel/kernel.c. -/
namespace SengKernel.Ksh
open Str Vga Fs Splice

/-- The file system and what has been printed. -/
structure Shell where
  fs : State
  output : List Printed

def vgaPuts (sh : Shell) (s : List UInt8) : Shell := { sh with output := sh.output ++ [.puts (text s)] }

def vgaPutsColor (sh : Shell) (s : String) (fg bg : VgaColor) : Shell :=
  { sh with output := sh.output ++ [.putsColor s fg bg] }

def vgaPrintf (sh : Shell) (fmt : String) (args : List Argument) : Shell :=
  { sh with output := sh.output ++ [.printf fmt args] }

def cmdTouch (sh : Shell) (args : CString) : Shell :=
  if strlen args.chars = 0 then vgaPutsColor sh "Usage: touch <filename>\n" .lightRed .black
  else
    let made := fsCreateFile sh.fs (some args)
    let sh := { sh with fs := made.2 }
    if made.1 = 0 then vgaPrintf sh "Created file: %s\n" [.str args.chars]
    else vgaPrintf sh "Failed to create file: %s\n" [.str args.chars]

/-- `while ((bytes_read = fs_read(fd, buffer, sizeof(buffer) - 1)) > 0)`; `none` says
that the fuel ran out before the loop ended. -/
def catLoop (fd : Int) : Nat → Shell → (Nat → UInt8) → Option Shell
  | 0, _, _ => none
  | fuel+1, sh, buffer =>
      let r := fsRead sh.fs fd (some buffer) 255
      let sh := { sh with fs := r.2 }
      if r.1.ret > 0 then
        let buffer := Function.update (r.1.buffer.getD buffer) r.1.ret.toNat 0
        catLoop fd fuel (vgaPuts sh (window buffer 0 256)) buffer
      else some sh

/-- `stack` is what the buffer held before. -/
def cmdCat (fuel : Nat) (stack : Nat → UInt8) (sh : Shell) (args : CString) : Option Shell :=
  if strlen args.chars = 0 then some (vgaPutsColor sh "Usage: cat <filename>\n" .lightRed .black)
  else
    let opened := fsOpen sh.fs (some args) 0
    let sh := { sh with fs := opened.2 }
    if opened.1 < 0 then some (vgaPrintf sh "File not found: %s\n" [.str args.chars])
    else
      (catLoop opened.1 fuel (vgaPuts sh (ascii "\n")) stack).map (fun sh =>
        let sh := vgaPuts sh (ascii "\n\n")
        { sh with fs := (fsClose sh.fs opened.1).2 })

/-- `cmd_write` from `fs_open` on; `stack` is what follows the text in memory. -/
def writeText (stack : Nat → UInt8) (sh : Shell) (filename : CString) (text : List UInt8) : Shell :=
  let opened := fsOpen sh.fs (some filename) 1
  let sh := { sh with fs := opened.2 }
  if opened.1 < 0 then vgaPrintf sh "Failed to open/create file: %s\n" [.str filename.chars]
  else
    let written := fsWrite sh.fs opened.1 (some (overlay text stack)) (UInt32.ofNat (strlen text))
    let sh := { sh with fs := (fsClose written.2 opened.1).2 }
    if written.1 > 0 then vgaPrintf sh "Wrote %d bytes to %s\n" [.int written.1, .str filename.chars]
    else vgaPrintf sh "Failed to write to %s\n" [.str filename.chars]

def cmdWrite (stack : Nat → UInt8) (sh : Shell) (args : CString) : Shell :=
  if strlen args.chars = 0 then vgaPutsColor sh "Usage: write <filename> <text>\n" .lightRed .black
  else
    let word := firstWord args.chars
    let rest := args.chars.drop word.length
    if deref rest = 0 then vgaPutsColor sh "Usage: write <filename> <text>\n" .lightRed .black
    else
      let fnameLen := if word.length ≥ 64 then 63 else word.length
      writeText stack sh (ofBytes (word.take fnameLen)) (kLtrim rest.tail)

def cmdRm (sh : Shell) (args : CString) : Shell :=
  if strlen args.chars = 0 then vgaPutsColor sh "Usage: rm <filename>\n" .lightRed .black
  else
    let removed := fsUnlink sh.fs (some args)
    let sh := { sh with fs := removed.2 }
    if removed.1 = 0 then vgaPrintf sh "Removed: %s\n" [.str args.chars]
    else vgaPrintf sh "Failed to remove: %s\n" [.str args.chars]

inductive Command where
  | touch (args : CString)
  | cat (args : CString)
  | write (args : CString)
  | rm (args : CString)
  deriving DecidableEq, Repr

def perform (fuel : Nat) (stack : Nat → UInt8) (sh : Shell) : Command → Option Shell
  | .touch args => some (cmdTouch sh args)
  | .cat args => cmdCat fuel stack sh args
  | .write args => some (cmdWrite stack sh args)
  | .rm args => some (cmdRm sh args)

/-- One command that ends, whatever the stack held. -/
def Step (sh : Shell) (c : Command) (t : Shell) : Prop := ∃ fuel stack, perform fuel stack sh c = some t

end SengKernel.Ksh
