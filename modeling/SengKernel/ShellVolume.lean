import SengKernel.ShellDispatch

/- What the shell is for: a directory of 128 entries, each with a file or without, and
   what the shell answers to a line. Nothing here knows of inodes, bitmaps, descriptors
   or buffers. -/
namespace SengKernel.Ksh
open BoundedLoop Str Vga Fs Splice

structure File where
  name : CString
  bytes : List UInt8
  deriving DecidableEq, Repr

/-- What `ls` prints for an entry. -/
def entryLines : Option File → List Printed
  | none => []
  | some e => [.puts (ascii "  "), .puts e.name.chars, .puts (ascii "  "), .printf "%u bytes\n" [.int e.bytes.length]]

/-- The entries of the directory, of which 128 are used. -/
abbrev Volume := Nat → Option File

namespace Volume

def empty : Volume := fun _ => none

variable (v : Volume)

/-- The entry of a name. -/
def find (f : CString) : Option Nat := scan (fun i => (v i).map File.name == some f) 0 fsMaxDirEntries

/-- The first entry without a file. -/
def room : Option Nat := scan (fun i => (v i).isNone) 0 fsMaxDirEntries

/-- The entry that a new file gets. -/
def place (f : CString) : Option Nat :=
  if (1 ≤ f.chars.length ∧ f.chars.length ≤ 27) ∧ v.find f = none then v.room else none

def bytesAt (i : Nat) : List UInt8 := ((v i).map File.bytes).getD []

/-- The blocks in use. -/
def used : Nat := ∑ i ∈ Finset.range fsMaxDirEntries, pages (v.bytesAt i).length

def count : Nat := ((Finset.range fsMaxDirEntries).filter (fun i => (v i).isSome)).card

/-- How long the file of an entry can become. -/
def capacity (i : Nat) : Nat := min 32768 (4096 * (pages (v.bytesAt i).length + (220 - v.used)))

def put (i : Nat) (e : Option File) : Volume := Function.update v i e

/-- The text over the start of the file, as much of it as fits. -/
def overwrite (i : Nat) (f : CString) (text : List UInt8) : Volume :=
  v.put i (some ⟨f, splice (v.bytesAt i) 0 (text.take (v.capacity i))⟩)

/-- The lines of `ls` for the files. -/
def lines : List Printed := (List.range fsMaxDirEntries).flatMap (fun i => entryLines (v i))

def listing : List Printed :=
  [.putsColor "\n  Directory listing:\n" .lightCyan .black,
    .puts (ascii "  ---------------------------------------------\n")] ++ v.lines ++
  (if v.count = 0 then [.puts (ascii "  (empty)\n")] else []) ++ [.printf "\n  %d file(s)\n\n" [.int v.count]]

def statistics : List Printed :=
  [.putsColor "\n  RAM Disk File System Statistics\n" .lightCyan .black,
    .puts (ascii "  ---------------------------------------------\n"),
    .printf "  Total size       : %u KB\n" [.int 1024], .printf "  Block size       : %u bytes\n" [.int 4096],
    .printf "  Total blocks     : %u\n" [.int 256], .printf "  Data blocks      : %u\n" [.int 220],
    .printf "  Free data blocks : %u\n" [.int (220 - v.used : Nat)], .printf "  Used data blocks : %u\n" [.int v.used],
    .printf "  Max inodes       : %u\n" [.int 1024], .printf "  Free inodes      : %u\n" [.int (1023 - v.count : Nat)],
    .printf "  Max file size    : %u KB\n" [.int 32], .puts (ascii "\n")]

def touch (f : CString) : List Printed × Volume :=
  if f.chars = [] then ([.putsColor "Usage: touch <filename>\n" .lightRed .black], v)
  else match v.place f with
    | some i => ([.printf "Created file: %s\n" [.str f.chars]], v.put i (some ⟨f, []⟩))
    | none => ([.printf "Failed to create file: %s\n" [.str f.chars]], v)

def cat (f : CString) : List Printed :=
  if f.chars = [] then [.putsColor "Usage: cat <filename>\n" .lightRed .black]
  else match v.find f with
    | some i => [.puts (ascii "\n")] ++ (pieces 255 (v.bytesAt i)).map .puts ++ [.puts (ascii "\n\n")]
    | none => [.printf "File not found: %s\n" [.str f.chars]]

/-- `write`, after its arguments have been taken apart. -/
def store (f : CString) (text : List UInt8) : List Printed × Volume :=
  match (v.find f).or (v.place f) with
  | some i =>
      ([if 0 < min text.length (v.capacity i) then
          .printf "Wrote %d bytes to %s\n" [.int (min text.length (v.capacity i) : Nat), .str f.chars]
        else .printf "Failed to write to %s\n" [.str f.chars]], v.overwrite i f text)
  | none => ([.printf "Failed to open/create file: %s\n" [.str f.chars]], v)

/-- The name is the first word, cut to the 63 characters that the command has room for. -/
def write (args : CString) : List Printed × Volume :=
  let word := firstWord args.chars
  let rest := args.chars.drop word.length
  if rest = [] then ([.putsColor "Usage: write <filename> <text>\n" .lightRed .black], v)
  else v.store (ofBytes (word.take 63)) (kLtrim rest)

def rm (f : CString) : List Printed × Volume :=
  if f.chars = [] then ([.putsColor "Usage: rm <filename>\n" .lightRed .black], v)
  else match v.find f with
    | some i => ([.printf "Removed: %s\n" [.str f.chars]], v.put i none)
    | none => ([.printf "Failed to remove: %s\n" [.str f.chars]], v)

/-- What is printed and what becomes of the files; `none` where the request is not for
the file system. -/
def answer : Request → Option (List Printed × Volume)
  | .nothing => some ([], v)
  | .echo args => some ([.puts (ascii "  "), .puts args.chars, .puts (ascii "\n")], v)
  | .ls => some (v.listing, v)
  | .touch args => some (v.touch args)
  | .cat args => some (v.cat args, v)
  | .write args => some (v.write args)
  | .rm args => some (v.rm args)
  | .fsstats => some (v.statistics, v)
  | .unknown cmd =>
      some ([.putsColor "  Unknown command: " .lightRed .black, .puts cmd.chars,
        .puts (ascii "\n  Type 'help' for a list of commands.\n")], v)
  | _ => none

end Volume

/-- A command of another part of the kernel, which comes back to the shell. -/
def Request.elsewhere : Request → Prop
  | .help | .clear | .about | .version | .mem | .colour _ | .ps | .kill _ | .threads | .race | .mutexdemo | .semdemo
  | .threadlist | .meminfo => True
  | _ => False

/-- A line in `shell_buf`. -/
structure TypedLine where
  line : CString
  short : line.chars.length ≤ 255

def shellPrompt : Printed := .putsColor "\n  ksh> " .lightGreen .black

/-- The files, and what has been printed. -/
structure Session where
  files : Volume
  output : List Printed

/-- One line at the shell. -/
inductive Answered : Session → TypedLine → Session → Prop
  | files {x : Session} {l : TypedLine} {out : List Printed} {v : Volume} :
      x.files.answer (tableRequest l.line) = some (out, v) → Answered x l ⟨v, x.output ++ [shellPrompt] ++ out⟩
  | elsewhere {x : Session} {l : TypedLine} (out : List Printed) :
      (tableRequest l.line).elsewhere → Answered x l ⟨x.files, x.output ++ [shellPrompt] ++ out⟩

end SengKernel.Ksh
