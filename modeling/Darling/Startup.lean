import Darling.CArray
import Darling.FileTree

/-!
# The command line for the shell

`spawnShell` of `startup/darling.c` quotes its arguments; the shell takes the text apart again.
-/

namespace Darling.Startup

open CArray

def quote : Byte := 39

def backslash : Byte := 92

def blank : Byte := 32

def escapeQuotes (src : Bytes) : Bytes :=
  src.flatMap fun c => if c = quote then [quote, backslash, quote, quote] else [c]

def stpcpy (s : Bytes) (dest : Bytes × ℕ) : Option (Bytes × ℕ) :=
  (strcpy 0 dest.1 dest.2 s).map (·, dest.2 + s.length)

def pushArgument (dest : Bytes × ℕ) (arg : Bytes) : Option (Bytes × ℕ) := do
  let dest ← if dest.2 ≠ 0 then stpcpy [blank] dest else some dest
  let dest ← stpcpy [quote] dest
  let dest ← stpcpy (escapeQuotes arg) dest
  stpcpy [quote] dest

def bufferSize (argv : List Bytes) : ℕ := (argv.flatMap escapeQuotes).length + argv.length * 3

def spawnShell (argv : List Bytes) (buffer : Bytes) : Option (Bytes × ℕ) :=
  argv.foldlM pushArgument (buffer, 0)

section Shell

inductive Mode where
  | plain
  | quoted
  | escaped
deriving DecidableEq

structure Lexer where
  mode : Mode
  words : List Bytes
  word : Option Bytes
deriving DecidableEq

/-- What means something to the shell where it is not quoted: the newline and
``!"#$%&()*;<=>?[`{|}~``. -/
def special : Bytes :=
  [10, 33, 34, 35, 36, 37, 38, 40, 41, 42, 59, 60, 61, 62, 63, 91, 96, 123, 124, 125, 126]

def Lexer.push (l : Lexer) (mode : Mode) (s : Bytes) : Lexer :=
  ⟨mode, l.words, some (l.word.getD [] ++ s)⟩

/-- A special character that is not quoted is not a matter of words. -/
def Lexer.step (l : Lexer) (c : Byte) : Option Lexer :=
  match l.mode with
  | .quoted => some (if c = quote then l.push .plain [] else l.push .quoted [c])
  | .escaped => if c = 10 then none else some (l.push .plain [c])
  | .plain =>
    if c = quote then some (l.push .quoted [])
    else if c = backslash then some { l with mode := .escaped }
    else if c = blank ∨ c = 9 then some ⟨.plain, l.words ++ l.word.toList, none⟩
    else if c ∈ special then none
    else some (l.push .plain [c])

/-- The words of a command line in which nothing but the words has a meaning. -/
def shellWords (s : Bytes) : Option (List Bytes) := do
  let l ← s.foldlM Lexer.step ⟨.plain, [], none⟩
  if l.mode = .plain then some (l.words ++ l.word.toList) else none

end Shell

end Darling.Startup
