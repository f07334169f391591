import DesignDeps.Text.Split

/-!
# Reading words of a command line

A level of a command line has options and plain words. A word that starts with a hyphen is an option
(a lone hyphen excepted), a value follows its option behind `=` or as the next word, and behind `--`
every word is plain. What an option does is data, so one reader serves every level.

Words are read from left to right and the first thing that stops the reading decides: help that is
asked for before a fault is given, and the other way round.
-/

namespace DesignDeps.CommandLine

open Text

inductive Stop
  | misuse
  | help
  | version
  deriving DecidableEq, Inhabited

inductive Effect
  /-- It counts how often it is given. -/
  | count
  | switch
  /-- It has a value, of those that are accepted; one that is repeatable gathers its values. -/
  | value (repeatable : Bool) (accepts : String → Bool)
  | stop (s : Stop)

structure Opt where
  /-- The name that the option goes by here, and that it is given with behind two hyphens. -/
  name : String
  otherNames : List String
  letters : List Char
  effect : Effect

namespace Opt

def isCalled (o : Opt) (name : String) : Bool :=
  name == o.name || o.otherNames.contains name

def wantsValue (o : Opt) : Bool :=
  match o.effect with
  | .value .. => true
  | .count | .switch | .stop _ => false

end Opt

inductive Slot
  | text
  | path
  deriving DecidableEq

def Slot.accepts : Slot → String → Bool
  | .text, _ => true
  | .path, s => s != ""

structure Grammar where
  options : List Opt
  /-- Words that have to be there, in this order. -/
  slots : List Slot
  /-- What all further words have to be; there is one of them at least. -/
  more : Option Slot

structure Given where
  options : List (String × String)
  words : List String
  deriving DecidableEq, Inhabited

namespace Given

def empty : Given := ⟨[], []⟩

def values (g : Given) (name : String) : List String :=
  (g.options.filter (·.1 == name)).map Prod.snd

def count (g : Given) (name : String) : Nat :=
  (g.values name).length

def has (g : Given) (name : String) : Bool :=
  g.count name > 0

def add (g : Given) (name value : String) : Given :=
  { g with options := g.options ++ [(name, value)] }

end Given

namespace Grammar

def find? (gr : Grammar) (name : String) : Option Opt :=
  gr.options.find? (·.isCalled name)

def findLetter? (gr : Grammar) (letter : Char) : Option Opt :=
  gr.options.find? (·.letters.contains letter)

def takeFlag (g : Given) (o : Opt) : Except Stop Given :=
  match o.effect with
  | .count => .ok (g.add o.name "")
  | .switch => if g.has o.name then .error .misuse else .ok (g.add o.name "")
  | .stop s => .error s
  | .value .. => .error .misuse

def takeValue (g : Given) (o : Opt) (v : String) : Except Stop Given :=
  match o.effect with
  | .value repeatable accepts =>
    if accepts v && (repeatable || !g.has o.name) then .ok (g.add o.name v) else .error .misuse
  | .count | .switch | .stop _ => .error .misuse

def slot? (gr : Grammar) (n : Nat) : Option Slot :=
  match gr.slots[n]? with
  | some slot => some slot
  | none => gr.more

def takeWord (gr : Grammar) (g : Given) (word : String) : Except Stop Given :=
  match gr.slot? g.words.length with
  | none => .error .misuse
  | some slot =>
    if slot.accepts word then .ok { g with words := g.words ++ [word] } else .error .misuse

/-- Takes a word behind two hyphens. The option is returned if its value is still to come. -/
def takeLong (gr : Grammar) (g : Given) (body : String) : Except Stop (Given × Option Opt) := do
  match splitFirst? '=' body with
  | none =>
    match gr.find? body with
    | none => throw .misuse
    | some o => if o.wantsValue then return (g, some o) else return (← takeFlag g o, none)
  | some (name, v) =>
    match gr.find? name with
    | none => throw .misuse
    | some o => return (← takeValue g o v, none)

def takeLetters (gr : Grammar) (g : Given) (letters : List Char) : Except Stop Given :=
  letters.foldlM (fun g letter =>
    match gr.findLetter? letter with
    | none => .error .misuse
    | some o => takeFlag g o) g

inductive Form
  /-- Two hyphens and nothing else. -/
  | separator
  | long (body : String)
  | letters (body : List Char)
  | plain
  deriving DecidableEq

def formOf (word : String) : Form :=
  match word.toList with
  | ['-', '-'] => .separator
  | '-' :: '-' :: body => .long (String.ofList body)
  | ['-'] => .plain
  | '-' :: body => .letters body
  | _ => .plain

/-- Reads words up to the first plain one that has no slot, and returns it with all that follow. -/
def readFrom (gr : Grammar) (g : Given) (pending : Option Opt) :
    List String → Except Stop (Given × List String)
  | [] => if pending.isSome then .error .misuse else .ok (g, [])
  | word :: rest =>
    match formOf word, pending with
    | .separator, some _ => .error .misuse
    | .separator, none => do
      let g ← rest.foldlM gr.takeWord g
      return (g, [])
    | .plain, some o => do
      let g ← takeValue g o word
      gr.readFrom g none rest
    | .plain, none =>
      if gr.slots.isEmpty && gr.more.isNone then .ok (g, word :: rest)
      else do
        let g ← gr.takeWord g word
        gr.readFrom g none rest
    | .long _, some _ | .letters _, some _ => .error .misuse
    | .long body, none => do
      let (g, pending) ← gr.takeLong g body
      gr.readFrom g pending rest
    | .letters body, none => do
      let g ← gr.takeLetters g body
      gr.readFrom g none rest

/-- Reads a level. Its words have to be complete. -/
def read (gr : Grammar) (words : List String) : Except Stop (Given × List String) := do
  let (g, rest) ← gr.readFrom .empty none words
  if g.words.length < gr.slots.length + (if gr.more.isSome then 1 else 0) then throw .misuse
  return (g, rest)

end Grammar

end DesignDeps.CommandLine
