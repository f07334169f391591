import DesignDeps.Yaml.Token.Lexer

/-!
# From tokens to events

A document as a sequence of events: scalars, references, and the beginnings and ends of sequences
and mappings. Parts that were left out of the document appear as empty plain scalars, and tags have
their shorthands replaced.

What is expected next is a `Goal`; the goals of the collections around it wait on a stack. Every
step emits one event at most, and the steps are limited by the number of tokens, since no more than
three in a row leave the tokens alone.
-/

namespace DesignDeps.Yaml

structure Marks where
  anchor : Option String
  tag : Option String
  deriving DecidableEq, Inhabited

inductive Event
  | documentStart
  | documentEnd
  | alias (name : String)
  | scalar (marks : Marks) (s : Scalar)
  | sequenceStart (marks : Marks)
  | sequenceEnd
  | mappingStart (marks : Marks)
  | mappingEnd
  deriving DecidableEq, Inhabited

inductive Goal
  /-- A document; only the first one may begin without a mark. -/
  | document (first : Bool)
  | content
  | documentEnd
  | sequence (first : Bool)
  /-- A sequence in a mapping that is indented no further than its key. -/
  | bareSequence
  | mappingKey (first : Bool)
  | mappingValue
  | flowSequence (first : Bool)
  | pairKey
  | pairValue
  | pairEnd
  | flowKey (first : Bool)
  | flowValue (absent : Bool)
  | done
  deriving DecidableEq, Inhabited

structure EventReader where
  tokens : List Token
  goal : Goal
  waiting : List Goal
  /-- Tag shorthands that the document declares. -/
  shorthands : List (String × String)
  events : List Event

namespace EventReader

def next (r : EventReader) : Token := r.tokens.head?.getD .streamEnd

def skip (r : EventReader) : EventReader := { r with tokens := r.tokens.drop 1 }

def emit (r : EventReader) (e : Event) : EventReader := { r with events := e :: r.events }

def towards (r : EventReader) (goal : Goal) : EventReader := { r with goal }

def back (r : EventReader) : EventReader :=
  { r with goal := r.waiting.head?.getD .done, waiting := r.waiting.drop 1 }

def await (r : EventReader) (goal : Goal) : EventReader := { r with waiting := goal :: r.waiting }

def absent (r : EventReader) : EventReader := r.emit (.scalar ⟨none, none⟩ ⟨"", true⟩)

def fullTag (r : EventReader) (handle suffix : String) : Except Fault String :=
  if handle = "" then .ok suffix
  else
    match r.shorthands.lookup handle with
    | some lead => .ok (lead ++ suffix)
    | none =>
      if handle = "!" then .ok ("!" ++ suffix)
      else if handle = "!!" then .ok ("tag:yaml.org,2002:" ++ suffix)
      else .error .undefinedTag

/-- An anchor and a tag in front of a node, in either order. -/
def marks (r : EventReader) : Except Fault (Marks × EventReader) := do
  match r.tokens with
  | .anchor name :: .tag handle suffix :: tokens
  | .tag handle suffix :: .anchor name :: tokens =>
    return (⟨some name, some (← r.fullTag handle suffix)⟩, { r with tokens })
  | .anchor name :: tokens => return (⟨some name, none⟩, { r with tokens })
  | .tag handle suffix :: tokens =>
    return (⟨none, some (← r.fullTag handle suffix)⟩, { r with tokens })
  | _ => return (⟨none, none⟩, r)

def withoutContent (r : EventReader) (marks : Marks) : Except Fault EventReader :=
  if marks = ⟨none, none⟩ then .error .unexpectedToken
  else .ok (r.back.emit (.scalar marks ⟨"", true⟩))

/-- A node, after which what waits goes on. -/
def node (r : EventReader) (inBlock bareAllowed : Bool) : Except Fault EventReader := do
  if let .alias name := r.next then return (r.skip.back).emit (.alias name)
  let (marks, r) ← r.marks
  match r.next with
  | .blockEntry =>
    if bareAllowed then return (r.towards .bareSequence).emit (.sequenceStart marks)
    else r.withoutContent marks
  | .scalar s => return (r.skip.back).emit (.scalar marks s)
  | .flowSequenceStart => return (r.towards (.flowSequence true)).emit (.sequenceStart marks)
  | .flowMappingStart => return (r.towards (.flowKey true)).emit (.mappingStart marks)
  | .blockSequenceStart =>
    if inBlock then return (r.towards (.sequence true)).emit (.sequenceStart marks)
    else r.withoutContent marks
  | .blockMappingStart =>
    if inBlock then return (r.towards (.mappingKey true)).emit (.mappingStart marks)
    else r.withoutContent marks
  | _ => r.withoutContent marks

def nodeOrAbsent (r : EventReader) (ends : List Token) (inBlock bareAllowed : Bool) (goal : Goal) :
    Except Fault EventReader :=
  if ends.contains r.next then .ok (r.towards goal).absent
  else (r.await goal).node inBlock bareAllowed

-- ---------------------------------------------------------------------------
-- Documents
-- ---------------------------------------------------------------------------

/-- The directives in front of a document. -/
def directives (seenVersion : Bool) (shorthands : List (String × String)) :
    List Token → Except Fault (List (String × String) × List Token)
  | .version major minor :: tokens =>
    if seenVersion || major != 1 || !(minor == 1 || minor == 2) then .error .badDirective
    else directives true shorthands tokens
  | .tagShorthand handle lead :: tokens =>
    if (shorthands.lookup handle).isSome then .error .badDirective
    else directives seenVersion (shorthands ++ [(handle, lead)]) tokens
  | tokens => .ok (shorthands, tokens)

def isDirective : Token → Bool
  | .version .. | .tagShorthand .. => true
  | _ => false

def document (r : EventReader) (first : Bool) : Except Fault EventReader := do
  let tokens := if first then r.tokens else r.tokens.dropWhile (· == .documentEnd)
  let r := { r with tokens }
  if r.next = .streamEnd then return r.towards .done
  else if first && !isDirective r.next && r.next ≠ .documentStart then
    -- nothing marks the start, and whatever comes is the document's node
    ((r.emit .documentStart).await .documentEnd).node true false
  else
    let (shorthands, tokens) ← directives false [] r.tokens
    match tokens with
    | .documentStart :: tokens =>
      return ({ r with tokens, shorthands }.await .documentEnd |>.towards .content).emit .documentStart
    | _ => .error .unexpectedToken

def content (r : EventReader) : Except Fault EventReader :=
  if isDirective r.next || [Token.documentStart, .documentEnd, .streamEnd].contains r.next then
    .ok r.back.absent
  else r.node true false

-- ---------------------------------------------------------------------------
-- Collections
-- ---------------------------------------------------------------------------

def sequence (r : EventReader) : Except Fault EventReader :=
  match r.next with
  | .blockEntry => r.skip.nodeOrAbsent [.blockEntry, .blockEnd] true false (.sequence false)
  | .blockEnd => .ok (r.skip.back.emit .sequenceEnd)
  | _ => .error .unexpectedToken

def bareSequence (r : EventReader) : Except Fault EventReader :=
  match r.next with
  | .blockEntry =>
    r.skip.nodeOrAbsent [.blockEntry, .key, .value, .blockEnd] true false .bareSequence
  | _ => .ok (r.back.emit .sequenceEnd)

def mappingKey (r : EventReader) : Except Fault EventReader :=
  match r.next with
  | .key => r.skip.nodeOrAbsent [.key, .value, .blockEnd] true true .mappingValue
  | .blockEnd => .ok (r.skip.back.emit .mappingEnd)
  | _ => .error .unexpectedToken

def mappingValue (r : EventReader) : Except Fault EventReader :=
  match r.next with
  | .value => r.skip.nodeOrAbsent [.key, .value, .blockEnd] true true (.mappingKey false)
  | _ => .ok (r.towards (.mappingKey false)).absent

def separated (r : EventReader) (first : Bool) : Except Fault EventReader :=
  if first then .ok r
  else if r.next = .flowEntry then .ok r.skip
  else .error .unexpectedToken

def flowSequence (r : EventReader) (first : Bool) : Except Fault EventReader := do
  if r.next = .flowSequenceEnd then return r.skip.back.emit .sequenceEnd
  else
    let r ← r.separated first
    match r.next with
    | .key => return (r.skip.towards .pairKey).emit (.mappingStart ⟨none, none⟩)
    | .flowSequenceEnd => return r.skip.back.emit .sequenceEnd
    | _ => (r.await (.flowSequence false)).node false false

def pairKey (r : EventReader) : Except Fault EventReader :=
  if [Token.value, .flowEntry, .flowSequenceEnd].contains r.next then
    .ok (r.skip.towards .pairValue).absent
  else (r.await .pairValue).node false false

def pairValue (r : EventReader) : Except Fault EventReader :=
  match r.next with
  | .value => r.skip.nodeOrAbsent [.flowEntry, .flowSequenceEnd] false false .pairEnd
  | _ => .ok (r.towards .pairEnd).absent

def flowKey (r : EventReader) (first : Bool) : Except Fault EventReader := do
  if r.next = .flowMappingEnd then return r.skip.back.emit .mappingEnd
  else
    let r ← r.separated first
    match r.next with
    | .key => r.skip.nodeOrAbsent [.value, .flowEntry, .flowMappingEnd] false false (.flowValue false)
    | .flowMappingEnd => return r.skip.back.emit .mappingEnd
    | _ => (r.await (.flowValue true)).node false false

def flowValue (r : EventReader) (absent : Bool) : Except Fault EventReader :=
  if absent then .ok (r.towards (.flowKey false)).absent
  else
    match r.next with
    | .value => r.skip.nodeOrAbsent [.flowEntry, .flowMappingEnd] false false (.flowKey false)
    | _ => .ok (r.towards (.flowKey false)).absent

-- ---------------------------------------------------------------------------
-- Steps
-- ---------------------------------------------------------------------------

def opened (r : EventReader) (first : Bool) : EventReader :=
  if first then r.skip else r

def step (r : EventReader) : Except Fault EventReader :=
  match r.goal with
  | .document first => r.document first
  | .content => r.content
  | .documentEnd =>
    .ok (((if r.next = .documentEnd then r.skip else r).towards (.document false)).emit .documentEnd)
  | .sequence first => (r.opened first).sequence
  | .bareSequence => r.bareSequence
  | .mappingKey first => (r.opened first).mappingKey
  | .mappingValue => r.mappingValue
  | .flowSequence first => (r.opened first).flowSequence first
  | .pairKey => r.pairKey
  | .pairValue => r.pairValue
  | .pairEnd => .ok ((r.towards (.flowSequence false)).emit .mappingEnd)
  | .flowKey first => (r.opened first).flowKey first
  | .flowValue absent => r.flowValue absent
  | .done => .ok r

def runWithin : Nat → EventReader → Except Fault (List Event)
  | 0, _ => .error .unexpectedToken
  | n + 1, r => if r.goal = .done then .ok r.events.reverse else do runWithin n (← r.step)

end EventReader

def Event.ofTokens? (tokens : List Token) : Except Fault (List Event) :=
  EventReader.runWithin (4 * tokens.length + 8) ⟨tokens, .document true, [], [], []⟩

end DesignDeps.Yaml
