/-!
# Tokens of a document

Braces and dashes, names, scalars with their text already folded and unescaped, and the openers and
closers of blocks that stand in the document as indentation only.
-/

namespace DesignDeps.Yaml

structure Scalar where
  text : String
  /-- Written without quotes and not as a block, so that it may be more than a text. -/
  isPlain : Bool
  deriving DecidableEq, Inhabited

inductive Token
  | version (major minor : Nat)
  | tagShorthand (handle lead : String)
  | documentStart
  | documentEnd
  | streamEnd
  | blockSequenceStart
  | blockMappingStart
  | blockEnd
  | flowSequenceStart
  | flowSequenceEnd
  | flowMappingStart
  | flowMappingEnd
  | blockEntry
  | flowEntry
  | key
  | value
  | alias (name : String)
  | anchor (name : String)
  | tag (handle suffix : String)
  | scalar (s : Scalar)
  deriving DecidableEq, Inhabited

end DesignDeps.Yaml
