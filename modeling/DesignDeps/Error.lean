import DesignDeps.Path

/-!
# What ends a run

Every failure is a cause; its wording is `Error.message`. Names that resolve to nothing are no
failures, except for the root of a run.
-/

namespace DesignDeps

inductive IoError
  | notFound
  | alreadyExists
  | notDirectory
  | isDirectory
  | nameTooLong
  | tooManyLinks
  | permissionDenied
  | noSpace
  | notUtf8
  deriving DecidableEq, Inhabited

def IoError.message : IoError → String
  | .notFound => "No such file or directory (os error 2)"
  | .alreadyExists => "File exists (os error 17)"
  | .notDirectory => "Not a directory (os error 20)"
  | .isDirectory => "Is a directory (os error 21)"
  | .nameTooLong => "File name too long (os error 36)"
  | .tooManyLinks => "Too many levels of symbolic links (os error 40)"
  | .permissionDenied => "Permission denied (os error 13)"
  | .noSpace => "No space left on device (os error 28)"
  | .notUtf8 => "stream did not contain valid UTF-8"

inductive ConfigFault
  | noVariants
  | badVariant (variant : String)
  | emptyRoot
  | emptyIgnoreFile
  /-- A writer was built without variants, past any validation. -/
  | writerWithoutVariants
  deriving DecidableEq, Inhabited

def ConfigFault.message : ConfigFault → String
  | .noVariants => "at least one output variant is required"
  | .badVariant variant =>
    "variant name '" ++ variant ++ "' must not contain path separators or whitespace"
  | .emptyRoot => "root module name is empty"
  | .emptyIgnoreFile => "ignore file name is empty"
  | .writerWithoutVariants => "no output variants"

inductive Error
  | io (path : Path) (cause : IoError)
  | missingRoot (name : String)
  | malformedOverrides (file : Path)
  | overrideCycle (file : Path)
  | invalidConfig (fault : ConfigFault)
  deriving DecidableEq, Inhabited

def Error.message : Error → String
  | .io path cause => "I/O error on " ++ path.text ++ ": " ++ cause.message
  | .missingRoot name => "Could not find module " ++ name
  | .malformedOverrides file => "Failed to parse substitution file " ++ file.text
  | .overrideCycle file => "Substitution file " ++ file.text ++ " includes itself"
  | .invalidConfig fault => "Invalid configuration: " ++ fault.message

end DesignDeps
