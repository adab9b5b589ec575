import ClassHoist.Glob
import ClassHoist.Json.Token
import ClassHoist.Path

/-! # Why a run cannot start

These errors are found before the first file is processed.
-/

namespace ClassHoist

/-- Why a run cannot start: the configuration file is not there or holds no text, or it holds no
configuration; a pattern of files to leave out is no glob; or there is no file or folder at a path
that is to be processed. -/
inductive RunError where
  | unreadableConfig (path : Path)
  | invalidConfig (path : Path) (problem : Json.Problem)
  | invalidGlob (pattern : Text) (problem : Glob.Problem)
  | missingPath (path : Path)
  deriving DecidableEq, Repr

/-- The wording of a problem with a configuration. -/
def Json.Problem.message : Json.Problem → String
  | .ended => "the text ends too early"
  | .malformed => "the text is not JSON"
  | .unsuitable => "a key or a value is not one of those expected"

/-- The wording of an error. -/
def RunError.message : RunError → String
  | .unreadableConfig path => s!"failed to read config {path}"
  | .invalidConfig path problem => s!"invalid config {path}: {problem.message}"
  | .invalidGlob pattern problem =>
    s!"invalid glob pattern: error parsing glob '{String.ofList pattern}': {problem.message}"
  | .missingPath path => s!"path does not exist: {path}"

/-- Why the current folder is not known: it could not be found out, or its path is no text and can
only be shown. -/
inductive FolderError where
  | unknown
  | notText (shown : String)
  deriving DecidableEq, Repr

/-- Why nothing is processed at all: the workspace is relative to a folder that is not known, or the
run cannot be planned. -/
inductive StartError where
  | noFolder (error : FolderError)
  | noPlan (error : RunError)
  deriving DecidableEq, Repr

/-- The wording of a problem with the current folder. -/
def FolderError.message : FolderError → String
  | .unknown => "could not determine the current directory"
  | .notText shown => s!"path is not valid UTF-8: {shown}"

/-- The wording of the reason for which nothing is processed. -/
def StartError.message : StartError → String
  | .noFolder error => error.message
  | .noPlan error => error.message

end ClassHoist
