/-
# Reading files

A file is read if its path leads to a file that is not too large; everything else is an error with
a cause.  `SourceFile.trace` tells the log how the reading went, from its result alone.
-/
import StyleLex.Files.Entry
import StyleLex.Files.Path
import StyleLex.Files.Size
import StyleLex.Lines
import StyleLex.Log.Event

namespace StyleLex

/-! ## 1. What is known of a file before it is read -/

structure FileInfo where
  /-- The full path. -/
  path : String
  size : Nat
  modified : Option Timestamp := none
  deriving DecidableEq, Repr

namespace FileInfo

def extension? (info : FileInfo) : Option String := Path.extension? info.path

def isStyleSheet (info : FileInfo) : Bool := Path.isStyleSheet info.path

def renderSize (info : FileInfo) : String := FileSize.render info.size

def isLarge (info : FileInfo) : Bool := FileSize.isLarge info.size

/-- The extension in words. -/
def extensionName (info : FileInfo) : String := info.extension?.getD "none"

end FileInfo

/-! ## 2. Errors -/

inductive FileError where
  | emptyPath
  | notFound (path : String)
  /-- Something stands at the path, but no file. -/
  | notAFile (path : String)
  | tooLarge (info : FileInfo)
  | unreadable (info : FileInfo) (obstacle : Obstacle)
  deriving DecidableEq, Repr

namespace FileError

def code : FileError → Code
  | emptyPath => .pathInvalid
  | notFound _ => .fileNotFound
  | notAFile _ => .pathInvalid
  | tooLarge _ => .fileTooLarge
  | unreadable _ .notFound => .fileNotFound
  | unreadable _ .denied => .permissionDenied
  | unreadable _ _ => .fileUnreadable

def message : FileError → String
  | emptyPath => "Invalid file path: "
  | notFound path => "File not found: " ++ path
  | notAFile path => "Invalid file path: " ++ path
  | tooLarge info =>
    "File too large: " ++ toString info.size ++ " bytes (max: " ++ toString FileSize.limit ++ ")"
  | unreadable info .notFound => "File not found: " ++ info.path
  | unreadable info .denied => "Permission denied: " ++ info.path
  | unreadable info obstacle =>
    "I/O error reading file: Failed to read '" ++ info.path ++ "': " ++ obstacle.message

end FileError

/-! ## 3. Reading -/

structure SourceFile where
  info : FileInfo
  bytes : Array UInt8
  deriving DecidableEq, Repr

namespace SourceFile

/-- The file at `path`, where `entry` stands. -/
def read (path : String) (entry : Entry) : Except FileError SourceFile :=
  if path.isEmpty then .error .emptyPath
  else
    match entry with
    | .absent _ => .error (.notFound path)
    | .directory => .error (.notAFile path)
    | .file file =>
      let info : FileInfo := ⟨file.path, file.size, file.modified⟩
      if FileSize.limit < info.size then .error (.tooLarge info)
      else
        match file.content with
        | .ok bytes => .ok ⟨info, bytes⟩
        | .error obstacle => .error (.unreadable info obstacle)

/-- Lines as the lexer counts them. -/
def lineCount (file : SourceFile) : Nat := (LineIndex.ofSource file.bytes).lineCount

/-- The bytes that begin a code point. -/
def codepointCount (bytes : Array UInt8) : Nat :=
  bytes.foldl (fun n b => if Utf8.isContinuation b then n else n + 1) 0

/-- Nothing but blanks? -/
def isBlank (bytes : Array UInt8) : Bool := bytes.all Byte.isBlank

/-- Bytes by millisecond; none if no time has passed. -/
def rate (bytes : Array UInt8) (taken : Duration) : Float :=
  if 0.0 < taken.milliseconds then Float.ofNat bytes.size / taken.milliseconds else 0.0

/-! ## 4. Telling -/

/-- How much is told of a file that was read. -/
inductive Detail where
  /-- Numbers of the work, and a remark on a file that is no style sheet. -/
  | full
  | plain
  deriving DecidableEq, Repr

/-- What is told once a path was found to lead to a file. -/
def foundEvents (info : FileInfo) : List Event :=
  [ (Event.debug "Path validation successful").withDetail "canonical_path" info.path,
    (Event.debug "File metadata collected").withDetails
      [ ("size_bytes", toString info.size),
        ("size_human", info.renderSize),
        ("extension", info.extensionName),
        ("is_stylesheet", Event.wordOf info.isStyleSheet),
        ("modified", (info.modified.map Timestamp.render).getD "") ] ]

/-- What is told of a failure; `path` is the path that was asked for. -/
def errorEvents (path : String) : FileError → List Event
  | .emptyPath => [Event.error .pathInvalid "Empty file path provided"]
  | .notFound _ =>
    [(Event.error .fileNotFound "File not found").withDetail "path" path]
  | .notAFile _ =>
    [(Event.error .pathInvalid "Path is not a file").withDetail "path" path]
  | .tooLarge info =>
    foundEvents info ++
      [ (Event.error .fileTooLarge "File exceeds the maximum size limit").withDetails
          [ ("file", path),
            ("size_bytes", toString info.size),
            ("size_human", info.renderSize),
            ("limit_bytes", toString FileSize.limit) ] ]
  | .unreadable info obstacle =>
    foundEvents info ++
      [ (Event.error (FileError.unreadable info obstacle).code
            "File system operation failed").withDetails
          [("path", info.path), ("operation", "read"), ("io_error", obstacle.message)] ]

/-- What is told of a file that was read. -/
def readEvents (detail : Detail) (path : String) (taken : Duration) (file : SourceFile) :
    List Event :=
  let info := file.info
  let common :=
    [ ("file", path),
      ("size_bytes", toString info.size),
      ("lines", toString file.lineCount),
      ("duration_ms", Decimal.fixed 2 taken.milliseconds) ]
  match detail with
  | .plain => [(Event.success .fileRead "File processed successfully").withDetails common]
  | .full =>
    (Event.success .fileRead "File processed successfully with performance metrics").withDetails
      (common ++
        [ ("size_human", info.renderSize),
          ("codepoints", toString (codepointCount file.bytes)),
          ("bytes_per_ms", Decimal.fixed 2 (rate file.bytes taken)),
          ("is_large_file", Event.wordOf info.isLarge) ]) ::
    (if info.isStyleSheet then []
     else
      [ (Event.debug "Processing file without a stylesheet extension").withDetails
          [("extension", info.extensionName), ("file", path)] ])

/-- How the reading of `path` went. -/
def trace (detail : Detail) (path : String) (taken : Duration)
    (result : Except FileError SourceFile) : List Event :=
  (Event.debug "Starting file processing").withDetail "file" path ::
    match result with
    | .error error => errorEvents path error
    | .ok file => foundEvents file.info ++ readEvents detail path taken file

end SourceFile
end StyleLex
