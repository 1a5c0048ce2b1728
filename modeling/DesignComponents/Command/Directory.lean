/-! Files that a command reads, and why one cannot be read. A path is walked step by step through
a directory in memory: a step may stay, go up, enter a directory or come to a file, and no
step leads on from a file. -/

namespace DesignComponents.Command

inductive ReadError where
  | notFound
  | isDirectory
  | notDirectory
  | nameTooLong
  /-- The bytes are not text. -/
  | notText
  deriving DecidableEq, Repr

namespace ReadError

def message : ReadError → String
  | notFound => "No such file or directory (os error 2)"
  | isDirectory => "Is a directory (os error 21)"
  | notDirectory => "Not a directory (os error 20)"
  | nameTooLong => "File name too long (os error 36)"
  | notText => "stream did not contain valid UTF-8"

end ReadError

/-- How many bytes a path may have. -/
def pathLimit : Nat := 4095

/-- How many bytes one step of a path may have. -/
def stepLimit : Nat := 255

/-- The path of the device that reads as an empty text. -/
def nullDevice : String := "/dev/null"

/-- Files by their paths; there is no content where the bytes are not text. -/
structure Directory where
  files : List (String × Option String)

/-- Where a path has led so far: to a directory inside, by its steps, or out of the directory. -/
inductive Place where
  | inside (way : List String)
  | outside
  deriving DecidableEq, Repr

namespace Place

def up : Place → Place
  | inside [] => outside
  | inside (s :: way) => inside (s :: way).dropLast
  | outside => outside

end Place

namespace Directory

/-- The names between the slashes of a path. -/
def names (path : String) : List String :=
  (path.splitOn "/").filter (· ≠ "")

/-- The steps of a path; a slash at the end is a step that stays. -/
def steps (path : String) : List String :=
  names path ++ if path.endsWith "/" then ["."] else []

/-- Goes on from a place. Of what is outside only the directories above are known. -/
def walk (d : Directory) : Place → List String → Except ReadError String
  | _, [] => .error .isDirectory
  | place, step :: rest =>
    if step = "." then d.walk place rest
    else if step = ".." then d.walk place.up rest
    else if stepLimit < step.utf8ByteSize then .error .nameTooLong
    else
      match place with
      | .outside => .error .notFound
      | .inside way =>
        let way := way ++ [step]
        match d.files.find? fun f => names f.1 = way with
        | some (_, some text) => if rest.isEmpty then .ok text else .error .notDirectory
        | some (_, none) => .error (if rest.isEmpty then .notText else .notDirectory)
        | none =>
          if d.files.any fun f => way.isPrefixOf (names f.1) then d.walk (.inside way) rest
          else .error .notFound

/-- Reads the file at a path. -/
def read (d : Directory) (path : String) : Except ReadError String :=
  if path = "" then .error .notFound
  else if path = nullDevice then .ok ""
  else if pathLimit < path.utf8ByteSize then .error .nameTooLong
  else d.walk (if path.startsWith "/" then .outside else .inside []) (steps path)

end Directory

end DesignComponents.Command
