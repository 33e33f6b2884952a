/-!
# File errors

Why an operation on files failed.  The long text of an error ends with the number
that the system gives it; the brief text leaves that number out.
-/

namespace Conch

inductive FileError where
  | notFound
  | permissionDenied
  | notDirectory
  | isDirectory
  | tooManyLinks
  | nameTooLong
  | noSpace
  /-- The path holds a null character, which no system call accepts. -/
  | nullInPath
  /-- The content is not text. -/
  | notText
  /-- Any other system error, by its number and text. -/
  | other (number : Nat) (text : String)
  deriving DecidableEq, Repr

namespace FileError

def brief : FileError → String
  | notFound => "No such file or directory"
  | permissionDenied => "Permission denied"
  | notDirectory => "Not a directory"
  | isDirectory => "Is a directory"
  | tooManyLinks => "Too many levels of symbolic links"
  | nameTooLong => "File name too long"
  | noSpace => "No space left on device"
  | nullInPath => "file name contained an unexpected NUL byte"
  | notText => "stream did not contain valid UTF-8"
  | other _ text => text

/-- The number of the system error; the errors found before any system call have none. -/
def number? : FileError → Option Nat
  | notFound => some 2
  | permissionDenied => some 13
  | notDirectory => some 20
  | isDirectory => some 21
  | tooManyLinks => some 40
  | nameTooLong => some 36
  | noSpace => some 28
  | other number _ => some number
  | nullInPath | notText => none

def message (e : FileError) : String :=
  match e.number? with
  | some number => e.brief ++ " (os error " ++ toString number ++ ")"
  | none => e.brief

end FileError

end Conch
