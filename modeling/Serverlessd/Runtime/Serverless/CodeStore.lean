import Serverlessd.Lib.FileSystem

open FileSystem

namespace Serverlessd

inductive CodeStoreError
  | invalidName (name : String)
  | ioError
  deriving DecidableEq

def validName (name : String) : Bool :=
  !name.toList.isEmpty && name.toList.all fun c => c.isDigit || c.isAlpha || c = '-' || c = '.'

structure Io where
  dirExists : Bool := true
  gitignore : WriteOutcome := .ok
  write : WriteOutcome := .ok
  ok : Bool := true
  deriving DecidableEq

namespace CodeStore

def parent : List Char := ".serverlessd/".toList

def codeDir : List Char := Path.join parent "workers/".toList

def checkFs (fs : FileSystem) (io : Io) : FileSystem :=
  let fs := fs.call (.exists codeDir)
  if io.dirExists then fs
  else
    let fs := fs.call (.createDirAll codeDir)
    (fs.write (Path.join parent ".gitignore".toList) "*".toUTF8 io.gitignore).1

def fileName (name : String) : List Char := name.toList ++ ".js".toList

def codePath (name : String) : List Char := Path.join codeDir (fileName name)

def uploadWorkerCode (fs : FileSystem) (io : Io) (name : String) (code : ByteArray) :
    FileSystem × Except CodeStoreError Unit :=
  if validName name then
    match (checkFs fs io).write (codePath name) code io.write with
    | (fs, true) => (fs, .ok ())
    | (fs, false) => (fs, .error .ioError)
  else (fs, .error (.invalidName name))

def removeWorkerCode (fs : FileSystem) (io : Io) (name : String) : FileSystem :=
  (checkFs fs io).remove (codePath name) io.ok

def getWorkerCode (fs : FileSystem) (io : Io) (name : String) : FileSystem × Option String :=
  let (fs, content) := (checkFs fs io).read (codePath name) io.ok
  (fs, content.bind String.fromUTF8?)

end CodeStore

inductive StoreOp
  | upload (name : String) (code : ByteArray)
  | get (name : String)
  | remove (name : String)

namespace StoreOp

def name : StoreOp → String
  | .upload name _ => name
  | .get name => name
  | .remove name => name

def isUpload : StoreOp → Bool
  | .upload _ _ => true
  | _ => false

def run (fs : FileSystem) (io : Io) : StoreOp → FileSystem
  | .upload name code => (CodeStore.uploadWorkerCode fs io name code).1
  | .get name => (CodeStore.getWorkerCode fs io name).1
  | .remove name => CodeStore.removeWorkerCode fs io name

end StoreOp

end Serverlessd
