import Adequacy.Blank
import Adequacy.FileTree
import Adequacy.HarnessScript
import Adequacy.NodeReply

namespace Adequacy

/-- What a program finds around it: files, and the variables that matter here. -/
structure Environment where
  files : FileTree
  /- The working directory. -/
  directory : String
  home : String
  /- Where programs are looked for, with colons between the directories. -/
  searchPath : String
  nodeBinary : Option String
  cacheHome : String

namespace Environment

def isPresent (env : Environment) (path : String) : Bool :=
  !path.isEmpty && env.files.isPresent (Path.join env.directory path)

def isExecutable (env : Environment) (path : String) : Bool :=
  !path.isEmpty && env.files.isExecutable (Path.join env.directory path)

/-- Where `node` is looked for: the path that is named for that purpose, the search path, and the
directories of two version managers. -/
def namedNodes (env : Environment) : List String :=
  (env.nodeBinary.map (Path.expandHome env.home)).toList

def searchedNodes (env : Environment) : List String :=
  (env.searchPath.splitOn ":").map fun directory =>
    Path.join (Path.expandHome env.home directory) "node"

def managedNodes (env : Environment) : List String :=
  [".nvm/current/bin/node", ".volta/bin/node"].map (Path.join env.home)

/-- The first `node` there is. Only the search path asks for an executable file. -/
def findNode? (env : Environment) : Option String :=
  (env.namedNodes.filter env.isPresent ++ env.searchedNodes.filter env.isExecutable ++
    env.managedNodes.filter env.isPresent).head?

/-- The directory that the harness is kept in. -/
def cacheDirectory (env : Environment) : String :=
  let base :=
    if Path.isAbsolute env.cacheHome then env.cacheHome else Path.join env.home ".cache"
  Path.join base "js-adequacy"

def scriptName : String := "js-adequacy-harness.mjs"

def lockName : String := "js-adequacy-harness.lock"

def scriptFault (action : String) (fault : FileFault) : NodeError :=
  .scriptFailed s!"failed to {action}: {fault.message}"

/-- Puts the harness into the cache, and what has become of the files. A harness that is there
already is left alone; otherwise a lock file is left beside it. -/
def prepareScript (env : Environment) : Except NodeError Unit × FileTree :=
  let directory := env.cacheDirectory
  let script := Path.join directory scriptName
  match env.files.createDirectories [] (directory.splitOn "/") with
  | .error fault => (.error (scriptFault "create cache dir" fault), env.files)
  | .ok files =>
    if (files.readText script).toOption = some harnessScript then (.ok (), files)
    else
      match files.touch (Path.join directory lockName) with
      | .error fault => (.error (scriptFault "open lock file" fault), files)
      | .ok locked =>
        match locked.writeText script harnessScript with
        | .error fault => (.error (scriptFault "write harness script" fault), locked)
        | .ok written => (.ok (), written)

/-- The path of `node`: the given one, which has to be there, or else the one that is found. -/
def discoverNode (env : Environment) (explicit : Option String) : Except NodeError String := do
  let path ← match explicit with
    | some path => pure (Path.expandHome env.home path)
    | none =>
      match env.findNode? with
      | some path => pure path
      | none => throw .notInstalled
  if !env.isPresent path then throw (.notFound path)
  env.prepareScript.1
  return path

end Environment

/-- What `node --version` said, and how it ended. -/
def nodeVersion (stdout : String) (code : Nat) (stderr : String) : Except NodeError String :=
  if code = 0 then .ok (trim stdout) else .error (.processFailed code stderr)

end Adequacy
