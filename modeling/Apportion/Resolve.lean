import Apportion.Path.Relative
import Apportion.Json.Reader
import Apportion.Json.Decode
import Apportion.Workspace

/-!
Module resolution: which file a specifier leads to. Relative and absolute specifiers lead to files
of the project; bare ones are sought among installed packages, in the directories above. Specifiers
of installed packages and URLs are external, and no file is named for them.
-/
namespace Apportion

inductive Resolution
  | project (path : Path)
  | external
  | unresolved
  deriving Repr

def Resolution.isResolved : Resolution → Bool
  | unresolved => false
  | _ => true

inductive Strategy
  | relative
  | installed
  deriving DecidableEq, Repr

/-- The extensions tried where a specifier has none, and the manifest fields that name an installed
package's entry, both in order. -/
structure Resolver where
  extensions : List String
  mainFields : List String
  deriving DecidableEq, Repr

namespace Resolver
variable {m : Type → Type} [Monad m] [Workspace m]

/-! ## Files -/

def isFile (path : Path) : m Bool := do
  if ← Workspace.isPresent path then return !(← Workspace.isDirectory (m := m) path) else return false

/-- The first path of a list that is a file. -/
def firstFile : List Path → m (Option Path)
  | [] => return none
  | path :: paths => do
    if ← isFile (m := m) path then return some path else firstFile paths

/-- The files that a path can stand for: itself, itself with an extension, and the index file of the
directory there. -/
def candidates (extensions : List String) (base : Path) : List Path :=
  base :: extensions.map (fun e => ⟨base.text ++ e⟩) ++
    extensions.map fun e => base.join ⟨"index" ++ e⟩

def resolveFile (r : Resolver) (base : Path) : m (Option Path) :=
  firstFile (candidates r.extensions base)

/-! ## Relative specifiers -/

/-- Whether a specifier counts from the directory of the file it stands in, or from the root. -/
def isRelative (specifier : String) : Bool :=
  Path.isExplicit specifier || specifier.toList.head? == some '/'

def resolveRelative (r : Resolver) (directory : Path) (specifier : String) : m Resolution := do
  if !isRelative specifier then return .unresolved
  match ← r.resolveFile (m := m) (directory.join ⟨specifier⟩).normalize with
  | some path => return .project path
  | none => return .unresolved

/-! ## Installed packages -/

def packageDirectory : String := "node_modules"

def packageManifest : String := "package.json"

/-- Cuts a text before its `n`-th slash; the part behind that slash is absent if there is none. -/
def cutAtSlash : Nat → List Char → List Char × Option (List Char)
  | _, [] => ([], none)
  | n, c :: cs =>
    if c = '/' ∧ n ≤ 1 then ([], some cs)
    else
      let (before, after) := cutAtSlash (if c = '/' then n - 1 else n) cs
      (c :: before, after)

/-- A package name, which has two segments in a scope, and the path within the package. -/
def splitPackage (specifier : String) : String × Option String :=
  let text := specifier.toList
  let (name, inner) := cutAtSlash (if text.head? == some '@' then 2 else 1) text
  (String.ofList name, inner.map String.ofList)

def manifestEntries (fields : List String) (manifest : Json) : List String :=
  fields.filterMap fun key => (Json.field? key manifest).bind Json.decodeString

def readManifest (text : Except FsError String) : Option Json :=
  match text with
  | .ok text => (Json.readPlain text).map Json.keepLast
  | .error _ => none

/-- The first base path that leads to a file. -/
def firstResolved (r : Resolver) : List Path → m (Option Path)
  | [] => return none
  | base :: bases => do
    match ← r.resolveFile (m := m) base with
    | some path => return some path
    | none => r.firstResolved bases

/-- The entry of an installed package: what its manifest names, or its index file. -/
def packageEntry (r : Resolver) (directory : Path) : m (Option Path) := do
  let manifest := readManifest (← Workspace.read (m := m) (directory.join ⟨packageManifest⟩))
  let entries := (manifest.map (manifestEntries r.mainFields)).getD []
  r.firstResolved (entries.map (fun entry => (directory.join ⟨entry⟩).normalize) ++
    [directory.join ⟨"index"⟩])

/-- Whether a package is found from one of the directories on, the first ones first. -/
def findInstalled (r : Resolver) (name : String) (inner : Option String) : List Path → m Bool
  | [] => return false
  | directory :: directories => do
    let package := (directory.join ⟨packageDirectory⟩).join ⟨name⟩
    if ← Workspace.isDirectory (m := m) package then
      let found ← match inner with
        | some inner => r.resolveFile (m := m) (package.join ⟨inner⟩)
        | none => r.packageEntry (m := m) package
      if found.isSome then return true
    r.findInstalled name inner directories

def resolveInstalled (r : Resolver) (directory : Path) (specifier : String) : m Resolution := do
  if isRelative specifier || Path.isExternalUrl specifier then return .unresolved
  let (name, inner) := splitPackage specifier
  if ← r.findInstalled (m := m) name inner directory.ancestors then return .external
  else return .unresolved

/-! ## Strategies in turn -/

def resolveBy (r : Resolver) (strategy : Strategy) (directory : Path) (specifier : String) :
    m Resolution :=
  match strategy with
  | .relative => r.resolveRelative directory specifier
  | .installed => r.resolveInstalled directory specifier

def resolveFirst (r : Resolver) (directory : Path) (specifier : String) :
    List Strategy → m Resolution
  | [] => return .unresolved
  | strategy :: strategies => do
    let resolution ← r.resolveBy (m := m) strategy directory specifier
    if resolution.isResolved then return resolution
    r.resolveFirst directory specifier strategies

/-- The first strategy that resolves wins; URLs are external without asking any. -/
def resolveChain (r : Resolver) (strategies : List Strategy) (directory : Path)
    (specifier : String) : m Resolution :=
  if Path.isExternalUrl specifier then return .external
  else r.resolveFirst directory specifier strategies

/-- The project first, then installed packages. -/
def resolve (r : Resolver) (directory : Path) (specifier : String) : m Resolution :=
  r.resolveChain [.relative, .installed] directory specifier

end Resolver
end Apportion
