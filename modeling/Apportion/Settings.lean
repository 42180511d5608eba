import Apportion.Build

/-!
Settings of a project, with the values that hold where nothing else is said, and the parts of a build
that they determine.
-/
namespace Apportion

/-- Where the compiler leaves its output, relative to the project. -/
structure EmitSettings where
  outDir : Path
  report : Path
  deriving Repr

/-- The shape of packages: the manifest's file name, the extension that exports lead to, the mark of
builtins, the extensions of code files, and the base names of entry points. -/
structure PackageSettings where
  manifestName : String
  exportExtension : String
  builtinPrefix : String
  codeExtensions : List String
  entryCandidates : List String
  deriving Repr

/-- Manifest fields that name an installed package's entry, in order. -/
structure ResolveSettings where
  mainFields : List String
  deriving Repr

/-- How many tasks may run at a time; zero leaves it open. -/
structure ApplySettings where
  jobs : Nat
  deriving Repr

/-- Whether and where an ignore list is written. -/
structure IgnoreSettings where
  enabled : Bool
  template : Path
  file : Path
  deriving Repr

structure Settings where
  emit : EmitSettings
  packages : PackageSettings
  resolve : ResolveSettings
  apply : ApplySettings
  ignore : IgnoreSettings
  deriving Repr

namespace EmitSettings

def standard : EmitSettings := ⟨⟨"build/esm"⟩, ⟨"build/emit-report.json"⟩⟩

end EmitSettings

namespace PackageSettings

def standard : PackageSettings :=
  ⟨"package.json", ".js", "node:", [".js", ".mjs", ".cjs"], ["index", "exports"]⟩

end PackageSettings

namespace ResolveSettings

def standard : ResolveSettings := ⟨["module", "jsnext:main", "main"]⟩

end ResolveSettings

namespace ApplySettings

def standard : ApplySettings := ⟨0⟩

end ApplySettings

namespace IgnoreSettings

def standard : IgnoreSettings := ⟨true, ⟨".gitignore"⟩, ⟨".gitignore"⟩⟩

end IgnoreSettings

namespace Settings

def standard : Settings :=
  ⟨.standard, .standard, .standard, .standard, .standard⟩

def emitRoot (s : Settings) (projectRoot : Path) : Path := (projectRoot.join s.emit.outDir).normalize

def reportPath (s : Settings) (projectRoot : Path) : Path :=
  (projectRoot.join s.emit.report).normalize

def resolver (s : Settings) : Resolver := ⟨s.packages.codeExtensions, s.resolve.mainFields⟩

def emitter (s : Settings) (projectRoot : Path) : Emitter :=
  ⟨s.emitRoot projectRoot, s.reportPath projectRoot, s.resolver, s.packages.builtinPrefix⟩

def discovery (s : Settings) : Discovery := ⟨s.packages.codeExtensions, s.packages.entryCandidates⟩

def optionsAt (s : Settings) (projectRoot emitRoot : Path) : BuildOptions where
  projectRoot := projectRoot
  emitRoot := emitRoot
  manifestName := s.packages.manifestName
  exportExtension := s.packages.exportExtension
  builtinMark := s.packages.builtinPrefix
  ignore := if s.ignore.enabled then some ⟨s.ignore.template, s.ignore.file⟩ else none
  dryRun := false

def options (s : Settings) (projectRoot : Path) : BuildOptions :=
  s.optionsAt projectRoot (s.emitRoot projectRoot)

end Settings
end Apportion
