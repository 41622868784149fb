import StudioMake.MacroTable.Basic

/-!
# The macros of each project format

The macro names that Visual Studio documents for build commands and properties, in the order in
which a table lists them.
-/

set_option autoImplicit false

namespace StudioMake.MacroTable

def vcprojNames : List String :=
  ["ConfigurationName", "DevEnvDir", "FrameworkDir", "FrameworkSDKDir", "FrameworkVersion",
   "FxCopDir", "Inherit", "InputDir", "InputExt", "InputFileName", "InputName", "InputPath",
   "IntDir", "NoInherit", "OutDir", "ParentName", "PlatformName", "Platform", "ProjectDir",
   "ProjectExt", "ProjectFileName", "ProjectName", "ProjectPath", "References", "RemoteMachine",
   "RootNameSpace", "SafeInputName", "SafeParentName", "SafeRootNamespace", "SolutionDir",
   "SolutionExt", "SolutionFileName", "SolutionName", "SolutionPath", "StopEvaluating",
   "TargetDir", "TargetExt", "TargetFileName", "TargetName", "TargetPath", "VCInstallDir",
   "VSInstallDir", "WebDeployPath", "WebDeployRoot"]

def msbuildNames : List String :=
  ["Configuration", "DevEnvDir", "FrameworkDir", "FrameworkSDKDir", "FrameworkVersion", "FxCopDir",
   "InputDir", "InputExt", "InputFileName", "InputName", "InputPath", "IntDir", "OutDir",
   "ParentName", "Platform", "ProjectDir", "ProjectExt", "ProjectFileName", "ProjectName",
   "ProjectPath", "RemoteMachine", "RootNameSpace", "SafeInputName", "SafeParentName",
   "SafeRootNamespace", "SolutionDir", "SolutionExt", "SolutionFileName", "SolutionName",
   "SolutionPath", "TargetDir", "TargetExt", "TargetFileName", "TargetName", "TargetPath",
   "VCInstallDir", "VSInstallDir", "WebDeployPath", "WebDeployRoot"]

def vcproj : MacroTable := ofVocabulary (vcprojNames.map token)

def msbuild : MacroTable := ofVocabulary (msbuildNames.map token)

end StudioMake.MacroTable
