import StudioMake.Main
import StudioMake.Proofs.Condition.EnumerationOrder
import StudioMake.Proofs.Condition.Grammar
import StudioMake.Proofs.Condition.Layout
import StudioMake.Proofs.Condition.Parsing
import StudioMake.Proofs.Condition.Printing
import StudioMake.Proofs.MSBuild.Evaluation
import StudioMake.Proofs.MSBuild.FileLinking
import StudioMake.Proofs.MSBuild.ImportTraversal
import StudioMake.Proofs.MSBuild.MacroOrder
import StudioMake.Proofs.MSBuild.StateInvariant
import StudioMake.Proofs.VisualStudio.FilePartition
import StudioMake.Proofs.VisualStudio.SheetPrecedence
import StudioMake.Proofs.Xml.Names
import StudioMake.Proofs.MacroTable.Expansion
import StudioMake.Proofs.Path.LexicalForm
import StudioMake.Proofs.VisualStudio.Isolation
import StudioMake.Proofs.VisualStudio.DirectoryMacros
import StudioMake.Proofs.Makefile.Reading
import StudioMake.Proofs.Makefile.LinkedObjects
import StudioMake.Proofs.MSBuild.ConfigurationOrder
import StudioMake.Proofs.VisualStudio.FilterTree
import StudioMake.Proofs.Makefile.Recipes
import StudioMake.Proofs.Project.FileIndices
import StudioMake.Proofs.Makefile.Targets
import StudioMake.Proofs.MacroTable.Leftover
import StudioMake.Proofs.Makefile.RuleFamilies
import StudioMake.Proofs.Makefile.SharedObjects
import StudioMake.Proofs.MacroTable.Properties
import StudioMake.Proofs.Text.LetterCase
import StudioMake.Proofs.Condition.LetterCase
import StudioMake.Proofs.MSBuild.Accumulation
import StudioMake.Proofs.MSBuild.Inclusion
import StudioMake.Proofs.EnvironmentScript.Composition
import StudioMake.Proofs.Project.SeedOverride
import StudioMake.Proofs.Makefile.RuleCoverage
import StudioMake.Proofs.Makefile.ReportAgreement
import StudioMake.Proofs.Invocation
import StudioMake.Proofs.MSBuild.FileSorting
import StudioMake.Proofs.EnvironmentScript.RoundTrip
import StudioMake.Proofs.EnvironmentScript.Variables
import StudioMake.Proofs.Path.Composition
import StudioMake.Proofs.VisualStudio.ToolCollection
import StudioMake.Proofs.Report
import StudioMake.Proofs.Tool.Property
import StudioMake.Proofs.MSBuild.ListedReferences
import StudioMake.Proofs.EnvironmentScript.Pieces
