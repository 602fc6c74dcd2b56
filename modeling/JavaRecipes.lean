import JavaRecipes.Command.LogFormat
import JavaRecipes.Command.Report
import JavaRecipes.Main
import JavaRecipes.Proofs.Tree.Linked
import JavaRecipes.Proofs.Tree.Slots
import JavaRecipes.Proofs.Edit.Checked
import JavaRecipes.Proofs.Tree.Splice
import JavaRecipes.Proofs.Types.Index
import JavaRecipes.Proofs.Edit.Renaming
import JavaRecipes.Proofs.Edit.Sequence
import JavaRecipes.Proofs.Edit.Outcome
import JavaRecipes.Proofs.Edit.Entries
import JavaRecipes.Proofs.Recipe.Changes
import JavaRecipes.Proofs.Recipe.Values
import JavaRecipes.Proofs.Recipe.Planned
import JavaRecipes.Proofs.Recipe.CallNames
import JavaRecipes.Proofs.Recipe.Carried
import JavaRecipes.Proofs.Recipe.ClassNames
import JavaRecipes.Proofs.Recipe.NameValues
import JavaRecipes.Proofs.Recipe.NameSlots
import JavaRecipes.Proofs.Types.Names
import JavaRecipes.Proofs.Recipe.Reread
import JavaRecipes.Proofs.Recipe.BeanNames
import JavaRecipes.Proofs.Recipe.NestedNames
import JavaRecipes.Proofs.Json.RoundTrip
import JavaRecipes.Proofs.Tree.Built
import JavaRecipes.Proofs.Tree.Reload
import JavaRecipes.Proofs.Edit.Grafts
import JavaRecipes.Proofs.Edit.KeptTree
import JavaRecipes.Proofs.Tree.Preorder
import JavaRecipes.Proofs.Edit.Snippets
import JavaRecipes.Proofs.Recipe.Grafting
import JavaRecipes.Proofs.Edit.Indexes
import JavaRecipes.Proofs.Recipe.Pipeline
import JavaRecipes.Proofs.Edit.Rewriting
import JavaRecipes.Proofs.Recipe.CallMoves
import JavaRecipes.Proofs.Recipe.Settled
import JavaRecipes.Proofs.Recipe.FixedPoint
import JavaRecipes.Proofs.Recipe.History
import JavaRecipes.Proofs.Edit.Applicable
import JavaRecipes.Proofs.Recipe.ClassPlan
import JavaRecipes.Proofs.Recipe.BatchOrder
import JavaRecipes.Proofs.Recipe.TypeFilter
import JavaRecipes.Proofs.Edit.Landing
import JavaRecipes.Proofs.Edit.Validated
import JavaRecipes.Proofs.Edit.Frame
import JavaRecipes.Proofs.Command.FileSystem
import JavaRecipes.Proofs.Command.Writing
import JavaRecipes.Proofs.Command.Paths
import JavaRecipes.Proofs.Command.Destinations
import JavaRecipes.Proofs.Edit.Conflicts
import JavaRecipes.Proofs.Recipe.FactoryMethods
import JavaRecipes.Proofs.Tree.Printing
import JavaRecipes.Proofs.Edit.Templates
import JavaRecipes.Proofs.Recipe.SizedCalls
import JavaRecipes.Proofs.Recipe.VersionedCalls
import JavaRecipes.Proofs.Scope.Owners
import JavaRecipes.Proofs.Scope.FieldAccesses
import JavaRecipes.Proofs.Recipe.Visibility
import JavaRecipes.Proofs.Edit.TableHistory
import JavaRecipes.Proofs.Tree.Copies
import JavaRecipes.Proofs.Edit.Replacement
import JavaRecipes.Proofs.Text.Parts
import JavaRecipes.Proofs.Recipe.MethodPatterns
import JavaRecipes.Proofs.Tree.LiteralText
import JavaRecipes.Proofs.Tree.Operations
import JavaRecipes.Proofs.Edit.Splices
import JavaRecipes.Proofs.Edit.Cycles
import JavaRecipes.Proofs.Tree.SplicedLinks
import JavaRecipes.Proofs.Tree.Programs
import JavaRecipes.Proofs.Tree.Traversal
