import FoolLang.Command.Answer
import FoolLang.Compile
import FoolLang.Execute
import FoolLang.Main
import FoolLang.Parse
import FoolLang.Tree.Outline
import FoolLang.Proofs.Words
import FoolLang.Proofs.Statements
import FoolLang.Proofs.Assembling
import FoolLang.Proofs.Listings
import FoolLang.Proofs.Disassembly
import FoolLang.Proofs.Linking
import FoolLang.Proofs.Labels
import FoolLang.Proofs.Nodes
import FoolLang.Proofs.Checks
import FoolLang.Proofs.Operands
import FoolLang.Proofs.Templates
import FoolLang.Proofs.Uses
import FoolLang.Proofs.Visible
import FoolLang.Proofs.Scoping
import FoolLang.Proofs.Drafts
import FoolLang.Proofs.Grammar
import FoolLang.Proofs.Phrases
import FoolLang.Proofs.Sentences
import FoolLang.Proofs.Generate
import FoolLang.Proofs.Rejects
import FoolLang.Proofs.Declaring
import FoolLang.Proofs.Evaluate
import FoolLang.Proofs.Configs
import FoolLang.Proofs.Lines
import FoolLang.Proofs.Fragments
import FoolLang.Proofs.Values
import FoolLang.Proofs.Subtypes
import FoolLang.Proofs.Frames
import FoolLang.Proofs.Outcomes
import FoolLang.Proofs.Simulate
import FoolLang.Proofs.Routines
import FoolLang.Proofs.Members
import FoolLang.Proofs.Inherit
import FoolLang.Proofs.Settle
import FoolLang.Proofs.Programs
import FoolLang.Proofs.Runs
import FoolLang.Proofs.Memories
import FoolLang.Proofs.Heaps
import FoolLang.Proofs.Subclasses
import FoolLang.Proofs.Guards
import FoolLang.Proofs.Relabel
import FoolLang.Proofs.Redrafts
import FoolLang.Proofs.Viable
import FoolLang.Proofs.OperandEnds
import FoolLang.Proofs.Reports
import FoolLang.Proofs.RelabelScopes
import FoolLang.Proofs.RelabelNames
import FoolLang.Proofs.RelabelTypes
import FoolLang.Proofs.RelabelCode
import FoolLang.Proofs.Positions
import FoolLang.Proofs.Rebites
import FoolLang.Proofs.Pieces
import FoolLang.Proofs.Munches
import FoolLang.Proofs.Cuts
import FoolLang.Proofs.Spellings
import FoolLang.Proofs.Renaming
import FoolLang.Proofs.Layouts
import FoolLang.Proofs.Commands
import FoolLang.Proofs.Shapes
import FoolLang.Proofs.Activations
import FoolLang.Proofs.Calls
import FoolLang.Proofs.Ancestry
import FoolLang.Proofs.Visits
import FoolLang.Proofs.Binders
import FoolLang.Proofs.VirtualTables
import FoolLang.Proofs.Straight
import FoolLang.Proofs.Dispatch
import FoolLang.Proofs.Enclosed
import FoolLang.Proofs.SubtypeRules
import FoolLang.Proofs.Joins
import FoolLang.Proofs.Unresolved
import FoolLang.Proofs.Overrides
import FoolLang.Proofs.Unaddressable
import FoolLang.Proofs.Nests
import FoolLang.Proofs.Written
import FoolLang.Proofs.Outlines
import FoolLang.Proofs.Faithful
import FoolLang.Proofs.Traversal
import FoolLang.Proofs.ScopeStack
import FoolLang.Proofs.Blocks
import FoolLang.Proofs.ControlFlow
