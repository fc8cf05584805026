import FiniteState.Symbol
import FiniteState.Text.Blank
import FiniteState.Diagnostic
import FiniteState.NatSet
import FiniteState.Label.Basic
import FiniteState.Label.Set
import FiniteState.Label.Pool
import FiniteState.Label.Primed
import FiniteState.Traversal
import FiniteState.Automaton.Basic
import FiniteState.Automaton.Error
import FiniteState.Automaton.Edit
import FiniteState.Automaton.Reach
import FiniteState.Automaton.Run
import FiniteState.Automaton.Machine
import FiniteState.Automaton.Rename
import FiniteState.Automaton.Subset
import FiniteState.Automaton.Distinguish
import FiniteState.Automaton.Minimal
import FiniteState.Automaton.Product
import FiniteState.Automaton.Render
import FiniteState.Automaton.Command
import FiniteState.Draw
import FiniteState.Automaton.Sample
import FiniteState.Regex.Basic
import FiniteState.Regex.Parser
import FiniteState.Regex.Position
import FiniteState.Regex.Compile
import FiniteState.Grammar.Basic
import FiniteState.Grammar.Token
import FiniteState.Grammar.Parser
import FiniteState.Grammar.Conversion
import FiniteState.Text.Printable
import FiniteState.Text.Quoted
import FiniteState.CommandLine.FileTree
import FiniteState.CommandLine.Settings
import FiniteState.CommandLine.Invocation
import FiniteState.CommandLine.Report
import FiniteState.Main
import FiniteState.Proofs.List
import FiniteState.Proofs.Traversal
import FiniteState.Proofs.Discovery
import FiniteState.Proofs.Label.Fresh
import FiniteState.Proofs.Label.Valid
import FiniteState.Proofs.Label.Letters
import FiniteState.Proofs.Label.Stable
import FiniteState.Proofs.Label.Requests
import FiniteState.Proofs.Label.Replies
import FiniteState.Proofs.Label.SplitPool
import FiniteState.Proofs.NatSet.Capacity
import FiniteState.Proofs.NatSet.Refinement
import FiniteState.Proofs.Text
import FiniteState.Proofs.Automaton.Table
import FiniteState.Proofs.Automaton.WellFormed
import FiniteState.Proofs.Automaton.Path
import FiniteState.Proofs.Automaton.Trim
import FiniteState.Proofs.Automaton.Restriction
import FiniteState.Proofs.Automaton.Renaming
import FiniteState.Proofs.Automaton.Renamed
import FiniteState.Proofs.Automaton.Machine
import FiniteState.Proofs.Automaton.Powerset
import FiniteState.Proofs.Automaton.Distinguish
import FiniteState.Proofs.Automaton.Reduced
import FiniteState.Proofs.Automaton.Constructed
import FiniteState.Proofs.Automaton.Minimal
import FiniteState.Proofs.Automaton.Product
import FiniteState.Proofs.Automaton.Union
import FiniteState.Proofs.Automaton.Intersection
import FiniteState.Proofs.Automaton.Change
import FiniteState.Proofs.Automaton.Named
import FiniteState.Proofs.Grammar.Proper
import FiniteState.Proofs.Grammar.OfAutomaton
import FiniteState.Proofs.Grammar.WellFormed
import FiniteState.Proofs.Regex.Walk
import FiniteState.Proofs.Regex.Numbering
import FiniteState.Proofs.Regex.Parser
import FiniteState.Proofs.Regex.Compile
import FiniteState.Proofs.Automaton.Obtainable
import FiniteState.Proofs.Automaton.Language
import FiniteState.Proofs.Automaton.Acceptance
import FiniteState.Proofs.Automaton.Same
import FiniteState.Proofs.Automaton.Trimming
import FiniteState.Proofs.Automaton.Isomorphic
import FiniteState.Proofs.Automaton.Changed
import FiniteState.Proofs.Automaton.CellText
import FiniteState.Proofs.Automaton.Deletion
import FiniteState.Proofs.Automaton.LiveSets
import FiniteState.Proofs.Automaton.Discovered
import FiniteState.Proofs.Automaton.Idempotent
import FiniteState.Proofs.Automaton.Refusal
import FiniteState.Proofs.Draw
import FiniteState.Proofs.Automaton.Sample
import FiniteState.Proofs.Worklist
import FiniteState.Proofs.Automaton.Traversals
import FiniteState.Proofs.Automaton.WaitList
import FiniteState.Proofs.Automaton.TableText
import FiniteState.Proofs.Automaton.DotText
import FiniteState.Proofs.Grammar.Derivation
import FiniteState.Proofs.Grammar.Language
import FiniteState.Proofs.Grammar.Syntax
import FiniteState.Proofs.Grammar.Lines
import FiniteState.Proofs.Grammar.Parse
import FiniteState.Proofs.Grammar.Location
import FiniteState.Proofs.Grammar.Canonical
import FiniteState.Proofs.Grammar.Reduced
import FiniteState.Proofs.Grammar.Display
import FiniteState.Proofs.Grammar.Encoding
import FiniteState.Proofs.Grammar.Lexeme
import FiniteState.Proofs.Grammar.Layout
import FiniteState.Proofs.Regex.Syntax
import FiniteState.Proofs.Regex.Diagnosis
import FiniteState.Proofs.Regex.Annotations
import FiniteState.Proofs.Construction
import FiniteState.Proofs.Automaton.Constructions
import FiniteState.Proofs.Regex.Trim
import FiniteState.Proofs.Automaton.Marker
import FiniteState.Proofs.Split.Table
import FiniteState.Proofs.Split.Embedding
import FiniteState.Proofs.Split.Edit
import FiniteState.Proofs.Split.Trim
import FiniteState.Proofs.Split.Machine
import FiniteState.Proofs.Split.Loop
import FiniteState.Proofs.Split.Construct
import FiniteState.Proofs.Split.Discovered
import FiniteState.Proofs.Split.Merged
import FiniteState.Proofs.Split.Pairs
import FiniteState.Proofs.Split.Copied
import FiniteState.Proofs.Split.Command
import FiniteState.Proofs.Split.Obtainable
import FiniteState.Proofs.Split.Representation
import FiniteState.Proofs.CommandLine.Verdict
