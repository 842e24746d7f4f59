import DecisionDiagrams.Compile.Text
import DecisionDiagrams.Diagram.Drawing
import DecisionDiagrams.Proofs.Compile.Effect
import DecisionDiagrams.Proofs.Compile.Equivalence
import DecisionDiagrams.Proofs.Compile.Formula
import DecisionDiagrams.Proofs.Compile.Order
import DecisionDiagrams.Proofs.Compile.Outcome
import DecisionDiagrams.Proofs.Compile.Recompilation
import DecisionDiagrams.Proofs.Compile.Substitution
import DecisionDiagrams.Proofs.Compile.ZeroOne
import DecisionDiagrams.Proofs.Drawing.Graph
import DecisionDiagrams.Proofs.Expr.Meeting
import DecisionDiagrams.Proofs.Grammar.Depth
import DecisionDiagrams.Proofs.Grammar.Enclosure
import DecisionDiagrams.Proofs.Grammar.Fault
import DecisionDiagrams.Proofs.Grammar.Language
import DecisionDiagrams.Proofs.Grammar.Names
import DecisionDiagrams.Proofs.Grammar.Parsing
import DecisionDiagrams.Proofs.Grammar.Printing
import DecisionDiagrams.Proofs.Grammar.Refusal
import DecisionDiagrams.Proofs.History.Algebra
import DecisionDiagrams.Proofs.History.Diagrams
import DecisionDiagrams.Proofs.History.Economy
import DecisionDiagrams.Proofs.History.Invariant
import DecisionDiagrams.Proofs.History.Minimality
import DecisionDiagrams.Proofs.History.Permanence
import DecisionDiagrams.Proofs.History.Pointwise
import DecisionDiagrams.Proofs.Loop.Recursion
import DecisionDiagrams.Proofs.Loop.Safety
import DecisionDiagrams.Proofs.Text.Position
import DecisionDiagrams.Scalar.Strict
