import ProbeLang.Main
import ProbeLang.Proofs.Code.Methods
import ProbeLang.Proofs.Code.Jumps
import ProbeLang.Proofs.Code.Slots
import ProbeLang.Proofs.Code.Reading
import ProbeLang.Proofs.Artifact.Accepted
import ProbeLang.Proofs.Analysis.Completion
import ProbeLang.Proofs.Analysis.Class
import ProbeLang.Proofs.Analysis.Overloads
import ProbeLang.Proofs.Session.Distinct
import ProbeLang.Proofs.Session.Replacing
import ProbeLang.Proofs.Task.Code
import ProbeLang.Proofs.Task.Meaning
import ProbeLang.Proofs.Task.Values
import ProbeLang.Proofs.Policy.Soundness
import ProbeLang.Proofs.Tree.ReadBack.Unit
import ProbeLang.Proofs.Tree.Precedence
import ProbeLang.Proofs.Preprocess.Transparency
import ProbeLang.Proofs.Preprocess.Suppression
import ProbeLang.Proofs.Preprocess.Substitution
import ProbeLang.Proofs.Preprocess.Splicing
import ProbeLang.Proofs.Preprocess.Accounting
import ProbeLang.Proofs.Lines.Stream
import ProbeLang.Proofs.Session.ClassTree
import ProbeLang.Proofs.Task.Rereading
import ProbeLang.Proofs.Task.NestedNames
import ProbeLang.Proofs.Task.Ending
import ProbeLang.Proofs.Task.Faults
import ProbeLang.Proofs.Store.History
import ProbeLang.Proofs.Compiler.Registries
import ProbeLang.Proofs.Policy.Verdicts
import ProbeLang.Proofs.Task.Frames
import ProbeLang.Proofs.Task.Chains
import ProbeLang.Proofs.Report
