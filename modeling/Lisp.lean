import Lisp.Builtin.Call
import Lisp.CommandLine
import Lisp.Eval.Basic
import Lisp.Host.Directory
import Lisp.Main
import Lisp.Reader
import Lisp.Session
import Lisp.Settings
import Lisp.Proofs.Eval.TailCalls
import Lisp.Proofs.Invariant.DistinctKeys
import Lisp.Proofs.Reader.Inside
import Lisp.Proofs.Token.Lines
import Lisp.Proofs.Reader.DoBlock
import Lisp.Proofs.Eval.Levels
import Lisp.Proofs.Session.LoadFile
import Lisp.Proofs.Eval.Fuel
import Lisp.Proofs.Session.Start
import Lisp.Proofs.Invariant.Frames
import Lisp.Proofs.Text.Decimal
import Lisp.Proofs.Text.Quoted
import Lisp.Proofs.Reader.Grammar
import Lisp.Proofs.Token.Written
import Lisp.Proofs.Value.Untagged
import Lisp.Proofs.Reader.Printing
import Lisp.Proofs.Run.Eventually
import Lisp.Proofs.Eval.Unbounded
import Lisp.Proofs.Run.After
import Lisp.Proofs.Template.IllFormed
import Lisp.Proofs.Template.Filling
import Lisp.Proofs.Reader.Reprinting
import Lisp.Proofs.Builtin.Keywords
import Lisp.Proofs.Eval.TailLoops
import Lisp.Proofs.Session.LoadOrder
import Lisp.Proofs.Token.Literals
import Lisp.Proofs.Reader.Lines
import Lisp.Proofs.Value.Lookup
import Lisp.Proofs.Reader.EntryOrder
import Lisp.Proofs.Eval.Global
import Lisp.Proofs.Invariant.FrameTree
import Lisp.Proofs.Session.Environments
import Lisp.Proofs.Value.OperandOrder
import Lisp.Proofs.Run.Endings
import Lisp.Proofs.Eval.Completion
import Lisp.Proofs.Eval.MacroExpansion
import Lisp.Proofs.Eval.Calls
import Lisp.Proofs.Eval.Laws
import Lisp.Proofs.Session.Clauses
import Lisp.Proofs.Eval.Parameters
import Lisp.Proofs.Eval.Propagation
import Lisp.Proofs.Token.Partition
import Lisp.Proofs.Reader.Descent
import Lisp.Proofs.State.History
import Lisp.Proofs.Template.Flat
import Lisp.Proofs.Eval.MapForms
import Lisp.Proofs.Value.Metadata
import Lisp.Proofs.Reader.Literals
import Lisp.Proofs.Builtin.Arithmetic
import Lisp.Proofs.Session.Watched
