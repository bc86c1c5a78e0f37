import HackPlatform.Assembly.Listing
import HackPlatform.Assembly.Mnemonic
import HackPlatform.Assembly.Program
import HackPlatform.Assembly.Statement
import HackPlatform.Code.Block
import HackPlatform.Code.Build
import HackPlatform.Code.Scope
import HackPlatform.Code.Writer
import HackPlatform.Console.Assemble
import HackPlatform.Console.Execute
import HackPlatform.Console.Flag
import HackPlatform.Console.Invocation
import HackPlatform.Console.Session
import HackPlatform.Console.Translate
import HackPlatform.Machine.Computer
import HackPlatform.Machine.Execution
import HackPlatform.Machine.Image
import HackPlatform.Machine.Instruction
import HackPlatform.Machine.Keyboard
import HackPlatform.Machine.Memory
import HackPlatform.Machine.Report
import HackPlatform.Machine.Screen
import HackPlatform.Main
import HackPlatform.Proofs.Assembly.Backpatch
import HackPlatform.Proofs.Assembly.ComputeLine
import HackPlatform.Proofs.Assembly.Faults
import HackPlatform.Proofs.Assembly.Grammar
import HackPlatform.Proofs.Assembly.Listing
import HackPlatform.Proofs.Assembly.Range
import HackPlatform.Proofs.Assembly.Reference
import HackPlatform.Proofs.Code.Acceptance
import HackPlatform.Proofs.Code.Arithmetic
import HackPlatform.Proofs.Code.Assembles
import HackPlatform.Proofs.Code.Compare
import HackPlatform.Proofs.Code.Delivery
import HackPlatform.Proofs.Code.Effect
import HackPlatform.Proofs.Code.FileScope
import HackPlatform.Proofs.Code.History
import HackPlatform.Proofs.Code.Label
import HackPlatform.Proofs.Code.Layout
import HackPlatform.Proofs.Code.Lowering
import HackPlatform.Proofs.Code.Placed
import HackPlatform.Proofs.Code.Protocol
import HackPlatform.Proofs.Code.PushPop
import HackPlatform.Proofs.Code.Refused
import HackPlatform.Proofs.Code.Simulation
import HackPlatform.Proofs.Code.Startup
import HackPlatform.Proofs.Code.Static
import HackPlatform.Proofs.Code.Unique
import HackPlatform.Proofs.Console.Assemble
import HackPlatform.Proofs.Console.Complete
import HackPlatform.Proofs.Console.Load
import HackPlatform.Proofs.Console.Presets
import HackPlatform.Proofs.Console.Translate
import HackPlatform.Proofs.Machine.Extend
import HackPlatform.Proofs.Machine.HaltLoop
import HackPlatform.Proofs.Machine.Image
import HackPlatform.Proofs.Machine.Installed
import HackPlatform.Proofs.Machine.KeyReader
import HackPlatform.Proofs.Machine.Meaning
import HackPlatform.Proofs.Machine.Run
import HackPlatform.Proofs.Machine.Screen
import HackPlatform.Proofs.Machine.Step
import HackPlatform.Proofs.Stack.Position
import HackPlatform.Proofs.Stack.Printing
import HackPlatform.Proofs.Stack.Reading
import HackPlatform.Proofs.Stack.Semantics
import HackPlatform.Proofs.Stack.Spelling
import HackPlatform.Proofs.Stream.Cut
import HackPlatform.Proofs.Stream.Delivery
import HackPlatform.Proofs.Stream.Order
import HackPlatform.Proofs.Text.Columns
import HackPlatform.Proofs.Text.Fields
import HackPlatform.Proofs.Text.Lines
import HackPlatform.Proofs.Text.Numeral
import HackPlatform.Proofs.Text.Reading
import HackPlatform.Proofs.Volume.Glob
import HackPlatform.Proofs.Volume.Locate
import HackPlatform.Proofs.Volume.Path
import HackPlatform.Proofs.Volume.Pattern
import HackPlatform.Settings
import HackPlatform.Settings.File
import HackPlatform.Stack.Command
import HackPlatform.Stack.Program
import HackPlatform.Stream.Buffered
import HackPlatform.Stream.Guarded
import HackPlatform.Stream.Sink
import HackPlatform.Text.Blank
import HackPlatform.Text.Bytes
import HackPlatform.Text.Line
import HackPlatform.Text.Name
import HackPlatform.Text.Numeral
import HackPlatform.Text.Position
import HackPlatform.Text.Printable
import HackPlatform.Text.Quoted
import HackPlatform.Text.Utf8
import HackPlatform.Toml.Document
import HackPlatform.Toml.KeyTable
import HackPlatform.Toml.Moment
import HackPlatform.Toml.Quotation
import HackPlatform.Toml.Reader
import HackPlatform.Volume.Path
import HackPlatform.Volume.Pattern
import HackPlatform.Volume.Store
