import ProgramAnalysis.Typecheck.Throws
import ProgramAnalysis.Typecheck.Returns
import ProgramAnalysis.Typecheck.Rename
import ProgramAnalysis.Typecheck.Order
import ProgramAnalysis.Typecheck.Signatures
import ProgramAnalysis.Typecheck.Escapes
import ProgramAnalysis.Typecheck.CallErrors
import ProgramAnalysis.Typecheck.Arrange
import ProgramAnalysis.Typecheck.FallThrough
import ProgramAnalysis.Typecheck.Driver
import ProgramAnalysis.Typecheck.Programs
import ProgramAnalysis.Typecheck.Unused
import ProgramAnalysis.Typecheck.Objects
import ProgramAnalysis.Typecheck.Scopes
import ProgramAnalysis.Debugger.Trap
import ProgramAnalysis.Debugger.Address
import ProgramAnalysis.Debugger.Main
import ProgramAnalysis.Debugger.Faults
import ProgramAnalysis.Debugger.BreakLine
import ProgramAnalysis.Debugger.History
import ProgramAnalysis.Debugger.Tracer
import ProgramAnalysis.Debugger.Requests
import ProgramAnalysis.Mycalc.Exact
import ProgramAnalysis.Mycalc.Assigned
import ProgramAnalysis.Mycalc.Footprint
import ProgramAnalysis.Mycalc.Counting
import ProgramAnalysis.Mycalc.Natural
import ProgramAnalysis.Mycalc.Accumulate
import ProgramAnalysis.Mycalc.Halting
import ProgramAnalysis.Mycalc.Orders
import ProgramAnalysis.Mycalc.Renaming
import ProgramAnalysis.Mycalc.Driver
import ProgramAnalysis.Mycalc.Objects
