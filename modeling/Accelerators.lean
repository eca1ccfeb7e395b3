import Accelerators.Kaleidoscope.Expression
import Accelerators.Kaleidoscope.Fuel
import Accelerators.Kaleidoscope.TopLevel.Program
import Accelerators.Kaleidoscope.TopLevel.Errors
import Accelerators.Kaleidoscope.Lexer.Render
import Accelerators.Kaleidoscope.Termination
import Accelerators.Pouring.Solvable
import Accelerators.Pouring.Finite
import Accelerators.Pouring.Paths
import Accelerators.ParallelFib.Calls
import Accelerators.SafeAssign.Completion
import Accelerators.SafeAssign.SelfBlock
import Accelerators.BankAccount.Ledger
import Accelerators.Rational.Text
import Accelerators.Rational.Order
import Accelerators.Rational.Overflow
import Accelerators.IntSet.Versions
import Accelerators.Queens
import Accelerators.IntSet.Laws
import Accelerators.Lists.RunLength
import Accelerators.Lists.Sorting
import Accelerators.Lists.Flatten
import Accelerators.Poly.Sum
import Accelerators.IntelCompetition.Fill
import Accelerators.Sums.Loop
import Accelerators.Sums.Factorial
import Accelerators.Kaleidoscope.Lexer.Numbers
import Accelerators.StringUtil
import Accelerators.MatrixSum.Launch
import Accelerators.StructConc.Choices
import Accelerators.BitMasking.Leaf
import Accelerators.DataProcessing.Wakeups
import Accelerators.BankAccount.Linearizable
import Accelerators.BankAccount.Scopes
import Accelerators.AccountManager.Transfers
import Accelerators.Kaleidoscope.TopLevel.Text
import Accelerators.IntelCompetition.Main
import Accelerators.FibTask.Runs
import Accelerators.Crypt.RoundTrip
import Accelerators.Crypt.Schedule
import Accelerators.Crypt.Losses
import Accelerators.Crypt.Main
