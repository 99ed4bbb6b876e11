import Cs345.Guess.Game
import Cs345.Guess.Invariant
import Cs345.Guess.Model
import Cs345.Guess.Phase
import Cs345.Machine
import Cs345.Guess.Rounds
import Cs345.Guess.Turns
import Cs345.Guess.Termination
import Cs345.Guess.Outcome
import Cs345.Forest
import Cs345.Proclimit.Task
import Cs345.Proclimit.SetProclimit
import Cs345.Proclimit.Process
import Cs345.Proclimit.Families
import Cs345.Proclimit.Shape
import Cs345.Proclimit.GetProclimit
import Cs345.Proclimit.Paths
import Cs345.Shell.Args
import Cs345.Shell.Stages
import Cs345.Shell.Redirect
import Cs345.Shell.Pipeline
import Cs345.Shell.Wiring
import Cs345.Shell.Blocking
import Cs345.Shell.Operators
import Cs345.Proclimit.Syscall
import Cs345.Proclimit.ThreadGroups
import Cs345.Ring
import Cs345.Shell.History
import Cs345.Shell.Targets
import Cs345.Shell.Prompt
import Cs345.Shell.Signals
import Cs345.Guess.Threads
import Cs345.Guess.Sessions
import Cs345.Guess.Segments
import Cs345.Guess.Server
import Cs345.Extremes
import Cs345.Proclimit.Figures
import Cs345.Proclimit.Totals
import Cs345.Fields
import Cs345.Shell.Tokens
import Cs345.Shell.Accesses
import Cs345.Shell.Splitting
import Cs345.Shell.Stripping
import Cs345.Shell.Dataflow
import Cs345.Shell.Delivery
import Cs345.Guess.Progress
import Cs345.Guess.Report
import Cs345.Guess.Connect
import Cs345.Guess.Agreement
import Cs345.Shell.Script
import Cs345.Shell.Redirected
import Cs345.Links
import Cs345.Proclimit.Lists
import Cs345.Proclimit.Calls
import Cs345.Shell.Commands
import Cs345.Shell.Readings
import Cs345.Shell.Denotes
import Cs345.Guess.Lifetime
import Cs345.Proclimit.Service
import Cs345.Shell.Sessions
