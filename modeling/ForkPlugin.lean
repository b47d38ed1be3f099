import ForkPlugin.Lib.Runs
import ForkPlugin.Queue.Refine
import ForkPlugin.Machine.Ring
import ForkPlugin.Runs.Conserve
import ForkPlugin.Runs.Agree
import ForkPlugin.Runs.Keystroke
import ForkPlugin.Runs.Safe
import ForkPlugin.Runs.Halt
import ForkPlugin.Runs.Delay
import ForkPlugin.Runs.Resolve
import ForkPlugin.Queue.Full
import ForkPlugin.Queue.Buffers
import ForkPlugin.Runs.Overflow
import ForkPlugin.Machine.Flow
import ForkPlugin.Runs.Wakeup
import ForkPlugin.Machine.Configure
import ForkPlugin.Runs.Lockout
import ForkPlugin.Runs.Onward
import ForkPlugin.Machine.Clocks
import ForkPlugin.Machine.Lockstep
import ForkPlugin.Runs.Shift
import ForkPlugin.Runs.Wrap
import ForkPlugin.Runs.Hour
import ForkPlugin.Runs.Threads
import ForkPlugin.Runs.Reentrant
import ForkPlugin.Runs.Reconfigure
import ForkPlugin.Runs.Held
import ForkPlugin.Runs.Quiescent
import ForkPlugin.Machine.Subscripts
import ForkPlugin.Ports.WinEvent
import ForkPlugin.Ports.Request
import ForkPlugin.Runs.InRange
import ForkPlugin.Ports.EntryPoints
import ForkPlugin.Ports.Driver
import ForkPlugin.Ports.HotKeys
import ForkPlugin.Ports.Sessions
import ForkPlugin.Lib.Stores
import ForkPlugin.Ports.Parameters
import ForkPlugin.Machine.Construct
import ForkPlugin.Runs.Fresh
import ForkPlugin.Runs.Balance
import ForkPlugin.Runs.Latency
import ForkPlugin.Runs.Bound
import ForkPlugin.Machine.Orderly
import ForkPlugin.Ports.Plugin
import ForkPlugin.Ports.Filter
import ForkPlugin.Ports.Restart
import ForkPlugin.Ports.Connect
import ForkPlugin.Ports.Libinput
import ForkPlugin.Runs.Local
import ForkPlugin.Runs.Renew
import ForkPlugin.Runs.Force
import ForkPlugin.Runs.Limits
