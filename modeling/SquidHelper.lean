import SquidHelper.Lib.Guarded
import SquidHelper.Lib.Fifo
import SquidHelper.Lib.Atomic
import SquidHelper.Lib.Monitor
import SquidHelper.Lib.CString
import SquidHelper.Lib.LinkedList
import SquidHelper.Lib.Lines
import SquidHelper.Lib.Memory
import SquidHelper.Lib.History
import SquidHelper.Lib.Format
import SquidHelper.Lib.LdapFilter
import SquidHelper.Lib.Tokens
import SquidHelper.Lib.Slots
import SquidHelper.Lib.Ring
import SquidHelper.Queue
import SquidHelper.Buffer
import SquidHelper.Stdin
import SquidHelper.Request
import SquidHelper.Worker
import SquidHelper.Helper
import SquidHelper.Threads
import SquidHelper.Terminators
import SquidHelper.Hooks
import SquidHelper.Answers
import SquidHelper.Deaths
import SquidHelper.Shutdown
import SquidHelper.Blocking
import SquidHelper.TxtFile
import SquidHelper.Reload
import SquidHelper.Watch
import SquidHelper.Layout
import SquidHelper.Verdict
import SquidHelper.Memcached
import SquidHelper.Framing
import SquidHelper.Truncate
import SquidHelper.Buffers
import SquidHelper.Decision
import SquidHelper.Provenance
import SquidHelper.Accounting
import SquidHelper.Address
import SquidHelper.HostsLines
import SquidHelper.Stdout
import SquidHelper.Config
import SquidHelper.ActiveDirectory
import SquidHelper.Site
import SquidHelper.Service
import SquidHelper.Servers
import SquidHelper.Plugins
import SquidHelper.OptionTable
import SquidHelper.StartUp
