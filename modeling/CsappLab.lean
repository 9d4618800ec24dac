import CsappLab.Malloc.Capacity
import CsappLab.Malloc.Undo
import CsappLab.Malloc.Boundary
import CsappLab.Malloc.Check
import CsappLab.Malloc.Replay
import CsappLab.Shell.JobIds
import CsappLab.Shell.Reaping
import CsappLab.Shell.Consistency
import CsappLab.Csim.Lru
import CsappLab.Proxy.Hit
import CsappLab.Proxy.Insert
import CsappLab.Proxy.Forward
import CsappLab.Proxy.Response
import CsappLab.Proxy.Alone
import CsappLab.Arc.DnsLock
import CsappLab.Arc.Uri
import CsappLab.Arc.Rio
import CsappLab.Arc.Request
import CsappLab.Arc.Response
import CsappLab.Malloc.Links
import CsappLab.Rio.Readline
import CsappLab.Rio.Unbuffered
import CsappLab.Conc.Sbuf
import CsappLab.Conc.Echo
import CsappLab.Conc.Counters
import CsappLab.Conc.ReadersWriters
import CsappLab.Conc.Prodcons
import CsappLab.Conc.Norace
import CsappLab.Bits.FloatOps
import CsappLab.Bits.Puzzles
import CsappLab.Trans.Transpose
import CsappLab.Csim.Ties
import CsappLab.Csim.Trace
import CsappLab.Proxy.UriBuffers
import CsappLab.Shell.Quoting
import CsappLab.Shell.BgFg
import CsappLab.Shell.Eval
import CsappLab.Shell.Signals
import CsappLab.Mdriver.Mm
import CsappLab.Implicit.Util
