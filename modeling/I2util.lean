import I2util.Conf.ConfFile
import I2util.Conf.Sentinel
import I2util.Conf.KeyLines
import I2util.Conf.PFLines
import I2util.Conf.Numbers
import I2util.Conf.ConfComment
import I2util.Conf.PFBuffer
import I2util.Store.Lookup
import I2util.Store.CopyEnd
import I2util.Store.Insertion
import I2util.Table.Refine
import I2util.Table.Steps
import I2util.Table.Counter
import I2util.Table.Owned
import I2util.Tools.Leftover
import I2util.Tools.Visible
import I2util.Tools.Committed
import I2util.Tools.Untouched
import I2util.Tools.LockName
import I2util.Hash.HmacCalls
import I2util.Hash.Pbkdf2Count
import I2util.Hash.HmacStandard
import I2util.Library.Sines
import I2util.Hash.Md5Blocks
import I2util.Log.Immediate
import I2util.Tools.Exclusion
import I2util.Tools.PassPhrase
import I2util.Tools.History
import I2util.Tools.Linear
import I2util.Addr.Equal
import I2util.Addr.Normal
import I2util.Addr.PortOnly
import I2util.Addr.Setters
import I2util.Addr.Copy
import I2util.Addr.ByNode
import I2util.Addr.Owned
import I2util.Io.Transfer
import I2util.Io.Random
import I2util.Log.Syslog
import I2util.Log.SyslogNames
import I2util.Log.Sessions
import I2util.Log.ErrText
import I2util.Log.Mutex
import I2util.Log.SysErrList
import I2util.Log.Conversions
import I2util.Term.PassRestore
import I2util.Conf.SharedBuffer
import I2util.Conf.HexMemory
