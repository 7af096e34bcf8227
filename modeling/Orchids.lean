import Orchids.Compiler.Actions
import Orchids.Engine.Inject
import Orchids.Engine.Events
import Orchids.Engine.Queues
import Orchids.Engine.Records
import Orchids.Engine.SyncVal
import Orchids.Engine.Dead
import Orchids.Engine.Core
import Orchids.Engine.Locks
import Orchids.Compiler.RuleCompiler
import Orchids.Engine.Branches
import Orchids.Engine.Termination
import Orchids.Engine.Fields
import Orchids.Compiler.Isolation
import Orchids.Engine.Counters
import Orchids.Ovm.Accesses
import Orchids.Engine.Scoping
import Orchids.Engine.Borrowed
import Orchids.Compiler.NullReads
import Orchids.Compiler.Room
import Orchids.Compiler.Tables
import Orchids.Compiler.Jumps
import Orchids.Compiler.Truth
import Orchids.Compiler.Operands
import Orchids.Lang.Convention
import Orchids.EvtMgr.Timed
import Orchids.Compiler.Resources
import Orchids.Lang.Concat
import Orchids.Api.Dispatch
import Orchids.EvtMgr.Inputs
import Orchids.Cfg.Includes
import Orchids.Mod.Framing
import Orchids.Mod.TextFile
import Orchids.Mod.Polling
import Orchids.Mod.SharedMap
import Orchids.Api.Posting
import Orchids.Mod.GenericConfig
import Orchids.Mod.SnareTokens
import Orchids.Mod.Wifi
import Orchids.Lib.InPlace
import Orchids.Mod.AuditdScan
import Orchids.Mod.AuditdKeywords
import Orchids.Mod.AuditdTokens
import Orchids.Mod.GenericBounds
import Orchids.Mod.RawSnare
import Orchids.Lib.Siblings
import Orchids.Engine.InstanceTree
import Orchids.Util.Hash
import Orchids.Util.HashResize
import Orchids.Cfg.Lines
import Orchids.Lib.Lexer
import Orchids.Compiler.Literals
import Orchids.Engine.SyncKeys
import Orchids.Compiler.Regsplit
import Orchids.Mod.Delivery
import Orchids.Engine.Kills
import Orchids.Mod.Netfilter
import Orchids.Util.Crc32
import Orchids.EvtMgr.RtActions
import Orchids.Util.ListSort
import Orchids.Util.Fnmatch
import Orchids.Util.Scans
import Orchids.Util.Queue
import Orchids.Lib.Ring
import Orchids.Util.RingQueue
import Orchids.Util.Reading
import Orchids.Mod.SyslogDate
import Orchids.Mod.SyslogLine
import Orchids.Mod.SyslogForm
import Orchids.Mod.NetfilterLines
import Orchids.Mod.NetfilterKept
import Orchids.Mod.NetfilterGrammar
import Orchids.Ovm.Insns
import Orchids.Compiler.Flags
import Orchids.Engine.Executions
import Orchids.Engine.Reuse
import Orchids.Ovm.Objects
import Orchids.Ovm.Releases
import Orchids.Compiler.Objects
