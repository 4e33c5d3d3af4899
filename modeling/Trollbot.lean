import Trollbot.ArraySizes
import Trollbot.Atoi
import Trollbot.BanList
import Trollbot.Bindings
import Trollbot.Blowfish
import Trollbot.Boards
import Trollbot.Botnick
import Trollbot.Channel
import Trollbot.ChannelFile
import Trollbot.ChannelNames
import Trollbot.CleanReads
import Trollbot.CommandBinds
import Trollbot.ConfigEngine
import Trollbot.ConfigReads
import Trollbot.DccCommand
import Trollbot.DccIds
import Trollbot.DccLogin
import Trollbot.DccLookup
import Trollbot.DccOffer
import Trollbot.DccSessions
import Trollbot.DefaultHandlers
import Trollbot.DispatchRule
import Trollbot.EventLoop
import Trollbot.FileRead
import Trollbot.Foundation.BlockHash
import Trollbot.Foundation.CBuffer
import Trollbot.Foundation.Chain
import Trollbot.Foundation.Cursor
import Trollbot.Foundation.Decimal
import Trollbot.Foundation.Disposal
import Trollbot.Foundation.Forest
import Trollbot.Foundation.Framing
import Trollbot.Foundation.Growth
import Trollbot.Foundation.History
import Trollbot.Foundation.Levels
import Trollbot.Foundation.Links
import Trollbot.Foundation.Machine
import Trollbot.Foundation.Options
import Trollbot.Foundation.Paths
import Trollbot.Foundation.Roster
import Trollbot.Foundation.Rounds
import Trollbot.Foundation.Runs
import Trollbot.Foundation.Sweep
import Trollbot.Foundation.Undo
import Trollbot.HandlerEffects
import Trollbot.HashProcess
import Trollbot.HashText
import Trollbot.Hello
import Trollbot.HelloMask
import Trollbot.Ics
import Trollbot.IcsDispatch
import Trollbot.IcsSafety
import Trollbot.IrcLine
import Trollbot.IrcParse
import Trollbot.IrcProto
import Trollbot.IrcScan
import Trollbot.IrcServer
import Trollbot.IrcSlots
import Trollbot.IrcSpacing
import Trollbot.IrcTrigger
import Trollbot.JoinChannels
import Trollbot.LineIn
import Trollbot.LineIsolation
import Trollbot.ListDel
import Trollbot.LogFilter
import Trollbot.Matchattr
import Trollbot.Membership
import Trollbot.ModeArgs
import Trollbot.ModeString
import Trollbot.Modes
import Trollbot.ModesKept
import Trollbot.Names
import Trollbot.Outgoing
import Trollbot.Partyline
import Trollbot.Passwords
import Trollbot.PingPong
import Trollbot.Presence
import Trollbot.Privileges
import Trollbot.PutText
import Trollbot.Rehash
import Trollbot.Reload
import Trollbot.Restart
import Trollbot.ScriptLists
import Trollbot.Sha512
import Trollbot.Slist
import Trollbot.Spelling
import Trollbot.Stackable
import Trollbot.Tconfig
import Trollbot.TconfigAccepted
import Trollbot.TconfigComments
import Trollbot.TconfigCursor
import Trollbot.TconfigFree
import Trollbot.TconfigItems
import Trollbot.TconfigLevel
import Trollbot.TconfigMerge
import Trollbot.TconfigMergeLinks
import Trollbot.TconfigMergeRuns
import Trollbot.TconfigMergeSteps
import Trollbot.TconfigOutline
import Trollbot.TconfigParsed
import Trollbot.TconfigRoundTrip
import Trollbot.TconfigTokens
import Trollbot.Timer
import Trollbot.Topics
import Trollbot.Tracking
import Trollbot.Trigger
import Trollbot.Tssv
import Trollbot.User
import Trollbot.UserFile
import Trollbot.Users
import Trollbot.Util
import Trollbot.WildCursor
import Trollbot.WildLanguage
import Trollbot.WildMasks
import Trollbot.Wildcards
