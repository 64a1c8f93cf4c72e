import ArgoBbs.Consts
import ArgoBbs.Lib.Flags
import ArgoBbs.Lib.Cells
import ArgoBbs.Lib.Crc
import ArgoBbs.Lib.Bytes
import ArgoBbs.Lib.CString
import ArgoBbs.Lib.Fgets
import ArgoBbs.Lib.Tokens
import ArgoBbs.Lib.Terminated
import ArgoBbs.Lib.Lines
import ArgoBbs.Lib.Keyed
import ArgoBbs.Lib.Slots
import ArgoBbs.Lib.Merge
import ArgoBbs.Lib.MarkList
import ArgoBbs.Lib.Reach
import ArgoBbs.Lib.Loop
import ArgoBbs.Lib.Scan
import ArgoBbs.Lib.Window
import ArgoBbs.Lib.Terminal
import ArgoBbs.Lib.Pointers
import ArgoBbs.Lib.Dlist
import ArgoBbs.Lib.Chain
import ArgoBbs.Lib.Heap
import ArgoBbs.Permissions
import ArgoBbs.Sysconf
import ArgoBbs.Record.Deletion
import ArgoBbs.Record.Writers
import ArgoBbs.Record.Conservation
import ArgoBbs.Record.Search
import ArgoBbs.Record.Posting
import ArgoBbs.Board.Digest
import ArgoBbs.Record.Expire
import ArgoBbs.Record.Processing
import ArgoBbs.Record.Substitute
import ArgoBbs.Record.Bisection
import ArgoBbs.Record.Numbering
import ArgoBbs.Record.Append
import ArgoBbs.Record.Access
import ArgoBbs.Bcache
import ArgoBbs.Brc.Marks
import ArgoBbs.Brc.Boardrc
import ArgoBbs.Brc.Safety
import ArgoBbs.Brc.Encoding
import ArgoBbs.Brc.BoardMap
import ArgoBbs.Brc.Refinement
import ArgoBbs.Brc.TwoSessions
import ArgoBbs.Brc.RoundTrip
import ArgoBbs.Brc.Unread
import ArgoBbs.Brc.ClearTo
import ArgoBbs.Board.Filters
import ArgoBbs.Board.NameComplete
import ArgoBbs.Board.NameList
import ArgoBbs.Board.Select
import ArgoBbs.Board.Inboard
import ArgoBbs.Board.Thread
import ArgoBbs.Board.ThreadMarks
import ArgoBbs.Board.Undelete
import ArgoBbs.Board.Ballots
import ArgoBbs.Board.PollValue
import ArgoBbs.Board.VoteLimits
import ArgoBbs.Board.Closing
import ArgoBbs.Board.Filenames
import ArgoBbs.Board.ListPage
import ArgoBbs.Board.ListReader
import ArgoBbs.Board.Locate
import ArgoBbs.Board.ListSafety
import ArgoBbs.Mail.Quota
import ArgoBbs.Mail.Mailbox
import ArgoBbs.Mail.StoredSize
import ArgoBbs.Mail.Chkmail
import ArgoBbs.Mail.Sendmail
import ArgoBbs.Mail.SmtpBody
import ArgoBbs.User.MultiLogin
import ArgoBbs.User.OnlineTable
import ArgoBbs.User.UlistScan
import ArgoBbs.User.UserComplete
import ArgoBbs.User.Passfile
import ArgoBbs.User.Register
import ArgoBbs.User.Netid
import ArgoBbs.User.Activation
import ArgoBbs.Board.CheckBm
import ArgoBbs.Board.TextSearch
import ArgoBbs.Slist.Strings
import ArgoBbs.Slist.File
import ArgoBbs.Slist.Iterate
import ArgoBbs.Slist.Edit
import ArgoBbs.Chat.State
import ArgoBbs.Chat.Messages
import ArgoBbs.Chat.Rooms
import ArgoBbs.Chat.Commands
import ArgoBbs.Chat.Server
import ArgoBbs.Chat.Effects
import ArgoBbs.Chat.Occupancy
import ArgoBbs.Chat.Framing
import ArgoBbs.Chat.Moves
import ArgoBbs.Chat.Rights
import ArgoBbs.Chat.Names
import ArgoBbs.Chat.Client
import ArgoBbs.Chat.Lookup
import ArgoBbs.Chat.Cloak
import ArgoBbs.Chat.Concealment
import ArgoBbs.Chat.Hiding
import ArgoBbs.Announce.Paste
import ArgoBbs.Announce.Index
import ArgoBbs.Announce.Managers
import ArgoBbs.Sendmsg
import ArgoBbs.More
import ArgoBbs.More.Segments
import ArgoBbs.More.Preview
import ArgoBbs.Screen.State
import ArgoBbs.Screen.Refresh
import ArgoBbs.Screen.Picture
import ArgoBbs.Screen.Outns
import ArgoBbs.Edit.Textline
import ArgoBbs.Edit.Buffer
import ArgoBbs.Edit.Keys
import ArgoBbs.Lib.Walk
import ArgoBbs.Lib.Preorder
import ArgoBbs.Lib.Numbers
import ArgoBbs.Mail.NewMail
import ArgoBbs.Mail.Pop3
import ArgoBbs.Mail.Maildrop
import ArgoBbs.Record.Moving
import ArgoBbs.Record.Removing
import ArgoBbs.Board.PostCount
import ArgoBbs.Lib.Dwindling
import ArgoBbs.Record.Expiry
import ArgoBbs.Shm
import ArgoBbs.Board.KeywordQuery
import ArgoBbs.Sysconf.Encoding
import ArgoBbs.Menu
import ArgoBbs.Sysconf.Limits
import ArgoBbs.Board.PostStat
import ArgoBbs.Lib.Lookahead
import ArgoBbs.Screen.Output
import ArgoBbs.Lib.Telnet
import ArgoBbs.Screen.Igetch
import ArgoBbs.Screen.Conversion
import ArgoBbs.Edit.Joining
import ArgoBbs.Edit.Typing
import ArgoBbs.Edit.Autolf
import ArgoBbs.Lib.StringBuffer
import ArgoBbs.Lib.LineEditor
import ArgoBbs.Screen.Getdata
import ArgoBbs.Screen.Multiline
import ArgoBbs.Screen.MultiGetdata
import ArgoBbs.Board.Boardlevel
import ArgoBbs.HostList
import ArgoBbs.User.Lockscreen
import ArgoBbs.User.RegisterForms
import ArgoBbs.User.Uinfo
import ArgoBbs.Chat.ColourCodes
import ArgoBbs.Chat.FuzzySearch
import ArgoBbs.Lib.Directories
import ArgoBbs.User.Renaming
import ArgoBbs.Board.ManagerNames
import ArgoBbs.Board.Ordain
import ArgoBbs.Zmodem.Crc
import ArgoBbs.Zmodem.Escape
import ArgoBbs.Zmodem.Data
import ArgoBbs.Zmodem.Header
import ArgoBbs.Zmodem.Raw
import ArgoBbs.Zmodem.Transfer
import ArgoBbs.Lib.Probing
import ArgoBbs.News.Dbz
import ArgoBbs.News.Sizes
import ArgoBbs.News.History
import ArgoBbs.Lib.HalfClose
import ArgoBbs.Ssh.Nchan
import ArgoBbs.Ssh.Teardown
