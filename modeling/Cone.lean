import Cone.Ctype
import Cone.Encode
import Cone.Cdecode
import Cone.EncodeSpec
import Cone.TransferRoundTrip
import Cone.Lib.PushParser
import Cone.Rfc3676Parser
import Cone.FlowedText
import Cone.Rfc3676Peel
import Cone.Rfc3676Reading
import Cone.Lib.Trim
import Cone.Rfc2045Reply
import Cone.ReplyLines
import Cone.ReplyRoundTrip
import Cone.Rfc2045Header
import Cone.Rfc2045Parse
import Cone.Rfc2231
import Cone.Rfc2231Fragments
import Cone.Rfc2231Header
import Cone.Rfc2231RoundTrip
import Cone.Rfc2047Decode
import Cone.Rfc2047Encode
import Cone.Rfc2047RoundTrip
import Cone.Maildiraclt
import Cone.MaildiracltRights
import Cone.MaildiracltFile
import Cone.MaildiracltReread
import Cone.Maildirquota
import Cone.MaildirquotaLog
import Cone.Utf7
import Cone.Utf7RoundTrip
import Cone.Lib.LinkedList
import Cone.Maildirkeywords
import Cone.MaildirkeywordsLinks
import Cone.MaildirkeywordsLists
import Cone.MaildirkeywordsClear
import Cone.MaildirkeywordsFind
import Cone.MaildirkeywordsTable
import Cone.Maildirkeywords2
import Cone.Maildirkeywords2Export
import Cone.Maildirkeywords2Import
import Cone.Maildirkeywords2RoundTrip
import Cone.Lib.HeldBack
import Cone.UnicodeTablookup
import Cone.Wordbreak
import Cone.WordbreakRules
import Cone.WordbreakScan
import Cone.Lib.ClassLanguage
import Cone.Linebreak
import Cone.LinebreakNumber
import Cone.LinebreakRules
import Cone.LinebreakSteps
import Cone.LinebreakHandlers
import Cone.LinebreakText
import Cone.Lib.Ranges
import Cone.Nntpnewsrc
import Cone.NntpnewsrcMarks
import Cone.NntpnewsrcRuns
import Cone.Lib.Borders
import Cone.Maildirfilter
import Cone.Maildirsearch
import Cone.MaildirfilterList
import Cone.MaildirfilterRuns
import Cone.Tlspasswordcache
import Cone.TlspasswordcacheStrings
import Cone.TlspasswordcacheRoundTrip
import Cone.Mbox
import Cone.MboxReaders
import Cone.Lib.Budget
import Cone.Spf
import Cone.SpfLimit
import Cone.Lib.Checked
import Cone.Rfc1035Reply
import Cone.Lib.WireNames
import Cone.Rfc1035Uncompress
import Cone.Rfc1035Safety
import Cone.Lib.HostNames
import Cone.Rfc1035Query
import Cone.Rfc1035Names
import Cone.Rfc1035RoundTrip
import Cone.Lib.Renumber
import Cone.MyFolder
import Cone.GenericRemove
import Cone.MyFolderRuns
import Cone.GenericRemoveOutcome
import Cone.ImapBodystructure
import Cone.ImapBodystructureTree
import Cone.ImapBodystructureFill
import Cone.SearchMessages
import Cone.SearchMessagesRuns
import Cone.ImapFolder
import Cone.Lib.Invariants
import Cone.ImapFolderRuns
import Cone.CopyMessages
import Cone.CopyMessagesRuns
import Cone.ImapSearch
import Cone.ImapSearchAgrees
import Cone.Imapsubj
import Cone.ImapsubjAgrees
import Cone.NntpReopen
import Cone.CdecodeFailures
import Cone.CdecodeLines
import Cone.CdecodeSplits
import Cone.EncodeLines
import Cone.Rfc2047Words
import Cone.Lib.Slots
import Cone.Rfc822Mkdate
import Cone.Rfc822ParsedtReads
import Cone.Rfc822Parseaddr
import Cone.Rfc822ParseaddrPhrases
import Cone.CdecodeClients
import Cone.Rfc2045Tryboundary
import Cone.Rfc2045TryboundaryRaw
import Cone.MaildiracltAdd
import Cone.MaildirkeywordsUndo
import Cone.MaildirsearchChset
import Cone.Rfc1035An
import Cone.Rfc1035Qa
import Cone.Rfc2045ReplySalutation
import Cone.Rfc3676Nonflowed
import Cone.Lib.Sift
import Cone.Rfc2045ReplyAddresses
import Cone.Rfc3676Rewrap
import Cone.Smap
import Cone.SmapBlocks
import Cone.SmapMsgrange
import Cone.SmapReads
import Cone.FolderUpdates
import Cone.ImaprefsSort
import Cone.Lib.Istream
import Cone.MyFolderReferences
import Cone.MyFolderSnapshot
import Cone.SearchParams
import Cone.TlspasswordcacheEvp
import Cone.Lib.ByteBits
import Cone.Lib.StrictWeak
import Cone.MyFolderSort
import Cone.MyFolderThread
import Cone.SpfCidr
import Cone.SpfCompute
import Cone.Lib.ByteFile
import Cone.Tlscache
import Cone.TlscacheRing
import Cone.TlscacheAdd
import Cone.TlscacheRuns
import Cone.SpfExpand
import Cone.SpfMacros
import Cone.TlscacheHistory
import Cone.Smap
import Cone.SmapBlocks
import Cone.NntpXpat
import Cone.Lib.DotStuffing
import Cone.MessagePump
import Cone.Lib.SequenceSet
import Cone.ImapMessagecmd
import Cone.NntpXover
import Cone.SmapPaths
import Cone.HeaderFolding
import Cone.ImapUpdateFlags
import Cone.Lib.Leftover
import Cone.TransferDecoders
import Cone.ImapparsefmtReads
import Cone.ImapHandler
import Cone.ImapHandlerRuns
import Cone.LoginUrl
import Cone.TextAttributes
import Cone.EditMessage
import Cone.WideChar
import Cone.EditMessageSearch
import Cone.EditMessageOccurrences
import Cone.CursesEdit
import Cone.CursesEditAutosave
import Cone.UnicodeWordwrap
import Cone.HtmlLinebuf
import Cone.Justify
import Cone.NntpFetch
import Cone.Lib.SiblingForest
import Cone.Imaprefs
