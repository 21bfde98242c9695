import Synchronet.Lib.Words
import Synchronet.Lib.RecordFile
import Synchronet.Lib.LittleEndian
import Synchronet.Lib.FirstFit
import Synchronet.Lib.BoundedHistory
import Synchronet.Lib.Bisect
import Synchronet.Lib.Extents
import Synchronet.Lib.RefCount
import Synchronet.Lib.Cyclic
import Synchronet.Lib.Buffer
import Synchronet.Lib.Table
import Synchronet.Lib.SiblingTree
import Synchronet.Lib.Transducer
import Synchronet.Lib.Stream
import Synchronet.Smblib.Defs
import Synchronet.Smblib.Alloc
import Synchronet.Smblib.Message
import Synchronet.Smblib.CrcHistory
import Synchronet.Smblib.HeaderFile
import Synchronet.Smblib.Index
import Synchronet.Smblib.Hash
import Synchronet.Smblib.HashDuplicates
import Synchronet.Smblib.AddHeader
import Synchronet.Smblib.IndexRuns
import Synchronet.Smblib.HeaderBlocks
import Synchronet.Smblib.AddMessage
import Synchronet.Smblib.Atomicity
import Synchronet.Smblib.DataRefs
import Synchronet.Smblib.DataRuns
import Synchronet.Smblib.FreeMessage
import Synchronet.Smblib.Crc
import Synchronet.Encode.Lzh
import Synchronet.Encode.LzhTree
import Synchronet.Encode.LzhDecode
import Synchronet.Smblib.Text
import Synchronet.Smblib.StoredText
import Synchronet.Smblib.TextSafe
import Synchronet.Smblib.ThreadWalk
import Synchronet.Smblib.TimeSearch
import Synchronet.Sbbs3.Ars
import Synchronet.Sbbs3.ArStr
import Synchronet.Sbbs3.ArsMeaning
import Synchronet.Sbbs3.UserArs
import Synchronet.Sbbs3.ArBounds
import Synchronet.Sbbs3.RingBuf
import Synchronet.Sbbs3.ZmodemLine
import Synchronet.Sbbs3.ZmodemData
import Synchronet.Sbbs3.ZmodemHeader
import Synchronet.Sbbs3.ZmodemHeaderCheck
import Synchronet.Sbbs3.ZmodemHeaderLine
import Synchronet.Sbbs3.FileDatRuns
import Synchronet.Sbbs3.UserRoundTrip
import Synchronet.Sbbs3.LoginAttempts
import Synchronet.Sbbs3.MailDecode
import Synchronet.Sbbs3.MailDelivery
import Synchronet.Sbbs3.TelnetItems
import Synchronet.Sbbs3.PostData
import Synchronet.Sbbs3.WebRequest
import Synchronet.Sbbs3.WebRange
import Synchronet.Sbbs3.WebDigest
import Synchronet.Sbbs3.QwkRoundTrip
import Synchronet.Sbbs3.MailText
import Synchronet.Sbbs3.GenPsb
import Synchronet.Sbbs3.EchoPacket
import Synchronet.Sbbs3.PktHdr
import Synchronet.Sbbs3.UserRec
import Synchronet.Sbbs3.FmsgBounds
import Synchronet.Sbbs3.GetMsgNum
import Synchronet.Xpdev.XpPrintfRuns
import Synchronet.Xpdev.LinkListBulk
import Synchronet.Xpdev.MsgQueueRuns
import Synchronet.Xpdev.IniLookup
import Synchronet.Xpdev.IniSet
import Synchronet.Xpdev.IniLocal
import Synchronet.Xpdev.WildMatch
import Synchronet.Xpdev.FullPath
import Synchronet.Xpdev.StrList
import Synchronet.Xpdev.StrBlock
import Synchronet.Encode.Base64
import Synchronet.Sbbs3.ChatPass
import Synchronet.Sbbs3.Templates
import Synchronet.Sbbs3.ArThreshold
import Synchronet.Sbbs3.ArCapacity
import Synchronet.Smblib.FidoAddress
import Synchronet.Sbbs3.MsgDate
import Synchronet.Encode.YEnc
import Synchronet.Xpdev.CEscape
import Synchronet.Sbbs3.MsgToQwk
import Synchronet.Sbbs3.QwkRoute
import Synchronet.Sbbs3.QwkImport
import Synchronet.Sbbs3.WordWrap
import Synchronet.Sbbs3.WordWrapText
import Synchronet.Xpdev.XpDateTime
import Synchronet.Encode.Utf8
import Synchronet.Sbbs3.XmodemTransfers
import Synchronet.Sbbs3.BajaRuns
import Synchronet.Sbbs3.BajaStacks
import Synchronet.Sbbs3.CrcBursts
import Synchronet.Sbbs3.ConOut
import Synchronet.Sbbs3.ShortMessages
