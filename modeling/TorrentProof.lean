import TorrentProof.Bytes
import TorrentProof.Traced
import TorrentProof.Framing
import TorrentProof.CText
import TorrentProof.MsgProtocol
import TorrentProof.MsgDecode
import TorrentProof.Dispatch
import TorrentProof.MsgEncode
import TorrentProof.Overlay
import TorrentProof.TrackerBody
import TorrentProof.Decimal
import TorrentProof.Bencode
import TorrentProof.BeNode
import TorrentProof.TrackerPeers
import TorrentProof.ReadMetafile
import TorrentProof.MetafileRun
import TorrentProof.MetafileInfo
import TorrentProof.MsgRoundTrip
import TorrentProof.Receive
import TorrentProof.ReceiveStream
import TorrentProof.HaveBranch
import TorrentProof.BlockStore
import TorrentProof.Connect
import TorrentProof.Gating
import TorrentProof.PollSet
import TorrentProof.Footprint
import TorrentProof.HaveAnswer
import TorrentProof.ServeRequest
import TorrentProof.Indexing
import TorrentProof.Insertion
import TorrentProof.Reassembly
import TorrentProof.MetafileFields
import TorrentProof.TrackerErrors
import TorrentProof.AnnounceUrl
import TorrentProof.PeerSetup
import TorrentProof.PollRound
import TorrentProof.PeerRead
import TorrentProof.FileList
import TorrentProof.MetafileErrors
import TorrentProof.Fuelled
import TorrentProof.Numerals
import TorrentProof.BeDecode
import TorrentProof.BeFree
import TorrentProof.BeDecodeRun
import TorrentProof.BeSpelling
import TorrentProof.BeDecodeSafe
import TorrentProof.BeEncodeSize
import TorrentProof.DecodeCalls
import TorrentProof.DecodedFile
import TorrentProof.Program
import TorrentProof.KeyedAssign
import TorrentProof.BItem
import TorrentProof.ItemDecoder
import TorrentProof.ItemSpelling
import TorrentProof.BencodeAgreement
